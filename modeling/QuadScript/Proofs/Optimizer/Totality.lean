import QuadScript.Optimizer.Basic
import QuadScript.Proofs.Optimizer.DeadTemps
import QuadScript.Proofs.Optimizer.Fold
import QuadScript.Proofs.Optimizer.Propagate
import QuadScript.Proofs.Temporaries

/-!
# When the optimizer succeeds

On tame code whose constants are of a closed class every pass goes through, and its result is tame with constants of
that class again (`Code.Tame.exists_pass`), so the optimizer succeeds. All integers that fit into a double are such a
class. An integer beyond them is folded even where it is never computed with, and makes the optimizer fail.
-/

namespace QuadScript

open Machine

namespace Code

variable {code code' : Code} {N : Number → Prop}

namespace Tame

theorem renumber (ht : code.Tame N) : code.renumber.Tame N where
  operands := lockstep_renumber.forall_mem ht.operands fun i q q' _ h hq => by rw [h]; exact hq
  targets := lockstep_renumber.forall_mem ht.targets fun i q q' _ h hq => by rw [h]; exact hq
  once := lockstep_renumber.tempsOnce (fun i q q' h => by rw [h]) ht.once
  writers := lockstep_renumber.forall_mem ht.writers fun i q q' _ h hq => by rw [h]; exact hq

theorem exists_propagate (ht : code.Tame N) : ∃ r, code.propagate = .ok r ∧ r.1.Tame N := by
  obtain ⟨⟨code', changed⟩, hr⟩ : ∃ r, code.propagate = .ok r := exists_propagateFrom ht.targets
  obtain ⟨F, hF⟩ := exists_scan hr
  exact ⟨_, hr, hF.tame ht⟩

theorem exists_fold (ht : code.Tame N) (hN : Number.Closed N) : ∃ r, code.fold = .ok r ∧ r.1.Tame N := by
  obtain ⟨⟨code', changed⟩, hr⟩ := Code.exists_fold hN ht.operands
  exact ⟨_, hr, (foldsTo_of_fold hr).tame hN ht⟩

theorem exists_pass (ht : code.Tame N) (hN : Number.Closed N) : ∃ r, code.pass = .ok r ∧ r.1.Tame N := by
  obtain ⟨r₁, hr₁, ht₁⟩ := ht.exists_propagate
  obtain ⟨r₂, hr₂, ht₂⟩ := ht₁.exists_fold hN
  refine ⟨(r₂.1.live, r₁.2 || r₂.2 || r₂.1.dropDead.2), ?_, ht₂.live⟩
  unfold pass
  rw [hr₁]
  change (r₁.1.fold >>= fun r => _) = _
  rw [hr₂]
  rfl

theorem exists_passes (n : Nat) (ht : code.Tame N) (hN : Number.Closed N) :
    ∃ code', passes n code = .ok code' ∧ code'.Tame N := by
  induction n generalizing code with
  | zero => exact ⟨code, rfl, ht⟩
  | succ n ih =>
    obtain ⟨⟨code₁, changed⟩, hr, ht₁⟩ := ht.exists_pass hN
    rw [passes, hr]
    cases changed with
    | false => exact ⟨code₁, rfl, ht₁⟩
    | true => exact ih ht₁

theorem exists_optimize (ht : code.Tame N) (hN : Number.Closed N) (maxPasses : Int) :
    ∃ code', code.optimize maxPasses = .ok code' ∧ code'.Tame N := by
  obtain ⟨code', hcode', ht'⟩ := ht.exists_passes maxPasses.toNat hN
  refine ⟨code'.renumber, ?_, ht'.renumber⟩
  unfold optimize
  rw [hcode']
  rfl

end Tame

end Code

/-! ### Programs -/

/-- The optimizer succeeds on every program whose integers fit into a double, however many passes it makes. -/
theorem Node.exists_optimize_of_fits {n : Node} {l : Lowered Unit} (hplain : n.Plain Number.Fits) (hl : n.lower = .ok l)
    (maxPasses : Int) : ∃ code, l.code.optimize maxPasses = .ok code := by
  have hone : (Number.int 1).Fits := Number.closed_fits.exact (by unfold Number.Exact; decide)
  obtain ⟨c, hc, htame⟩ := tame_of_lower hone hplain hl
  have htame' : l.code.Tame Number.Fits := hc ▸ htame.renumber
  obtain ⟨code, hcode, -⟩ := htame'.exists_optimize Number.closed_fits maxPasses
  exact ⟨code, hcode⟩

/-- A function that is never called and multiplies an integer by a double. -/
def uncalledProgram (i : Int) (x : Float) : Node := .bare (.program [
  .bare (.function (.named "f") [] (.bare (.block [
    .bare (.return (.binary "*" (.int i) (.bare (.literal false (.num (.float x))))))]))),
  .bare (.expression (.print [.bare (.literal false (.str "a"))]))])

def uncalledCode (i : Int) (x : Float) : Code := Code.renumber [
  Quad.goto "END_FUNC_f", Quad.label "FUNC_f",
  Quad.operator (.binary .mul) (.num (.int i)) (.num (.float x)) "t0", Quad.ret (.name "t0"),
  Quad.ret void, Quad.label "END_FUNC_f",
  Quad.param (.text "a"), Quad.call "console_log" 1 .none]

theorem uncalledProgram_lower (i : Int) (x : Float) :
    (uncalledProgram i x).lower = .ok ⟨(), uncalledCode i x, { temps := 1, functions := ["f"] }⟩ := by
  cbv

theorem uncalledProgram_plain {N : Number → Prop} {i : Int} {x : Float} (hi : N (.int i)) (hx : N (.float x)) :
    (uncalledProgram i x).Plain N := by
  simp [uncalledProgram, Node.bare, Node.named, Node.int, Node.binary, Node.print, Node.Plain, Form.Plain,
    Node.PlainList, Mark.Plain, Param.Plain, Tree.Scalar, hi, hx]

/-- The greatest integer that fits. -/
theorem Node.exists_optimize_of_fits_greatest :
    (uncalledProgram (Double.overflow - 1 : Nat) 0.5).Plain Number.Fits ∧
      ∃ code, (uncalledCode (Double.overflow - 1 : Nat) 0.5).optimize 10 = .ok code := by
  have hfits : (Number.int (Double.overflow - 1 : Nat)).Fits := Nat.sub_one_lt Double.overflow_pos.ne'
  have hplain := uncalledProgram_plain (x := 0.5) hfits trivial
  exact ⟨hplain, exists_optimize_of_fits hplain (uncalledProgram_lower _ _) 10⟩

/-! ### Integers that do not fit -/

theorem folded?_of_not_fits {i : Int} (hi : ¬(Number.int i).Fits) (x : Float) :
    (Operator.binary .mul).folded? (.num (.int i)) (.num (.float x)) = .error .integerTooLarge := by
  change ((BinaryOp.mul.eval (.num (.int i)) (.num (.float x)) >>= fun v => _) >>= fun c => _) = _
  rw [BinaryOp.mul_of_not_fits hi x]
  rfl

theorem Code.fold_eq_error (pre : Code) {post : Code} {q : Quad} {f : Fault} (hpre : ∃ r, pre.fold = .ok r)
    (hq : q.fold? = .error f) : (pre ++ q :: post).fold = .error f := by
  induction pre with
  | nil =>
    rw [List.nil_append, fold_cons, hq]
    rfl
  | cons q' pre ih =>
    obtain ⟨r, hr⟩ := hpre
    rw [fold_cons] at hr
    obtain ⟨f', hf', hr⟩ := except_bind_eq_ok hr
    obtain ⟨r', hr', -⟩ := except_bind_eq_ok hr
    rw [List.cons_append, fold_cons, hf', except_ok_bind, ih ⟨r', hr'⟩]
    rfl

theorem fold_uncalled {i : Int} (hi : ¬(Number.int i).Fits) (x : Float) :
    (uncalledCode i x).fold = .error .integerTooLarge := by
  refine Code.fold_eq_error ((uncalledCode i x).take 2) ⟨_, rfl⟩ ?_
  change ((Operator.binary .mul).folded? (.num (.int i)) (.num (.float x)) >>= fun c => _) = _
  rw [folded?_of_not_fits hi x]
  rfl

/-- The optimizer fails on an integer that does not fit, though it is never computed with. -/
theorem optimize_uncalled {i : Int} (hi : ¬(Number.int i).Fits) (x : Float) {maxPasses : Int} (h : 0 < maxPasses) :
    (uncalledCode i x).optimize maxPasses = .error .integerTooLarge := by
  obtain ⟨n, hn⟩ : ∃ n, maxPasses.toNat = n + 1 := ⟨maxPasses.toNat - 1, by omega⟩
  have hpropagate : (uncalledCode i x).propagate = .ok (uncalledCode i x, false) := rfl
  have hpass : (uncalledCode i x).pass = .error .integerTooLarge := by
    unfold Code.pass
    rw [hpropagate, except_ok_bind]
    dsimp only
    rw [fold_uncalled hi x]
    rfl
  unfold Code.optimize
  rw [hn, Code.passes, hpass]
  rfl

theorem Node.not_exists_optimize :
    (uncalledProgram (10 ^ 400 : Nat) 0.5).Plain (fun _ => True) ∧
    (uncalledProgram (10 ^ 400 : Nat) 0.5).lower =
      .ok ⟨(), uncalledCode (10 ^ 400 : Nat) 0.5, { temps := 1, functions := ["f"] }⟩ ∧
    (run (uncalledCode (10 ^ 400 : Nat) 0.5) 100 (.scripted [])).output = ["a"] ∧
    (uncalledCode (10 ^ 400 : Nat) 0.5).optimize 10 = .error .integerTooLarge := by
  have hlarge : ¬(Number.int (10 ^ 400 : Nat)).Fits := Nat.not_lt.2 (by decide +kernel)
  exact ⟨uncalledProgram_plain trivial trivial, uncalledProgram_lower _ _, by decide +kernel,
    optimize_uncalled hlarge 0.5 (by decide)⟩

end QuadScript
