import QuadScript.Optimizer.Basic
import QuadScript.Proofs.Emitted
import QuadScript.Proofs.Optimizer.Fold
import QuadScript.Proofs.Optimizer.Propagate
import Mathlib.Order.Monotone.Basic

/-!
# What the optimizer leaves in place

Whatever the optimizer does to code, it rewrites some instructions where they stand (`Quad.Rewrites`) and drops some
that only compute (`Quad.Computes`). `Code.Thins code code'` is that relation: it holds from the code to itself, it
composes, and each of the three rewrites of a pass is a case of it. Nothing is moved, and what is no computation
stays (`Thins.exists_place`).
-/

namespace QuadScript

/-- An operand stays, or is replaced by a constant. -/
def Operand.Becomes (a b : Operand) : Prop := b = a ∨ b.isLiteral = true

theorem Operand.Becomes.trans {a b c : Operand} (h : a.Becomes b) (h' : b.Becomes c) : a.Becomes c := by
  rcases h' with rfl | h'
  · exact h
  · exact .inr h'

namespace Quad

/-- An instruction that does nothing but compute its result. -/
def Computes (q : Quad) : Prop := q.op = .assign ∨ ∃ op, q.op = .operator op

/-- What an instruction may be rewritten to in its place. -/
structure Rewrites (q q' : Quad) : Prop where
  result : q'.result = q.result
  op : q'.op = q.op ∨ q'.op = .assign ∧ ∃ op, q.op = .operator op
  call : q.op = .call → q'.arg1 = q.arg1 ∧ q'.arg2 = q.arg2
  operands : (∀ op, q.op ≠ .operator op) → q.arg1.Becomes q'.arg1 ∧ q.arg2.Becomes q'.arg2

variable {q q' q'' : Quad} {facts : Facts}

namespace Rewrites

theorem refl (q : Quad) : q.Rewrites q := ⟨rfl, .inl rfl, fun _ => ⟨rfl, rfl⟩, fun _ => ⟨.inl rfl, .inl rfl⟩⟩

theorem op_eq (h : q.Rewrites q') (hop : ∀ op, q.op ≠ .operator op) : q'.op = q.op := by
  rcases h.op with heq | ⟨-, op, hq⟩
  · exact heq
  · exact absurd hq (hop op)

theorem trans (h : q.Rewrites q') (h' : q'.Rewrites q'') : q.Rewrites q'' where
  result := h'.result.trans h.result
  op := by
    rcases h.op with heq | ⟨hassign, hq⟩
    · rw [← heq]
      exact h'.op
    · exact .inr ⟨(h'.op_eq (by simp [hassign])).trans hassign, hq⟩
  call hcall := by
    have hq' : q'.op = .call := (h.op_eq (by simp [hcall])).trans hcall
    obtain ⟨h₁, h₂⟩ := h.call hcall
    obtain ⟨h₁', h₂'⟩ := h'.call hq'
    exact ⟨h₁'.trans h₁, h₂'.trans h₂⟩
  operands hop := by
    have hop' : ∀ op, q'.op ≠ .operator op := by rw [h.op_eq hop]; exact hop
    obtain ⟨h₁, h₂⟩ := h.operands hop
    obtain ⟨h₁', h₂'⟩ := h'.operands hop'
    exact ⟨h₁.trans h₁', h₂.trans h₂'⟩

theorem computes_iff (h : q.Rewrites q') : q'.Computes ↔ q.Computes := by
  rcases h.op with heq | ⟨hassign, hop⟩
  · rw [Computes, Computes, heq]
  · exact ⟨fun _ => .inr hop, fun _ => .inl hassign⟩

theorem isCall_iff (h : q.Rewrites q') : q'.op = .call ↔ q.op = .call := by
  rcases h.op with heq | ⟨hassign, op, hop⟩
  · rw [heq]
  · rw [hassign, hop]
    simp

end Rewrites

theorem FoldsTo.rewrites (h : q.FoldsTo q') : q.Rewrites q' := by
  rcases h with rfl | h
  · exact .refl q'
  · obtain ⟨op, a, hop, -, rfl⟩ := fold?_eq_some h
    exact ⟨rfl, .inr ⟨rfl, op, hop⟩, fun hcall => by simp [hop] at hcall, fun hne => absurd hop (hne op)⟩

end Quad

/-! ### Facts are constants -/

theorem Facts.becomes_replace {facts : Facts} (hfacts : ∀ s a, facts.known? s = some a → a.isLiteral = true)
    (a : Operand) : a.Becomes (facts.replace a).1 := by
  cases a with
  | name s =>
    rw [Facts.replace_name]
    cases hs : facts.known? s with
    | none => exact .inl rfl
    | some b => exact .inr (hfacts s b hs)
  | _ => exact .inl rfl

theorem Quad.rewrites_propagate {facts : Facts} (hfacts : ∀ s a, facts.known? s = some a → a.isLiteral = true)
    (q : Quad) : q.Rewrites (q.propagate facts).1 := by
  refine ⟨propagate_result facts q, .inl (propagate_op facts q), fun hcall => ?_, fun _ => ?_⟩
  · simp [propagate, hcall]
  · by_cases hcall : q.op = .call
    · simp [propagate, hcall, Operand.Becomes]
    · simp only [propagate, hcall, ↓reduceIte]
      exact ⟨Facts.becomes_replace hfacts q.arg1, Facts.becomes_replace hfacts q.arg2⟩

theorem Scan.isLiteral_of_known {code code' : Code} {F : Nat → Facts} (h : Scan code code' F) {i : Nat}
    (hi : i ≤ code.length) {s : String} {a : Operand} (hs : (F i).known? s = some a) : a.isLiteral = true := by
  rcases Facts.known?_eq_some hs with ht | hx
  · obtain ⟨_, _, _, _, _, _, hlit⟩ := h.known_of_temps hi ht
    exact hlit
  clear hs
  induction i with
  | zero => rw [h.start] at hx; cases hx
  | succ i ih =>
    obtain ⟨place, hafter⟩ := h.after (List.getElem?_eq_getElem (l := code) (i := i) (by omega))
    rcases Facts.names_after hafter hx with ⟨-, -, hlit, -⟩ | ⟨hx, -⟩
    · exact hlit
    · exact ih (by omega) hx

/-! ### Code -/

namespace Code

/-- Instructions are rewritten in their places, and some that only compute are dropped. -/
inductive Thins : Code → Code → Prop
  | nil : Thins [] []
  | keep {q q' : Quad} {c c' : Code} : q.Rewrites q' → Thins c c' → Thins (q :: c) (q' :: c')
  | drop {q : Quad} {c c' : Code} : q.Computes → Thins c c' → Thins (q :: c) c'

/-- Temporaries are computed: nothing else but a call writes one. -/
def TempsComputed (code : Code) : Prop := ∀ q ∈ code, q.result.temp? ≠ none → q.Computes ∨ q.op = .call

variable {code code' code'' : Code}

namespace Thins

theorem refl (code : Code) : Thins code code := by
  induction code with
  | nil => exact .nil
  | cons q c ih => exact .keep (.refl q) ih

theorem trans (h : Thins code code') (h' : Thins code' code'') : Thins code code'' := by
  induction h generalizing code'' with
  | nil => exact h'
  | keep hq _ ih =>
    cases h' with
    | keep hq' h' => exact .keep (hq.trans hq') (ih h')
    | drop hq' h' => exact .drop (hq.computes_iff.1 hq') (ih h')
  | drop hq _ ih => exact .drop hq (ih h')

theorem of_lockstep {R : Nat → Quad → Quad → Prop} (h : Lockstep R code code')
    (hR : ∀ i q q', code[i]? = some q → R i q q' → q.Rewrites q') : Thins code code' := by
  induction code generalizing code' R with
  | nil =>
    rw [List.eq_nil_of_length_eq_zero (l := code') h.length]
    exact .nil
  | cons q c ih =>
    cases code' with
    | nil => cases h.length
    | cons q' c' =>
      obtain ⟨_, ⟨⟩, hq⟩ := h.instr (i := 0) rfl
      refine .keep (hR 0 q q' rfl hq) (ih (R := fun i => R (i + 1)) ⟨Nat.succ.inj h.length, fun {i} {q₀} hq₀ => ?_⟩ ?_)
      · exact h.instr (i := i + 1) hq₀
      · exact fun i q₀ q₁ hq₀ => hR (i + 1) q₀ q₁ hq₀

theorem filter {p : Quad → Bool} (h : ∀ q ∈ code, p q = false → q.Computes) : Thins code (code.filter p) := by
  induction code with
  | nil => exact .nil
  | cons q c ih =>
    have hc := ih fun q' hq' => h q' (List.mem_cons_of_mem q hq')
    cases hp : p q with
    | true => rw [List.filter_cons_of_pos hp]; exact .keep (.refl q) hc
    | false => rw [List.filter_cons_of_neg (by simp [hp])]; exact .drop (h q List.mem_cons_self hp) hc

theorem tempsComputed (h : Thins code code') (hcode : code.TempsComputed) : code'.TempsComputed := by
  induction h with
  | nil => exact hcode
  | keep hq _ ih =>
    refine List.forall_mem_cons.2 ⟨fun ht => ?_, ih fun q' hq' => hcode q' (List.mem_cons_of_mem _ hq')⟩
    rw [hq.computes_iff, hq.isCall_iff]
    exact hcode _ List.mem_cons_self (hq.result ▸ ht)
  | drop _ _ ih => exact ih fun q' hq' => hcode q' (List.mem_cons_of_mem _ hq')

theorem exists_place (h : Thins code code') : ∃ place : Nat → Nat, StrictMono place ∧
    (∀ {j : Nat} {q' : Quad}, code'[j]? = some q' → ∃ q, code[place j]? = some q ∧ q.Rewrites q') ∧
    ∀ {i : Nat} {q : Quad}, code[i]? = some q → ¬q.Computes → ∃ j < code'.length, place j = i := by
  induction h with
  | nil => exact ⟨id, strictMono_id, by simp, by simp⟩
  | @keep q q' c c' hq _ ih =>
    obtain ⟨place, hmono, hplace, hkept⟩ := ih
    -- the first instruction keeps the first place, the others move up by one in both codes
    refine ⟨fun j => Nat.casesOn j 0 fun j => place j + 1, strictMono_nat_of_lt_succ ?_, ?_, ?_⟩
    · rintro (_ | j)
      · exact Nat.succ_pos _
      · exact Nat.succ_lt_succ (hmono (Nat.lt_succ_self j))
    · rintro (_ | j) q₁ hq₁
      · cases hq₁
        exact ⟨q, rfl, hq⟩
      · exact hplace hq₁
    · rintro (_ | i) q₁ hq₁ hne
      · exact ⟨0, Nat.succ_pos _, rfl⟩
      · obtain ⟨j, hj, rfl⟩ := hkept hq₁ hne
        exact ⟨j + 1, Nat.succ_lt_succ hj, rfl⟩
  | drop hq _ ih =>
    obtain ⟨place, hmono, hplace, hkept⟩ := ih
    refine ⟨fun j => place j + 1, fun i j hij => Nat.succ_lt_succ (hmono hij), hplace, ?_⟩
    rintro (_ | i) q₁ hq₁ hne
    · cases hq₁
      exact absurd hq hne
    · obtain ⟨j, hj, rfl⟩ := hkept hq₁ hne
      exact ⟨j, hj, rfl⟩

end Thins

/-! ### Passes -/

theorem thins_propagate {changed : Bool} (h : code.propagate = .ok (code', changed)) : Thins code code' := by
  obtain ⟨F, hF⟩ := exists_scan h
  refine .of_lockstep hF.lockstep fun i q q' hq hq' => ?_
  have hi : i ≤ code.length := (List.getElem?_eq_some_iff.1 hq).1.le
  rw [hq']
  exact q.rewrites_propagate fun _ _ => hF.isLiteral_of_known hi

theorem thins_fold {changed : Bool} (h : code.fold = .ok (code', changed)) : Thins code code' :=
  .of_lockstep (foldsTo_of_fold h) fun _ _ _ _ hq => hq.rewrites

/-- What no operand mentions is no call, so that only computations are dropped. -/
theorem thins_dropDead (hcode : code.TempsComputed) : Thins code code.dropDead.1 := by
  refine .filter fun q hq hdead => ?_
  simp only [Quad.isLive, Bool.or_eq_false_iff, decide_eq_false_iff_not] at hdead
  obtain ⟨hcall, hdead⟩ := hdead
  have htemp : q.result.temp? ≠ none := by
    intro hnone
    simp [hnone] at hdead
  exact (hcode q hq htemp).resolve_right hcall

theorem thins_pass {changed : Bool} (hcode : code.TempsComputed) (h : code.pass = .ok (code', changed)) :
    Thins code code' := by
  obtain ⟨⟨code₁, changed₁⟩, hpropagate, h⟩ := except_bind_eq_ok h
  obtain ⟨⟨code₂, changed₂⟩, hfold, h⟩ := except_bind_eq_ok h
  cases h
  have h₂ : Thins code code₂ := (thins_propagate hpropagate).trans (thins_fold hfold)
  exact h₂.trans (thins_dropDead (h₂.tempsComputed hcode))

theorem thins_passes {n : Nat} (hcode : code.TempsComputed) (h : passes n code = .ok code') : Thins code code' := by
  induction n generalizing code with
  | zero =>
    cases h
    exact .refl _
  | succ n ih =>
    obtain ⟨⟨code₁, changed⟩, hpass, h⟩ := except_bind_eq_ok h
    have h₁ := thins_pass hcode hpass
    cases changed with
    | true => exact h₁.trans (ih (h₁.tempsComputed hcode) h)
    | false => cases h; exact h₁

theorem thins_renumber : Thins code code.renumber := by
  refine .of_lockstep lockstep_renumber fun i q q' _ hq => ?_
  rw [hq]
  exact ⟨rfl, .inl rfl, fun _ => ⟨rfl, rfl⟩, fun _ => ⟨.inl rfl, .inl rfl⟩⟩

theorem thins_optimize {maxPasses : Int} (hcode : code.TempsComputed) (h : code.optimize maxPasses = .ok code') :
    Thins code code' := by
  obtain ⟨code₁, hpasses, h⟩ := except_bind_eq_ok h
  cases h
  exact (thins_passes hcode hpasses).trans thins_renumber

end Code

theorem Node.tempsComputed_of_lower {n : Node} {l : Lowered Unit} (hl : n.lower = .ok l) : l.code.TempsComputed := by
  obtain ⟨c, hc, hemits⟩ := lower_emits (N := fun _ => True) (p := False) nofun nofun hl
  have hemitted := hemits.emitted (fun _ => nofun) nofun Loop.drawn_none
  have hcomputed : c.TempsComputed := fun q hq ht => or_assoc.2 ((hemitted q hq).writes ht)
  rw [hc]
  exact Code.thins_renumber.tempsComputed hcomputed

/-- The optimizer moves no instruction and drops only computations. What is left is rewritten in its place: the result
stays, an operator may become an assignment, and all other instructions stay what they are, with the operands of a
call as they were and other operands as they were or replaced by a constant. -/
theorem Code.optimize_keeps_control {code code' : Code} {maxPasses : Int} (hcode : code.TempsComputed)
    (h : code.optimize maxPasses = .ok code') :
    ∃ place : Nat → Nat, StrictMono place ∧
      (∀ j q', code'[j]? = some q' → ∃ q, code[place j]? = some q ∧ q.Rewrites q') ∧
      ∀ i q, code[i]? = some q → q.op ∈ [.label, .goto, .jumpIfFalse, .param, .receive, .call, .ret] →
        ∃! j, j < code'.length ∧ place j = i := by
  obtain ⟨place, hmono, hplace, hkept⟩ := (thins_optimize hcode h).exists_place
  refine ⟨place, hmono, fun j q' => hplace, fun i q hq hop => ?_⟩
  have hne : ¬q.Computes := by
    rintro (hassign | ⟨op, hoperator⟩)
    · simp [hassign] at hop
    · simp [hoperator] at hop
  obtain ⟨j, hj, rfl⟩ := hkept hq hne
  exact ⟨j, ⟨hj, rfl⟩, fun j' hj' => hmono.injective hj'.2⟩

/-- A sum of constants that is printed. -/
def sumProgram : Node := .bare (.program [
  .bare (.expression (.set "x" (.int 2))),
  .bare (.expression (.print [.binary "+" (.named "x") (.int 3)]))])

def sumCode : Code := Code.renumber [
  Quad.assign (.num (.int 2)) (.name "x"), Quad.operator (.binary .add) (.name "x") (.num (.int 3)) "t0",
  Quad.param (.name "t0"), Quad.call "console_log" 1 .none]

theorem sumProgram_lower : sumProgram.lower = .ok ⟨(), sumCode, { temps := 1 }⟩ := by
  cbv

theorem Code.optimize_keeps_control_sum : ∃ code', sumCode.optimize 10 = .ok code' ∧ code'.length = 3 ∧
    ∃ place : Nat → Nat, StrictMono place ∧ (∃! j, j < 3 ∧ place j = 2) ∧ ∃! j, j < 3 ∧ place j = 3 := by
  obtain ⟨code', hcode', hlength⟩ : ∃ code', sumCode.optimize 10 = .ok code' ∧ code'.length = 3 := ⟨_, rfl, rfl⟩
  obtain ⟨place, hmono, -, hkept⟩ := optimize_keeps_control (Node.tempsComputed_of_lower sumProgram_lower) hcode'
  rw [hlength] at hkept
  exact ⟨code', hcode', hlength, place, hmono, hkept 2 _ rfl (by decide), hkept 3 _ rfl (by decide)⟩

end QuadScript
