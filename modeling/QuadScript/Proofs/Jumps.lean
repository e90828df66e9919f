import QuadScript.Proofs.CallStack
import QuadScript.Proofs.Optimizer.Thinning

/-!
# Every jump finds its label

Code resolves (`Code.Resolves`) if each label that was drawn for it stands in it once and each of its jumps has a
label to go to. Such code can be started. Lowered code resolves, and code that resolves still does after instructions
have been rewritten in their places and computations dropped, so that optimized code does too.
-/

namespace QuadScript

namespace Code

/-- Labels for all jumps, in code for which labels were drawn up to a number and which has some functions. -/
structure Resolves (code : Code) (labels : Nat) (functions : List String) : Prop where
  named : code.LabelsNamed
  drawn : ∀ k < labels, ∃! p, code.LabelAt p (labelName k)
  /-- If no two functions have one name, the label that a jump goes to is the only one of its name. -/
  jumps : ∀ q ∈ code, q.op = .goto ∨ q.op = .jumpIfFalse → ∃ s, q.result = .name s ∧
    (∃ p, code.LabelAt p s) ∧ (functions.Nodup → ∃! p, code.LabelAt p s)

variable {code code' : Code} {p : Nat} {s : String} {labels : Nat} {functions : List String}

theorem LabelAt.exists_mem (h : code.LabelAt p s) : ∃ q ∈ code, q.op = .label ∧ q.result = .name s := by
  obtain ⟨q, hq, hs⟩ := Option.bind_eq_some_iff.1 h
  exact ⟨q, List.mem_of_getElem? hq, Quad.label?_eq_some.1 hs⟩

theorem exists_labelAt {q : Quad} (hq : q ∈ code) (hop : q.op = .label) (hs : q.result = .name s) :
    ∃ p, code.LabelAt p s := by
  obtain ⟨p, hp⟩ := List.getElem?_of_mem hq
  exact ⟨p, Option.bind_eq_some_iff.2 ⟨q, hp, Quad.label?_eq_some.2 ⟨hop, hs⟩⟩⟩

theorem Resolves.linkFault?_eq_none (h : code.Resolves labels functions) : code.linkFault? = none := by
  refine Code.linkFault?_eq_none h.named fun q hq hj => ?_
  obtain ⟨s, hs, ⟨p, hp⟩, -⟩ := h.jumps q hq hj
  exact ⟨s, hs, hp.exists_mem⟩

/-! ### Labels that stand once -/

theorem existsUnique_labelAt (h : (code.filterMap Quad.label?).count s = 1) : ∃! p, code.LabelAt p s := by
  induction code with
  | nil => simp at h
  | cons q c ih =>
    by_cases hq : q.label? = some s
    · -- no other place: what follows has no such label
      rw [List.filterMap_cons_some hq, List.count_cons_self, Nat.add_eq_right] at h
      refine ⟨0, hq, ?_⟩
      rintro (_ | p) hp
      · rfl
      · have hp : LabelAt c p s := hp
        obtain ⟨q', hq', hop, hs⟩ := hp.exists_mem
        exact absurd (List.mem_filterMap.2 ⟨q', hq', Quad.label?_eq_some.2 ⟨hop, hs⟩⟩) (List.count_eq_zero.1 h)
    · have hcount : (c.filterMap Quad.label?).count s = 1 := by
        cases hl : q.label? with
        | none => rwa [List.filterMap_cons_none hl] at h
        | some s' =>
          have hne : s' ≠ s := by rintro rfl; exact hq hl
          rwa [List.filterMap_cons_some hl, List.count_cons_of_ne hne] at h
      obtain ⟨p, hp, honly⟩ := ih hcount
      refine ⟨p + 1, hp, ?_⟩
      rintro (_ | r) hr
      · exact absurd hr hq
      · exact congrArg (· + 1) (honly r hr)

theorem Places.count_labelName {n k : Nat} (h : Places 0 code functions n) (hk : k < n) :
    (code.filterMap Quad.label?).count (labelName k) = 1 := by
  obtain ⟨m, rfl, h⟩ := h
  have hdrawn : ((List.range' 0 m).map labelName).count (labelName k) = 1 := by
    refine List.count_eq_one_of_mem (.map (numbered_injective _) List.nodup_range') (List.mem_map_of_mem ?_)
    exact List.mem_range'_1.2 ⟨Nat.zero_le k, hk⟩
  have hfunction : (functions.flatMap functionLabels).count (labelName k) = 0 := by
    refine List.count_eq_zero.2 fun hmem => ?_
    obtain ⟨f, -, hf⟩ := List.mem_flatMap.1 hmem
    rcases List.mem_cons.1 hf with hf | hf
    · exact ne_of_head (head_labelName k) (head_functionMark f) (by decide) hf
    · exact ne_of_head (head_labelName k) (head_endMark f) (by decide) (List.mem_singleton.1 hf)
  rw [h.count_eq, List.count_append, hdrawn, hfunction]

end Code

/-! ### Thinned code -/

theorem Quad.Rewrites.op_of_ne {q q' : Quad} {op : Op} (h : q.Rewrites q') (hop : q'.op = op) (hne : op ≠ .assign) :
    q.op = op := by
  rcases h.op with heq | ⟨hassign, -⟩
  · exact heq.symm.trans hop
  · exact absurd (hop.symm.trans hassign) hne

theorem Quad.Rewrites.label?_eq {q q' : Quad} (h : q.Rewrites q') : q'.label? = q.label? := by
  unfold label?
  rcases h.op with hop | ⟨hassign, op, hop⟩
  · rw [hop, h.result]
  · rw [hassign, hop]

namespace Code

variable {code code' : Code} {s : String} {labels : Nat} {functions : List String}

theorem Thins.exists_labelPlace (h : Thins code code') : ∃ place : Nat → Nat, place.Injective ∧
    (∀ {j s}, code'.LabelAt j s → code.LabelAt (place j) s) ∧
    ∀ {i s}, code.LabelAt i s → ∃ j, place j = i ∧ code'.LabelAt j s := by
  obtain ⟨place, hmono, hplace, hkept⟩ := h.exists_place
  refine ⟨place, hmono.injective, fun {j s} hj => ?_, fun {i s} hi => ?_⟩
  · obtain ⟨q', hq', hs⟩ := Option.bind_eq_some_iff.1 hj
    obtain ⟨q, hq, hr⟩ := hplace hq'
    exact Option.bind_eq_some_iff.2 ⟨q, hq, hr.label?_eq ▸ hs⟩
  · obtain ⟨q, hq, hs⟩ := Option.bind_eq_some_iff.1 hi
    have hop := (Quad.label?_eq_some.1 hs).1
    obtain ⟨j, hj, rfl⟩ := hkept hq (by simp [Quad.Computes, hop])
    obtain ⟨q₁, hq₁, hr⟩ := hplace (List.getElem?_eq_getElem hj)
    cases hq.symm.trans hq₁
    exact ⟨j, rfl, Option.bind_eq_some_iff.2 ⟨_, List.getElem?_eq_getElem hj, hr.label?_eq.trans hs⟩⟩

theorem Thins.existsUnique_labelAt (h : Thins code code') (hs : ∃! p, code.LabelAt p s) : ∃! p, code'.LabelAt p s := by
  obtain ⟨place, hinj, hback, hkept⟩ := h.exists_labelPlace
  obtain ⟨p, hp, honly⟩ := hs
  obtain ⟨j, rfl, hj⟩ := hkept hp
  exact ⟨j, hj, fun r hr => hinj (honly _ (hback hr))⟩

theorem Thins.exists_rewritten (h : Thins code code') {q' : Quad} (hq' : q' ∈ code') : ∃ q ∈ code, q.Rewrites q' := by
  obtain ⟨place, -, hplace, -⟩ := h.exists_place
  obtain ⟨j, hj⟩ := List.getElem?_of_mem hq'
  obtain ⟨q, hq, hr⟩ := hplace hj
  exact ⟨q, List.mem_of_getElem? hq, hr⟩

/-- Dropping computations leaves every jump its label. -/
theorem Resolves.thins (h : code.Resolves labels functions) (ht : Thins code code') :
    code'.Resolves labels functions where
  named q' hq' hop := by
    obtain ⟨q, hq, hr⟩ := ht.exists_rewritten hq'
    rw [hr.result]
    exact h.named q hq (hr.op_of_ne hop (by simp))
  drawn k hk := ht.existsUnique_labelAt (h.drawn k hk)
  jumps q' hq' hj := by
    obtain ⟨q, hq, hr⟩ := ht.exists_rewritten hq'
    have hj' : q.op = .goto ∨ q.op = .jumpIfFalse :=
      hj.imp (fun hop => hr.op_of_ne hop (by simp)) (fun hop => hr.op_of_ne hop (by simp))
    obtain ⟨s, hs, ⟨p, hp⟩, honly⟩ := h.jumps q hq hj'
    obtain ⟨_, -, -, hkept⟩ := ht.exists_labelPlace
    obtain ⟨j, -, hj⟩ := hkept hp
    exact ⟨s, hr.result.trans hs, ⟨j, hj⟩, fun hfs => ht.existsUnique_labelAt (honly hfs)⟩

end Code

/-! ### Programs -/

theorem Emits.resolves {P : Operand → Prop} {Q : Target → Prop} {t t' n : Nat} {c : Code} {fs : List String}
    (hP : ∀ k, P (.name (tempName k))) (hvoid : P void) (h : Emits P Q none t 0 c fs t' n) : c.Resolves n fs := by
  have hemitted := h.emitted hP hvoid Loop.drawn_none
  refine ⟨fun q hq hop => (hemitted q hq).label_named hop,
    fun k hk => Code.existsUnique_labelAt (h.places.count_labelName hk), fun q hq hj => ?_⟩
  obtain ⟨s, hs, hlabel⟩ := h.exists_label hq hj
  refine ⟨s, hs, Code.exists_labelAt hlabel rfl rfl, fun hfs => Code.existsUnique_labelAt ?_⟩
  exact List.count_eq_one_of_mem (h.places.nodup hfs) (List.mem_filterMap.2 ⟨_, hlabel, Quad.label?_label s⟩)

theorem Node.resolves_of_lower {n : Node} {l : Lowered Unit} (hl : n.lower = .ok l) :
    l.code.Resolves l.supply.labels n.functions := by
  obtain ⟨c, hc, hemits⟩ := lower_emits (N := fun _ => True) (p := False) nofun nofun hl
  have hresolves := hemits.resolves (fun _ => nofun) nofun
  rw [hc]
  exact hresolves.thins Code.thins_renumber

/-- Each label that is drawn for a program stands in its code once, and each jump goes to a label, the only one of its
name if no two functions have one name. The optimizer keeps that, so that both codes can be started. -/
theorem Node.jumps_resolve {n : Node} {l : Lowered Unit} (hl : n.lower = .ok l) :
    (l.code.Resolves l.supply.labels n.functions ∧ l.code.linkFault? = none) ∧
      ∀ maxPasses code', l.code.optimize maxPasses = .ok code' →
        code'.Resolves l.supply.labels n.functions ∧ code'.linkFault? = none := by
  have hcode := resolves_of_lower hl
  refine ⟨⟨hcode, hcode.linkFault?_eq_none⟩, fun maxPasses code' h => ?_⟩
  have hcode' := hcode.thins (Code.thins_optimize (tempsComputed_of_lower hl) h)
  exact ⟨hcode', hcode'.linkFault?_eq_none⟩

/-- A loop that is left and gone on with from inside of a choice, in a function and outside of it. -/
def leavingProgram : Node := .bare (.program [
  .bare (.function (.named "f") [] (.bare (.block [
    .bare (.while (.bare (.logical (.str "&&") (.named "a") (.named "b"))) (.bare (.break false)))]))),
  .bare (.for .absent (.binary "<" (.int 1) (.int 2)) .absent (.bare (.block [
    .bare (.if (.named "a") (.bare (.continue false)) (.bare (.break false)))])))])

def leavingCode : Code := Code.renumber [
  Quad.goto "END_FUNC_f", Quad.label "FUNC_f",
  Quad.label "L0", Quad.assign (.name "a") (.name "%j0"), Quad.jumpIfFalse (.name "%j0") "L2",
  Quad.assign (.name "b") (.name "%j0"), Quad.label "L2", Quad.jumpIfFalse (.name "%j0") "L1",
  Quad.goto "L1", Quad.goto "L0", Quad.label "L1",
  Quad.ret void, Quad.label "END_FUNC_f",
  Quad.label "L3", Quad.operator (.binary .lt) (.num (.int 1)) (.num (.int 2)) "t0", Quad.jumpIfFalse (.name "t0") "L5",
  Quad.jumpIfFalse (.name "a") "L6", Quad.goto "L4", Quad.goto "L7", Quad.label "L6", Quad.goto "L5", Quad.label "L7",
  Quad.label "L4", Quad.goto "L3", Quad.label "L5"]

theorem leavingProgram_lower : leavingProgram.lower =
    .ok ⟨(), leavingCode, { temps := 1, labels := 8, joins := 1, functions := ["f"] }⟩ := by
  cbv

theorem Node.jumps_resolve_leaving : leavingProgram.lower =
      .ok ⟨(), leavingCode, { temps := 1, labels := 8, joins := 1, functions := ["f"] }⟩ ∧
    (∃! p, leavingCode.LabelAt p "L5") ∧ leavingCode.linkFault? = none ∧
    ∃ code', leavingCode.optimize 10 = .ok code' ∧ code'.length < leavingCode.length ∧
      (∃! p, code'.LabelAt p "L5") ∧ code'.linkFault? = none := by
  obtain ⟨⟨hresolves, hlink⟩, hoptimize⟩ := jumps_resolve leavingProgram_lower
  obtain ⟨code', hcode', hlength⟩ : ∃ code', leavingCode.optimize 10 = .ok code' ∧ code'.length < leavingCode.length :=
    ⟨_, rfl, by decide⟩
  obtain ⟨hresolves', hlink'⟩ := hoptimize 10 code' hcode'
  exact ⟨leavingProgram_lower, hresolves.drawn 5 (by decide), hlink, code', hcode', hlength,
    hresolves'.drawn 5 (by decide), hlink'⟩

end QuadScript
