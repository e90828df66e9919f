import QuadScript.Optimizer.Fold
import QuadScript.Proofs.Exact
import QuadScript.Proofs.Optimizer.Conditions

/-!
# Constant folding keeps every step

A folded operand has the value that the operator gives (`Operator.folded?_resolve`): evaluated constants
always, neutral operands where both are exact integers. So an instruction and what it is folded to do
the same (`Quad.FoldsTo.step_eq`). On constants of a closed class folding never fails (`Code.exists_fold`).
-/

namespace QuadScript

/-! ### Operands -/

theorem Operand.Scalar.within {N : Number → Prop} {a : Operand} {v : Value} (ha : a.Scalar N)
    (h : a.literal? = some v) : v.Within N := by
  cases a <;> cases h <;> exact ha

theorem Operand.literal?_of_ofValue? {v : Value} {c : Operand} (h : Operand.ofValue? v = .ok (some c)) :
    c.literal? = some v := by
  cases v with
  | str s => cases h; rfl
  | bool b => cases h; rfl
  | num n =>
    obtain ⟨f, -, h⟩ := except_bind_eq_ok h
    cases f <;> cases h
    rfl
  | _ => cases h

theorem Operand.ofValue?_ok {v : Value} (hv : v.Within Number.Fits) : ∃ c, Operand.ofValue? v = .ok c := by
  cases v with
  | num n =>
    obtain ⟨f, hf⟩ := Number.isFinite_ok hv
    simp only [ofValue?, hf]
    exact ⟨_, rfl⟩
  | _ => exact ⟨_, rfl⟩

theorem Operand.scalar_of_literal? {N : Number → Prop} {c : Operand} {v : Value} (hv : v.Within N)
    (h : c.literal? = some v) : c.Scalar N := by
  cases c <;> cases h <;> exact hv

/-! ### Operators -/

namespace Operator

variable {op : Operator} {a b c : Operand} {memory : Memory} {va vb v : Value}

theorem eq_of_literal? (h : a.literal? = some v) (ha : memory.resolve a = .ok va) : va = v := by
  rw [Operand.resolve_literal h] at ha
  exact (Except.ok.inj ha).symm

theorem constant?_eq_some (h : op.constant? a b = .ok (some c)) : ∃ v, c.literal? = some v ∧
    ∀ {memory : Memory} {va vb : Value}, memory.resolve a = .ok va → memory.resolve b = .ok vb →
      op.eval va vb = .ok v := by
  unfold constant? at h
  split at h
  · rename_i op x hx
    obtain ⟨v, hv, h⟩ := except_bind_eq_ok h
    refine ⟨v, Operand.literal?_of_ofValue? h, fun ha _ => ?_⟩
    rw [eq_of_literal? hx ha]
    exact hv
  · rename_i op x y hx hy
    split at h
    · cases h
    · obtain ⟨v, hv, h⟩ := except_bind_eq_ok h
      refine ⟨v, Operand.literal?_of_ofValue? h, fun ha hb => ?_⟩
      rw [eq_of_literal? hx ha, eq_of_literal? hy hb]
      exact hv
  · cases h

theorem constant?_ok (op : Operator) {N : Number → Prop} (hN : Number.Closed N) (ha : a.Scalar N) (hb : b.Scalar N) :
    ∃ c, op.constant? a b = .ok c ∧ ∀ x, c = some x → x.Scalar N := by
  have key : ∀ {v : Value}, v.Within N → ∃ c, Operand.ofValue? v = .ok c ∧ ∀ x, c = some x → x.Scalar N := by
    intro v hv
    obtain ⟨c, hc⟩ := Operand.ofValue?_ok (hv.mono hN.fits)
    refine ⟨c, hc, ?_⟩
    rintro x rfl
    exact Operand.scalar_of_literal? hv (Operand.literal?_of_ofValue? hc)
  unfold constant?
  split
  · rename_i op x hx
    obtain ⟨v, hv, hw⟩ := op.eval_within hN (ha.within hx)
    rw [hv]
    exact key hw
  · rename_i op x y hx hy
    split
    · exact ⟨none, rfl, by simp⟩
    · obtain ⟨v, hv, hw⟩ := op.eval_within hN (ha.within hx) (hb.within hy)
      rw [hv]
      exact key hw
  · exact ⟨none, rfl, by simp⟩

theorem eq_of_eq_int {m n : Int} (h : (Number.int m).eq (.int n) = true) : m = n := by
  simpa [Number.eq, Number.compare?] using h

theorem collapse_int {n : Int} (h : n.natAbs ≤ Number.exactLimit) : (Number.int n).collapse = .int n := by
  simp only [Number.collapse, if_pos h]

theorem equals_of_isConst {n : Int} (h : b.isConst (.int n) = true) (hb : memory.resolve b = .ok vb) :
    vb.Equals n := by
  cases b with
  | num m => cases hb; exact ⟨m, rfl, h⟩
  | _ => cases h

theorem simplified?_resolve (h : op.simplified? a b = some c) (ha : memory.resolve a = .ok va)
    (hb : memory.resolve b = .ok vb) (hn : op.NeutralExact va vb) :
    ∃ v, op.eval va vb = .ok v ∧ memory.resolve c = .ok v := by
  unfold simplified? at h
  -- `x + 0`, `x * 1` and `x * 0`; where integers are exact, collapsing gives back the integer
  split at h
  · split at h
    · rename_i hc
      cases h
      have hzero := equals_of_isConst hc hb
      obtain ⟨⟨i, rfl, hi⟩, j, rfl, -⟩ := hn (.inl ⟨rfl, hzero⟩)
      obtain ⟨m, hm, hj⟩ := hzero
      cases hm
      obtain rfl := eq_of_eq_int hj
      refine ⟨_, ?_, ha⟩
      change Except.ok (Value.num (Number.int (i + 0)).collapse) = _
      rw [Int.add_zero, collapse_int hi]
    · cases h
  · split at h
    · rename_i hc
      cases h
      have hone := equals_of_isConst hc hb
      obtain ⟨⟨i, rfl, hi⟩, j, rfl, -⟩ := hn (.inr ⟨rfl, .inr hone⟩)
      obtain ⟨m, hm, hj⟩ := hone
      cases hm
      obtain rfl := eq_of_eq_int hj
      refine ⟨_, ?_, ha⟩
      change Except.ok (Value.num (Number.int (i * 1)).collapse) = _
      rw [Int.mul_one, collapse_int hi]
    · split at h
      · rename_i hc
        cases h
        have hzero := equals_of_isConst hc hb
        obtain ⟨⟨i, rfl, hi⟩, j, rfl, -⟩ := hn (.inr ⟨rfl, .inl hzero⟩)
        obtain ⟨m, hm, hj⟩ := hzero
        cases hm
        obtain rfl := eq_of_eq_int hj
        refine ⟨_, ?_, rfl⟩
        change Except.ok (Value.num (Number.int (i * 0)).collapse) = _
        rw [Int.mul_zero]
        rfl
      · cases h
  · cases h

/-- A folded operand has the value that the operator gives. -/
theorem folded?_resolve (h : op.folded? a b = .ok (some c)) (ha : memory.resolve a = .ok va)
    (hb : memory.resolve b = .ok vb) (hn : op.NeutralExact va vb) :
    ∃ v, op.eval va vb = .ok v ∧ memory.resolve c = .ok v := by
  obtain ⟨k, hk, h⟩ := except_bind_eq_ok h
  cases k with
  | some k =>
    cases h
    obtain ⟨v, hlit, hv⟩ := constant?_eq_some hk
    exact ⟨v, hv ha hb, Operand.resolve_literal hlit memory⟩
  | none => exact simplified?_resolve (Except.ok.inj h) ha hb hn

theorem folded?_ok (op : Operator) {N : Number → Prop} (hN : Number.Closed N) (ha : a.Scalar N) (hb : b.Scalar N) :
    ∃ c, op.folded? a b = .ok c ∧ ∀ x, c = some x → x.Scalar N := by
  obtain ⟨k, hk, hscalar⟩ := op.constant?_ok hN ha hb
  unfold folded?
  rw [hk]
  cases k with
  | some k => exact ⟨_, rfl, hscalar⟩
  | none =>
    refine ⟨_, rfl, fun x hx => ?_⟩
    unfold simplified? at hx
    split at hx
    · split at hx <;> cases hx
      exact ha
    · split at hx
      · cases hx; exact ha
      · split at hx <;> cases hx
        exact hN.exact (Nat.zero_le _)
    · cases hx

end Operator

/-! ### Instructions -/

/-- An instruction stays, or is folded to an assignment. -/
def Quad.FoldsTo (q q' : Quad) : Prop := q' = q ∨ q.fold? = .ok (some q')

namespace Quad

variable {q q' : Quad} {code code' : Code} {labels : Labels} {m : Machine}

theorem fold?_eq_some (h : q.fold? = .ok (some q')) :
    ∃ op a, q.op = .operator op ∧ op.folded? q.arg1 q.arg2 = .ok (some a) ∧
      q' = { op := .assign, arg1 := a, result := q.result, index := q.index } := by
  unfold fold? at h
  split at h
  · rename_i op hop
    obtain ⟨c, hc, h⟩ := except_bind_eq_ok h
    cases c with
    | none => cases h
    | some a => cases h; exact ⟨op, a, hop, hc, rfl⟩
  · cases h

theorem FoldsTo.result (h : q.FoldsTo q') : q'.result = q.result := by
  rcases h with rfl | h
  · rfl
  · obtain ⟨op, a, -, -, rfl⟩ := fold?_eq_some h; rfl

theorem FoldsTo.control (h : q.FoldsTo q') : q'.control = q.control := by
  rcases h with rfl | h
  · rfl
  · obtain ⟨op, a, hop, -, rfl⟩ := fold?_eq_some h
    simp [Quad.control, hop]

/-- An instruction and what it is folded to do the same. -/
theorem FoldsTo.step_eq (h : q.FoldsTo q') {N : Number → Prop} (hN : ∀ a ∈ q.reads, a.Scalar N)
    (hsafe : m.Safe q) (hlen : code'.length = code.length) :
    m.step code' labels q' = m.step code labels q := by
  rcases h with rfl | h
  · exact Machine.step_congr rfl rfl rfl (fun _ => ⟨rfl, rfl⟩) hlen
  · obtain ⟨op, c, hop, hc, rfl⟩ := fold?_eq_some h
    obtain ⟨a, ha⟩ := (hN q.arg1 (by simp [reads, hop])).exists_resolve m.memory
    obtain ⟨b, hb⟩ := (hN q.arg2 (by simp [reads, hop])).exists_resolve m.memory
    obtain ⟨v, hv, hres⟩ := Operator.folded?_resolve hc ha hb (hsafe.2 op a b hop ha hb).2
    rw [Machine.step_operator hop ha hb hv, Machine.step_assign rfl hres]

theorem folded_operand {op : Operator} {a b c : Operand} (h : op.folded? a b = .ok (some c)) :
    c = a ∨ ∃ v, c.literal? = some v := by
  obtain ⟨k, hk, h⟩ := except_bind_eq_ok h
  cases k with
  | some k =>
    cases h
    obtain ⟨v, hlit, -⟩ := Operator.constant?_eq_some hk
    exact .inr ⟨v, hlit⟩
  | none =>
    have h' : op.simplified? a b = some c := Except.ok.inj h
    unfold Operator.simplified? at h'
    split at h'
    · split at h' <;> cases h'
      exact .inl rfl
    · split at h'
      · cases h'; exact .inl rfl
      · split at h' <;> cases h'
        exact .inr ⟨_, rfl⟩
    · cases h'

theorem FoldsTo.safe (h : q.FoldsTo q') (hsafe : m.Safe q) : m.Safe q' := by
  rcases h with rfl | h
  · exact hsafe
  · obtain ⟨op, c, hop, hc, rfl⟩ := fold?_eq_some h
    refine ⟨fun s hs ht => ?_, fun op' a b hop' => by cases hop'⟩
    have hcs : c = .name s := (List.mem_singleton.1 hs).symm
    rcases folded_operand hc with rfl | ⟨v, hv⟩
    · exact hsafe.1 s (by simp [Quad.reads, hop, hcs]) ht
    · rw [hcs] at hv; cases hv

theorem FoldsTo.scalar (h : q.FoldsTo q') {N : Number → Prop} (hN : Number.Closed N)
    (hq : ∀ a ∈ q.reads, a.Scalar N) : ∀ a ∈ q'.reads, a.Scalar N := by
  rcases h with rfl | h
  · exact hq
  · obtain ⟨op, c, hop, hc, rfl⟩ := fold?_eq_some h
    obtain ⟨k, hk, hscalar⟩ := op.folded?_ok hN (hq q.arg1 (by simp [reads, hop])) (hq q.arg2 (by simp [reads, hop]))
    rw [hc] at hk
    intro a ha
    rw [List.mem_singleton.1 ha]
    exact hscalar c (Except.ok.inj hk).symm

theorem FoldsTo.op (h : q.FoldsTo q') : q'.op = q.op ∨ q'.op = .assign ∧ ∃ op, q.op = .operator op := by
  rcases h with rfl | h
  · exact .inl rfl
  · obtain ⟨op, c, hop, -, rfl⟩ := fold?_eq_some h
    exact .inr ⟨rfl, op, hop⟩

end Quad

/-! ### Code -/

/-- Every instruction stays or is folded. -/
abbrev Code.FoldsTo : Code → Code → Prop := Code.Lockstep fun _ => Quad.FoldsTo

namespace Code

variable {code code' : Code}

theorem fold_cons {q : Quad} : fold (q :: code) = (q.fold? >>= fun q' => fold code >>= fun r =>
    .ok (q'.getD q :: r.1, q'.isSome || r.2)) := rfl

theorem foldsTo_of_fold {changed : Bool} (h : code.fold = .ok (code', changed)) : code.FoldsTo code' := by
  induction code generalizing code' changed with
  | nil => cases h; exact ⟨rfl, by simp⟩
  | cons q rest ih =>
    rw [fold_cons] at h
    obtain ⟨f, hf, h⟩ := except_bind_eq_ok h
    obtain ⟨⟨rest', changed'⟩, hrest, h⟩ := except_bind_eq_ok h
    cases h
    obtain ⟨hlen, hinstr⟩ := ih hrest
    refine ⟨by simp [hlen], ?_⟩
    rintro (_ | i) q₀ hq₀
    · cases hq₀
      refine ⟨_, rfl, ?_⟩
      cases f with
      | none => exact .inl rfl
      | some q' => exact .inr hf
    · exact hinstr hq₀

theorem exists_fold {N : Number → Prop} (hN : Number.Closed N) (h : ∀ q ∈ code, ∀ a ∈ q.reads, a.Scalar N) :
    ∃ r, code.fold = .ok r := by
  induction code with
  | nil => exact ⟨_, rfl⟩
  | cons q rest ih =>
    obtain ⟨r, hr⟩ := ih fun q' hq' => h q' (by simp [hq'])
    have hf : ∃ f, q.fold? = .ok f := by
      unfold Quad.fold?
      split
      · rename_i op hop
        have hq := h q (by simp)
        obtain ⟨c, hc, -⟩ :=
          op.folded?_ok hN (hq q.arg1 (by simp [Quad.reads, hop])) (hq q.arg2 (by simp [Quad.reads, hop]))
        rw [hc]
        exact ⟨_, rfl⟩
      · exact ⟨_, rfl⟩
    obtain ⟨f, hf⟩ := hf
    rw [fold_cons, hf, hr]
    exact ⟨_, rfl⟩

namespace FoldsTo

theorem labels_eq (h : code.FoldsTo code') : code'.labels = code.labels :=
  labels_congr (h.map_eq fun _ _ _ hf => hf.control)

theorem tame (h : code.FoldsTo code') {N : Number → Prop} (hN : Number.Closed N) (ht : code.Tame N) :
    code'.Tame N where
  operands := h.forall_mem ht.operands fun _ _ _ _ hf hq => hf.scalar hN hq
  targets := h.forall_mem ht.targets fun _ _ _ _ hf hq => hf.result ▸ hq
  once := h.tempsOnce (fun _ _ _ hf => hf.result) ht.once
  writers := by
    refine h.forall_mem ht.writers fun i q q' _ hf hq hne => ?_
    rcases hf.op with hop | ⟨hop, -⟩
    · rw [hop]
      exact hq (hf.result ▸ hne)
    · exact .inl hop

theorem ends (h : code.FoldsTo code') {N : Number → Prop} (ht : code.Tame N) {m : Machine} {n : Nat}
    {o : Machine.Outcome} (he : Machine.Ends Machine.Safe code n m o) :
    Machine.Ends Machine.Safe code' n m o := by
  refine Code.Lockstep.ends h (I := fun _ => True) ?_ (fun _ _ _ _ _ _ _ => trivial) he trivial
  intro m q q' _ hq hf hS
  rw [h.labels_eq]
  exact ⟨hf.safe hS, hf.step_eq (ht.operands q (List.mem_of_getElem? hq)) hS h.length⟩

end FoldsTo

end Code

end QuadScript
