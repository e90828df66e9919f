import QuadScript.Proofs.Tables

/-!
# Keys that are one

Two keys find the same entry of a table if they are the same or equal numbers (`Key.Meets`). A key that is set is
found by the keys that meet it, and every other key finds what it found before (`Table.getKey?_setKey`).
-/

namespace QuadScript

/-! ### Equal numbers -/

theorem Number.Extended.compare_eq_iff {p q : Extended} : p.compare q = .eq ↔ p = q := by
  cases p <;> cases q <;> simp only [Extended.compare, reduceCtorEq]
  rename_i p q
  by_cases heq : p = q
  · subst heq
    rw [if_neg Rat.lt_irrefl, if_pos rfl]
    exact iff_of_true rfl rfl
  · by_cases hlt : p < q <;> simp [hlt, heq]

theorem Number.eq_iff {a b : Number} : a.eq b = true ↔ ∃ p, a.extended? = some p ∧ b.extended? = some p := by
  unfold Number.eq
  rw [beq_iff_eq]
  cases ha : a.extended? with
  | none => cases a <;> simp_all [compare?, extended?]
  | some p =>
    have hpoints : compare? a b = b.extended?.map p.compare := by
      cases a with
      | int m =>
        cases b with
        | int n =>
          cases ha
          simp only [compare?, extended?, Extended.compare, Option.map_some, Rat.intCast_lt_intCast, Rat.intCast_inj]
          rfl
        | float y => cases hy : (float y).extended? <;> simp [compare?, ha, hy]
      | float x => cases hb : b.extended? <;> simp [compare?, ha, hb]
    rw [hpoints]
    cases b.extended? with
    | none => simp
    | some q => simp [Extended.compare_eq_iff, eq_comm (a := q)]

theorem Number.eq_comm (a b : Number) : a.eq b = b.eq a := by
  rw [Bool.eq_iff_iff, eq_iff, eq_iff]
  exact exists_congr fun p => and_comm

theorem Number.eq_trans {a b c : Number} (h : a.eq b = true) (h' : b.eq c = true) : a.eq c = true := by
  obtain ⟨p, ha, hb⟩ := eq_iff.1 h
  obtain ⟨q, hb', hc⟩ := eq_iff.1 h'
  obtain rfl : p = q := Option.some.inj (hb.symm.trans hb')
  exact eq_iff.2 ⟨p, ha, hc⟩

namespace Key

variable {a b c : Key}

theorem same_iff : a.same b = true ↔
    (∃ m n, a.number? = some m ∧ b.number? = some n ∧ m.eq n = true) ∨ (a.number? = Option.none ∧ a = b) := by
  unfold same
  cases ha : a.number? with
  | none => simp
  | some m =>
    cases hb : b.number? with
    | some n => simp
    | none =>
      have hne : a ≠ b := fun h => by simp [h, hb] at ha
      simp [hne]

theorem same_symm (h : a.same b = true) : b.same a = true := by
  obtain ⟨m, n, ha, hb, heq⟩ | ⟨ha, rfl⟩ := same_iff.1 h
  · exact same_iff.2 (.inl ⟨n, m, hb, ha, Number.eq_comm m n ▸ heq⟩)
  · exact h

theorem same_trans (h : a.same b = true) (h' : b.same c = true) : a.same c = true := by
  obtain ⟨m, n, ha, hb, heq⟩ | ⟨-, rfl⟩ := same_iff.1 h
  · obtain ⟨n', l, hb', hc, heq'⟩ | ⟨hb', -⟩ := same_iff.1 h'
    · rw [hb] at hb'
      cases hb'
      exact same_iff.2 (.inl ⟨m, l, ha, hc, Number.eq_trans heq heq'⟩)
    · simp [hb] at hb'
  · exact h'

/-- Two keys find the same entry. -/
def Meets (a b : Key) : Prop := a = b ∨ a.same b = true

instance : Decidable (a.Meets b) := inferInstanceAs (Decidable (_ ∨ _))

theorem Meets.eq (h : a.Meets b) (hb : b.number? = Option.none) : a = b := by
  refine h.elim id fun h => ?_
  obtain ⟨m, n, -, hn, -⟩ | ⟨-, h⟩ := same_iff.1 h
  · rw [hb] at hn
    cases hn
  · exact h

theorem meets_text {s : String} : a.Meets (.text s) ↔ a = .text s := ⟨fun h => h.eq rfl, .inl⟩

theorem Meets.symm (h : a.Meets b) : b.Meets a := h.imp Eq.symm same_symm

theorem Meets.trans (h : a.Meets b) (h' : b.Meets c) : a.Meets c := by
  obtain rfl | h := h
  · exact h'
  · obtain rfl | h' := h'
    · exact .inr h
    · exact .inr (same_trans h h')

theorem Meets.same_eq (h : a.Meets b) : (fun e : Key => e.same b) = (·.same a) := by
  funext e
  obtain rfl | h := h
  · rfl
  · exact Bool.eq_iff_iff.2 ⟨fun he => same_trans he (same_symm h), fun he => same_trans he h⟩

end Key

namespace Table

variable {α : Type} {t : Table Key α} {k k' s : Key} {a : α}

theorem spelling_meets (t : Table Key α) (k : Key) : (t.spelling k).Meets k := by
  unfold spelling
  cases k.number? with
  | none => exact .inl rfl
  | some n =>
    cases hf : t.entries.find? fun e => e.1.same k with
    | none => exact .inl rfl
    | some e =>
      have hs := List.find?_some hf
      exact .inr hs

theorem keys_put (es : List (Key × α)) :
    (put s a es).map (·.1) = if s ∈ es.map (·.1) then es.map (·.1) else es.map (·.1) ++ [s] := by
  induction es with
  | nil => rfl
  | cons e es ih =>
    obtain ⟨k₀, b⟩ := e
    by_cases h : k₀ = s
    · simp [put, h]
    · simp only [put, if_neg h, List.map_cons, ih, List.mem_cons, Ne.symm h, false_or]
      split <;> rfl

theorem spelling_eq_of_number (hk : k.number? ≠ none) :
    t.spelling k = ((t.entries.map (·.1)).find? (·.same k)).getD k := by
  obtain ⟨n, hn⟩ := Option.ne_none_iff_exists'.1 hk
  rw [List.find?_map]
  unfold spelling
  rw [hn]
  rfl

theorem number?_of_meets (hk : k.number? ≠ none) (h : k'.Meets k) : k'.number? ≠ none := by
  obtain rfl | h := h
  · exact hk
  · exact number?_of_same hk h

theorem spelling_setKey_of_meets (h : k.Meets k') : (t.setKey k a).spelling k' = t.spelling k := by
  by_cases hk' : k'.number? = none
  · obtain rfl := h.eq hk'
    rw [spelling_of_number?_eq_none hk', spelling_of_number?_eq_none hk']
  -- only a NaN is not the same as itself, and that meets nothing but itself
  · have hself : k.same k = false → k' = k := fun hself => h.elim Eq.symm fun hs => by
      rw [Key.same_trans hs (Key.same_symm hs)] at hself
      cases hself
    have hspelling := spelling_eq_of_number (t := t) (number?_of_meets hk' h)
    rw [spelling_eq_of_number hk', h.same_eq]
    unfold setKey set
    rw [keys_put]
    cases hf : (t.entries.map (·.1)).find? (·.same k) with
    | some s =>
      rw [hf] at hspelling
      split <;> simp [hf, hspelling]
    | none =>
      rw [hf, Option.getD_none] at hspelling
      rw [hspelling]
      split
      · rename_i hmem
        have hfalse : k.same k = false := by simpa using List.find?_eq_none.1 hf k hmem
        rw [hf, Option.getD_none, hself hfalse]
      · rw [List.find?_append, hf]
        cases hfalse : k.same k with
        | false => simp [hfalse, hself hfalse]
        | true => simp [hfalse]

theorem spelling_setKey_of_not (h : ¬k.Meets k') : (t.setKey k a).spelling k' = t.spelling k' := by
  by_cases hk' : k'.number? = none
  · rw [spelling_of_number?_eq_none hk', spelling_of_number?_eq_none hk']
  · have hnot : (t.spelling k).same k' = false := by
      by_contra hs
      exact h ((t.spelling_meets k).symm.trans (.inr (by simpa using hs)))
    rw [spelling_eq_of_number hk', spelling_eq_of_number hk']
    unfold setKey set
    rw [keys_put]
    split
    · rfl
    · simp [hnot]

/-- A key that is set is found by the keys that meet it; the others find what they found before. -/
theorem getKey?_setKey : (t.setKey k a).getKey? k' = if k.Meets k' then some a else t.getKey? k' := by
  have hget : (t.setKey k a).getKey? k' = if t.spelling k = (t.setKey k a).spelling k' then some a
      else t.get? ((t.setKey k a).spelling k') := get?_set ..
  rw [hget]
  by_cases h : k.Meets k'
  · rw [if_pos h, spelling_setKey_of_meets h, if_pos rfl]
  · have hne : t.spelling k ≠ t.spelling k' := fun heq =>
      h ((t.spelling_meets k).symm.trans (heq ▸ t.spelling_meets k'))
    rw [if_neg h, spelling_setKey_of_not h, if_neg hne]
    rfl

theorem find?_eq_none_of_notMem {es : List (Key × α)} (h : k ∉ es.map (·.1)) : find? k es = none := by
  induction es with
  | nil => rfl
  | cons e es ih =>
    simp only [List.map_cons, List.mem_cons, not_or] at h
    simp [find?, Ne.symm h.1, ih h.2]

theorem getKey?_congr (h : k.Meets k') : t.getKey? k = t.getKey? k' := by
  by_cases heq : k = k'
  · rw [heq]
  have hs := h.resolve_left heq
  by_cases hk' : k'.number? = none
  · rw [h.eq hk']
  have absent : ∀ {k : Key}, k.same k = true → (t.entries.map (·.1)).find? (·.same k) = none → t.get? k = none :=
    fun {k} hself hf => find?_eq_none_of_notMem fun hmem => List.find?_eq_none.1 hf k hmem hself
  unfold getKey?
  rw [spelling_eq_of_number hk', spelling_eq_of_number (number?_of_meets hk' h), h.same_eq]
  cases hf : (t.entries.map (·.1)).find? (·.same k) with
  | some s => rfl
  | none =>
    have hf' := hf
    rw [← h.same_eq] at hf'
    exact (absent (Key.same_trans hs (Key.same_symm hs)) hf).trans
      (absent (Key.same_trans (Key.same_symm hs) hs) hf').symm

end Table

end QuadScript
