import QuadScript.Lower.Basic
import QuadScript.Machine.Basic

/-!
# Generated names

Temporaries, labels and join variables are numbered, and their first characters tell the sorts of
names apart: `t` for temporaries, `L` for labels of branches and loops, `F` and `E` for the labels of
functions, `%` for join variables. A mangled name of the program is never that of a temporary.
-/

namespace QuadScript

/-- The name of that number after a mark. -/
def numbered (mark : String) (k : Nat) : String := mark ++ toString k

abbrev tempName : Nat → String := numbered "t"
abbrev labelName : Nat → String := numbered "L"
abbrev joinName : Nat → String := numbered "%j"

theorem toList_numbered (mark : String) (k : Nat) :
    (numbered mark k).toList = mark.toList ++ Nat.toDigits 10 k := by
  rw [numbered, String.toList_append, Nat.toString_eq_ofList_toDigits, String.toList_ofList]

theorem numbered_injective (mark : String) : Function.Injective (numbered mark) := by
  intro j k h
  have h' := congrArg String.toList h
  rw [toList_numbered, toList_numbered, List.append_cancel_left_eq] at h'
  rw [← Nat.ofDigitChars_ten_toDigits (n := j), h', Nat.ofDigitChars_ten_toDigits]

/-! ### Temporaries -/

theorem isDecimal_of_isDigit {c : Char} (h : c.isDigit) : Text.isDecimal c := by
  simp only [Char.isDigit, Bool.and_eq_true, decide_eq_true_eq, ge_iff_le, UInt32.le_iff_toNat_le] at h
  have h1 : 0x30 ≤ c.toNat := h.1
  have h2 : c.toNat < 0x30 + 10 := Nat.lt_succ_of_le h.2
  simp [Text.isDecimal, Text.decimal?, Text.zeros, h1, h2]

theorem isTempName_tempName (k : Nat) : isTempName (tempName k) = true := by
  have hd : ∀ c ∈ Nat.toDigits 10 k, Text.isDecimal c := fun c hc =>
    isDecimal_of_isDigit (Nat.isDigit_of_mem_toDigits (by decide) (by decide) hc)
  have hne : Nat.toDigits 10 k ≠ [] := Nat.toDigits_ne_nil
  unfold isTempName
  rw [toList_numbered]
  cases h : Nat.toDigits 10 k with
  | nil => exact absurd h hne
  | cons c cs =>
    rw [h] at hd
    simpa using hd

theorem head_of_isTempName {s : String} (h : isTempName s = true) : s.toList.head? = some 't' := by
  unfold isTempName at h; split at h
  · rename_i hs; rw [hs]; rfl
  · cases h

theorem isTempName_eq_false {s : String} (h : s.toList.head? ≠ some 't') : isTempName s = false := by
  cases hs : isTempName s with
  | false => rfl
  | true => exact absurd (head_of_isTempName hs) h

theorem head_append {a b : String} {c : Char} (h : a.toList.head? = some c) :
    (a ++ b).toList.head? = some c := by
  rw [String.toList_append, List.head?_append, h]; rfl

theorem head_labelName (k : Nat) : (labelName k).toList.head? = some 'L' := head_append rfl

theorem head_joinName (k : Nat) : (joinName k).toList.head? = some '%' := head_append rfl

theorem head_functionMark (f : String) : (functionMark ++ f).toList.head? = some 'F' := head_append rfl

theorem head_endMark (f : String) : (endMark ++ f).toList.head? = some 'E' := head_append rfl

theorem head_consoleMark (f : String) : (consoleMark ++ f).toList.head? = some 'c' := head_append rfl

theorem ne_of_head {a b : String} {c d : Char} (ha : a.toList.head? = some c)
    (hb : b.toList.head? = some d) (h : c ≠ d) : a ≠ b := by
  rintro rfl
  exact h (Option.some.inj (ha.symm.trans hb))

theorem functionMark_injective {f g : String} (h : functionMark ++ f = functionMark ++ g) : f = g := by
  simpa [← String.toList_inj] using h

theorem endMark_injective {f g : String} (h : endMark ++ f = endMark ++ g) : f = g := by
  simpa [← String.toList_inj] using h

theorem isTempName_mangle (s : String) : isTempName (mangle s) = false := by
  unfold mangle; split
  · exact isTempName_eq_false (by rw [head_append (c := '@') rfl]; decide)
  · rename_i h; simpa using h

/-! ### Names that a program may use -/

/-- Whether a name has none of the marks that generated names start with. -/
def isSourceName (s : String) : Bool :=
  match s.toList.head? with
  | some c => c ≠ '@' && c ≠ '%' && c ≠ '"'
  | none => true

theorem head_mangle_of_temp {s : String} (h : isTempName s = true) :
    (mangle s).toList.head? = some '@' := by
  rw [mangle, if_pos h]; exact head_append rfl

theorem isSourceName_head {s : String} {c : Char} (h : isSourceName s = true)
    (hc : s.toList.head? = some c) : c ≠ '@' ∧ c ≠ '%' ∧ c ≠ '"' := by
  unfold isSourceName at h
  rw [hc] at h
  simpa [and_assoc] using h

theorem mangle_injective {x y : String} (hx : isSourceName x = true) (hy : isSourceName y = true)
    (h : mangle x = mangle y) : x = y := by
  by_cases hx' : isTempName x = true <;> by_cases hy' : isTempName y = true
  · rw [mangle, mangle, if_pos hx', if_pos hy'] at h
    simpa [← String.toList_inj] using h
  · have hm := head_mangle_of_temp hx'
    rw [h, mangle, if_neg hy'] at hm
    exact absurd rfl (isSourceName_head hy hm).1
  · have hm := head_mangle_of_temp hy'
    rw [← h, mangle, if_neg hx'] at hm
    exact absurd rfl (isSourceName_head hx hm).1
  · rwa [mangle, mangle, if_neg hx', if_neg hy'] at h

theorem mangle_ne_tempName (x : String) (k : Nat) : mangle x ≠ tempName k := by
  intro h
  have ht := isTempName_mangle x
  rw [h, isTempName_tempName] at ht
  cases ht

/-- The first character of a mangled name is not that of a join variable or of a literal text. -/
theorem head_mangle {x : String} (hx : isSourceName x = true) :
    (mangle x).toList.head? ≠ some '%' ∧ (mangle x).toList.head? ≠ some '"' := by
  by_cases h : isTempName x = true
  · rw [head_mangle_of_temp h]; decide
  · rw [mangle, if_neg h]
    exact ⟨fun hc => (isSourceName_head hx hc).2.1 rfl, fun hc => (isSourceName_head hx hc).2.2 rfl⟩

theorem mangle_ne_joinName {x : String} (hx : isSourceName x = true) (k : Nat) :
    mangle x ≠ joinName k := by
  intro h
  exact (head_mangle hx).1 (h ▸ head_joinName k)

theorem ofSymbol_mangle {x : String} (hx : isSourceName x = true) :
    Operand.ofSymbol (mangle x) = .name (mangle x) := by
  unfold Operand.ofSymbol unquoteSymbol?
  split
  · rename_i t ht; split at ht
    · rename_i h; exact absurd (by rw [h]; rfl) (head_mangle hx).2
    · cases ht
  · rfl

/-! ### Names of constants -/

theorem namedConstant?_of_isSome {x : String} (h : (namedConstant? x).isSome) :
    isSourceName x = true ∧ mangle x = x := by
  unfold namedConstant? at h
  split at h <;> first | decide | cases h

theorem namedConstant?_mangle (x : String) : namedConstant? (mangle x) = namedConstant? x := by
  by_cases hx : isTempName x = true
  · have hne : namedConstant? x = none := by
      cases hc : namedConstant? x with
      | none => rfl
      | some v =>
        have hm := (namedConstant?_of_isSome (by rw [hc]; rfl)).2
        rw [mangle, if_pos hx] at hm
        simpa using congrArg String.length hm
    rw [hne]
    cases hc : namedConstant? (mangle x) with
    | none => rfl
    | some v =>
      have hm := (namedConstant?_of_isSome (by rw [hc]; rfl)).1
      exact absurd rfl (isSourceName_head hm (head_mangle_of_temp hx)).1
  · rw [mangle, if_neg hx]

end QuadScript
