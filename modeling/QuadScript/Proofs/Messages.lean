import QuadScript.Proofs.Names
import QuadScript.Scope.Basic

/-!
# What the messages are about

An analysis says two sorts of things that are looked for by their messages: which returns and functions do not fit
together (`concernsReturns`), and what is declared and never used (`concernsUnused`). The other messages are remarks
(`IsRemark`). A message is told from these sorts by one of its ends, whatever name stands in it.
-/

namespace QuadScript

variable {message : String}

/-! ### Returns -/

def strayReturnMessage : String := "'return' statement outside of a function"

def noReturnMessage (name : String) : String := "Function '" ++ name ++ "' has no return statement"

/-- Whether a message is of one of these two sorts. -/
def concernsReturns (message : String) : Bool :=
  message = strayReturnMessage ||
    ("Function '".toList.isPrefixOf message.toList && "' has no return statement".toList.isSuffixOf message.toList)

theorem concernsReturns_noReturnMessage (name : String) : concernsReturns (noReturnMessage name) = true := by
  have hcloses : "' has no return statement".toList <:+ (noReturnMessage name).toList := by
    rw [noReturnMessage, String.toList_append]
    exact List.suffix_append _ _
  have hopens : "Function '".toList <+: (noReturnMessage name).toList := by
    rw [noReturnMessage, String.toList_append, String.toList_append, List.append_assoc]
    exact List.prefix_append _ _
  rw [concernsReturns, List.isPrefixOf_iff_prefix.2 hopens, List.isSuffixOf_iff_suffix.2 hcloses]
  exact Bool.or_true _

theorem ends_of_concernsReturns (h : concernsReturns message = true) :
    (message.toList.head? = some '\'' ∧ message.toList.getLast? = some 'n') ∨
      (message.toList.head? = some 'F' ∧ message.toList.getLast? = some 't') := by
  rcases Bool.or_eq_true_iff.1 h with h | h
  · have hstray : message.toList = _ := (congrArg String.toList (of_decide_eq_true h)).trans String.toList_ofList
    rw [hstray]
    exact .inl ⟨rfl, rfl⟩
  · obtain ⟨hopens, hcloses⟩ := Bool.and_eq_true_iff.1 h
    obtain ⟨t, ht⟩ := List.isPrefixOf_iff_prefix.1 hopens
    obtain ⟨t', ht'⟩ := List.isSuffixOf_iff_suffix.1 hcloses
    refine .inr ⟨?_, ?_⟩
    · rw [← ht]
      rfl
    · rw [← ht', List.getLast?_append]
      rfl

/-- Characters with which no message about returns begins. -/
def opensOther (c : Char) : Bool := c ≠ '\'' && c ≠ 'F'

/-- Characters with which no message about returns ends. -/
def closesOther (c : Char) : Bool := c ≠ 'n' && c ≠ 't'

theorem concernsReturns_of_head {c : Char} (h : message.toList.head? = some c) (hc : opensOther c = true) :
    concernsReturns message = false := by
  refine Bool.eq_false_iff.2 fun hm => ?_
  rcases ends_of_concernsReturns hm with ⟨hhead, -⟩ | ⟨hhead, -⟩
  · cases h.symm.trans hhead
    cases hc
  · cases h.symm.trans hhead
    cases hc

theorem concernsReturns_of_getLast {c : Char} (h : message.toList.getLast? = some c) (hc : closesOther c = true) :
    concernsReturns message = false := by
  refine Bool.eq_false_iff.2 fun hm => ?_
  rcases ends_of_concernsReturns hm with ⟨-, hlast⟩ | ⟨-, hlast⟩
  · cases h.symm.trans hlast
    cases hc
  · cases h.symm.trans hlast
    cases hc

-- Texts are taken as lists of characters here and below, so that their ends are found without decoding them.

theorem concernsReturns_append_right {a : String} {l : List Char} {c : Char} (hl : l.getLast? = some c)
    (hc : closesOther c = true) : concernsReturns (a ++ String.ofList l) = false := by
  refine concernsReturns_of_getLast (c := c) ?_ hc
  rw [String.toList_append, String.toList_ofList, List.getLast?_append, hl]
  rfl

theorem concernsReturns_count (a : String) (k : Nat) : concernsReturns (a ++ toString k) = false := by
  have hlast : ∃ c : Char, (a ++ toString k).toList.getLast? = some c ∧ c.isDigit := by
    rw [String.toList_append, Nat.toString_eq_ofList_toDigits, String.toList_ofList, List.getLast?_append,
      List.getLast?_eq_some_getLast Nat.toDigits_ne_nil]
    exact ⟨_, rfl, Nat.isDigit_of_mem_toDigits (by decide) (by decide) (List.getLast_mem _)⟩
  obtain ⟨c, hlast, hdigit⟩ := hlast
  refine concernsReturns_of_getLast hlast ?_
  simp only [closesOther, Bool.and_eq_true, decide_eq_true_eq]
  constructor
  · rintro rfl
    exact absurd hdigit (by decide)
  · rintro rfl
    exact absurd hdigit (by decide)

/-! ### Unused declarations -/

def unusedMessage (name : String) : String := "'" ++ name ++ "' is declared but its value is never used"

/-- How such a message ends. -/
def unusedEnding : List Char := "' is declared but its value is never used".toList

/-- Whether a message is of this sort. -/
def concernsUnused (message : String) : Bool :=
  ['\''].isPrefixOf message.toList && unusedEnding.isSuffixOf message.toList

theorem concernsUnused_unusedMessage (name : String) : concernsUnused (unusedMessage name) = true := by
  have hopens : ['\''] <+: (unusedMessage name).toList := by
    rw [unusedMessage, String.toList_append, String.toList_append, List.append_assoc]
    exact List.prefix_append _ _
  have hcloses : unusedEnding <:+ (unusedMessage name).toList := by
    rw [unusedMessage, String.toList_append]
    exact List.suffix_append _ _
  rw [concernsUnused, List.isPrefixOf_iff_prefix.2 hopens, List.isSuffixOf_iff_suffix.2 hcloses]
  rfl

theorem concernsUnused_of_head {c : Char} (h : message.toList.head? = some c) (hc : c ≠ '\'') :
    concernsUnused message = false := by
  refine Bool.eq_false_iff.2 fun hm => ?_
  obtain ⟨t, ht⟩ := List.isPrefixOf_iff_prefix.1 (Bool.and_eq_true_iff.1 hm).1
  rw [← ht] at h
  cases h
  exact hc rfl

/-- A message with another end: of two ends of one message, the longer ends with the shorter. -/
theorem concernsUnused_of_suffix {l : List Char} (h : l <:+ message.toList)
    (hl : (l.isSuffixOf unusedEnding || unusedEnding.isSuffixOf l) = false) : concernsUnused message = false := by
  refine Bool.eq_false_iff.2 fun hm => ?_
  have hends : unusedEnding <:+ message.toList := List.isSuffixOf_iff_suffix.1 (Bool.and_eq_true_iff.1 hm).2
  obtain ⟨hshort, hlong⟩ := Bool.or_eq_false_iff.1 hl
  rcases List.suffix_or_suffix_of_suffix hends h with h | h
  · exact Bool.eq_false_iff.1 hlong (List.isSuffixOf_iff_suffix.2 h)
  · exact Bool.eq_false_iff.1 hshort (List.isSuffixOf_iff_suffix.2 h)

theorem concernsUnused_append_right {a : String} {l : List Char}
    (hl : (l.isSuffixOf unusedEnding || unusedEnding.isSuffixOf l) = false) :
    concernsUnused (a ++ String.ofList l) = false := by
  refine concernsUnused_of_suffix ?_ hl
  rw [String.toList_append, String.toList_ofList]
  exact List.suffix_append _ _

theorem not_concernsUnused_strayReturn : concernsUnused strayReturnMessage = false := by
  have hend : "function".toList <:+ strayReturnMessage.toList := List.isSuffixOf_iff_suffix.1 rfl
  exact concernsUnused_of_suffix hend rfl

theorem not_concernsUnused_noReturn (name : String) : concernsUnused (noReturnMessage name) = false :=
  concernsUnused_append_right rfl

/-! ### Remarks -/

/-- A message about neither returns nor unused declarations. -/
structure IsRemark (message : String) : Prop where
  returns : concernsReturns message = false
  unused : concernsUnused message = false

namespace IsRemark

theorem of_head {c : Char} (h : message.toList.head? = some c) (hc : opensOther c = true) : IsRemark message where
  returns := concernsReturns_of_head h hc
  unused := by
    refine concernsUnused_of_head h ?_
    rintro rfl
    cases hc

theorem literal {c : Char} {l : List Char} (hc : opensOther c = true) : IsRemark (String.ofList (c :: l)) := by
  refine of_head (c := c) ?_ hc
  rw [String.toList_ofList, List.head?_cons]

theorem opening {b : String} {c : Char} {l : List Char} (hc : opensOther c = true) :
    IsRemark (String.ofList (c :: l) ++ b) := by
  refine of_head (c := c) (head_append ?_) hc
  rw [String.toList_ofList, List.head?_cons]

theorem naming {a : String} {l : List Char} {c : Char} (hl : l.getLast? = some c) (hc : closesOther c = true)
    (hu : (l.isSuffixOf unusedEnding || unusedEnding.isSuffixOf l) = false) : IsRemark (a ++ String.ofList l) where
  returns := concernsReturns_append_right hl hc
  unused := concernsUnused_append_right hu

theorem count {a b : String} {c : Char} {l : List Char} {k : Nat} (hc : c ≠ '\'') :
    IsRemark (String.ofList (c :: l) ++ a ++ (b ++ toString k)) where
  returns := by
    rw [← String.append_assoc]
    exact concernsReturns_count _ _
  unused := by
    refine concernsUnused_of_head (c := c) (head_append (head_append ?_)) hc
    rw [String.toList_ofList, List.head?_cons]

end IsRemark

theorem Conflict.isRemark (c : Conflict) : IsRemark c.message := by
  cases c with
  | blockScoped name => exact .naming rfl rfl rfl
  | declared name => exact .naming rfl rfl rfl

end QuadScript
