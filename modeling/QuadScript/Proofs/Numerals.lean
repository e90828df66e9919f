import QuadScript.Machine.Intrinsic
import QuadScript.Proofs.Equality
import QuadScript.Proofs.Names
import Mathlib.Data.List.Basic
import Mathlib.Data.Nat.Digits.Defs

/-!
# Numerals in texts

A text that is a number with white space around it is read without the white space. An exact integer that is written
out and read again is the same integer, also if other text follows it and only the start is read
(`Value.int_read_back`). A hexadecimal numeral is read as what its digits denote, unless one of them is the letter `e`
in either case (`Value.toNumber_hexadecimal`): that letter makes the text a decimal with an exponent, which the `x`
then spoils.
-/

namespace QuadScript

/-! ### White space -/

namespace Text

variable {u w cs : List Char}

/-- A text that is white space only. -/
def AllBlank (s : String) : Prop := ∀ c ∈ s.toList, isBlank c = true

instance decidableAllBlank (s : String) : Decidable (AllBlank s) :=
  decidable_of_iff (s.toList.all isBlank = true) List.all_eq_true

theorem stripLeft_append (hu : ∀ c ∈ u, isBlank c = true) (hcs : ∀ c ∈ cs.head?, isBlank c = false) :
    stripLeft (u ++ cs) = cs := by
  rw [stripLeft, List.dropWhile_append_of_pos hu]
  cases cs with
  | nil => rfl
  | cons c cs => exact List.dropWhile_cons_of_neg (by simp [hcs c rfl])

theorem strip_padded (hu : ∀ c ∈ u, isBlank c = true) (hw : ∀ c ∈ w, isBlank c = true) (hne : cs ≠ [])
    (hcs : ∀ c ∈ cs, isBlank c = false) : strip (u ++ cs ++ w) = cs := by
  have hleft : stripLeft (u ++ (cs ++ w)) = cs ++ w := by
    obtain ⟨d, ds, rfl⟩ := List.exists_cons_of_ne_nil hne
    refine stripLeft_append hu ?_
    rintro c ⟨⟩
    exact hcs d List.mem_cons_self
  have hright : stripLeft (w.reverse ++ cs.reverse) = cs.reverse := by
    refine stripLeft_append (fun c hc => hw c (List.mem_reverse.1 hc)) fun c hc => hcs c ?_
    exact List.mem_reverse.1 (List.mem_of_mem_head? hc)
  rw [strip, List.append_assoc, hleft, List.reverse_append, hright, List.reverse_reverse]

/-! ### Digits -/

variable {c : Char}

theorem toNat_of_isDigit (h : c.isDigit = true) : 48 ≤ c.toNat ∧ c.toNat ≤ 57 := by
  simpa [Char.isDigit, UInt32.le_iff_toNat_le] using h

theorem decimal?_of_isDigit (h : c.isDigit = true) : decimal? c = some (c.toNat - '0'.toNat) := by
  obtain ⟨hlow, hhigh⟩ := toNat_of_isDigit h
  have hlt : c.toNat < 48 + 10 := by omega
  simp [decimal?, zeros, hlow, hlt]

theorem isBlank_of_isDigit (h : c.isDigit = true) : isBlank c = false := by
  obtain ⟨hlow, hhigh⟩ := toNat_of_isDigit h
  simp only [isBlank, blankRuns, List.any_cons, List.any_nil, Bool.or_false, Bool.or_eq_false_iff, Bool.and_eq_false_iff,
    decide_eq_false_iff_not]
  omega

theorem ofDigits_eq (base : Nat) (ds : List Nat) : ofDigits base ds = Nat.ofDigits base ds.reverse := by
  rw [ofDigits, Nat.ofDigits_eq_foldr, List.foldr_reverse]
  congr 1
  funext n d
  simp [Nat.add_comm, Nat.mul_comm]

theorem ofDigits_map (cs : List Char) :
    ofDigits 10 (cs.map fun c => c.toNat - '0'.toNat) = Nat.ofDigitChars 10 cs 0 := by
  rw [ofDigits, List.foldl_map, Nat.ofDigitChars]
  simp only [Nat.mul_comm]

end Text

namespace Numeral

variable {value? : Char → Option Nat} {v : Char → Nat} {c : Char} {cs s : List Char}

theorem separated?_eq_map (hne : cs ≠ []) (h : ∀ c ∈ cs, c ≠ '_' ∧ value? c = some (v c)) :
    separated? value? cs = some (cs.map v) := by
  fun_induction separated? value? cs with
  | case1 => exact absurd rfl hne
  | case2 c => simp [(h c List.mem_cons_self).2]
  | case3 c cs ih => exact absurd rfl (h '_' (by simp)).1
  | case4 c cs hcs _ ih =>
    rw [(h c List.mem_cons_self).2, ih hcs fun d hd => h d (List.mem_cons_of_mem _ hd)]
    rfl

theorem separated?_eq_none (hc : value? c = none) : separated? value? (c :: cs) = none := by
  rcases cs with _ | ⟨d, cs⟩
  · simp [separated?, hc]
  · by_cases hd : d = '_'
    · subst hd
      simp [separated?, hc]
    · rw [separated?]
      · simp [hc]
      all_goals simp [hd]

/-! ### Integers -/

/-- The sign of an integer and its digits. -/
def intDigits (n : Int) : Integer := ⟨n < 0, (Nat.toDigits 10 n.natAbs).map fun c => c.toNat - '0'.toNat⟩

/-- An integer is written with a minus sign if it is negative, and its digits. -/
def intText (n : Int) : List Char := (if n < 0 then ['-'] else []) ++ Nat.toDigits 10 n.natAbs

theorem toList_toString (n : Int) : (toString n).toList = intText n := by
  rw [Int.toString_eq_repr, Int.repr_eq_if, intText]
  by_cases hneg : n < 0
  · have habs : (-n).toNat = n.natAbs := by omega
    rw [if_pos hneg, if_neg (Int.not_le.2 hneg), String.toList_append, Nat.toList_repr, habs]
    rfl
  · have habs : n.toNat = n.natAbs := by omega
    rw [if_neg hneg, if_pos (Int.not_lt.1 hneg), Nat.toList_repr, habs]
    rfl

theorem isDigit_of_mem {m : Nat} (hc : c ∈ Nat.toDigits 10 m) : c.isDigit = true :=
  Nat.isDigit_of_mem_toDigits (by decide) (by decide) hc

theorem isDigit_or_of_mem {n : Int} (hc : c ∈ intText n) : c = '-' ∨ c.isDigit = true := by
  rcases List.mem_append.1 hc with hc | hc
  · split at hc
    · exact .inl (List.mem_singleton.1 hc)
    · cases hc
  · exact .inr (isDigit_of_mem hc)

theorem intText_ne_nil (n : Int) : intText n ≠ [] := by simp [intText, Nat.toDigits_ne_nil]

theorem sign_of_isDigit (hne : cs ≠ []) (h : ∀ c ∈ cs, c.isDigit = true) : sign (cs ++ s) = (false, cs ++ s) := by
  obtain ⟨c, cs, rfl⟩ := List.exists_cons_of_ne_nil hne
  have hc := h c List.mem_cons_self
  rw [List.cons_append]
  unfold sign
  split
  · rename_i heq
    cases heq
    cases hc
  · rename_i heq
    cases heq
    cases hc
  · rfl

theorem sign_intText (n : Int) (s : List Char) :
    sign (intText n ++ s) = (decide (n < 0), Nat.toDigits 10 n.natAbs ++ s) := by
  rw [intText]
  split
  · rename_i hneg
    rw [decide_eq_true hneg]
    rfl
  · rename_i hneg
    rw [decide_eq_false hneg]
    exact sign_of_isDigit Nat.toDigits_ne_nil fun c => isDigit_of_mem

theorem value_intDigits (n : Int) : (intDigits n).value = n := by
  rw [intDigits, Integer.value, Text.ofDigits_map, Nat.ofDigitChars_ten_toDigits]
  simp only [decide_eq_true_eq]
  split <;> omega

theorem integer?_intText (n : Int) : integer? (intText n) = some (intDigits n) := by
  have hsign := sign_intText n []
  rw [List.append_nil, List.append_nil] at hsign
  have hdigits : separated? Text.decimal? (Nat.toDigits 10 n.natAbs) =
      some ((Nat.toDigits 10 n.natAbs).map fun c => c.toNat - '0'.toNat) := by
    refine separated?_eq_map Nat.toDigits_ne_nil fun c hc => ⟨?_, Text.decimal?_of_isDigit (isDigit_of_mem hc)⟩
    rintro rfl
    cases isDigit_of_mem hc
  simp only [integer?, hsign, hdigits, Option.map_some, intDigits]

theorem leadingDigits_toDigits {m : Nat} (hs : ∀ c ∈ s.head?, Text.isDecimal c = false) :
    leadingDigits (Nat.toDigits 10 m ++ s) = (Nat.toDigits 10 m).map fun c => c.toNat - '0'.toNat := by
  have hrest : s.takeWhile Text.isDecimal = [] := by
    cases s with
    | nil => rfl
    | cons c s => exact List.takeWhile_cons_of_neg (by simp [hs c rfl])
  rw [leadingDigits, List.takeWhile_append_of_pos fun c hc => isDecimal_of_isDigit (isDigit_of_mem hc), hrest,
    List.append_nil, ← List.filterMap_eq_map]
  exact List.filterMap_congr fun c hc => Text.decimal?_of_isDigit (isDigit_of_mem hc)

theorem isBlank_of_mem {n : Int} (hc : c ∈ intText n) : Text.isBlank c = false := by
  rcases isDigit_or_of_mem hc with rfl | hdigit
  · decide
  · exact Text.isBlank_of_isDigit hdigit

theorem leadingInteger?_intText {u : List Char} (n : Int) (hu : ∀ c ∈ u, Text.isBlank c = true)
    (hs : ∀ c ∈ s.head?, Text.isDecimal c = false) : leadingInteger? (u ++ (intText n ++ s)) = some (intDigits n) := by
  have hstrip : Text.stripLeft (u ++ (intText n ++ s)) = intText n ++ s := by
    refine Text.stripLeft_append hu fun c hc => ?_
    obtain ⟨d, ds, hd⟩ := List.exists_cons_of_ne_nil (intText_ne_nil n)
    rw [hd] at hc
    cases hc
    exact isBlank_of_mem (hd ▸ List.mem_cons_self)
  obtain ⟨d, ds, hd⟩ := List.exists_cons_of_ne_nil (Nat.toDigits_ne_nil (b := 10) (n := n.natAbs))
  have hdigits := leadingDigits_toDigits (m := n.natAbs) hs
  rw [hd] at hdigits
  simp only [leadingInteger?, hstrip, sign_intText, hd, hdigits, intDigits, List.map_cons]

theorem length_intDigits {n : Int} (hn : n.natAbs ≤ Number.exactLimit) : (intDigits n).digits.length ≤ digitLimit := by
  have hlimit : Number.exactLimit < 10 ^ 16 := by decide
  have hlength : (Nat.toDigits 10 n.natAbs).length ≤ 16 :=
    (Nat.length_toDigits_le_iff (by decide) (by decide)).2 (Nat.lt_of_le_of_lt hn hlimit)
  rw [intDigits, List.length_map]
  exact Nat.le_trans hlength (by decide)

end Numeral

namespace Value

theorem intNumber_intText {n : Int} (hn : n.natAbs ≤ Number.exactLimit) : intNumber (Numeral.intText n) = .int n := by
  rw [intNumber, Numeral.integer?_intText]
  dsimp only
  rw [if_neg (Nat.not_lt.2 (Numeral.length_intDigits hn)), Numeral.value_intDigits, Number.collapse, if_pos hn]

/-- The text of an integer is read as one: it has neither a letter nor a point. -/
theorem plainNumber_intText (n : Int) : plainNumber (Numeral.intText n) = intNumber (Numeral.intText n) := by
  have hother : ∀ {c : Char}, c ≠ '-' → c.isDigit = false → c ∉ Numeral.intText n := fun hminus hdigit hc =>
    (Numeral.isDigit_or_of_mem hc).elim hminus fun h => by rw [hdigit] at h; cases h
  have hword : ∀ {cs : List Char}, 'I' ∈ cs → Numeral.intText n ≠ cs := fun hI h =>
    hother (by decide) (by decide) (h ▸ hI)
  have hplain : (Numeral.intText n).any (fun c => c = '.' || Numeral.isExponentMark c) = false := by
    rw [List.any_eq_false]
    intro c hc hmark
    simp only [Numeral.isExponentMark, Bool.or_eq_true, decide_eq_true_eq] at hmark
    rcases hmark with rfl | rfl | rfl <;> exact hother (by decide) (by decide) hc
  unfold plainNumber
  rw [if_neg (Numeral.intText_ne_nil n), if_neg, if_neg (hword (by decide)), hplain, if_neg Bool.false_ne_true]
  · split
    · rename_i heq
      exact absurd (heq ▸ List.mem_cons_of_mem _ List.mem_cons_self) (hother (c := 'x') (by decide) (by decide))
    · rename_i heq
      exact absurd (heq ▸ List.mem_cons_of_mem _ List.mem_cons_self) (hother (c := 'X') (by decide) (by decide))
    · rfl
  · simp only [Bool.or_eq_true, decide_eq_true_eq, not_or]
    exact ⟨hword (by decide), hword (by decide)⟩

/-- An exact integer that is written out is read back: as a number, with white space around it, and as the integer at
the start of a text, whatever follows it but a digit. -/
theorem int_read_back {n : Int} (hn : n.natAbs ≤ Number.exactLimit) {u w s : String} (hu : Text.AllBlank u)
    (hw : Text.AllBlank w) (hs : ∀ c ∈ s.toList.head?, Text.isDecimal c = false) (args : List Value) (answers : Answers) :
    (Value.str (u ++ (Value.num (.int n)).toText ++ w)).toNumber = .int n ∧
      Intrinsic.parseInt.eval (.str (u ++ (Value.num (.int n)).toText ++ s) :: args) answers =
        .ok (.num (.int n), answers) := by
  have htext : (Value.num (.int n)).toText.toList = Numeral.intText n := by
    rw [toText, numberText, Number.collapse, if_pos hn]
    exact Numeral.toList_toString n
  constructor
  · rw [toNumber, String.toList_append, String.toList_append, htext,
      Text.strip_padded hu hw (Numeral.intText_ne_nil n) fun c => Numeral.isBlank_of_mem, plainNumber_intText,
      intNumber_intText hn]
  · have hread : Intrinsic.readInt (u ++ (Value.num (.int n)).toText ++ s) = .ok (.int n) := by
      rw [Intrinsic.readInt, String.toList_append, String.toList_append, htext, List.append_assoc,
        Numeral.leadingInteger?_intText n hu hs]
      dsimp only
      rw [if_neg (Nat.not_lt.2 (Numeral.length_intDigits hn)), Numeral.value_intDigits]
    have heval : Intrinsic.parseInt.eval (.str (u ++ (Value.num (.int n)).toText ++ s) :: args) answers =
        (Intrinsic.readInt (u ++ (Value.num (.int n)).toText ++ s) >>= fun k => .ok (.num k, answers)) := rfl
    rw [heval, hread]
    rfl

theorem int_read_back_least :
    Text.AllBlank " " ∧ Text.AllBlank "\n" ∧ (∀ c ∈ "px9".toList.head?, Text.isDecimal c = false) ∧
      (Value.str (" " ++ (Value.num (.int (-9007199254740992))).toText ++ "\n")).toNumber = .int (-9007199254740992) ∧
      Intrinsic.parseInt.eval [.str (" " ++ (Value.num (.int (-9007199254740992))).toText ++ "px9")] .nobody =
        .ok (.num (.int (-9007199254740992)), .nobody) := by
  have hu : Text.AllBlank " " := by decide
  have hw : Text.AllBlank "\n" := by decide
  have hhead : "px9".toList.head? = some 'p' := by decide
  have hs : ∀ c ∈ "px9".toList.head?, Text.isDecimal c = false := by
    intro c hc
    cases hhead.symm.trans hc
    decide
  exact ⟨hu, hw, hs, int_read_back (n := -9007199254740992) (by decide) hu hw hs [] .nobody⟩

end Value

/-! ### Hexadecimal numerals -/

namespace Numeral

variable {c : Char} {cs : List Char}

/-- The sixteen digits, each at the place of its value. -/
def hexDigits : List Char := ['0', '1', '2', '3', '4', '5', '6', '7', '8', '9', 'a', 'b', 'c', 'd', 'e', 'f']

/-- The value of a hexadecimal digit in either case. -/
def hexValue (c : Char) : Nat := hexDigits.idxOf c.toLower

/-- A text of hexadecimal digits, at least one. -/
structure IsHexadecimal (s : String) : Prop where
  ne_empty : s ≠ ""
  digits : ∀ c ∈ s.toList, c.toLower ∈ hexDigits

theorem isHexadecimal_iff {s : String} :
    IsHexadecimal s ↔ s ≠ "" ∧ (s.toList.all fun c => hexDigits.contains c.toLower) = true := by
  simp only [List.all_eq_true, List.contains_iff_mem]
  exact ⟨fun h => ⟨h.ne_empty, h.digits⟩, fun h => ⟨h.1, h.2⟩⟩

instance decidableIsHexadecimal (s : String) : Decidable (IsHexadecimal s) := decidable_of_iff _ isHexadecimal_iff.symm

/-- The number that hexadecimal digits denote, the last digit the lowest. -/
def hexDenoted (cs : List Char) : Nat := Nat.ofDigits 16 (cs.reverse.map hexValue)

/-- The digits stand below 128, so what holds of all of them is checked there. -/
theorem toNat_lt_of_hexDigit (h : c.toLower ∈ hexDigits) : c.toNat < 128 := by
  have hlow : (hexDigits.all fun d => d.toNat < 128) = true := by decide
  unfold Char.toLower at h
  split at h
  · rename_i hupper
    exact Nat.lt_of_le_of_lt hupper.2 (by decide)
  · exact of_decide_eq_true (List.all_eq_true.1 hlow c h)

/-- What reading has to know of a hexadecimal digit. -/
structure HexFacts (c : Char) : Prop where
  value : Text.hexadecimal? c = some (hexValue c)
  mark : isExponentMark c = true ↔ c.toLower = 'e'
  not_blank : Text.isBlank c = false
  not_point : c ≠ '.'
  not_underscore : c ≠ '_'

theorem hexFacts (h : c.toLower ∈ hexDigits) : HexFacts c := by
  have hall : ∀ k < 128, (Char.ofNat k).toLower ∈ hexDigits →
      Text.hexadecimal? (Char.ofNat k) = some (hexValue (Char.ofNat k)) ∧
        (isExponentMark (Char.ofNat k) = true ↔ (Char.ofNat k).toLower = 'e') ∧
        Text.isBlank (Char.ofNat k) = false ∧ Char.ofNat k ≠ '.' ∧ Char.ofNat k ≠ '_' := by decide +kernel
  have hc := hall c.toNat (toNat_lt_of_hexDigit h)
  rw [Char.ofNat_toNat] at hc
  obtain ⟨hvalue, hmark, hblank, hpoint, hunderscore⟩ := hc h
  exact ⟨hvalue, hmark, hblank, hpoint, hunderscore⟩

theorem hexadecimal?_eq (hne : cs ≠ []) (h : ∀ c ∈ cs, c.toLower ∈ hexDigits) :
    hexadecimal? cs = some (hexDenoted cs) := by
  have hdigits : separated? Text.hexadecimal? cs = some (cs.map hexValue) :=
    separated?_eq_map hne fun c hc => ⟨(hexFacts (h c hc)).not_underscore, (hexFacts (h c hc)).value⟩
  unfold hexadecimal?
  split
  · exact absurd rfl (hexFacts (h '_' List.mem_cons_self)).not_underscore
  · dsimp only
    rw [hdigits, Option.map_some, Text.ofDigits_eq, hexDenoted, List.map_reverse]

theorem decimal?_hex (cs : List Char) : decimal? ('0' :: 'x' :: cs) = none := by
  have hx : Text.decimal? 'x' = none := by decide
  have hwhole : ∀ l, digits? ('0' :: 'x' :: l) = none := fun l => by
    have hrest : separated? Text.decimal? ('x' :: l) = none := separated?_eq_none hx
    rw [digits?, separated?, hrest]
    all_goals simp
  have hsign : sign ('0' :: 'x' :: cs) = (false, '0' :: 'x' :: cs) := rfl
  have hmantissa : ('0' :: 'x' :: cs).takeWhile (!isExponentMark ·) =
      '0' :: 'x' :: cs.takeWhile (!isExponentMark ·) := rfl
  have hdigits : ∀ l : List Char, ('0' :: 'x' :: l).takeWhile (fun c => decide (c ≠ '.')) =
      '0' :: 'x' :: l.takeWhile (fun c => decide (c ≠ '.')) := fun _ => rfl
  simp only [decimal?, hsign, hmantissa, hdigits, hwhole]
  rfl

end Numeral

namespace Double

theorem isNaN_ofRatio {n d : Nat} (negative : Bool) : (ofRatio negative n d).isNaN = false := by
  by_cases h : ratioBits n d < infinityBits
  · have hbits := (ofRatio_finite negative h).1
    have hinfinity : infinityBits = 2047 * 2 ^ 52 := rfl
    rw [← Bool.not_eq_true, isNaN_iff, read]
    simp only [Nat.pow_eq]
    rw [if_neg (by omega)]
    split <;> simp
  · unfold ofRatio
    dsimp only
    rw [Nat.min_eq_right (Nat.le_of_not_lt h)]
    cases negative <;> decide

end Double

theorem Number.isNaN_collapse (n : Int) : (Number.collapse (.int n)).isNaN = false := by
  rw [collapse]
  split
  · rfl
  · exact Double.isNaN_ofRatio _

namespace Value

variable {cs : List Char}

/-- A hexadecimal numeral is read in base sixteen, or as NaN if the letter `e` is among its digits. -/
theorem plainNumber_hexadecimal (hne : cs ≠ []) (h : ∀ c ∈ cs, c.toLower ∈ Numeral.hexDigits) :
    plainNumber ('0' :: 'x' :: cs) = if cs.any Numeral.isExponentMark then .nan else
      Number.collapse (.int (Numeral.hexDenoted cs)) := by
  have hmark : ('0' :: 'x' :: cs).any (fun c => c = '.' || Numeral.isExponentMark c) =
      cs.any Numeral.isExponentMark := by
    have hlead : ∀ l : List Char, ('0' :: 'x' :: l).any (fun c => c = '.' || Numeral.isExponentMark c) =
        l.any (fun c => c = '.' || Numeral.isExponentMark c) := fun _ => rfl
    rw [hlead, Bool.eq_iff_iff, List.any_eq_true, List.any_eq_true]
    refine exists_congr fun c => and_congr_right fun hc => ?_
    rw [decide_eq_false (Numeral.hexFacts (h c hc)).not_point, Bool.false_or]
  have hword : ∀ {w : List Char}, w.head? ≠ some '0' → '0' :: 'x' :: cs ≠ w := by
    rintro _ hw rfl
    exact hw rfl
  unfold plainNumber
  rw [if_neg (List.cons_ne_nil _ _), if_neg, if_neg (hword (by decide)), hmark]
  · cases cs.any Numeral.isExponentMark with
    | true =>
      rw [if_pos rfl, if_pos rfl, floatNumber, Numeral.decimal?_hex]
    | false =>
      rw [if_neg Bool.false_ne_true, if_neg Bool.false_ne_true]
      show hexNumber cs = _
      rw [hexNumber, Numeral.hexadecimal?_eq hne h]
  · simp only [Bool.or_eq_true, decide_eq_true_eq, not_or]
    exact ⟨hword (by decide), hword (by decide)⟩

/-- A hexadecimal numeral with white space around it is read as what its digits denote, exactly if the letter `e` is
not among them in either case. With that letter it is NaN. -/
theorem toNumber_hexadecimal {u h w : String} (hu : Text.AllBlank u) (hw : Text.AllBlank w)
    (hh : Numeral.IsHexadecimal h) :
    ((Value.str (u ++ "0x" ++ h ++ w)).toNumber = Number.collapse (.int (Numeral.hexDenoted h.toList)) ↔
        ∀ c ∈ h.toList, c.toLower ≠ 'e') ∧
      ((∃ c ∈ h.toList, c.toLower = 'e') → (Value.str (u ++ "0x" ++ h ++ w)).toNumber = .nan) := by
  have hblank : ∀ c ∈ '0' :: 'x' :: h.toList, Text.isBlank c = false := by
    refine List.forall_mem_cons.2 ⟨by decide, List.forall_mem_cons.2 ⟨by decide, fun c hc => ?_⟩⟩
    exact (Numeral.hexFacts (hh.digits c hc)).not_blank
  have htext : (u ++ "0x" ++ h ++ w).toList = u.toList ++ '0' :: 'x' :: h.toList ++ w.toList := by
    simp
  have hmark : h.toList.any Numeral.isExponentMark = true ↔ ∃ c ∈ h.toList, c.toLower = 'e' := by
    rw [List.any_eq_true]
    exact exists_congr fun c => and_congr_right fun hc => (Numeral.hexFacts (hh.digits c hc)).mark
  have hread : (Value.str (u ++ "0x" ++ h ++ w)).toNumber = if h.toList.any Numeral.isExponentMark then .nan else
      Number.collapse (.int (Numeral.hexDenoted h.toList)) := by
    rw [toNumber, htext, Text.strip_padded hu hw (List.cons_ne_nil _ _) hblank]
    exact plainNumber_hexadecimal (fun hnil => hh.ne_empty (String.toList_inj.1 hnil)) hh.digits
  have hnan : Number.nan ≠ Number.collapse (.int (Numeral.hexDenoted h.toList)) := fun heq => by
    have hisNaN : Number.nan.isNaN = true := by decide
    rw [heq, Number.isNaN_collapse] at hisNaN
    cases hisNaN
  rw [hread]
  by_cases he : ∃ c ∈ h.toList, c.toLower = 'e'
  · rw [if_pos (hmark.2 he)]
    obtain ⟨c, hc, hce⟩ := he
    exact ⟨⟨fun h => absurd h hnan, fun h => absurd hce (h c hc)⟩, fun _ => rfl⟩
  · rw [if_neg fun h => he (hmark.1 h)]
    exact ⟨⟨fun _ c hc hce => he ⟨c, hc, hce⟩, fun _ => rfl⟩, fun h => absurd h he⟩

theorem toNumber_hexadecimal_padded : Text.AllBlank "\t " ∧ Text.AllBlank "\n" ∧ Numeral.IsHexadecimal "fF09" ∧
    (Value.str ("\t " ++ "0x" ++ "fF09" ++ "\n")).toNumber = .int 65289 := by
  have hu : Text.AllBlank "\t " := by decide
  have hw : Text.AllBlank "\n" := by decide
  have hh : Numeral.IsHexadecimal "fF09" := by decide
  have hother : ("fF09".toList.all fun c => c.toLower ≠ 'e') = true := by decide
  have hread := (toNumber_hexadecimal hu hw hh).1.2 fun c hc => of_decide_eq_true (List.all_eq_true.1 hother c hc)
  exact ⟨hu, hw, hh, hread.trans (by decide)⟩

/-- A numeral of the digit `e`. -/
theorem toNumber_hexadecimal_fourteen : Numeral.IsHexadecimal "e" ∧ Numeral.hexDenoted "e".toList = 14 ∧
    (Value.str "0xe").toNumber ≠ Number.collapse (.int 14) := by
  decide

end Value

end QuadScript
