import QuadScript.Proofs.NeutralDoubles
import QuadScript.Value.Basic

/-!
# The laws of the two equalities

Numbers are equal if they lie at the same point, so equality of numbers is symmetric and transitive, and a number
equals itself unless it is NaN. The strict equality of values is built from it type by type. The loose equality
converts, and in an order that depends on which side a truth value or a text stands; it is symmetric all the same
(`Value.looseEq_comm`), and on values of one type it is the strict one (`Value.looseEq_eq_strictEq`).
-/

namespace QuadScript

/-! ### Numbers -/

section
open Float.Model Float.Model.UnpackedFloat

theorem Double.toNat_mantissaBits (v : BitVec 64) : (mantissaBits v).toNat = v.toNat % 2 ^ 52 := by
  unfold mantissaBits unpackMantissa
  simp only [BitVec.toNat_cast, BitVec.extractLsb_toNat, Nat.shiftRight_zero]

theorem Double.isNaN_unpack (v : BitVec 64) :
    (UnpackedFloat.unpack Format.binary64 v).isNaN = true ↔ exponentBits v = -1#11 ∧ mantissaBits v ≠ 0#52 := by
  unfold UnpackedFloat.unpack
  dsimp only
  by_cases he : exponentBits v = -1#11
  · rw [if_pos he]
    by_cases hm : mantissaBits v = 0#52
    · rw [if_pos hm]
      exact iff_of_false Bool.false_ne_true fun h => h.2 hm
    · rw [if_neg hm]
      exact iff_of_true rfl ⟨he, hm⟩
  · rw [if_neg he]
    by_cases h₀ : exponentBits v = 0#11
    · rw [if_pos h₀]
      by_cases hm : mantissaBits v = 0#52
      · rw [dif_pos hm]
        exact iff_of_false Bool.false_ne_true fun h => he h.1
      · rw [dif_neg hm]
        exact iff_of_false Bool.false_ne_true fun h => he h.1
    · rw [if_neg h₀]
      exact iff_of_false Bool.false_ne_true fun h => he h.1

theorem Double.read_eq_nan_iff {x : Float} :
    read x = .nan ↔ x.toBits.toNat / 2 ^ 52 % 2 ^ 11 = 2047 ∧ x.toBits.toNat % 2 ^ 52 ≠ 0 := by
  unfold read
  dsimp only
  simp only [Nat.pow_eq]
  split
  · split <;> simp_all
  · split <;> simp_all

theorem Double.isNaN_iff {x : Float} : x.isNaN = true ↔ read x = .nan := by
  have hunpack : x.isNaN = (UnpackedFloat.unpack Format.binary64 x.toBits.toBitVec).isNaN := rfl
  have hexponent : exponentBits x.toBits.toBitVec = -1#11 ↔ x.toBits.toNat / 2 ^ 52 % 2 ^ 11 = 2047 := by
    rw [← BitVec.toNat_inj, toNat_exponentBits]
    rfl
  have hmantissa : mantissaBits x.toBits.toBitVec = 0#52 ↔ x.toBits.toNat % 2 ^ 52 = 0 := by
    rw [← BitVec.toNat_inj, toNat_mantissaBits]
    rfl
  rw [hunpack, isNaN_unpack, read_eq_nan_iff, hexponent, ne_eq, hmantissa]

end

namespace Number

variable {a b c : Number}

theorem isNaN_iff : a.isNaN = true ↔ a.extended? = none := by
  cases a with
  | int n => simp [isNaN, extended?]
  | float x =>
    rw [isNaN, Double.isNaN_iff, extended?, Double.value?]
    cases Double.read x <;> simp

theorem eq_self (a : Number) : a.eq a = !a.isNaN := by
  rw [Bool.eq_iff_iff, eq_iff, Bool.not_eq_true', ← Bool.not_eq_true, isNaN_iff, ← ne_eq, Option.ne_none_iff_exists']
  simp

end Number

/-! ### Values -/

/-- The types of values; unlike the words that programs see, they tell null from objects. -/
inductive ValueType
  | undefined
  | null
  | boolean
  | number
  | string
  | object
deriving DecidableEq, Repr

namespace Value

def type : Value → ValueType
  | .undefined => .undefined
  | .null => .null
  | .bool _ => .boolean
  | .num _ => .number
  | .str _ => .string
  | .object .. => .object

variable {a b c : Value}

theorem plainEq_comm (a b : Value) : plainEq a b = plainEq b a := by
  cases a <;> cases b
  case num.num m n => exact Number.eq_comm m n
  all_goals simp [plainEq, Number.eq_comm, eq_comm]

theorem looseEq_comm (a b : Value) : looseEq a b = looseEq b a := by
  unfold looseEq
  rw [Bool.or_comm, Bool.and_comm, plainEq_comm]

theorem strictEq_comm (a b : Value) : strictEq a b = strictEq b a := by
  cases a <;> cases b <;> simp [strictEq, Number.eq_comm, eq_comm]

theorem type_eq_of_strictEq (h : strictEq a b = true) : a.type = b.type := by
  cases a <;> cases b <;> first | rfl | cases h

theorem strictEq_trans (h : strictEq a b = true) (h' : strictEq b c = true) : strictEq a c = true := by
  have hab := type_eq_of_strictEq h
  have hbc := type_eq_of_strictEq h'
  cases a <;> cases b <;> cases hab <;> cases c <;> cases hbc
  case num.num.refl.num.refl => exact Number.eq_trans h h'
  all_goals simp_all [strictEq]

theorem strictEq_self (a : Value) : strictEq a a = !a.isNaN := by
  cases a with
  | num n => exact n.eq_self
  | _ => simp [strictEq, isNaN]

/-- Between values of one type nothing is converted, but that truth values are compared as their numbers. -/
theorem looseEq_eq_strictEq (h : a.type = b.type) : looseEq a b = strictEq a b := by
  cases a <;> cases b <;> cases h
  case bool.bool p q => cases p <;> cases q <;> rfl
  all_goals rfl

/-- The laws of the equalities. The loose one is symmetric; the strict one is symmetric, transitive and, but for NaN,
reflexive, and it implies the loose one; on values of one type the two are the same. -/
theorem equality_laws (a b c : Value) :
    looseEq a b = looseEq b a ∧ strictEq a b = strictEq b a ∧
      (strictEq a b = true → strictEq b c = true → strictEq a c = true) ∧ strictEq a a = !a.isNaN ∧
      (strictEq a b = true → looseEq a b = true) ∧ (a.type = b.type → looseEq a b = strictEq a b) := by
  refine ⟨looseEq_comm a b, strictEq_comm a b, strictEq_trans, strictEq_self a, fun h => ?_, looseEq_eq_strictEq⟩
  rw [looseEq_eq_strictEq (type_eq_of_strictEq h), h]

/-- An integer, the double at the same point, and their text. -/
theorem equality_laws_one : strictEq (.num (.int 1)) (.num (.float 1.0)) = true ∧
    looseEq (.num (.int 1)) (.num (.float 1.0)) = true ∧ looseEq (.str "1") (.num (.float 1.0)) = true ∧
    looseEq (.num (.float 1.0)) (.str "1") = true ∧ strictEq (.str "1") (.num (.float 1.0)) = false := by
  have hstrict : strictEq (.num (.int 1)) (.num (.float 1.0)) = true := by decide
  have htext : looseEq (.str "1") (.num (.float 1.0)) = true := by decide
  obtain ⟨-, -, -, -, himplies, -⟩ := equality_laws (.num (.int 1)) (.num (.float 1.0)) .null
  obtain ⟨hcomm, -⟩ := equality_laws (.num (.float 1.0)) (.str "1") .null
  exact ⟨hstrict, himplies hstrict, htext, hcomm.trans htext, by decide⟩

end Value

end QuadScript
