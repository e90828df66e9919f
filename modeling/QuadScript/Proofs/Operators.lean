import Mathlib.Data.Int.Bitwise
import QuadScript.Proofs.Exact
import QuadScript.Proofs.Steps

/-!
# What operators give

The values that are no objects and whose integers are exact are closed under every operator
(`Operator.evalCode_exact`). The bit operators work on the integer parts of numbers, of which they take 32 bits: what
they give is the operation on the vectors of these bits (`Operator.bitwise_words`).
-/

namespace QuadScript

/-! ### Exact values -/

namespace Value

/-- A value that is no object and, if it is an integer, an exact one. -/
def Exact : Value → Prop
  | .num n => n.Exact
  | .object .. => False
  | _ => True

/-- A value that operators make: a number, a truth value or a text. -/
def Computed : Value → Prop
  | .num _ => True
  | .bool _ => True
  | .str _ => True
  | _ => False

variable {v : Value}

theorem Exact.within (h : v.Exact) : v.Within Number.Exact := by
  cases v with
  | num n => exact h
  | _ => trivial

theorem Computed.exact (h : v.Computed) (hv : v.Within Number.Exact) : v.Exact := by
  cases v with
  | num n => exact hv
  | bool | str => trivial
  | _ => cases h

end Value

theorem BinaryOp.evalAdd_computed {a b v : Value} (h : evalAdd a b = .ok v) : v.Computed := by
  unfold evalAdd at h
  split at h
  · cases h
    trivial
  · cases h
    trivial
  · obtain ⟨r, -, h⟩ := except_bind_eq_ok h
    cases h
    trivial

theorem BinaryOp.eval_computed {op : BinaryOp} {a b v : Value} (h : op.eval a b = .ok v) : v.Computed := by
  cases op with
  | add => exact evalAdd_computed h
  | sub | mul | div | rem | pow =>
    obtain ⟨r, -, h⟩ := except_bind_eq_ok h
    cases h
    trivial
  | bitAnd | bitOr | bitXor | shiftLeft | shiftRight | shiftRightZero =>
    obtain ⟨i, -, h⟩ := except_bind_eq_ok h
    obtain ⟨j, -, h⟩ := except_bind_eq_ok h
    cases h
    trivial
  | _ =>
    cases h
    trivial

theorem UnaryOp.eval_computed {op : UnaryOp} {a v : Value} (h : op.eval a = .ok v) : v.Computed := by
  cases op with
  | bitNot =>
    obtain ⟨i, -, h⟩ := except_bind_eq_ok h
    cases h
    trivial
  | _ =>
    cases h
    trivial

theorem Operator.eval_computed {op : Operator} {a b v : Value} (h : op.eval a b = .ok v) : v.Computed := by
  cases op with
  | unary op => exact op.eval_computed h
  | binary op => exact op.eval_computed h

theorem Operator.evalCode_code (op : Operator) (a b : Value) : evalCode op.code a b = op.eval a b := by
  rw [evalCode, ofCode?_code]

/-- No operator fails on exact values, and what it gives is exact again. -/
theorem Operator.evalCode_exact (op : Operator) {a b : Value} (ha : a.Exact) (hb : b.Exact) :
    ∃ v, evalCode op.code a b = .ok v ∧ v.Exact := by
  obtain ⟨v, hv, hwithin⟩ := op.eval_within Number.closed_exact ha.within hb.within
  refine ⟨v, ?_, (eval_computed hv).exact hwithin⟩
  rw [evalCode_code, hv]

/-- The greatest exact integer to the power of itself, which is beyond the doubles. -/
theorem Operator.evalCode_exact_greatest : (Value.num (.int (2 ^ 53))).Exact ∧
    ∃ v, evalCode "**" (.num (.int (2 ^ 53))) (.num (.int (2 ^ 53))) = .ok v ∧ v.Exact := by
  have hexact : (Value.num (.int (2 ^ 53))).Exact := by
    change ((2 : Int) ^ 53).natAbs ≤ Number.exactLimit
    decide
  exact ⟨hexact, evalCode_exact (.binary .pow) hexact hexact⟩

/-! ### Integer parts -/

namespace Double

theorem tdiv_mkRat (n : Int) {d : Nat} (hd : d ≠ 0) : (mkRat n d).num.tdiv (mkRat n d).den = n.tdiv d := by
  rcases hq : mkRat n d with ⟨num, den, nz, coprime⟩
  obtain ⟨k, hk, rfl, rfl⟩ := Rat.mkRat_num_den hd hq
  have hpos : (0 : Int) < k := by omega
  rw [Int.natCast_mul, Int.mul_tdiv_mul_of_pos_left num _ hpos]

/-- The integer part of a double is that of the rational it stands for. -/
theorem truncate?_eq (x : Float) : truncate? x = (value? x).map fun q => q.num.tdiv q.den := by
  unfold truncate? value?
  cases read x with
  | nan | infinite => rfl
  | finite negative m e =>
    have hd : Nat.pow 2 (-e).toNat ≠ 0 := (Nat.two_pow_pos _).ne'
    have hq : ((m * Nat.pow 2 e.toNat / Nat.pow 2 (-e).toNat : Nat) : Int) = _ :=
      (Int.ofNat_tdiv _ _).trans (tdiv_mkRat (m * Nat.pow 2 e.toNat : Nat) hd).symm
    dsimp only [Option.map_some]
    cases negative with
    | false => exact congrArg some hq
    | true =>
      simp only [if_true, Rat.neg_num, Rat.neg_den, Int.neg_tdiv]
      exact congrArg (fun i => some (-i)) hq

end Double

namespace Number

/-- A number without its fraction; NaN and the infinities count as zero. -/
def integerPart : Number → Int
  | .int n => n
  | .float x => ((Double.value? x).map fun q => q.num.tdiv q.den).getD 0

/-- A double, or an integer below `2 ^ 1023`. -/
def Moderate : Number → Prop
  | .int n => n.natAbs < 2 ^ 1023
  | .float _ => True

variable {a : Number}

theorem Moderate.fits (h : a.Moderate) : a.Fits := by
  cases a with
  | int n =>
    calc n.natAbs < 2 ^ 1023 := h
      _ = 2 ^ 53 * 2 ^ 970 := by rw [← pow_add]
      _ ≤ Double.overflow := Nat.mul_le_mul_right _ (by decide)
  | float x => trivial

theorem truncate_eq (h : a.Fits) : a.truncate = .ok a.integerPart := by
  cases a with
  | int n =>
    rw [truncate, toFloat_int h]
    rfl
  | float x =>
    rw [truncate, toFloat, integerPart, ← Double.truncate?_eq]
    rfl

end Number

/-! ### Words -/

namespace Value

/-- The 32 bits of the integer that a value stands for. -/
def word (v : Value) : BitVec 32 := BitVec.ofInt 32 v.toNumber.integerPart

variable {v : Value}

theorem toInt32_eq (h : v.toNumber.Fits) : v.toInt32 = .ok v.word.toInt := by
  rw [toInt32, Number.truncate_eq h, word, BitVec.toInt_ofInt]
  rfl

theorem toUInt32_eq (h : v.toNumber.Fits) : v.toUInt32 = .ok v.word.toNat := by
  have hmod : ((v.word.toNat : Int).bmod (2 ^ 32) % (2 ^ 32 : Nat)).toNat = v.word.toNat := by
    rw [Int.bmod_emod, Int.emod_eq_of_lt (Int.natCast_nonneg _) (Int.ofNat_lt.2 v.word.isLt), Int.toNat_natCast]
  rw [toUInt32, toInt32_eq h, BitVec.toInt_eq_toNat_bmod]
  exact congrArg Except.ok hmod

theorem shiftCount_eq (h : v.toNumber.Fits) : v.shiftCount = .ok (v.toNumber.integerPart % 32).toNat := by
  have hmod : (v.toNumber.integerPart % (2 ^ 32 : Nat)).toNat % 32 = (v.toNumber.integerPart % 32).toNat := by
    omega
  rw [shiftCount, toUInt32_eq h, word, BitVec.toNat_ofInt]
  exact congrArg Except.ok hmod

end Value

/-! ### Bits of signed integers -/

section
variable {w : Nat} {x y : BitVec w}

/-- A negative integer is one less than the opposite of the bits that are not set in it. -/
theorem toInt_of_msb (h : x.msb = true) : x.toInt = Int.negSucc (~~~x).toNat := by
  have hlt := x.isLt
  rw [BitVec.toInt_eq_msb_cond, if_pos h, BitVec.toNat_not, Int.negSucc_eq]
  omega

theorem ldiff_not (x y : BitVec w) : Nat.ldiff x.toNat (~~~y).toNat = (x &&& y).toNat := by
  apply Nat.eq_of_testBit_eq
  intro i
  rw [Nat.testBit_ldiff, BitVec.testBit_toNat, BitVec.testBit_toNat, BitVec.testBit_toNat, BitVec.getLsbD_not,
    BitVec.getLsbD_and]
  by_cases hi : i < w
  · simp [hi]
  · simp [hi, BitVec.getLsbD_of_ge x i (Nat.le_of_not_lt hi)]

-- The operations on integers go by the signs, which are the top bits.

theorem toInt_and_eq (x y : BitVec w) : (x &&& y).toInt = Int.land x.toInt y.toInt := by
  cases hx : x.msb <;> cases hy : y.msb
  · rw [BitVec.toInt_eq_toNat_of_msb hx, BitVec.toInt_eq_toNat_of_msb hy,
      BitVec.toInt_eq_toNat_of_msb (by simp [hx]), BitVec.toNat_and]
    rfl
  · rw [BitVec.toInt_eq_toNat_of_msb hx, toInt_of_msb hy, BitVec.toInt_eq_toNat_of_msb (by simp [hx]), ← ldiff_not]
    rfl
  · rw [toInt_of_msb hx, BitVec.toInt_eq_toNat_of_msb hy, BitVec.toInt_eq_toNat_of_msb (by simp [hy]),
      BitVec.and_comm, ← ldiff_not]
    rfl
  · rw [toInt_of_msb hx, toInt_of_msb hy, toInt_of_msb (by simp [hx, hy]), BitVec.not_and, BitVec.toNat_or]
    rfl

theorem toInt_or_eq (x y : BitVec w) : (x ||| y).toInt = Int.lor x.toInt y.toInt := by
  cases hx : x.msb <;> cases hy : y.msb
  · rw [BitVec.toInt_eq_toNat_of_msb hx, BitVec.toInt_eq_toNat_of_msb hy,
      BitVec.toInt_eq_toNat_of_msb (by simp [hx, hy]), BitVec.toNat_or]
    rfl
  · rw [BitVec.toInt_eq_toNat_of_msb hx, toInt_of_msb hy, toInt_of_msb (by simp [hy]), BitVec.not_or,
      BitVec.and_comm, ← ldiff_not, BitVec.not_not]
    rfl
  · rw [toInt_of_msb hx, BitVec.toInt_eq_toNat_of_msb hy, toInt_of_msb (by simp [hx]), BitVec.not_or, ← ldiff_not,
      BitVec.not_not]
    rfl
  · rw [toInt_of_msb hx, toInt_of_msb hy, toInt_of_msb (by simp [hx]), BitVec.not_or, BitVec.toNat_and]
    rfl

theorem toInt_xor_eq (x y : BitVec w) : (x ^^^ y).toInt = Int.xor x.toInt y.toInt := by
  cases hx : x.msb <;> cases hy : y.msb
  · rw [BitVec.toInt_eq_toNat_of_msb hx, BitVec.toInt_eq_toNat_of_msb hy,
      BitVec.toInt_eq_toNat_of_msb (by simp [hx, hy]), BitVec.toNat_xor]
    rfl
  · rw [BitVec.toInt_eq_toNat_of_msb hx, toInt_of_msb hy, toInt_of_msb (by simp [hx, hy]), BitVec.not_xor_right,
      BitVec.toNat_xor]
    rfl
  · rw [toInt_of_msb hx, BitVec.toInt_eq_toNat_of_msb hy, toInt_of_msb (by simp [hx, hy]), BitVec.not_xor_left,
      BitVec.toNat_xor]
    rfl
  · have hflip : x ^^^ y = ~~~x ^^^ ~~~y := by rw [← BitVec.not_xor_left, ← BitVec.not_xor_right, BitVec.not_not]
    rw [toInt_of_msb hx, toInt_of_msb hy, BitVec.toInt_eq_toNat_of_msb (by simp [hx, hy]), hflip, BitVec.toNat_xor]
    rfl

end

/-! ### Operators on words -/

theorem BinaryOp.bitwise_onBits (f : BitVec 32 → BitVec 32 → BitVec 32) {a b : Value} (ha : a.toNumber.Fits)
    (hb : b.toNumber.Fits) : bitwise (onBits f) a b = .ok (.num (.int (f a.word b.word).toInt)) := by
  rw [bitwise, Value.toInt32_eq ha, Value.toInt32_eq hb]
  simp only [except_ok_bind, onBits, BitVec.ofInt_toInt]
  rfl

theorem BinaryOp.bmod_shiftLeft (x : BitVec 32) (k : Nat) :
    (x.toInt * (Nat.pow 2 k : Nat)).bmod Value.wordCount = (x <<< k).toInt := by
  rw [BitVec.toInt_shiftLeft, Nat.shiftLeft_eq, Int.natCast_mul, BitVec.toInt_eq_toNat_bmod x]
  exact Int.bmod_mul_bmod

theorem UnaryOp.neg_sub_one_eq_not (x : BitVec 32) : -x.toInt - 1 = (~~~x).toInt := by
  have hlt := x.isLt
  rw [BitVec.toInt_not, BitVec.toInt_eq_toNat_cond, Int.bmod_def]
  omega

namespace Operator

variable {a b : Value}

/-- The operator of that code gives the signed integer of these bits. -/
def GivesSigned (s : String) (a b : Value) (bits : BitVec 32) : Prop :=
  ∃ r : Int, evalCode s a b = .ok (.num (.int r)) ∧ r = bits.toInt ∧ -2 ^ 31 ≤ r ∧ r < 2 ^ 31

/-- The operator of that code gives the unsigned integer of these bits. -/
def GivesUnsigned (s : String) (a b : Value) (bits : BitVec 32) : Prop :=
  ∃ r : Int, evalCode s a b = .ok (.num (.int r)) ∧ r = bits.toNat ∧ 0 ≤ r ∧ r < 2 ^ 32

theorem givesSigned_of_eq {s : String} {bits : BitVec 32} (h : evalCode s a b = .ok (.num (.int bits.toInt))) :
    GivesSigned s a b bits :=
  ⟨bits.toInt, h, rfl, BitVec.le_toInt bits, BitVec.toInt_lt⟩

/-- The bit operators are those of 32-bit vectors, and shifts move by the second integer modulo 32. Those that go bit by
bit are also the operations on integers of any size. -/
theorem bitwise_words (ha : a.toNumber.Moderate) (hb : b.toNumber.Moderate) :
    (GivesSigned "&" a b (a.word &&& b.word) ∧ GivesSigned "|" a b (a.word ||| b.word) ∧
      GivesSigned "^" a b (a.word ^^^ b.word) ∧ GivesSigned "BITNOT" a b (~~~a.word) ∧
      GivesSigned "<<" a b (a.word <<< (b.toNumber.integerPart % 32).toNat) ∧
      GivesSigned ">>" a b (a.word.sshiftRight (b.toNumber.integerPart % 32).toNat) ∧
      GivesUnsigned ">>>" a b (a.word >>> (b.toNumber.integerPart % 32).toNat)) ∧
    evalCode "&" a b = .ok (.num (.int (Int.land a.word.toInt b.word.toInt))) ∧
    evalCode "|" a b = .ok (.num (.int (Int.lor a.word.toInt b.word.toInt))) ∧
    evalCode "^" a b = .ok (.num (.int (Int.xor a.word.toInt b.word.toInt))) := by
  have hint := Value.toInt32_eq ha.fits
  have hcount := Value.shiftCount_eq hb.fits
  have hand := (evalCode_code (.binary .bitAnd) a b).trans (BinaryOp.bitwise_onBits _ ha.fits hb.fits)
  have hor := (evalCode_code (.binary .bitOr) a b).trans (BinaryOp.bitwise_onBits _ ha.fits hb.fits)
  have hxor := (evalCode_code (.binary .bitXor) a b).trans (BinaryOp.bitwise_onBits _ ha.fits hb.fits)
  refine ⟨⟨givesSigned_of_eq hand, givesSigned_of_eq hor, givesSigned_of_eq hxor, givesSigned_of_eq ?_,
    givesSigned_of_eq ?_, givesSigned_of_eq ?_, ?_⟩, ?_, ?_, ?_⟩
  · refine (evalCode_code (.unary .bitNot) a b).trans ?_
    simp only [eval, UnaryOp.eval, hint, except_ok_bind, ← UnaryOp.neg_sub_one_eq_not]
    rfl
  · refine (evalCode_code (.binary .shiftLeft) a b).trans ?_
    simp only [eval, BinaryOp.eval, hint, hcount, except_ok_bind, ← BinaryOp.bmod_shiftLeft]
    rfl
  · refine (evalCode_code (.binary .shiftRight) a b).trans ?_
    simp only [eval, BinaryOp.eval, hint, hcount, except_ok_bind, BitVec.toInt_sshiftRight, Int.shiftRight_eq_div_pow]
    rfl
  · refine ⟨_, ?_, rfl, Int.natCast_nonneg _, Int.ofNat_lt.2 (BitVec.isLt _)⟩
    refine (evalCode_code (.binary .shiftRightZero) a b).trans ?_
    simp only [eval, BinaryOp.eval, Value.toUInt32_eq ha.fits, hcount, except_ok_bind, BitVec.toNat_ushiftRight,
      Nat.shiftRight_eq_div_pow]
    rfl
  · rw [← toInt_and_eq]
    exact hand
  · rw [← toInt_or_eq]
    exact hor
  · rw [← toInt_xor_eq]
    exact hxor

/-- A negative integer of more than 32 bits, moved by a negative count. -/
theorem bitwise_words_negative : (Value.num (.int (-2 ^ 70 - 3))).toNumber.Moderate ∧
    evalCode "<<" (.num (.int (-2 ^ 70 - 3))) (.num (.int (-1))) = .ok (.num (.int (-2 ^ 31))) ∧
    evalCode ">>" (.num (.int (-2 ^ 70 - 3))) (.num (.int (-1))) = .ok (.num (.int (-1))) ∧
    evalCode ">>>" (.num (.int (-2 ^ 70 - 3))) (.num (.int (-1))) = .ok (.num (.int 1)) := by
  have hmoderate : ∀ n : Int, n.natAbs < 2 ^ 71 → (Number.int n).Moderate := fun n hn =>
    Nat.lt_of_lt_of_le hn (pow_le_pow_right₀ (by decide) (by decide))
  have hleft := hmoderate (-2 ^ 70 - 3) (by decide)
  have hright := hmoderate (-1) (by decide)
  obtain ⟨⟨-, -, -, -, ⟨l, hl, rfl, -⟩, ⟨r, hr, rfl, -⟩, ⟨u, hu, rfl, -⟩⟩, -⟩ :=
    bitwise_words (a := .num (.int (-2 ^ 70 - 3))) (b := .num (.int (-1))) hleft hright
  exact ⟨hleft, hl, hr, hu⟩

end Operator

end QuadScript
