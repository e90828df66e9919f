import QuadScript.Proofs.Rounding
import QuadScript.Value.Operator

/-!
# Operators that do not fail

A number is exact if it is a double or an integer of at most `2 ^ 53`, and fits if it is a double or an integer that
some finite double is nearest to. An operation fails only where an integer does not fit, so no operator fails on
numbers of a class inside of those that the operators stay in (`Number.Closed`, `Operator.eval_within`). The exact
numbers are such a class, and so are all that fit.
-/

namespace QuadScript

theorem except_ok_bind {ε α β : Type} (a : α) (f : α → Except ε β) : (Except.ok a >>= f) = f a := rfl

namespace Number

/-- A double, or an integer that is one. -/
def Exact : Number → Prop
  | .int n => n.natAbs ≤ exactLimit
  | .float _ => True

/-- A double, or an integer that a finite double is nearest to. -/
def Fits : Number → Prop
  | .int n => n.natAbs < Double.overflow
  | .float _ => True

variable {a b : Number}

theorem exactLimit_eq : exactLimit = 2 ^ 53 := rfl

theorem exact_collapse (a : Number) : a.collapse.Exact := by
  cases a with
  | int n =>
    simp only [collapse]; split
    · assumption
    · trivial
  | float x => trivial

theorem Exact.fits (h : a.Exact) : a.Fits := by
  cases a with
  | int n =>
    have hlimit : exactLimit < 2 ^ 54 - 1 := by decide
    have hle : 2 ^ 54 - 1 ≤ Double.overflow := Nat.le_mul_of_pos_right _ (by positivity)
    exact Nat.lt_of_le_of_lt h (Nat.lt_of_lt_of_le hlimit hle)
  | float x => trivial

theorem isInf_ofInt (n : Int) : (Double.ofInt n).isInf = decide (Double.overflow ≤ n.natAbs) := by
  have h := Double.isInf_ofRatio (n := n.natAbs) (decide (n < 0)) Nat.one_pos
  rwa [Nat.mul_one] at h

theorem toFloat_int {n : Int} (h : (Number.int n).Fits) : (Number.int n).toFloat = .ok (Double.ofInt n) := by
  have hfinite : (Double.ofInt n).isInf = false := by rw [isInf_ofInt, decide_eq_false (Nat.not_le.2 h)]
  simp [toFloat, hfinite]

theorem Fits.exists_toFloat (h : a.Fits) : ∃ x, a.toFloat = .ok x := by
  cases a with
  | int n => exact ⟨_, toFloat_int h⟩
  | float x => exact ⟨x, rfl⟩

theorem toFloat_of_not_fits (h : ¬a.Fits) : a.toFloat = .error .integerTooLarge := by
  cases a with
  | int n =>
    have hinf : (Double.ofInt n).isInf = true := by rw [isInf_ofInt, decide_eq_true (Nat.not_lt.1 h)]
    simp [toFloat, hinf]
  | float x => exact absurd trivial h

/-! ### Arithmetic -/

theorem add_ok (ha : a.Fits) (hb : b.Fits) : ∃ r, a.add b = .ok r := by
  obtain ⟨x, hx⟩ := ha.exists_toFloat
  obtain ⟨y, hy⟩ := hb.exists_toFloat
  unfold add; split
  · exact ⟨_, rfl⟩
  · rw [hx, hy]; exact ⟨_, rfl⟩

theorem sub_ok (ha : a.Fits) (hb : b.Fits) : ∃ r, a.sub b = .ok r := by
  obtain ⟨x, hx⟩ := ha.exists_toFloat
  obtain ⟨y, hy⟩ := hb.exists_toFloat
  unfold sub; split
  · exact ⟨_, rfl⟩
  · rw [hx, hy]; exact ⟨_, rfl⟩

theorem mul_ok (ha : a.Fits) (hb : b.Fits) : ∃ r, a.mul b = .ok r := by
  obtain ⟨x, hx⟩ := ha.exists_toFloat
  obtain ⟨y, hy⟩ := hb.exists_toFloat
  unfold mul; split
  · exact ⟨_, rfl⟩
  · rw [hx, hy]; exact ⟨_, rfl⟩

theorem quotient_ok {m n : Int} (hm : (Number.int m).Fits) (hn : n ≠ 0) : ∃ x, quotient m n = .ok (.float x) := by
  have hn' : 0 < n.natAbs := Int.natAbs_pos.2 hn
  have hlt : m.natAbs < Double.overflow * n.natAbs := Nat.lt_of_lt_of_le hm (Nat.le_mul_of_pos_right _ hn')
  unfold quotient
  dsimp only
  rw [Double.isInf_ofRatio _ hn', decide_eq_false (Nat.not_le.2 hlt)]
  exact ⟨_, rfl⟩

theorem div_exact (ha : a.Fits) (hb : b.Fits) : ∃ r, a.div b = .ok r ∧ r.Exact := by
  obtain ⟨x, hx⟩ := ha.exists_toFloat
  obtain ⟨y, hy⟩ := hb.exists_toFloat
  unfold div isNegative
  rw [hx, hy]
  split
  · split
    · exact ⟨_, rfl, trivial⟩
    · exact ⟨_, rfl, trivial⟩
  · rename_i hz
    split
    · rename_i m n
      have hn : n ≠ 0 := by
        rintro rfl
        exact hz rfl
      obtain ⟨q, hq⟩ := quotient_ok ha hn
      exact ⟨_, hq, trivial⟩
    · exact ⟨_, rfl, trivial⟩

theorem isOdd_ok (hb : b.Fits) : ∃ r, b.isOdd = .ok r := by
  obtain ⟨y, hy⟩ := hb.exists_toFloat
  unfold isOdd
  rw [hy]
  cases b <;> exact ⟨_, rfl⟩

theorem powTooLarge_ok (a : Number) (hb : b.Fits) : ∃ r, a.powTooLarge b = .ok r := by
  obtain ⟨odd, hodd⟩ := isOdd_ok hb
  unfold powTooLarge
  rw [hodd]
  exact ⟨_, rfl⟩

theorem powFloat_ok (a : Number) (hb : b.Fits) : ∃ r, a.powFloat b = .ok r := by
  obtain ⟨y, hy⟩ := hb.exists_toFloat
  unfold powFloat
  rw [hy, except_ok_bind]
  split
  · exact powTooLarge_ok a hb
  · dsimp only
    split
    · exact powTooLarge_ok a hb
    · exact ⟨_, rfl⟩

theorem pow_ok (ha : a.Fits) (hb : b.Fits) : ∃ r, a.pow b = .ok r := by
  obtain ⟨x, hx⟩ := ha.exists_toFloat
  unfold pow
  split
  · split
    · rw [hx, except_ok_bind]; exact powFloat_ok _ hb
    · split
      · exact ⟨_, rfl⟩
      · exact powFloat_ok _ hb
  · exact powFloat_ok _ hb

theorem truncate_ok (ha : a.Fits) : ∃ i, a.truncate = .ok i := by
  obtain ⟨x, hx⟩ := ha.exists_toFloat
  unfold truncate
  rw [hx]
  cases a <;> exact ⟨_, rfl⟩

theorem isFinite_ok (ha : a.Fits) : ∃ f, a.isFinite = .ok f := by
  obtain ⟨x, hx⟩ := ha.exists_toFloat
  unfold isFinite
  rw [hx]
  exact ⟨_, rfl⟩

/-! ### Closed classes -/

/-- A class of numbers that fit and that operators stay in: the exact numbers are in it, and with an integer its
opposite and its remainders. -/
structure Closed (N : Number → Prop) : Prop where
  exact : ∀ {a}, Exact a → N a
  fits : ∀ {a}, N a → a.Fits
  neg : ∀ {n : Int}, N (.int n) → N (.int (-n))
  rem : ∀ {n : Int} (y : Float), N (.int n) → N (.int ((Double.truncate? (Double.rem (Double.ofInt n) y)).getD 0))

theorem closed_exact : Closed Exact where
  exact h := h
  fits h := h.fits
  neg h := by unfold Exact at h ⊢; simpa using h
  rem y h := by
    have hsmall : Double.Small (Double.ofInt _) := Double.ofRatio_small _ Nat.one_ne_zero (by rw [Nat.mul_one]; exact h)
    exact Double.truncate?_rem y hsmall

theorem closed_fits : Closed Fits where
  exact h := h.fits
  fits h := h
  neg h := by unfold Fits at h ⊢; simpa using h
  rem _ _ := Double.truncate?_lt_overflow _

variable {N : Number → Prop}

theorem Closed.neg_mem (hN : Closed N) (ha : N a) : N a.neg := by
  cases a with
  | int n => exact hN.neg ha
  | float x => exact hN.exact trivial

theorem Closed.exists_rem (hN : Closed N) (ha : N a) (hb : N b) : ∃ r, a.rem b = .ok r ∧ N r := by
  obtain ⟨x, hx⟩ := (hN.fits ha).exists_toFloat
  obtain ⟨y, hy⟩ := (hN.fits hb).exists_toFloat
  unfold Number.rem isInfinite
  rw [hx, hy]
  simp only [except_ok_bind, pure, Except.pure]
  split
  · exact ⟨_, rfl, hN.exact trivial⟩
  · split
    · exact ⟨_, rfl, hN.exact trivial⟩
    · split
      · exact ⟨_, rfl, ha⟩
      · split
        · rename_i m n _ _ _ _
          refine ⟨_, rfl, ?_⟩
          rw [toFloat_int (hN.fits ha)] at hx
          cases hx
          exact hN.rem y ha
        · exact ⟨_, rfl, hN.exact trivial⟩

end Number

namespace Value

/-- A value whose number, if it is one, is of a class. -/
def Within (N : Number → Prop) : Value → Prop
  | .num n => N n
  | _ => True

variable {a b : Value} {N : Number → Prop}

theorem Within.mono {N' : Number → Prop} (h : a.Within N) (hN : ∀ {n}, N n → N' n) : a.Within N' := by
  cases a with
  | num n => exact hN h
  | _ => trivial

theorem exact_plainNumber (cs : List Char) : (plainNumber cs).Exact := by
  have hint : ∀ cs, (intNumber cs).Exact := by
    intro cs
    unfold intNumber; split
    · split
      · trivial
      · exact Number.exact_collapse _
    · trivial
  have hhex : ∀ cs, (hexNumber cs).Exact := by
    intro cs
    unfold hexNumber; split
    · exact Number.exact_collapse _
    · trivial
  have hfloat : ∀ cs, (floatNumber cs).Exact := by
    intro cs
    unfold floatNumber; split <;> trivial
  unfold plainNumber
  split
  · exact Nat.zero_le _
  · split
    · trivial
    · split
      · trivial
      · split
        · exact hfloat _
        · split
          · exact hhex _
          · exact hhex _
          · exact hint _

theorem toNumber_within (hN : Number.Closed N) (ha : a.Within N) : N a.toNumber := by
  cases a with
  | num n => exact ha
  | str s => exact hN.exact (exact_plainNumber _)
  | bool b =>
    refine hN.exact ?_
    change (b.toNat : Int).natAbs ≤ Number.exactLimit
    cases b <;> decide
  | null => exact hN.exact (Nat.zero_le _)
  | _ => exact hN.exact trivial

/-! ### 32-bit integers -/

/-- An integer of 32 bits. -/
def IsWord (i : Int) : Prop := -2 ^ 31 ≤ i ∧ i < 2 ^ 31

theorem isWord_bmod (i : Int) : IsWord (i.bmod wordCount) := by
  have h₁ := Int.le_bmod (x := i) (m := wordCount) (by decide)
  have h₂ := Int.bmod_lt (x := i) (m := wordCount) (by decide)
  have hw : (wordCount : Int) = 2 ^ 32 := rfl
  unfold IsWord
  omega

theorem isWord_ediv {i : Int} (hi : IsWord i) {k : Nat} (hk : 0 < k) : IsWord (i / k) := by
  have hk' : (0 : Int) < k := by omega
  unfold IsWord at hi ⊢
  constructor
  · rw [Int.le_ediv_iff_mul_le hk']; nlinarith
  · rw [Int.ediv_lt_iff_lt_mul hk']; nlinarith

theorem toInt32_ok (ha : a.toNumber.Fits) : ∃ i, a.toInt32 = .ok i ∧ IsWord i := by
  obtain ⟨i, hi⟩ := Number.truncate_ok ha
  unfold toInt32
  rw [hi]
  exact ⟨_, rfl, isWord_bmod i⟩

theorem toUInt32_ok (ha : a.toNumber.Fits) : ∃ n, a.toUInt32 = .ok n ∧ n < 2 ^ 32 := by
  obtain ⟨i, hi, -⟩ := toInt32_ok ha
  unfold toUInt32
  rw [hi]
  refine ⟨_, rfl, ?_⟩
  have hw : (wordCount : Int) = 2 ^ 32 := rfl
  have h := Int.emod_lt_of_pos i (by decide : (0 : Int) < wordCount)
  omega

theorem shiftCount_ok (ha : a.toNumber.Fits) : ∃ n, a.shiftCount = .ok n := by
  obtain ⟨n, hn, -⟩ := toUInt32_ok ha
  unfold shiftCount
  rw [hn]
  exact ⟨_, rfl⟩

theorem exact_of_isWord {i : Int} (h : IsWord i) : (Number.int i).Exact := by
  change i.natAbs ≤ Number.exactLimit
  rw [Number.exactLimit_eq]
  unfold IsWord at h
  omega

end Value

namespace BinaryOp

variable {a b : Value} {N : Number → Prop}

theorem isWord_onBits (f : BitVec 32 → BitVec 32 → BitVec 32) (m n : Int) : Value.IsWord (onBits f m n) := by
  unfold onBits
  generalize f (BitVec.ofInt 32 m) (BitVec.ofInt 32 n) = v
  exact ⟨BitVec.le_toInt v, BitVec.toInt_lt⟩

theorem bitwise_exact (f : BitVec 32 → BitVec 32 → BitVec 32) (ha : a.toNumber.Fits) (hb : b.toNumber.Fits) :
    ∃ r, bitwise (onBits f) a b = .ok (.num r) ∧ r.Exact := by
  obtain ⟨i, hi, -⟩ := Value.toInt32_ok ha
  obtain ⟨j, hj, -⟩ := Value.toInt32_ok hb
  unfold bitwise
  rw [hi, hj]
  exact ⟨_, rfl, Value.exact_of_isWord (isWord_onBits f i j)⟩

theorem evalAdd_within (hN : Number.Closed N) (ha : a.toNumber.Fits) (hb : b.toNumber.Fits) :
    ∃ v, evalAdd a b = .ok v ∧ v.Within N := by
  obtain ⟨r, hr⟩ := Number.add_ok ha hb
  unfold evalAdd
  split
  · exact ⟨_, rfl, trivial⟩
  · exact ⟨_, rfl, trivial⟩
  · rw [hr]; exact ⟨_, rfl, hN.exact (Number.exact_collapse r)⟩

theorem eval_within (op : BinaryOp) (hN : Number.Closed N) (ha : a.Within N) (hb : b.Within N) :
    ∃ v, op.eval a b = .ok v ∧ v.Within N := by
  have hx := Value.toNumber_within hN ha
  have hy := Value.toNumber_within hN hb
  have hx' := hN.fits hx
  have hy' := hN.fits hy
  -- most operators give exact numbers or words whatever they get; only a remainder stays in the class of its operands
  cases op with
  | add => exact evalAdd_within hN hx' hy'
  | sub =>
    obtain ⟨r, hr⟩ := Number.sub_ok hx' hy'
    simp only [eval, hr]
    exact ⟨_, rfl, hN.exact (Number.exact_collapse r)⟩
  | mul =>
    obtain ⟨r, hr⟩ := Number.mul_ok hx' hy'
    simp only [eval, hr]
    exact ⟨_, rfl, hN.exact (Number.exact_collapse r)⟩
  | div =>
    obtain ⟨r, hr, he⟩ := Number.div_exact hx' hy'
    simp only [eval, hr]
    exact ⟨_, rfl, hN.exact he⟩
  | rem =>
    obtain ⟨r, hr, he⟩ := hN.exists_rem hx hy
    simp only [eval, hr]
    exact ⟨_, rfl, he⟩
  | pow =>
    obtain ⟨r, hr⟩ := Number.pow_ok hx' hy'
    simp only [eval, hr]
    exact ⟨_, rfl, hN.exact (Number.exact_collapse r)⟩
  | bitAnd =>
    obtain ⟨r, hr, he⟩ := bitwise_exact _ hx' hy'
    exact ⟨_, hr, hN.exact he⟩
  | bitOr =>
    obtain ⟨r, hr, he⟩ := bitwise_exact _ hx' hy'
    exact ⟨_, hr, hN.exact he⟩
  | bitXor =>
    obtain ⟨r, hr, he⟩ := bitwise_exact _ hx' hy'
    exact ⟨_, hr, hN.exact he⟩
  | shiftLeft =>
    obtain ⟨i, hi, -⟩ := Value.toInt32_ok hx'
    obtain ⟨k, hk⟩ := Value.shiftCount_ok hy'
    simp only [eval, hi, hk]
    exact ⟨_, rfl, hN.exact (Value.exact_of_isWord (Value.isWord_bmod _))⟩
  | shiftRight =>
    obtain ⟨i, hi, hw⟩ := Value.toInt32_ok hx'
    obtain ⟨k, hk⟩ := Value.shiftCount_ok hy'
    simp only [eval, hi, hk]
    exact ⟨_, rfl, hN.exact (Value.exact_of_isWord (Value.isWord_ediv hw (Nat.two_pow_pos k)))⟩
  | shiftRightZero =>
    obtain ⟨n, hn, hlt⟩ := Value.toUInt32_ok hx'
    obtain ⟨k, hk⟩ := Value.shiftCount_ok hy'
    simp only [eval, hn, hk]
    refine ⟨_, rfl, hN.exact ?_⟩
    have hdiv : n / Nat.pow 2 k ≤ n := Nat.div_le_self ..
    change ((n / Nat.pow 2 k : Nat) : Int).natAbs ≤ Number.exactLimit
    rw [Number.exactLimit_eq, Int.natAbs_natCast]
    omega
  | _ => exact ⟨_, rfl, trivial⟩

theorem mul_of_not_fits {i : Int} (hi : ¬(Number.int i).Fits) (x : Float) :
    mul.eval (.num (.int i)) (.num (.float x)) = .error .integerTooLarge := by
  change (((Number.int i).toFloat >>= fun y => _) >>= fun r => _) = _
  rw [Number.toFloat_of_not_fits hi]
  rfl

end BinaryOp

theorem UnaryOp.eval_within (op : UnaryOp) {N : Number → Prop} (hN : Number.Closed N) {a : Value} (ha : a.Within N) :
    ∃ v, op.eval a = .ok v ∧ v.Within N := by
  have hx := Value.toNumber_within hN ha
  cases op with
  | neg => exact ⟨_, rfl, hN.neg_mem hx⟩
  | pos => exact ⟨_, rfl, hx⟩
  | not => exact ⟨_, rfl, trivial⟩
  | typeOf => exact ⟨_, rfl, trivial⟩
  | bitNot =>
    obtain ⟨i, hi, hw⟩ := Value.toInt32_ok (hN.fits hx)
    simp only [eval, hi]
    refine ⟨_, rfl, hN.exact (Value.exact_of_isWord ?_)⟩
    unfold Value.IsWord at hw ⊢
    omega

/-- Operators succeed on the values of a closed class, and stay in it. -/
theorem Operator.eval_within (op : Operator) {N : Number → Prop} (hN : Number.Closed N) {a b : Value}
    (ha : a.Within N) (hb : b.Within N) : ∃ v, op.eval a b = .ok v ∧ v.Within N := by
  cases op with
  | unary op => exact op.eval_within hN ha
  | binary op => exact op.eval_within hN ha hb

end QuadScript
