import QuadScript.Proofs.Keys
import QuadScript.Proofs.Rounding
import Mathlib.Data.Rat.Defs

/-!
# Neutral doubles

A double is what its unpacked form is packed to (`pack_unpack_model`), so a sum with a zero and a product with one are
found on the unpacked forms. Adding a zero leaves every double but a negative zero, which only a negative zero leaves
(`add_zero_eq_iff`, `add_negZero`). Multiplying by one leaves every double (`mul_one`): the product of the mantissas
ends in as many zeros as rounding drops. No other doubles equal zero or one.
-/

namespace QuadScript.Double

open Float.Model Float.Model.UnpackedFloat

theorem pack_unpack_model (f : Float.Model) : Float.Model.pack f.unpack = f := by
  have hbits : UnpackedFloat.pack Format.binary64 (UnpackedFloat.unpack Format.binary64 f.toBits.toBitVec) =
      f.toBits.toBitVec := by
    by_cases he : exponentBits f.toBits.toBitVec = -1#11
    · have hv := packComponents_unpack f.toBits.toBitVec
      unfold UnpackedFloat.unpack
      dsimp only
      rw [if_pos he]
      by_cases hm : mantissaBits f.toBits.toBitVec = 0#52
      · rw [if_pos hm]
        rwa [he, hm] at hv
      · rw [if_neg hm]
        exact (f.valid.eq_packedNaN he hm).symm
    · exact pack_unpack he
  obtain ⟨b, valid⟩ := f
  unfold Float.Model.pack Float.Model.unpack
  rw [Float.Model.mk.injEq, hbits]

theorem eq_of_unpack_eq {x y : Float} (h : x.toModel.unpack = y.toModel.unpack) : x = y := by
  obtain ⟨f⟩ := x
  obtain ⟨g⟩ := y
  have hmodel := congrArg Float.Model.pack h
  rw [pack_unpack_model, pack_unpack_model] at hmodel
  exact congrArg Float.ofModel hmodel

theorem ofModel_pack_eq {x : Float} {u : UnpackedFloat} (h : u = x.toModel.unpack) :
    Float.ofModel (Float.Model.pack u) = x := by
  rw [h, pack_unpack_model]

/-! ### Adding a zero -/

theorem unpack_zero : (0.0 : Float).toModel.unpack = .zero .positive := rfl

theorem unpack_negZero : (-0.0 : Float).toModel.unpack = .zero .negative := rfl

theorem add_eq (x y : Float) :
    x + y = .ofModel (.pack (UnpackedFloat.add Format.binary64 x.toModel.unpack y.toModel.unpack)) := rfl

theorem add_zero_eq_iff {x : Float} : x + 0.0 = x ↔ x ≠ -0.0 := by
  constructor
  · rintro h rfl
    revert h
    decide +kernel
  · intro hx
    rw [add_eq, unpack_zero]
    refine ofModel_pack_eq ?_
    cases hu : x.toModel.unpack with
    | zero s =>
      cases s with
      | positive => rfl
      | negative => exact absurd (eq_of_unpack_eq hu) hx
    | _ => rfl

theorem add_negZero (x : Float) : x + -0.0 = x := by
  rw [add_eq, unpack_negZero]
  refine ofModel_pack_eq ?_
  cases x.toModel.unpack with
  | zero s => cases s <;> rfl
  | _ => rfl

/-! ### Multiplying by one -/

theorem unpack_one : (1.0 : Float).toModel.unpack = .finite .positive (2 ^ 52) (-52) (by decide) := rfl

theorem shift_zeros (m k : Nat) : (⟨m * 2 ^ k, false, false⟩ : ExtendedMantissa) >>> k = ⟨m, false, false⟩ := by
  change k.repeat ExtendedMantissa.shiftRightOne _ = _
  induction k generalizing m with
  | zero => simp [Nat.repeat]
  | succ k ih =>
    have hpow : m * 2 ^ (k + 1) = m * 2 * 2 ^ k := by rw [pow_succ']; ring
    rw [Nat.repeat, hpow, ih]
    simp [ExtendedMantissa.shiftRightOne]

theorem targetExponent_eq (m : Nat) (e : Int) :
    Format.binary64.targetExponent (totalExponent m e) = max (m.log2 + 1 + e - 53) (-1074) := rfl

/-- The exponent of an unpacked double is the one that its mantissa wants. -/
theorem targetExponent_of_unpack {f : Float.Model} {s : Sign} {m : Nat} {e : Int} {hm : 0 < m}
    (h : f.unpack = .finite s m e hm) : Format.binary64.targetExponent (totalExponent m e) = e := by
  have hbias : Format.binary64.exponentBias = 1023 := rfl
  have hmantissa := (mantissaBits f.toBits.toBitVec).isLt
  rw [targetExponent_eq]
  unfold Float.Model.unpack UnpackedFloat.unpack at h
  dsimp only at h
  rw [hbias] at h
  -- infinite and NaN, then zero and the subnormal doubles, then the normal ones
  by_cases htop : exponentBits f.toBits.toBitVec = -1#11
  · rw [if_pos htop] at h
    by_cases hnone : mantissaBits f.toBits.toBitVec = 0#52
    · rw [if_pos hnone] at h
      cases h
    · rw [if_neg hnone] at h
      cases h
  · rw [if_neg htop] at h
    by_cases hzero : exponentBits f.toBits.toBitVec = 0#11
    · rw [if_pos hzero] at h
      by_cases hnone : mantissaBits f.toBits.toBitVec = 0#52
      · rw [dif_pos hnone] at h
        cases h
      · rw [dif_neg hnone] at h
        cases h
        have hlog : (mantissaBits f.toBits.toBitVec).toNat.log2 < 52 := (Nat.log2_lt hm.ne').2 hmantissa
        have hexp : (exponentBits f.toBits.toBitVec).toNat = 0 := by rw [hzero]; rfl
        unfold mantissaBits exponentBits at *
        omega
    · rw [if_neg hzero] at h
      cases h
      have hexp : (exponentBits f.toBits.toBitVec).toNat ≠ 0 := fun h' => hzero (BitVec.eq_of_toNat_eq h')
      have hlog : (1#1 ++ mantissaBits f.toBits.toBitVec).toNat.log2 = 52 := by
        rw [BitVec.toNat_append, ← Nat.shiftLeft_add_eq_or_of_lt hmantissa, Nat.log2_eq_iff (by simp [Nat.shiftLeft_eq])]
        simp only [BitVec.toNat_ofNat, Nat.shiftLeft_eq]
        omega
      unfold mantissaBits exponentBits at *
      omega

/-- A mantissa with zeros at its end is rounded to what stands before them. -/
theorem roundWithAccuracy_zeros {s : Sign} {m : Nat} {e : Int} (hm : 0 < m) (k : Nat)
    (he : Format.binary64.targetExponent (totalExponent m e) = e) :
    roundWithAccuracy Format.binary64 s (m * 2 ^ k) (e - k) .exact = .finite s m e hm := by
  have hlog : (m * 2 ^ k).log2 = m.log2 + k := by
    induction k with
    | zero => simp
    | succ k ih =>
      have hne : m * 2 ^ k ≠ 0 := by positivity
      rw [pow_succ, ← Nat.mul_assoc, Nat.mul_comm, Nat.log2_two_mul hne, ih, Nat.add_assoc]
  have htotal : totalExponent (m * 2 ^ k) (e - k) = totalExponent m e := by
    unfold totalExponent
    rw [hlog]
    omega
  -- the mantissa is shifted twice, before and after rounding, and neither shift loses a bit
  have hfirst : shiftToTargetExponent Format.binary64 (m * 2 ^ k) (e - k) .exact = (⟨m, false, false⟩, e) := by
    unfold shiftToTargetExponent shiftToExponent
    dsimp only
    rw [htotal, he, show (e - (e - k)).toNat = k by omega]
    exact Prod.ext (shift_zeros m k) (by omega)
  have hsecond : shiftToTargetExponent Format.binary64 m e .exact = (⟨m, false, false⟩, e) := by
    unfold shiftToTargetExponent shiftToExponent
    dsimp only
    rw [he, show (e - e).toNat = 0 by omega]
    exact Prod.ext rfl (by omega)
  unfold roundWithAccuracy
  rw [hfirst]
  dsimp only
  rw [show ExtendedMantissa.roundedMantissa ⟨m, false, false⟩ = m from rfl, hsecond]
  exact dif_neg hm.ne'

theorem mul_eq (x y : Float) :
    x * y = .ofModel (.pack (UnpackedFloat.mul Format.binary64 x.toModel.unpack y.toModel.unpack)) := rfl

theorem mul_one (x : Float) : x * 1.0 = x := by
  rw [mul_eq, unpack_one]
  refine ofModel_pack_eq ?_
  cases hu : x.toModel.unpack with
  | notANumber => rfl
  | infinity s => cases s <;> rfl
  | zero s => cases s <;> rfl
  | finite s m e hm =>
    have hsign : s * Sign.positive = s := by cases s <;> rfl
    have hround := roundWithAccuracy_zeros (s := s) hm 52 (targetExponent_of_unpack hu)
    change roundWithAccuracy Format.binary64 (s * Sign.positive) (m * 2 ^ 52) (e + -52) .exact = _
    rw [hsign]
    exact hround

/-! ### Doubles that equal zero or one -/

theorem ofBits_toBits (x : Float) : Float.ofBits x.toBits = x := congrArg Float.ofModel (pack_unpack_model x.toModel)

theorem eq_of_toBits {x y : Float} (h : x.toBits.toNat = y.toBits.toNat) : x = y := by
  rw [← ofBits_toBits x, ← ofBits_toBits y, UInt64.toNat_inj.1 h]

theorem read_of_eq_int {x : Float} {n : Int} (h : (Number.float x).eq (.int n) = true) :
    ∃ negative m e, read x = .finite negative m e ∧
      (if negative then -1 else 1) * (m * 2 ^ e.toNat : Int) = n * 2 ^ (-e).toNat := by
  obtain ⟨p, hx, hn⟩ := Number.eq_iff.1 h
  cases hn
  cases hread : read x with
  | nan => simp [Number.extended?, hread] at hx
  | infinite negative => cases negative <;> simp [Number.extended?, hread] at hx
  | finite negative m e =>
    refine ⟨negative, m, e, rfl, ?_⟩
    simp only [Number.extended?, hread, value?, Option.map_some, Option.some.injEq, Number.Extended.rational.injEq] at hx
    have hd : Nat.pow 2 (-e).toNat ≠ 0 := (Nat.two_pow_pos _).ne'
    rw [← Rat.mkRat_one n] at hx
    cases negative with
    | false =>
      have hq := (Rat.mkRat_eq_iff hd Nat.one_ne_zero).1 hx
      simpa using hq
    | true =>
      rw [if_pos rfl, Rat.neg_mkRat] at hx
      have hq := (Rat.mkRat_eq_iff hd Nat.one_ne_zero).1 hx
      simpa using hq

theorem eq_zero_of_eq {x : Float} (h : (Number.float x).eq (.int 0) = true) : x = 0.0 ∨ x = -0.0 := by
  obtain ⟨negative, m, e, hread, hvalue⟩ := read_of_eq_int h
  have hm : m = 0 := by
    cases negative <;> simpa using hvalue
  have hlt := x.toBits.toNat_lt
  have hzero : (0.0 : Float).toBits.toNat = 0 := rfl
  have hnegZero : (-0.0 : Float).toBits.toNat = 2 ^ 63 := rfl
  unfold read at hread
  simp only [Nat.pow_eq] at hread
  split at hread
  · split at hread <;> cases hread
  · split at hread
    · cases hread
      rcases Nat.lt_or_ge x.toBits.toNat (2 ^ 63) with hsign | hsign
      · exact .inl (eq_of_toBits (by omega))
      · exact .inr (eq_of_toBits (by omega))
    · cases hread
      omega

theorem eq_one_of_eq {x : Float} (h : (Number.float x).eq (.int 1) = true) : x = 1.0 := by
  obtain ⟨negative, m, e, hread, hvalue⟩ := read_of_eq_int h
  have hlt := x.toBits.toNat_lt
  have hone : (1.0 : Float).toBits.toNat = 1023 * 2 ^ 52 := rfl
  have hsign : negative = false := by
    cases negative with
    | false => rfl
    | true =>
      have hpos : (0 : Int) ≤ m * 2 ^ e.toNat := by positivity
      have hpos' : (0 : Int) < 1 * 2 ^ (-e).toNat := by positivity
      rw [if_pos rfl] at hvalue
      omega
  subst hsign
  have hvalue : m * 2 ^ e.toNat = 2 ^ (-e).toNat := by
    have hcast : ((m * 2 ^ e.toNat : Nat) : Int) = ((2 ^ (-e).toNat : Nat) : Int) := by
      push_cast
      simpa using hvalue
    exact_mod_cast hcast
  -- a subnormal double is too small, and of the normal ones the exponent is fixed by the size of the mantissa
  unfold read at hread
  simp only [Nat.pow_eq] at hread
  split at hread
  · split at hread <;> cases hread
  · split at hread
    · simp only [Reading.finite.injEq] at hread
      obtain ⟨-, rfl, rfl⟩ := hread
      have hpow : 2 ^ 52 ≤ 2 ^ (- -1074 : Int).toNat := Nat.pow_le_pow_right (by decide) (by decide)
      have hexp : (-1074 : Int).toNat = 0 := rfl
      rw [← hvalue, hexp] at hpow
      omega
    · simp only [Reading.finite.injEq, decide_eq_false_iff_not] at hread
      obtain ⟨hnegative, rfl, rfl⟩ := hread
      generalize hE : x.toBits.toNat / 2 ^ 52 % 2 ^ 11 = E at hvalue
      by_cases hlarge : 1075 ≤ E
      · have hexp : (-((E : Int) - 1075)).toNat = 0 := by omega
        have hpos : 0 < 2 ^ ((E : Int) - 1075).toNat := Nat.two_pow_pos _
        rw [hexp] at hvalue
        have hle := Nat.le_mul_of_pos_right (2 ^ 52 + x.toBits.toNat % 2 ^ 52) hpos
        omega
      · have hexp : ((E : Int) - 1075).toNat = 0 := by omega
        have hexp' : (-((E : Int) - 1075)).toNat = 1075 - E := by omega
        rw [hexp, hexp'] at hvalue
        have hlower : 2 ^ 52 ≤ 2 ^ (1075 - E) := by omega
        have hupper : 2 ^ (1075 - E) < 2 ^ 53 := by omega
        have h₁ := (Nat.pow_le_pow_iff_right (by decide : 1 < 2)).1 hlower
        have h₂ := (Nat.pow_lt_pow_iff_right (by decide : 1 < 2)).1 hupper
        have hfraction : 1075 - E = 52 := by omega
        rw [hfraction] at hvalue
        exact eq_of_toBits (by omega)

end QuadScript.Double
