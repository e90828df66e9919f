import QuadScript.Number.Basic
import Mathlib.Tactic.Ring
import Mathlib.Tactic.Linarith

/-!
# Rounding to doubles

`ratioExponent_upper` and `ratioExponent_lower` say that the exponent chosen for a quotient is the right
one: the mantissa has 53 bits, or fewer at the least exponent. From this a quotient rounds to an infinite
double exactly from `overflow` on (`isInf_ofRatio`), which no integer part of a double reaches. A quotient of at
most `2 ^ 53` rounds to a double of at most `2 ^ 53` (`ratioBits_le`), and the remainder of two such doubles and
its integer part stay within that bound.
-/

namespace QuadScript.Double

/-! ### The exponent of a quotient -/

section
variable {n d : Nat}

/-- The first guess at the exponent, from the sizes of both numbers. -/
def guess (n d : Nat) : Int := n.log2 - d.log2 - 52

/-- `n / d` lies below `2 ^ (e + 53)`. -/
def Below (n d : Nat) (e : Int) : Prop := n * 2 ^ (-e).toNat < d * 2 ^ e.toNat * 2 ^ 53

/-- `n / d` reaches `2 ^ (e + 52)`. -/
def Reaches (n d : Nat) (e : Int) : Prop := d * 2 ^ 52 * 2 ^ e.toNat ≤ n * 2 ^ (-e).toNat

theorem below_guess (n : Nat) (hd : d ≠ 0) : Below n d (guess n d) := by
  have h₁ : n < 2 ^ (n.log2 + 1) := Nat.lt_log2_self
  have h₂ : 2 ^ d.log2 ≤ d := Nat.log2_self_le hd
  have he : n.log2 + 1 + (-guess n d).toNat = d.log2 + (guess n d).toNat + 53 := by
    unfold guess; omega
  calc n * 2 ^ (-guess n d).toNat
      < 2 ^ (n.log2 + 1) * 2 ^ (-guess n d).toNat := Nat.mul_lt_mul_of_pos_right h₁ (by positivity)
    _ = 2 ^ d.log2 * 2 ^ (guess n d).toNat * 2 ^ 53 := by rw [← pow_add, he, pow_add, pow_add]
    _ ≤ d * 2 ^ (guess n d).toNat * 2 ^ 53 := by gcongr

/-- The quotient reaches at least half of the guess. -/
theorem guess_reaches_half (hn : n ≠ 0) (d : Nat) :
    d * 2 ^ 51 * 2 ^ (guess n d).toNat < n * 2 ^ (-guess n d).toNat := by
  have h₁ : 2 ^ n.log2 ≤ n := Nat.log2_self_le hn
  have h₂ : d < 2 ^ (d.log2 + 1) := Nat.lt_log2_self
  have he : d.log2 + 1 + 51 + (guess n d).toNat = n.log2 + (-guess n d).toNat := by
    unfold guess; omega
  calc d * 2 ^ 51 * 2 ^ (guess n d).toNat
      < 2 ^ (d.log2 + 1) * 2 ^ 51 * 2 ^ (guess n d).toNat := by gcongr
    _ = 2 ^ n.log2 * 2 ^ (-guess n d).toNat := by rw [← pow_add, ← pow_add, he, pow_add]
    _ ≤ n * 2 ^ (-guess n d).toNat := by gcongr

theorem exponent_cases (e : Int) : (∃ p : Nat, e = p + 1) ∨ ∃ k : Nat, e = -k := by
  by_cases h : 0 < e
  · exact .inl ⟨(e - 1).toNat, by omega⟩
  · exact .inr ⟨(-e).toNat, by omega⟩

theorem below_pred {e : Int} (h : n * 2 ^ (-e).toNat < d * 2 ^ 52 * 2 ^ e.toNat) : Below n d (e - 1) := by
  unfold Below
  rcases exponent_cases e with ⟨p, rfl⟩ | ⟨k, rfl⟩
  · have h₁ : (-((p : Int) + 1)).toNat = 0 := by omega
    have h₂ : ((p : Int) + 1).toNat = p + 1 := by omega
    have h₃ : (-((p : Int) + 1 - 1)).toNat = 0 := by omega
    have h₄ : ((p : Int) + 1 - 1).toNat = p := by omega
    rw [h₁, h₂] at h
    rw [h₃, h₄]
    calc n * 2 ^ 0 < d * 2 ^ 52 * 2 ^ (p + 1) := h
      _ = d * 2 ^ p * 2 ^ 53 := by ring
  · have h₁ : (- -(k : Int)).toNat = k := by omega
    have h₂ : (-(k : Int)).toNat = 0 := by omega
    have h₃ : (-(-(k : Int) - 1)).toNat = k + 1 := by omega
    have h₄ : (-(k : Int) - 1).toNat = 0 := by omega
    rw [h₁, h₂] at h
    rw [h₃, h₄]
    calc n * 2 ^ (k + 1) = 2 * (n * 2 ^ k) := by ring
      _ < 2 * (d * 2 ^ 52 * 2 ^ 0) := by omega
      _ = d * 2 ^ 0 * 2 ^ 53 := by ring

theorem reaches_pred {e : Int} (h : d * 2 ^ 51 * 2 ^ e.toNat < n * 2 ^ (-e).toNat) : Reaches n d (e - 1) := by
  unfold Reaches
  rcases exponent_cases e with ⟨p, rfl⟩ | ⟨k, rfl⟩
  · have h₁ : (-((p : Int) + 1)).toNat = 0 := by omega
    have h₂ : ((p : Int) + 1).toNat = p + 1 := by omega
    have h₃ : (-((p : Int) + 1 - 1)).toNat = 0 := by omega
    have h₄ : ((p : Int) + 1 - 1).toNat = p := by omega
    rw [h₁, h₂] at h
    rw [h₃, h₄]
    calc d * 2 ^ 52 * 2 ^ p = d * 2 ^ 51 * 2 ^ (p + 1) := by ring
      _ ≤ n * 2 ^ 0 := h.le
  · have h₁ : (- -(k : Int)).toNat = k := by omega
    have h₂ : (-(k : Int)).toNat = 0 := by omega
    have h₃ : (-(-(k : Int) - 1)).toNat = k + 1 := by omega
    have h₄ : (-(k : Int) - 1).toNat = 0 := by omega
    rw [h₁, h₂] at h
    rw [h₃, h₄]
    calc d * 2 ^ 52 * 2 ^ 0 = 2 * (d * 2 ^ 51 * 2 ^ 0) := by ring
      _ ≤ 2 * (n * 2 ^ k) := by omega
      _ = n * 2 ^ (k + 1) := by ring

theorem below_of_le {k j : Nat} (hjk : j ≤ k) (h : Below n d (-k)) : Below n d (-j) := by
  unfold Below at h ⊢
  have h₁ : ∀ i : Nat, (- -(i : Int)).toNat = i ∧ (-(i : Int)).toNat = 0 := fun i => by omega
  rw [(h₁ k).1, (h₁ k).2] at h
  rw [(h₁ j).1, (h₁ j).2]
  calc n * 2 ^ j ≤ n * 2 ^ k := by gcongr; norm_num
    _ < d * 2 ^ 0 * 2 ^ 53 := h

theorem ratioExponent_eq (n d : Nat) : ratioExponent n d =
    max (if n * 2 ^ (-guess n d).toNat < d * 2 ^ 52 * 2 ^ (guess n d).toNat then guess n d - 1
      else guess n d) (-1074) := rfl

theorem ratioExponent_upper (n : Nat) (hd : d ≠ 0) : Below n d (ratioExponent n d) := by
  rw [ratioExponent_eq]
  have key : ∀ e : Int, Below n d e → Below n d (max e (-1074)) := by
    intro e he
    rcases Int.le_total (-1074) e with h | h
    · rwa [Int.max_eq_left h]
    · rw [Int.max_eq_right h]
      have hk : e = -((-e).toNat : Int) := by omega
      rw [hk] at he
      exact below_of_le (j := 1074) (by omega) he
  split
  · rename_i h; exact key _ (below_pred h)
  · exact key _ (below_guess n hd)

/-- The mantissa has 53 bits, unless the exponent is the least one. -/
theorem ratioExponent_lower (hn : n ≠ 0) (d : Nat) (h : -1074 < ratioExponent n d) :
    Reaches n d (ratioExponent n d) := by
  rw [ratioExponent_eq] at h ⊢
  split at h
  · rename_i hlt
    rw [if_pos hlt, Int.max_eq_left (by omega)]
    exact reaches_pred (guess_reaches_half hn d)
  · rename_i hlt
    rw [if_neg hlt, Int.max_eq_left (by omega)]
    exact Nat.le_of_not_lt hlt

/-! ### The bits of a quotient -/

theorem roundDiv_le {k : Nat} (h : n < d * k) : roundDiv n d ≤ k := by
  have hq : n / d < k := Nat.div_lt_of_lt_mul h
  unfold roundDiv
  dsimp only
  split
  · omega
  · split
    · omega
    · have := Nat.mod_lt (n / d) (by decide : 2 > 0)
      omega

theorem roundDiv_mul (k : Nat) (hd : d ≠ 0) : roundDiv (k * d) d = k := by
  unfold roundDiv
  have h₁ : k * d / d = k := Nat.mul_div_cancel k (Nat.pos_of_ne_zero hd)
  have h₂ : k * d % d = 0 := Nat.mul_mod_left k d
  dsimp only
  rw [h₁, h₂, if_pos (by omega)]

/-- Rounding stays below an even number exactly if the quotient is closer to the number before. -/
theorem roundDiv_lt_iff {k : Nat} (hd : 0 < d) (hk : k % 2 = 0) : roundDiv n d < k ↔ 2 * n + d < 2 * (d * k) := by
  have hn := Nat.div_add_mod n d
  have hr := Nat.mod_lt n hd
  unfold roundDiv
  dsimp only
  generalize n % d = r at hn hr
  generalize n / d = q at hn
  subst hn
  rcases Nat.lt_trichotomy (q + 1) k with hlt | rfl | hgt
  · have hmul := Nat.mul_le_mul_left d (show q + 2 ≤ k from hlt)
    rw [Nat.mul_add] at hmul
    split
    · omega
    · split <;> omega
  · -- only here the remainder decides, and a tie goes up, away from an odd number
    have hmul : d * (q + 1) = d * q + d := Nat.mul_succ d q
    rw [hmul]
    split
    · omega
    · split <;> omega
  · have hmul := Nat.mul_le_mul_left d (show k ≤ q by omega)
    split
    · omega
    · split <;> omega

theorem le_roundDiv {k : Nat} (hd : 0 < d) (h : d * k ≤ n) : k ≤ roundDiv n d := by
  have hq : k ≤ n / d := (Nat.le_div_iff_mul_le hd).2 (by rwa [Nat.mul_comm])
  unfold roundDiv
  dsimp only
  split
  · omega
  · split <;> omega

/-- The magnitude bits of `2 ^ 53`. -/
def exactBits : Nat := 1076 * 2 ^ 52

theorem ratioBits_eq (hn : n ≠ 0) (d : Nat) : ratioBits n d = (ratioExponent n d + 1074).toNat * 2 ^ 52 +
    roundDiv (n * 2 ^ (-ratioExponent n d).toNat) (d * 2 ^ (ratioExponent n d).toNat) := by
  rw [ratioBits, if_neg hn]; rfl

theorem ratioBits_le (hd : d ≠ 0) (h : n ≤ 2 ^ 53 * d) : ratioBits n d ≤ exactBits := by
  by_cases hn : n = 0
  · subst hn; exact Nat.zero_le _
  have hupper := ratioExponent_upper n hd
  have hlower := ratioExponent_lower hn d
  rw [ratioBits_eq hn]
  generalize ratioExponent n d = e at hupper hlower ⊢
  unfold Below at hupper
  unfold Reaches at hlower
  unfold exactBits
  rcases exponent_cases e with ⟨p, rfl⟩ | ⟨k, rfl⟩
  · have h₁ : (-((p : Int) + 1)).toNat = 0 := by omega
    have h₂ : ((p : Int) + 1).toNat = p + 1 := by omega
    have hreach := hlower (by omega)
    rw [h₁, h₂] at hreach
    rw [h₁, h₂]
    -- the quotient is `2 ^ 53` exactly, and the exponent is one
    have hp : p = 0 := by
      by_contra hp
      have h2 : 2 ^ 2 ≤ 2 ^ (p + 1) := Nat.pow_le_pow_right (by decide) (by omega)
      have : d * 2 ^ 52 * 2 ^ 2 ≤ d * 2 ^ 52 * 2 ^ (p + 1) := Nat.mul_le_mul_left _ h2
      have hd' : 0 < d := Nat.pos_of_ne_zero hd
      omega
    subst hp
    have hn' : n * 2 ^ 0 = 2 ^ 52 * (d * 2 ^ (0 + 1)) := by omega
    rw [hn', roundDiv_mul _ (by omega)]
    decide
  · have h₁ : (- -(k : Int)).toNat = k := by omega
    have h₂ : (-(k : Int)).toNat = 0 := by omega
    rw [h₁, h₂] at hupper
    rw [h₁, h₂]
    have hround := roundDiv_le hupper
    have hexp : (-(k : Int) + 1074).toNat ≤ 1074 := by omega
    omega

/-- The least integer that is nearest to no finite double: it lies in the middle between the greatest one and the next
power of two. -/
def overflow : Nat := (2 ^ 54 - 1) * 2 ^ 970

theorem overflow_pos : 0 < overflow := by
  unfold overflow
  positivity

/-- A quotient rounds to a finite double exactly below the overflow. -/
theorem ratioBits_lt_iff (hd : 0 < d) : ratioBits n d < infinityBits ↔ n < overflow * d := by
  by_cases hn : n = 0
  · subst hn
    exact ⟨fun _ => Nat.mul_pos overflow_pos hd, fun _ => Nat.mul_pos (by decide) (Nat.two_pow_pos 52)⟩
  have hupper := ratioExponent_upper n hd.ne'
  have hlower := ratioExponent_lower hn d
  rw [ratioBits_eq hn]
  generalize ratioExponent n d = e at hupper hlower ⊢
  unfold Below at hupper
  unfold Reaches at hlower
  have hinfinity : infinityBits = 2047 * 2 ^ 52 := rfl
  have hoverflow : overflow * d = (2 ^ 54 - 1) * (d * 2 ^ 970) := by
    rw [overflow, Nat.mul_assoc, Nat.mul_comm d]
  have hpos : 0 < d * 2 ^ e.toNat := Nat.mul_pos hd (Nat.two_pow_pos _)
  rw [hinfinity, hoverflow]
  rcases Int.lt_trichotomy e 971 with hlt | rfl | hgt
  · have hround := roundDiv_le hupper
    have hpow : d * 2 ^ e.toNat ≤ d * 2 ^ 970 := by
      gcongr
      · decide
      · omega
    have hscale : n ≤ n * 2 ^ (-e).toNat := Nat.le_mul_of_pos_right n (Nat.two_pow_pos _)
    generalize d * 2 ^ 970 = D at hpow ⊢
    omega
  · -- the greatest exponent: whether the mantissa is carried over decides
    have hexp : d * 2 ^ (971 : Int).toNat = d * 2 ^ 970 * 2 := by
      rw [show (971 : Int).toNat = 970 + 1 from rfl, pow_succ, Nat.mul_assoc]
    have hneg : n * 2 ^ (-971 : Int).toNat = n := Nat.mul_one n
    have hfirst : ((971 : Int) + 1074).toNat = 2045 := rfl
    have hiff := roundDiv_lt_iff (n := n) (k := 2 ^ 53) hpos (by decide)
    rw [hexp] at hiff
    rw [hexp, hneg, hfirst]
    generalize d * 2 ^ 970 = D at hiff ⊢
    omega
  · have hreach := hlower (by omega)
    have hround := le_roundDiv (n := n * 2 ^ (-e).toNat) (k := 2 ^ 52) hpos (by rwa [Nat.mul_right_comm])
    have hneg : n * 2 ^ (-e).toNat = n := by rw [show (-e).toNat = 0 by omega, pow_zero, Nat.mul_one]
    have hpow : d * 2 ^ 970 * 2 ^ 2 ≤ d * 2 ^ e.toNat := by
      rw [Nat.mul_assoc, ← pow_add]
      gcongr
      · decide
      · omega
    rw [Nat.mul_right_comm] at hreach
    generalize d * 2 ^ 970 = D at hpow ⊢
    omega

end

/-! ### The bits of a double -/

section
open Float.Model Float.Model.UnpackedFloat

theorem toBitVec_ofBitVec (b : BitVec 1) : (Sign.ofBitVec b).toBitVec = b := by
  revert b; decide

/-- The exponent field, the fraction field and the sign of the bits of a double. -/
abbrev exponentBits (v : BitVec 64) : BitVec 11 := @unpackExponent Format.binary64 v
abbrev mantissaBits (v : BitVec 64) : BitVec 52 := @unpackMantissa Format.binary64 v
abbrev signBit (v : BitVec 64) : BitVec 1 := @unpackSign Format.binary64 v

theorem packComponents_unpack (v : BitVec 64) :
    packComponents Format.binary64 (Sign.ofBitVec (signBit v)) (exponentBits v) (mantissaBits v) = v := by
  unfold packComponents
  rw [toBitVec_ofBitVec]
  unfold signBit exponentBits mantissaBits unpackSign unpackExponent unpackMantissa
  simp only [BitVec.cast_eq]
  apply BitVec.eq_of_getLsbD_eq
  intro i hi
  rw [BitVec.getLsbD_append, BitVec.getLsbD_append]
  simp only [BitVec.getLsbD_extractLsb]
  split
  · rename_i h
    rw [Nat.zero_add, decide_eq_true h, Bool.true_and]
  · split
    · rename_i h h'
      have : 52 + (i - (52 - 1 - 0 + 1)) = i := by omega
      rw [this, decide_eq_true h', Bool.true_and]
    · have h₁ : i = 63 := by omega
      subst h₁
      rfl

theorem toNat_exponentBits (v : BitVec 64) : (exponentBits v).toNat = v.toNat / 2 ^ 52 % 2 ^ 11 := by
  unfold exponentBits unpackExponent
  simp only [BitVec.toNat_cast, BitVec.extractLsb_toNat, Nat.shiftRight_eq_div_pow]

theorem pack_unpack {v : BitVec 64} (h : exponentBits v ≠ -1#11) :
    UnpackedFloat.pack Format.binary64 (UnpackedFloat.unpack Format.binary64 v) = v := by
  have hv := packComponents_unpack v
  have hbias : Format.binary64.exponentBias = 1023 := rfl
  have hbits : Format.binary64.mantissaBits = 53 := rfl
  unfold UnpackedFloat.unpack
  dsimp only
  rw [if_neg h]
  -- zero and the subnormal doubles have no hidden bit, which packing tells from the length of the mantissa
  by_cases he : exponentBits v = 0#11
  · rw [if_pos he]
    by_cases hm : mantissaBits v = 0#52
    · rw [dif_pos hm]
      rw [he, hm] at hv
      exact hv
    · rw [dif_neg hm]
      have hm₀ : (mantissaBits v).toNat ≠ 0 := fun h₀ => hm (BitVec.eq_of_toNat_eq h₀)
      have hlog : (mantissaBits v).toNat.log2 < 52 := (Nat.log2_lt hm₀).2 (mantissaBits v).isLt
      have he₀ : ((exponentBits v).toNat : Int) = 0 := by rw [he]; rfl
      unfold UnpackedFloat.pack
      dsimp only
      rw [hbias, hbits, if_neg (by rw [he₀]; decide), if_neg (Nat.ne_of_lt (Nat.succ_lt_succ hlog)),
        BitVec.ofNat_toNat, BitVec.setWidth_eq]
      rwa [he] at hv
  · rw [if_neg he]
    have he : (exponentBits v).toNat ≠ 2047 := fun h' => h (BitVec.eq_of_toNat_eq h')
    have he' := (exponentBits v).isLt
    have hm := (mantissaBits v).isLt
    have happ : (1#1 ++ mantissaBits v).toNat = 2 ^ 52 + (mantissaBits v).toNat := by
      rw [BitVec.toNat_append, ← Nat.shiftLeft_add_eq_or_of_lt hm]
      simp [Nat.shiftLeft_eq]
    have hlog : (2 ^ 52 + (mantissaBits v).toNat).log2 = 52 := by
      rw [Nat.log2_eq_iff (by omega)]; omega
    have hexp : (((exponentBits v).toNat : Int) - (((1023 : Nat) : Int) + ((52 : Nat) : Int)) + ((1023 : Nat) : Int)
        + ((52 : Nat) : Int)).toNat = (exponentBits v).toNat := by omega
    have hmod : BitVec.ofNat 52 (2 ^ 52 + (mantissaBits v).toNat) = mantissaBits v := by
      apply BitVec.eq_of_toNat_eq
      rw [BitVec.toNat_ofNat]; omega
    unfold UnpackedFloat.pack
    dsimp only
    rw [hbias, hbits, happ, hexp, hlog, if_neg (by omega), if_pos rfl, hmod, BitVec.ofNat_toNat, BitVec.setWidth_eq]
    exact hv

theorem toBits_ofBits {b : UInt64} (h : b.toNat / 2 ^ 52 % 2 ^ 11 ≠ 2047) : (Float.ofBits b).toBits = b := by
  have h' : exponentBits b.toBitVec ≠ -1#11 := by
    intro he
    have := toNat_exponentBits b.toBitVec
    rw [he] at this
    exact h this.symm
  exact UInt64.toBitVec_inj.1 (pack_unpack h')

theorem isInf_ofBits {b : UInt64} (h : b.toNat / 2 ^ 52 % 2 ^ 11 ≠ 2047) : (Float.ofBits b).isInf = false := by
  have h' : exponentBits b.toBitVec ≠ -1#11 := by
    intro he
    have := toNat_exponentBits b.toBitVec
    rw [he] at this
    exact h this.symm
  have hinf : (Float.ofBits b).isInf =
      (UnpackedFloat.unpack Format.binary64 (Float.ofBits b).toBits.toBitVec).isInf := rfl
  rw [hinf, toBits_ofBits h]
  unfold UnpackedFloat.unpack
  dsimp only
  rw [if_neg h']
  by_cases he : exponentBits b.toBitVec = 0#11
  · rw [if_pos he]
    by_cases hm : mantissaBits b.toBitVec = 0#52
    · rw [dif_pos hm]
      rfl
    · rw [dif_neg hm]
      rfl
  · rw [if_neg he]
    rfl

end

/-! ### Finite doubles -/

theorem ofRatio_finite {n d : Nat} (negative : Bool) (h : ratioBits n d < infinityBits) :
    (ofRatio negative n d).toBits.toNat % 2 ^ 63 = ratioBits n d ∧ (ofRatio negative n d).isInf = false := by
  have hinfinity : infinityBits = 2047 * 2 ^ 52 := rfl
  have hmin : min (ratioBits n d) infinityBits = ratioBits n d := Nat.min_eq_left h.le
  have key : ∀ b : Nat, b = (if negative then 2 ^ 63 + ratioBits n d else ratioBits n d) →
      (Float.ofBits (UInt64.ofNat b)).toBits.toNat % 2 ^ 63 = ratioBits n d ∧
        (Float.ofBits (UInt64.ofNat b)).isInf = false := by
    intro b hb
    have hlt : b < 2 ^ 64 := by rw [hb]; split <;> omega
    have hnat : (UInt64.ofNat b).toNat = b := by
      rw [UInt64.toNat_ofNat']; exact Nat.mod_eq_of_lt hlt
    have hmod : b % 2 ^ 63 = ratioBits n d := by rw [hb]; split <;> omega
    have hexp : (UInt64.ofNat b).toNat / 2 ^ 52 % 2 ^ 11 ≠ 2047 := by rw [hnat]; omega
    rw [toBits_ofBits hexp, hnat]
    exact ⟨hmod, isInf_ofBits hexp⟩
  unfold ofRatio
  dsimp only
  rw [hmin]
  exact key _ rfl

/-- Exactly from the overflow on, the double nearest to a quotient is infinite. -/
theorem isInf_ofRatio {n d : Nat} (negative : Bool) (hd : 0 < d) :
    (ofRatio negative n d).isInf = decide (overflow * d ≤ n) := by
  by_cases h : n < overflow * d
  · rw [(ofRatio_finite negative ((ratioBits_lt_iff hd).2 h)).2, decide_eq_false (Nat.not_le.2 h)]
  · have hbits : infinityBits ≤ ratioBits n d := Nat.le_of_not_lt fun hlt => h ((ratioBits_lt_iff hd).1 hlt)
    rw [decide_eq_true (Nat.le_of_not_lt h)]
    unfold ofRatio
    dsimp only
    rw [Nat.min_eq_right hbits]
    cases negative <;> decide +kernel

theorem read_eq_finite {x : Float} {negative : Bool} {m : Nat} {e : Int} (h : read x = .finite negative m e) :
    m < 2 ^ 53 ∧ e ≤ 971 := by
  unfold read at h
  simp only [Nat.pow_eq] at h
  generalize x.toBits.toNat = b at h
  have hfraction : b % 2 ^ 52 < 2 ^ 52 := Nat.mod_lt _ (by decide)
  have hexponent : b / 2 ^ 52 % 2 ^ 11 < 2 ^ 11 := Nat.mod_lt _ (by decide)
  split at h
  · split at h <;> cases h
  · split at h
    · cases h
      omega
    · cases h
      omega

theorem truncate?_lt_overflow (x : Float) : ((truncate? x).getD 0).natAbs < overflow := by
  unfold truncate?
  cases hread : read x with
  | nan => exact overflow_pos
  | infinite negative => exact overflow_pos
  | finite negative m e =>
    obtain ⟨hm, he⟩ := read_eq_finite hread
    have hpow : m * 2 ^ e.toNat ≤ m * 2 ^ (970 + 1) := by
      gcongr
      · decide
      · omega
    have hle : m * 2 ^ (970 + 1) ≤ (2 ^ 54 - 2) * 2 ^ 970 := by
      rw [pow_succ, Nat.mul_comm _ 2, ← Nat.mul_assoc]
      exact Nat.mul_le_mul_right _ (by omega)
    have hlt : (2 ^ 54 - 2) * 2 ^ 970 < overflow := Nat.mul_lt_mul_of_pos_right (by decide) (by positivity)
    have hdiv : m * 2 ^ e.toNat / 2 ^ (-e).toNat ≤ m * 2 ^ e.toNat := Nat.div_le_self ..
    simp only [Nat.pow_eq, Option.getD_some]
    generalize m * 2 ^ e.toNat / 2 ^ (-e).toNat = k at hdiv
    split <;> omega

/-! ### Doubles of at most `2 ^ 53` -/

/-- A double whose magnitude is at most `2 ^ 53`. -/
def Small (x : Float) : Prop := x.toBits.toNat % 2 ^ 63 ≤ exactBits

theorem ofRatio_small {n d : Nat} (negative : Bool) (hd : d ≠ 0) (h : n ≤ 2 ^ 53 * d) :
    Small (ofRatio negative n d) := by
  have hbits := ratioBits_le hd h
  have hinfinity : exactBits < infinityBits := by decide
  unfold Small
  rw [(ofRatio_finite negative (Nat.lt_of_le_of_lt hbits hinfinity)).1]
  exact hbits

theorem read_of_small {x : Float} (h : Small x) : ∃ negative m e, read x = .finite negative m e ∧
    m * 2 ^ e.toNat ≤ 2 ^ 53 * 2 ^ (-e).toNat := by
  unfold Small exactBits at h
  unfold read
  simp only [Nat.pow_eq]
  have hlt := x.toBits.toNat_lt
  generalize x.toBits.toNat = b at h hlt
  have hexp : b / 2 ^ 52 % 2 ^ 11 ≤ 1076 := by omega
  rw [if_neg (by omega)]
  split
  · refine ⟨_, _, _, rfl, ?_⟩
    have h₁ : (-1074 : Int).toNat = 0 := rfl
    have h₂ : b % 2 ^ 52 < 2 ^ 52 := Nat.mod_lt _ (by decide)
    have h₃ := Nat.mul_le_mul_left (2 ^ 53) (Nat.one_le_two_pow (n := (- -1074 : Int).toNat))
    rw [h₁]
    omega
  · refine ⟨_, _, _, rfl, ?_⟩
    have h₃ : b % 2 ^ 52 < 2 ^ 52 := Nat.mod_lt _ (by decide)
    by_cases he : b / 2 ^ 52 % 2 ^ 11 = 1076
    · have h₁ : (((b / 2 ^ 52 % 2 ^ 11 : Nat) : Int) - 1075).toNat = 1 := by omega
      have h₂ : (-(((b / 2 ^ 52 % 2 ^ 11 : Nat) : Int) - 1075)).toNat = 0 := by omega
      rw [h₁, h₂]
      omega
    · have h₁ : (((b / 2 ^ 52 % 2 ^ 11 : Nat) : Int) - 1075).toNat = 0 := by omega
      rw [h₁]
      have h₄ : 1 ≤ 2 ^ (-(((b / 2 ^ 52 % 2 ^ 11 : Nat) : Int) - 1075)).toNat := Nat.one_le_two_pow
      have h₅ := Nat.mul_le_mul_left (2 ^ 53) h₄
      omega

theorem truncate?_of_small {x : Float} (h : Small x) : ((truncate? x).getD 0).natAbs ≤ 2 ^ 53 := by
  obtain ⟨negative, m, e, hread, hle⟩ := read_of_small h
  have hdiv : m * 2 ^ e.toNat / 2 ^ (-e).toNat ≤ 2 ^ 53 :=
    Nat.div_le_of_le_mul (by rw [Nat.mul_comm (2 ^ _)]; exact hle)
  unfold truncate?
  rw [hread]
  simp only [Nat.pow_eq, Option.getD_some]
  generalize m * 2 ^ e.toNat / 2 ^ (-e).toNat = k at hdiv
  split <;> omega

theorem scaled_le {m : Nat} {e least : Int} (hleast : least ≤ e) (h : m * 2 ^ e.toNat ≤ 2 ^ 53 * 2 ^ (-e).toNat) :
    m * 2 ^ (e - least).toNat * 2 ^ least.toNat ≤ 2 ^ 53 * 2 ^ (-least).toNat := by
  have hexp : (e - least).toNat + least.toNat + (-e).toNat = e.toNat + (-least).toNat := by omega
  refine Nat.le_of_mul_le_mul_right ?_ (Nat.two_pow_pos (-e).toNat)
  calc m * 2 ^ (e - least).toNat * 2 ^ least.toNat * 2 ^ (-e).toNat
      = m * 2 ^ e.toNat * 2 ^ (-least).toNat := by
        rw [mul_assoc m, ← pow_add, mul_assoc, ← pow_add, hexp, pow_add, mul_assoc]
    _ ≤ 2 ^ 53 * 2 ^ (-e).toNat * 2 ^ (-least).toNat := Nat.mul_le_mul_right _ h
    _ = 2 ^ 53 * 2 ^ (-least).toNat * 2 ^ (-e).toNat := by ring

theorem rem_small {x : Float} (y : Float) (hx : Small x) : Small (rem x y) ∨ rem x y = nan := by
  obtain ⟨negative, m, e, hread, hle⟩ := read_of_small hx
  unfold rem
  rw [hread]
  cases read y with
  | nan => exact .inr rfl
  | infinite negative' => exact .inl hx
  | finite negative' m' e' =>
    dsimp only
    split
    · exact .inr rfl
    · left
      refine ofRatio_small negative (Nat.pos_iff_ne_zero.1 (Nat.two_pow_pos _)) ?_
      simp only [Nat.pow_eq]
      calc _ ≤ m * 2 ^ (e - min e e').toNat * 2 ^ (min e e').toNat := Nat.mul_le_mul_right _ (Nat.mod_le _ _)
        _ ≤ 2 ^ 53 * 2 ^ (-min e e').toNat := scaled_le (Int.min_le_left e e') hle

/-- The integer part of a remainder is at most `2 ^ 53` if the dividend is. -/
theorem truncate?_rem {x : Float} (y : Float) (hx : Small x) :
    ((truncate? (rem x y)).getD 0).natAbs ≤ 2 ^ 53 := by
  rcases rem_small y hx with h | h
  · exact truncate?_of_small h
  · have hnan : truncate? nan = none := by decide +kernel
    rw [h, hnan]
    exact Nat.zero_le _

end QuadScript.Double
