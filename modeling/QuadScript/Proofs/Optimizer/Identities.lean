import QuadScript.Proofs.NeutralDoubles
import QuadScript.Proofs.Optimizer.Fold

/-!
# The identities that folding relies on

Folding takes a sum with zero and a product with one for the other operand, and a product with zero for the integer
zero. `BinaryOp.add_zero_iff`, `mul_one_iff` and `mul_zero_iff` say for which values that is right; a text is never
its sum with zero. So folding keeps what an instruction does exactly where the identity that it applies holds
(`Quad.fold_keeps_iff`). It goes through wherever the instruction itself does, as no operator but a sign gives an integer
that is too large for a constant.
-/

namespace QuadScript

namespace Value

/-- A sum with this zero is the value itself. -/
def KeptByZero (x : Value) (z : Number) : Prop :=
  match x with
  | .num (.int i) => i.natAbs ≤ Number.exactLimit ∧ ∃ j, z = .int j
  | .num (.float f) => f = -0.0 → z = .float (-0.0)
  | _ => False

/-- A product with this one is the value itself. -/
def KeptByOne (x : Value) (z : Number) : Prop :=
  match x with
  | .num (.int i) => i.natAbs ≤ Number.exactLimit ∧ ∃ j, z = .int j
  | .num (.float _) => True
  | _ => False

/-- A product with this zero is the integer zero. -/
def Absorbed (x : Value) (z : Number) : Prop := (∃ i, x.toNumber = .int i) ∧ ∃ j, z = .int j

end Value

namespace BinaryOp

variable {x : Value} {z : Number}

theorem toText_ne_empty (hz : z.eq (.int 0) = true) : (Value.num z).toText ≠ "" := by
  cases z with
  | int j =>
    obtain rfl := Operator.eq_of_eq_int hz
    decide
  | float g =>
    obtain rfl | rfl := Double.eq_zero_of_eq hz
    · decide +kernel
    · decide +kernel

theorem bind_ne_of_not_num {r : Except Fault Number} {f : Number → Number} (hx : ∀ n, x ≠ .num n) :
    (r >>= fun n => .ok (Value.num (f n))) ≠ .ok x := by
  cases r with
  | error fault =>
    intro h
    cases h
  | ok n =>
    intro h
    exact hx _ (Except.ok.inj h).symm

theorem collapse_eq_int_iff {i : Int} : (Number.int i).collapse = .int i ↔ i.natAbs ≤ Number.exactLimit := by
  simp only [Number.collapse]
  split <;> simp_all

theorem add_zero_iff (hz : z.eq (.int 0) = true) : add.eval x (.num z) = .ok x ↔ x.KeptByZero z := by
  -- a text grows and what is no number becomes one; of numbers, an integer is kept by an integer zero if it is exact,
  -- and a double by either zero, but for the sign of zero itself
  cases x with
  | num n =>
    cases n with
    | int i =>
      cases z with
      | int j =>
        obtain rfl := Operator.eq_of_eq_int hz
        change Except.ok (Value.num (Number.int (i + 0)).collapse) = _ ↔ _ ∧ _
        rw [Int.add_zero]
        simp [collapse_eq_int_iff]
      | float g =>
        refine ⟨fun h => ?_, fun h => by obtain ⟨-, j, hj⟩ := h; cases hj⟩
        obtain ⟨r, hr, h⟩ := except_bind_eq_ok h
        obtain ⟨y, -, hr⟩ := except_bind_eq_ok hr
        cases hr
        cases h
    | float f =>
      cases z with
      | int j =>
        obtain rfl := Operator.eq_of_eq_int hz
        change Except.ok (Value.num (.float (f + 0.0))) = .ok (.num (.float f)) ↔ _
        simp [Double.add_zero_eq_iff, Value.KeptByZero]
      | float g =>
        change Except.ok (Value.num (.float (f + g))) = .ok (.num (.float f)) ↔ _
        obtain rfl | rfl := Double.eq_zero_of_eq hz
        · have hne : (0.0 : Float) ≠ -0.0 := by decide +kernel
          simp [Double.add_zero_eq_iff, Value.KeptByZero, hne]
        · simp [Double.add_negZero, Value.KeptByZero]
  | str s =>
    refine ⟨fun h => ?_, False.elim⟩
    have happ : s ++ (Value.num z).toText = s := Value.str.inj (Except.ok.inj h)
    have hlength := congrArg String.length happ
    rw [String.length_append] at hlength
    exact toText_ne_empty hz (String.length_eq_zero_iff.1 (by omega))
  | _ => exact ⟨fun h => absurd h (bind_ne_of_not_num (by simp)), False.elim⟩

theorem mul_one_iff (hz : z.eq (.int 1) = true) : mul.eval x (.num z) = .ok x ↔ x.KeptByOne z := by
  cases x with
  | num n =>
    cases n with
    | int i =>
      cases z with
      | int j =>
        obtain rfl := Operator.eq_of_eq_int hz
        change Except.ok (Value.num (Number.int (i * 1)).collapse) = _ ↔ _ ∧ _
        rw [Int.mul_one]
        simp [collapse_eq_int_iff]
      | float g =>
        refine ⟨fun h => ?_, fun h => by obtain ⟨-, j, hj⟩ := h; cases hj⟩
        obtain ⟨r, hr, h⟩ := except_bind_eq_ok h
        obtain ⟨y, -, hr⟩ := except_bind_eq_ok hr
        cases hr
        cases h
    | float f =>
      refine iff_of_true ?_ trivial
      cases z with
      | int j =>
        obtain rfl := Operator.eq_of_eq_int hz
        change Except.ok (Value.num (.float (f * 1.0))) = _
        rw [Double.mul_one]
      | float g =>
        obtain rfl := Double.eq_one_of_eq hz
        change Except.ok (Value.num (.float (f * 1.0))) = _
        rw [Double.mul_one]
  | _ => exact ⟨fun h => absurd h (bind_ne_of_not_num (by simp)), False.elim⟩

theorem mul_zero_iff (hz : z.eq (.int 0) = true) :
    mul.eval x (.num z) = .ok (.num (.int 0)) ↔ x.Absorbed z := by
  change (x.toNumber.mul z >>= fun r => .ok (Value.num r.collapse)) = _ ↔ (∃ i, x.toNumber = .int i) ∧ _
  generalize x.toNumber = n
  constructor
  · intro h
    obtain ⟨r, hr, h⟩ := except_bind_eq_ok h
    unfold Number.mul at hr
    split at hr
    · exact ⟨⟨_, rfl⟩, _, rfl⟩
    · obtain ⟨y, -, hr⟩ := except_bind_eq_ok hr
      obtain ⟨y', -, hr⟩ := except_bind_eq_ok hr
      cases hr
      cases h
  · rintro ⟨⟨i, rfl⟩, j, rfl⟩
    obtain rfl := Operator.eq_of_eq_int hz
    change Except.ok (Value.num (Number.int (i * 0)).collapse) = _
    rw [Int.mul_zero]
    rfl

end BinaryOp

/-! ### Results that have a constant -/

theorem Number.fits_of_toFloat {a : Number} {y : Float} (h : a.toFloat = .ok y) : a.Fits := by
  by_contra hfits
  rw [toFloat_of_not_fits hfits] at h
  cases h

theorem Number.div_fits {a b r : Number} (h : a.div b = .ok r) : r.Fits := by
  unfold div at h
  split at h
  · split at h
    · cases h
      trivial
    · obtain ⟨s, -, h⟩ := except_bind_eq_ok h
      obtain ⟨s', -, h⟩ := except_bind_eq_ok h
      cases h
      trivial
  · split at h
    · unfold quotient at h
      dsimp only at h
      split at h
      · cases h
      · cases h
        trivial
    · obtain ⟨y, -, h⟩ := except_bind_eq_ok h
      obtain ⟨y', -, h⟩ := except_bind_eq_ok h
      cases h
      trivial

theorem Number.rem_fits {a b r : Number} (h : a.rem b = .ok r) : r.Fits := by
  unfold rem at h
  split at h
  · cases h
    trivial
  · obtain ⟨inf, hinf, h⟩ := except_bind_eq_ok h
    obtain ⟨y, hy, -⟩ := except_bind_eq_ok hinf
    split at h
    · cases h
      trivial
    · obtain ⟨inf', -, h⟩ := except_bind_eq_ok h
      split at h
      · cases h
        exact fits_of_toFloat hy
      · obtain ⟨x, -, h⟩ := except_bind_eq_ok h
        obtain ⟨x', -, h⟩ := except_bind_eq_ok h
        dsimp only at h
        split at h
        · cases h
          exact Double.truncate?_lt_overflow _
        · cases h
          trivial

namespace Value

theorem isWord_of_toInt32 {a : Value} {i : Int} (h : a.toInt32 = .ok i) : IsWord i := by
  obtain ⟨j, -, h⟩ := except_bind_eq_ok h
  cases h
  exact isWord_bmod j

theorem toUInt32_lt {a : Value} {n : Nat} (h : a.toUInt32 = .ok n) : n < 2 ^ 32 := by
  obtain ⟨i, -, h⟩ := except_bind_eq_ok h
  cases h
  have hword : (wordCount : Int) = 2 ^ 32 := rfl
  have hlt := Int.emod_lt_of_pos i (by decide : (0 : Int) < wordCount)
  omega

theorem fits_of_isWord {i : Int} (h : IsWord i) : (Value.num (.int i)).Within Number.Fits := (exact_of_isWord h).fits

end Value

theorem BinaryOp.eval_fits {op : BinaryOp} {a b v : Value} (h : op.eval a b = .ok v) : v.Within Number.Fits := by
  have hcollapse : ∀ {r : Except Fault Number}, (r >>= fun n => .ok (Value.num n.collapse)) = .ok v →
      v.Within Number.Fits := by
    intro r hr
    obtain ⟨n, -, hr⟩ := except_bind_eq_ok hr
    cases hr
    exact (Number.exact_collapse n).fits
  have hbits : ∀ {f : BitVec 32 → BitVec 32 → BitVec 32}, bitwise (onBits f) a b = .ok v → v.Within Number.Fits := by
    intro f hf
    obtain ⟨i, -, hf⟩ := except_bind_eq_ok hf
    obtain ⟨j, -, hf⟩ := except_bind_eq_ok hf
    cases hf
    exact Value.fits_of_isWord (isWord_onBits f i j)
  cases op with
  | add =>
    change evalAdd a b = .ok v at h
    unfold evalAdd at h
    split at h
    · cases h
      trivial
    · cases h
      trivial
    · exact hcollapse h
  | sub | mul | pow => exact hcollapse h
  | div =>
    obtain ⟨r, hr, h⟩ := except_bind_eq_ok h
    cases h
    exact Number.div_fits hr
  | rem =>
    obtain ⟨r, hr, h⟩ := except_bind_eq_ok h
    cases h
    exact Number.rem_fits hr
  | bitAnd | bitOr | bitXor => exact hbits h
  | shiftLeft =>
    obtain ⟨i, -, h⟩ := except_bind_eq_ok h
    obtain ⟨k, -, h⟩ := except_bind_eq_ok h
    cases h
    exact Value.fits_of_isWord (Value.isWord_bmod _)
  | shiftRight =>
    obtain ⟨i, hi, h⟩ := except_bind_eq_ok h
    obtain ⟨k, -, h⟩ := except_bind_eq_ok h
    cases h
    exact Value.fits_of_isWord (Value.isWord_ediv (Value.isWord_of_toInt32 hi) (Nat.two_pow_pos k))
  | shiftRightZero =>
    obtain ⟨n, hn, h⟩ := except_bind_eq_ok h
    obtain ⟨k, -, h⟩ := except_bind_eq_ok h
    cases h
    have hlt := Value.toUInt32_lt hn
    have hdiv : n / Nat.pow 2 k ≤ n := Nat.div_le_self ..
    refine Number.Exact.fits (a := .int _) ?_
    change ((n / Nat.pow 2 k : Nat) : Int).natAbs ≤ Number.exactLimit
    rw [Number.exactLimit_eq, Int.natAbs_natCast]
    omega
  | _ =>
    cases h
    trivial

namespace Operator

variable {op : Operator} {a b c : Operand} {memory : Memory} {x z v : Value}

/-- Folding has no constant for a sign before an integer literal that no double is near to. -/
def Unfit (op : Operator) (a : Operand) : Prop :=
  ∃ i, (op = .unary .neg ∨ op = .unary .pos) ∧ a = .num (.int i) ∧ ¬(Number.int i).Fits

/-- The value of an operator on a literal has a constant or none, unless it is a sign before too large an integer. -/
theorem eval_literal_fits (hx : a.literal? = some x) (hunfit : ¬op.Unfit a) (h : op.eval x z = .ok v) :
    v.Within Number.Fits := by
  have hnumber : op = .unary .neg ∨ op = .unary .pos → x.toNumber.Fits := by
    intro hop
    cases a with
    | num n =>
      cases hx
      cases n with
      | int i =>
        by_contra hfits
        exact hunfit ⟨i, hop, rfl, hfits⟩
      | float f => trivial
    | bool b => cases hx; exact Value.toNumber_within Number.closed_fits (a := .bool b) trivial
    | text s => cases hx; exact Value.toNumber_within Number.closed_fits (a := .str s) trivial
    | _ => cases hx
  cases op with
  | binary op => exact BinaryOp.eval_fits h
  | unary op =>
    cases op with
    | neg =>
      cases h
      exact Number.closed_fits.neg_mem (hnumber (.inl rfl))
    | pos =>
      cases h
      exact hnumber (.inr rfl)
    | bitNot =>
      obtain ⟨i, hi, h⟩ := except_bind_eq_ok h
      cases h
      have hword := Value.isWord_of_toInt32 hi
      refine Value.fits_of_isWord ?_
      unfold Value.IsWord at hword ⊢
      omega
    | not | typeOf =>
      cases h
      trivial

theorem constant?_ok_of_eval (hunfit : ¬op.Unfit a) (hx : memory.resolve a = .ok x) (hz : memory.resolve b = .ok z)
    (h : op.eval x z = .ok v) : ∃ k, op.constant? a b = .ok k := by
  unfold constant?
  split
  · rename_i op x' hx'
    obtain rfl := eq_of_literal? hx' hx
    have hfits := eval_literal_fits hx' hunfit h
    change op.eval x = .ok v at h
    rw [h]
    exact Operand.ofValue?_ok hfits
  · rename_i op x' z' hx' hz'
    split
    · exact ⟨none, rfl⟩
    · obtain rfl := eq_of_literal? hx' hx
      obtain rfl := eq_of_literal? hz' hz
      have hfits := eval_literal_fits hx' hunfit h
      change op.eval x z = .ok v at h
      rw [h]
      exact Operand.ofValue?_ok hfits
  · exact ⟨none, rfl⟩

/-- The identity that an instruction is simplified by holds for these values of its operands. -/
def Identity (op : Operator) (x z : Value) : Prop := ∀ n, z = .num n →
  (op = .binary .add → n.eq (.int 0) = true → x.KeptByZero n) ∧
  (op = .binary .mul → n.eq (.int 1) = true → x.KeptByOne n) ∧
  (op = .binary .mul → n.eq (.int 0) = true → x.Absorbed n)

theorem eq_num_of_isConst {n : Number} (h : b.isConst n = true) (hz : memory.resolve b = .ok z) :
    ∃ m, z = .num m ∧ b = .num m ∧ m.eq n = true := by
  cases b with
  | num m =>
    cases hz
    exact ⟨m, rfl, rfl, h⟩
  | _ => cases h

/-- A simplified operand has the value of the operator exactly if the identity holds. -/
theorem simplified?_resolve_iff (h : op.simplified? a b = some c) (hx : memory.resolve a = .ok x)
    (hz : memory.resolve b = .ok z) : op.eval x z = memory.resolve c ↔ op.Identity x z := by
  unfold simplified? at h
  split at h
  · split at h
    · rename_i hconst
      obtain ⟨n, rfl, -, hn⟩ := eq_num_of_isConst hconst hz
      cases h
      rw [hx]
      refine (BinaryOp.add_zero_iff hn).trans ⟨?_, fun hid => (hid n rfl).1 rfl hn⟩
      rintro hkept _ ⟨⟩
      exact ⟨fun _ _ => hkept, by simp, by simp⟩
    · cases h
  · split at h
    · rename_i hconst
      obtain ⟨n, rfl, -, hn⟩ := eq_num_of_isConst hconst hz
      cases h
      rw [hx]
      refine (BinaryOp.mul_one_iff hn).trans ⟨?_, fun hid => (hid n rfl).2.1 rfl hn⟩
      rintro hkept _ ⟨⟩
      refine ⟨by simp, fun _ _ => hkept, fun _ hzero => ?_⟩
      obtain ⟨p, hp, hone⟩ := Number.eq_iff.1 hn
      obtain ⟨p', hp', hzero⟩ := Number.eq_iff.1 hzero
      rw [hp] at hp'
      cases hp'
      cases hone
      cases hzero
    · rename_i hnot
      split at h
      · rename_i hconst
        obtain ⟨n, rfl, rfl, hn⟩ := eq_num_of_isConst hconst hz
        cases h
        refine (BinaryOp.mul_zero_iff hn).trans ⟨?_, fun hid => (hid n rfl).2.2 rfl hn⟩
        rintro hkept _ ⟨⟩
        exact ⟨by simp, fun _ hone => absurd hone hnot, fun _ _ => hkept⟩
      · cases h
  · cases h

/-- An instruction is not evaluated beforehand, but rewritten by an identity, whatever the value of its first operand
will be. -/
def Rewritten (op : Operator) (a b : Operand) : Prop :=
  op.constant? a b = .ok none ∧ (op.simplified? a b).isSome = true

end Operator

theorem Machine.write_next_eq_iff {m m' : Machine} {place : Nat} {x : Target} {v w : Value}
    (h : (do return (← m.write place x v).next) = Except.ok m') :
    (do return (← m.write place x w).next) = Except.ok m' ↔ w = v := by
  refine ⟨fun h' => ?_, fun hw => hw ▸ h⟩
  obtain ⟨m₁, h₁, h⟩ := except_bind_eq_ok h
  obtain ⟨m₂, h₂, h'⟩ := except_bind_eq_ok h'
  obtain ⟨k, hk, rfl⟩ := Machine.write_eq_ok h₁
  obtain ⟨k', hk', rfl⟩ := Machine.write_eq_ok h₂
  cases hk.symm.trans hk'
  cases h
  have hmemory := congrArg (fun m => m.memory.getKey? k) (Except.ok.inj h')
  simpa [Machine.next, Table.getKey?_setKey, Key.Meets] using hmemory

namespace Quad

variable {q : Quad} {op : Operator} {m m' : Machine} {code : Code} {labels : Labels}

/-- A folded instruction does what the instruction does exactly if it is rewritten by no identity, or by one that holds
for the values of its operands. -/
theorem fold_keeps_iff (hop : q.op = .operator op) (hunfit : ¬op.Unfit q.arg1) (hstep : m.step code labels q = .ok m') :
    ∃ q', q.fold? = .ok q' ∧ (m.step code labels (q'.getD q) = .ok m' ↔
      (op.Rewritten q.arg1 q.arg2 → ∀ x z, m.memory.resolve q.arg1 = .ok x → m.memory.resolve q.arg2 = .ok z →
        op.Identity x z)) := by
  obtain ⟨x, z, v, hx, hz, hv⟩ : ∃ x z v, m.memory.resolve q.arg1 = .ok x ∧ m.memory.resolve q.arg2 = .ok z ∧
      op.eval x z = .ok v := by
    cases Machine.step_effect hstep with
    | operator hop' hx hz hv _ =>
      cases hop.symm.trans hop'
      exact ⟨_, _, _, hx, hz, hv⟩
    | _ => simp_all
  obtain ⟨k, hk⟩ := Operator.constant?_ok_of_eval hunfit hx hz hv
  have hfolded : op.folded? q.arg1 q.arg2 = .ok (k.or (op.simplified? q.arg1 q.arg2)) := by
    unfold Operator.folded?
    rw [hk]
    cases k <;> rfl
  have hfold : q.fold? = .ok ((k.or (op.simplified? q.arg1 q.arg2)).map fun a =>
      { op := .assign, arg1 := a, result := q.result, index := q.index }) := by
    unfold fold?
    rw [hop]
    dsimp only
    rw [hfolded]
    rfl
  have hwrite : m.step code labels q = (do return (← m.write m.pc q.result v).next) :=
    Machine.step_operator hop hx hz hv
  rw [hwrite] at hstep
  refine ⟨_, hfold, ?_⟩
  -- a constant result is always that of the operator; a simplified one is where the identity holds
  cases k with
  | some c =>
    obtain ⟨w, hlit, hw⟩ := Operator.constant?_eq_some hk
    cases hv.symm.trans (hw hx hz)
    refine iff_of_true ?_ fun hrewritten => ?_
    · rwa [Option.some_or, Option.map_some, Option.getD_some,
        Machine.step_assign rfl (Operand.resolve_literal hlit m.memory)]
    · cases hk.symm.trans hrewritten.1
  | none =>
    rw [Option.none_or]
    cases hs : op.simplified? q.arg1 q.arg2 with
    | none =>
      refine iff_of_true (hwrite.trans hstep) fun hrewritten => ?_
      rw [Operator.Rewritten, hs] at hrewritten
      cases hrewritten.2
    | some c =>
      have hrewritten : op.Rewritten q.arg1 q.arg2 := ⟨hk, by rw [hs]; rfl⟩
      obtain ⟨w, hw⟩ : ∃ w, m.memory.resolve c = .ok w := by
        rcases folded_operand (hfolded.trans (by rw [Option.none_or, hs])) with rfl | ⟨w, hw⟩
        · exact ⟨x, hx⟩
        · exact ⟨w, Operand.resolve_literal hw m.memory⟩
      have hiff := Operator.simplified?_resolve_iff hs hx hz
      rw [hv, hw, Except.ok.injEq] at hiff
      rw [Option.map_some, Option.getD_some, Machine.step_assign rfl hw, Machine.write_next_eq_iff hstep, eq_comm, hiff]
      constructor
      · intro hid _ x' z' hx' hz'
        cases hx.symm.trans hx'
        cases hz.symm.trans hz'
        exact hid
      · intro hid
        exact hid hrewritten x z hx hz

/-- A memory that holds a double and a text. -/
def memoryOfTwo : Memory := ((∅ : Memory).setKey (.text "x") (.num (.float 2.5))).setKey (.text "s") (.str "a")

/-- A product of a double with one is the double, and is folded to it. -/
theorem fold_keeps_iff_double :
    ∃ m', ({ memory := memoryOfTwo } : Machine).step [] ∅
        (.operator (.binary .mul) (.name "x") (.num (.int 1)) "t0") = .ok m' ∧
      ∃ q', (Quad.operator (.binary .mul) (.name "x") (.num (.int 1)) "t0").fold? = .ok q' ∧
        ({ memory := memoryOfTwo } : Machine).step [] ∅
          (q'.getD (.operator (.binary .mul) (.name "x") (.num (.int 1)) "t0")) = .ok m' := by
  obtain ⟨m', hm'⟩ : ∃ m', ({ memory := memoryOfTwo } : Machine).step [] ∅
      (.operator (.binary .mul) (.name "x") (.num (.int 1)) "t0") = .ok m' := ⟨_, rfl⟩
  have hunfit : ¬(Operator.binary .mul).Unfit (.name "x") := by
    rintro ⟨i, -, ha, -⟩
    cases ha
  obtain ⟨q', hq', hiff⟩ := fold_keeps_iff rfl hunfit hm'
  refine ⟨m', hm', q', hq', hiff.2 ?_⟩
  rintro - x z ⟨⟩ ⟨⟩ n ⟨⟩
  exact ⟨by simp, fun _ _ => trivial, fun _ h => absurd h (by decide)⟩

/-- A sum of a text with zero is a longer text, but is folded to the text. -/
theorem fold_changes_text : ∃ m₁ m₂ q',
    ({ memory := memoryOfTwo } : Machine).step [] ∅
      (.operator (.binary .add) (.name "s") (.num (.int 0)) "t0") = .ok m₁ ∧
    m₁.memory.get? (.text "t0") = some (.str "a0") ∧
    (Quad.operator (.binary .add) (.name "s") (.num (.int 0)) "t0").fold? = .ok (some q') ∧
    ({ memory := memoryOfTwo } : Machine).step [] ∅ q' = .ok m₂ ∧ m₂.memory.get? (.text "t0") = some (.str "a") :=
  ⟨{ memory := memoryOfTwo.setKey (.text "t0") (.str "a0"), pc := 1 },
    { memory := memoryOfTwo.setKey (.text "t0") (.str "a"), pc := 1 }, _, rfl, by simp, rfl, rfl, by simp⟩

end Quad

end QuadScript
