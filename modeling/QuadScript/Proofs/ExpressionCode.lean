import QuadScript.Proofs.Expressions
import QuadScript.Proofs.Placement
import Mathlib.Data.List.Forall2

/-!
# The code of expressions

The code of an expression computes what `Expr.defer` says: `Node.IsExpr.comes` runs it, wherever it stands, from a
memory that holds the variables of the program to one that holds those after the evaluation, and the operand of
the expression stands for what was evaluated. Temporaries and join variables drawn before are left as they are,
which is why the operands of an operation are still good when the operation is carried out.
-/

namespace QuadScript

/-! ### Memories -/

/-- The memory has these variables of the program, and none with the name of a constant. -/
structure Memory.Holds (μ : Memory) (σ : Store) : Prop where
  vars : ∀ x, isSourceName x = true → μ.get? (.text (mangle x)) = σ x
  constants : ∀ x, (namedConstant? x).isSome → σ x = none

namespace Memory.Holds

variable {μ : Memory} {σ : Store} {x : String} {v : Value}

theorem empty : Memory.Holds ∅ .empty := ⟨fun _ _ => rfl, fun _ _ => rfl⟩

theorem read (h : μ.Holds σ) (hx : isSourceName x = true) : μ.read (mangle x) = σ.read x := by
  unfold Memory.read Store.read
  rw [h.vars x hx, namedConstant?_mangle]
  cases σ x <;> rfl

theorem read_constant (h : μ.Holds σ) (hv : namedConstant? x = some v) : μ.read x = v := by
  have hx : (namedConstant? x).isSome := by rw [hv]; rfl
  obtain ⟨hs, hm⟩ := namedConstant?_of_isSome hx
  rw [← hm, h.read hs]
  simp [Store.read, h.constants x hx, hv]

theorem set_generated (h : μ.Holds σ) (hx : ∀ y, isSourceName y = true → mangle y ≠ x) :
    Memory.Holds (μ.set (.text x) v) σ := by
  refine ⟨fun y hy => ?_, h.constants⟩
  rw [Table.get?_set, if_neg fun he => hx y hy (Key.text.inj he).symm, h.vars y hy]

theorem set_variable (h : μ.Holds σ) (hx : isVariable x = true) :
    Memory.Holds (μ.set (.text (mangle x)) v) (σ.set x v) := by
  simp only [isVariable, Bool.and_eq_true, Option.isNone_iff_eq_none] at hx
  refine ⟨fun y hy => ?_, fun y hy => ?_⟩
  · by_cases hyx : y = x
    · rw [hyx, Table.get?_set, if_pos rfl, Store.set_self]
    · rw [Table.get?_set, Store.set_of_ne hyx, h.vars y hy,
        if_neg fun he => hyx (mangle_injective hx.1 hy (Key.text.inj he)).symm]
  · have hyx : y ≠ x := by rintro rfl; rw [hx.2] at hy; cases hy
    rw [Store.set_of_ne hyx, h.constants y hy]

end Memory.Holds

/-! ### Names drawn from a supply -/

namespace Supply

variable {s s' s₁ : Supply} {μ μ' μ₁ : Memory} {x : String} {v : Value} {k : Nat}

/-- The second supply has nothing back that the first gave out. -/
def Le (s s' : Supply) : Prop := s.temps ≤ s'.temps ∧ s.joins ≤ s'.joins

/-- A name that the supply has not given out. -/
def Fresh (s : Supply) (x : String) : Prop := (∀ k < s.temps, tempName k ≠ x) ∧ ∀ k < s.joins, joinName k ≠ x

/-- The names that the supply has given out have the same values. -/
def Keeps (s : Supply) (μ μ' : Memory) : Prop := ∀ x, ¬ s.Fresh x → μ'.get? (.text x) = μ.get? (.text x)

theorem Le.refl : s.Le s := ⟨Nat.le_refl _, Nat.le_refl _⟩

theorem Le.trans (h : s.Le s₁) (h' : s₁.Le s') : s.Le s' := ⟨h.1.trans h'.1, h.2.trans h'.2⟩

theorem le_drawTemp : s.Le s.drawTemp := ⟨Nat.le_succ _, Nat.le_refl _⟩

theorem le_drawJoin {n : Nat} : s.Le (s.drawJoin.drawLabels n) := ⟨Nat.le_refl _, Nat.le_succ _⟩

theorem Fresh.of_le (h : s'.Fresh x) (hle : s.Le s') : s.Fresh x :=
  ⟨fun k hk => h.1 k (by have := hle.1; omega), fun k hk => h.2 k (by have := hle.2; omega)⟩

theorem fresh_temp (h : s.temps ≤ k) : s.Fresh (tempName k) :=
  ⟨fun j hj he => by have := numbered_injective _ he; omega,
    fun j _ he => ne_of_head (head_joinName j) (head_append (a := "t") rfl) (by decide) he⟩

theorem fresh_join (h : s.joins ≤ k) : s.Fresh (joinName k) :=
  ⟨fun j _ he => ne_of_head (head_append (a := "t") rfl) (head_joinName k) (by decide) he,
    fun j hj he => by have := numbered_injective _ he; omega⟩

theorem fresh_mangle (hx : isSourceName x = true) : s.Fresh (mangle x) :=
  ⟨fun k _ he => mangle_ne_tempName x k he.symm, fun k _ he => mangle_ne_joinName hx k he.symm⟩

theorem not_fresh_temp (h : k < s.temps) : ¬ s.Fresh (tempName k) := fun hf => hf.1 k h rfl

theorem not_fresh_join (h : k < s.joins) : ¬ s.Fresh (joinName k) := fun hf => hf.2 k h rfl

theorem Keeps.refl : s.Keeps μ μ := fun _ _ => rfl

theorem Keeps.trans (h : s.Keeps μ μ₁) (h' : s.Keeps μ₁ μ') : s.Keeps μ μ' :=
  fun x hx => (h' x hx).trans (h x hx)

theorem Keeps.of_le (h : s'.Keeps μ μ') (hle : s.Le s') : s.Keeps μ μ' :=
  fun x hx => h x fun hf => hx (hf.of_le hle)

theorem keeps_set (hx : s.Fresh x) : s.Keeps μ (μ.set (.text x) v) := by
  intro y hy
  have hne : Key.text x ≠ .text y := by rintro ⟨⟩; exact hy hx
  rw [Table.get?_set, if_neg hne]

/-! ### What operands stand for -/

/-- The operand stands for that as long as the names that the supply has given out keep their values. -/
def Stands (s : Supply) (μ : Memory) (a : Operand) (h : Held) : Prop :=
  ∀ μ' σ, s.Keeps μ μ' → μ'.Holds σ → μ'.resolve a = .ok (σ.look h)

variable {a : Operand} {h : Held} {t : Tree}

theorem Stands.mono (ha : s.Stands μ a h) (hk : s.Keeps μ μ') (hle : s.Le s') : s'.Stands μ' a h :=
  fun μ'' σ hk' hσ => ha μ'' σ (hk.trans (hk'.of_le hle)) hσ

theorem stands_constant (hv : namedConstant? x = some v) : s.Stands μ (.name x) (.value v) :=
  fun _ _ _ hσ => congrArg Except.ok (hσ.read_constant hv)

theorem stands_void : s.Stands μ void (.value .undefined) := stands_constant rfl

theorem stands_literal (ht : t.constant? = some v) : s.Stands μ (Lower.literalOperand t) (.value v) := by
  cases t with
  | null => cases ht; exact stands_constant rfl
  | bool b => cases ht; exact fun _ _ _ _ => rfl
  | num n => cases ht; exact fun _ _ _ _ => rfl
  | str s => cases ht; exact fun _ _ _ _ => rfl
  | _ => cases ht

theorem stands_variable (hx : isSourceName x = true) : s.Stands μ (Lower.nameOperand (.str x)) (.var x) := by
  intro μ' σ _ hσ
  rw [Lower.nameOperand, ofSymbol_mangle hx]
  exact congrArg Except.ok (hσ.read hx)

theorem stands_set (hx : ¬ s.Fresh x) : s.Stands (μ.set (.text x) v) (.name x) (.value v) := by
  intro μ' σ hk _
  simp [Memory.resolve, Memory.read, hk x hx, Store.look]

theorem stands_drawTemp : s.drawTemp.Stands (μ.set (.text (tempName s.temps)) v) (.name (tempName s.temps)) (.value v) :=
  stands_set (not_fresh_temp (Nat.lt_succ_self _))

theorem stands_last {as : List Operand} {hs : List Held} (h : List.Forall₂ (s.Stands μ) as hs) :
    s.Stands μ (as.getLast?.getD void) (hs.getLast?.getD (.value .undefined)) := by
  induction h with
  | nil => exact stands_void
  | cons ha has ih =>
    cases has with
    | nil => exact ha
    | cons _ _ => simpa using ih

end Supply

/-! ### Running the code of an expression -/

namespace Machine

variable {m m₁ m₂ : Machine} {p p' k : Nat} {s s₁ : Supply} {σ σ' : Store} {x : String} {v : Value}

/-- The run got to that position; it changed only the memory, and there no name that was drawn before. -/
structure Arrives (m : Machine) (p : Nat) (s : Supply) (σ : Store) (m' : Machine) : Prop where
  eq : m' = { m with pc := p, memory := m'.memory }
  holds : m'.memory.Holds σ
  keeps : s.Keeps m.memory m'.memory

namespace Arrives

theorem pc (h : m.Arrives p s σ m₁) : m₁.pc = p := by rw [h.eq]

theorem refl (hσ : m.memory.Holds σ) : m.Arrives m.pc s σ m := ⟨rfl, hσ, .refl⟩

theorem trans (h : m.Arrives p s σ m₁) (h' : m₁.Arrives p' s₁ σ' m₂) (hle : s.Le s₁) : m.Arrives p' s σ' m₂ := by
  refine ⟨?_, h'.holds, h.keeps.trans (h'.keeps.of_le hle)⟩
  rw [h'.eq, h.eq]

theorem cast (h : m.Arrives p s σ m₁) (hp : p = p') : m.Arrives p' s σ m₁ := hp ▸ h

theorem of_le (h : m.Arrives p s₁ σ m₁) (hle : s.Le s₁) : m.Arrives p s σ m₁ :=
  ⟨h.eq, h.holds, h.keeps.of_le hle⟩

theorem move (h : m.Arrives p s σ m₁) (p' : Nat) : m.Arrives p' s σ { m₁ with pc := p' } :=
  ⟨by rw [h.eq], h.holds, h.keeps⟩

theorem next (h : m.Arrives p s σ m₁) : m.Arrives (p + 1) s σ m₁.next := by
  rw [← h.pc]; exact h.move _

theorem put (h : m.Arrives p s σ m₁) (hx : s.Fresh x) (hσ : Memory.Holds (m₁.memory.set (.text x) v) σ') :
    m.Arrives (p + 1) s σ' (m₁.put x v) := by
  refine ⟨?_, hσ, h.keeps.trans (Supply.keeps_set hx)⟩
  rw [Machine.put, h.eq]

theorem put_temp (h : m.Arrives p s σ m₁) (hk : s.temps ≤ k) (v : Value) :
    m.Arrives (p + 1) s σ (m₁.put (tempName k) v) :=
  h.put (Supply.fresh_temp hk) (h.holds.set_generated fun y _ => mangle_ne_tempName y _)

theorem put_join (h : m.Arrives p s σ m₁) (hk : s.joins ≤ k) (v : Value) :
    m.Arrives (p + 1) s σ (m₁.put (joinName k) v) :=
  h.put (Supply.fresh_join hk) (h.holds.set_generated fun _ hy => mangle_ne_joinName hy _)

theorem put_variable (h : m.Arrives p s σ m₁) (hx : isVariable x = true) (v : Value) :
    m.Arrives (p + 1) s (σ.set x v) (m₁.put (mangle x) v) :=
  h.put (Supply.fresh_mangle (Bool.and_eq_true_iff.1 hx).1) (h.holds.set_variable hx)

end Arrives

theorem get?_put (m : Machine) (x : String) (v : Value) : (m.put x v).memory.get? (.text x) = some v := by
  simp [put]

theorem resolve_put (m : Machine) (x : String) (v : Value) : (m.put x v).memory.resolve (.name x) = .ok v := by
  simp [Memory.resolve, Memory.read, put]

/-- The code of an expression was run: its operand stands for what was evaluated. -/
def Evaluated (m : Machine) (s : Supply) (r : Lowered Operand) (d : Held × Store) (m' : Machine) : Prop :=
  m.Arrives (m.pc + r.code.length) s d.2 m' ∧ r.supply.Stands m'.memory r.value d.1

theorem Evaluated.resolve {r : Lowered Operand} {d : Held × Store} (h : m.Evaluated s r d m₁) :
    m₁.memory.resolve r.value = .ok (d.2.look d.1) := h.2 _ _ .refl h.1.holds

end Machine

namespace Lower

theorem assignee?_identifier {mark : Mark} {t : Tree} (h : mark.name = some t) :
    assignee? (.mk mark .identifier) = .ok (some t) := by
  simp only [assignee?, Mark.requireName, h]; rfl

theorem isText_of_compoundOp? {t : Tree} {op : BinaryOp} (h : compoundOp? t = .ok (some op)) :
    t.isText "=" = false := by
  cases t with
  | str s =>
    by_contra hs
    obtain rfl : s = "=" := by simpa [Tree.isText] using hs
    cases h
  | _ => rfl

theorem isText_of_unaryOp? {t : Tree} {op : UnaryOp} (h : unaryOp? t = .ok (some op)) :
    t.isText "void" = false := by
  cases t with
  | str s =>
    by_contra hs
    obtain rfl : s = "void" := by simpa [Tree.isText] using hs
    cases h
  | _ => rfl

theorem logicalTest_exists (t : Tree) (j : String) (s : Supply) : ∃ r, logicalTest t j s = .ok r ∧ s.Le r.supply := by
  unfold logicalTest
  split
  · exact ⟨_, pure_eq_ok.2 rfl, .refl⟩
  · split <;> exact ⟨_, operator_eq_ok.2 rfl, Supply.le_drawTemp⟩

theorem logicalTest_le {t : Tree} {j : String} {s : Supply} {r : Lowered Operand} (h : logicalTest t j s = .ok r) :
    s.Le r.supply := by
  obtain ⟨r', hr', hle⟩ := logicalTest_exists t j s
  cases h.symm.trans hr'
  exact hle

end Lower

section
open Machine Lower

mutual

theorem Node.IsExpr.lowers : ∀ {n : Node} {e : Expr}, n.IsExpr e → ∀ s : Supply,
    ∃ r, expr n s = .ok r ∧ s.Le r.supply
  | _, _, .literal _, s => ⟨_, expr_literal.2 rfl, .refl⟩
  | _, _, .template, s => ⟨_, expr_template.2 ⟨_, rfl, rfl⟩, .refl⟩
  | _, _, .identifier _ _, s => ⟨_, expr_identifier.2 rfl, .refl⟩
  | _, _, .assignment _ hm h, s => by
    obtain ⟨a, ha, hle⟩ := h.lowers s
    exact ⟨_, (expr_assignment (assignee?_identifier hm) rfl).2 ⟨a, ha, rfl⟩, hle⟩
  | _, _, .compound _ hm hop h, s => by
    obtain ⟨a, ha, hle⟩ := h.lowers s
    exact ⟨_, (expr_compound (assignee?_identifier hm) (isText_of_compoundOp? hop) hop).2 ⟨a, ha, rfl⟩,
      hle.trans Supply.le_drawTemp⟩
  | _, _, .binary hop h₁ h₂, s => by
    obtain ⟨a, ha, hle⟩ := h₁.lowers s
    obtain ⟨b, hb, hle'⟩ := h₂.lowers a.supply
    exact ⟨_, (expr_binary hop).2 ⟨a, ha, b, hb, rfl⟩, (hle.trans hle').trans Supply.le_drawTemp⟩
  | _, _, .unary hop h, s => by
    obtain ⟨a, ha, hle⟩ := h.lowers s
    exact ⟨_, (expr_unary (isText_of_unaryOp? hop) hop).2 ⟨a, ha, rfl⟩, hle.trans Supply.le_drawTemp⟩
  | _, _, .void h, s => by
    obtain ⟨a, ha, hle⟩ := h.lowers s
    exact ⟨_, (expr_void rfl).2 ⟨a, ha, rfl⟩, hle⟩
  | _, _, .logical (c := c) h₁ h₂, s => by
    obtain ⟨a, ha, hle⟩ := h₁.lowers (s.drawJoin.drawLabels 1)
    obtain ⟨t, ht, hle₁⟩ := logicalTest_exists (.str c.word) (joinName s.joins) a.supply
    obtain ⟨b, hb, hle'⟩ := h₂.lowers t.supply
    exact ⟨_, expr_logical.2 ⟨a, ha, t, ht, b, hb, rfl⟩,
      ((Supply.le_drawJoin.trans hle).trans hle₁).trans hle'⟩
  | _, _, .conditional h h₁ h₂, s => by
    obtain ⟨a, ha, hle⟩ := h.lowers (s.drawJoin.drawLabels 2)
    obtain ⟨b, hb, hle₁⟩ := h₁.lowers a.supply
    obtain ⟨d, hd, hle₂⟩ := h₂.lowers b.supply
    exact ⟨_, expr_conditional.2 ⟨a, ha, b, hb, d, hd, rfl⟩,
      ((Supply.le_drawJoin.trans hle).trans hle₁).trans hle₂⟩
  | _, _, .sequence h, s => by
    obtain ⟨as, has, hle⟩ := h.lowers s
    exact ⟨_, expr_sequence.2 ⟨as, has, rfl⟩, hle⟩

theorem Node.AreExprs.lowers : ∀ {ns : List Node} {es : List Expr}, Node.AreExprs ns es →
    ∀ s : Supply, ∃ r, exprs ns s = .ok r ∧ s.Le r.supply
  | _, _, .nil, s => ⟨_, exprs_nil.2 rfl, .refl⟩
  | _, _, .cons h hs, s => by
    obtain ⟨a, ha, hle⟩ := h.lowers s
    obtain ⟨as, has, hle'⟩ := hs.lowers a.supply
    exact ⟨_, exprs_cons.2 ⟨a, ha, as, has, rfl⟩, hle.trans hle'⟩

end

theorem Node.IsExpr.le {n : Node} {e : Expr} {s : Supply} {r : Lowered Operand} (h : n.IsExpr e)
    (hr : expr n s = .ok r) : s.Le r.supply := by
  obtain ⟨r', hr', hle⟩ := h.lowers s
  cases hr.symm.trans hr'
  exact hle

variable {code : Code}

theorem Value.looseEq_null (v : Value) : v.looseEq .null = v.isNullish := by
  cases v <;> rfl

/-- The test of a choice is true if the right operand is to be evaluated. -/
theorem Choice.comes_test {c : Choice} {s : Supply} {t : Lowered Operand} {m : Machine} {σ : Store} {j : String}
    {v : Value} (ht : logicalTest (.str c.word) j s = .ok t) (hat : code.At m.pc t.code) (hσ : m.memory.Holds σ)
    (hj : m.memory.get? (.text j) = some v) : Comes code m (.ok ()) fun _ m' =>
      m.Arrives (m.pc + t.code.length) s σ m' ∧
        ∃ w, m'.memory.resolve t.value = .ok w ∧ w.truthy = c.takesRight v := by
  have hv : m.memory.resolve (.name j) = .ok v := by simp [Memory.resolve, Memory.read, hj]
  cases c with
  | and =>
    obtain rfl := pure_eq_ok.1 ht
    exact .ok ⟨.refl hσ, v, hv, rfl⟩
  | or =>
    obtain rfl := operator_eq_ok.1 ht
    obtain ⟨n, _, hn, rfl⟩ : Comes code m (.ok (Value.bool !v.truthy)) _ := comes_operator hat.head hv rfl
    exact ⟨n, _, hn, (Arrives.refl hσ).put_temp (Nat.le_refl _) _, _, resolve_put m _ _, rfl⟩
  | nullish =>
    obtain rfl := operator_eq_ok.1 ht
    have hnull : m.memory.resolve (.name "null") = .ok .null := congrArg Except.ok (hσ.read_constant rfl)
    obtain ⟨n, _, hn, rfl⟩ : Comes code m (.ok (Value.bool (v.looseEq .null))) _ := comes_operator hat.head hv hnull
    exact ⟨n, _, hn, (Arrives.refl hσ).put_temp (Nat.le_refl _) _, _, resolve_put m _ _, v.looseEq_null⟩

/-- Wherever the code of the node stands, it computes what the expression does. -/
def Node.Computes (code : Code) (n : Node) (e : Expr) : Prop := ∀ {s : Supply} {r : Lowered Operand} {σ : Store}
  {m : Machine}, expr n s = .ok r → code.At m.pc r.code → m.memory.Holds σ → Comes code m (e.defer σ) (m.Evaluated s r)

section
variable {mark : Mark} {n n₁ n₂ : Node} {e a₁ a₂ : Expr}

theorem Node.computes_logical {c : Choice} (hl : code.Linked) (h₁ : n₁.IsExpr a₁) (h₂ : n₂.IsExpr a₂)
    (ih₁ : n₁.Computes code a₁) (ih₂ : n₂.Computes code a₂) :
    Node.Computes code (.mk mark (.logical (.str c.word) n₁ n₂)) (.choice c a₁ a₂) := by
  intro s r σ m hr hat hσ
  obtain ⟨a, ha, t, ht, b, hb, rfl⟩ := expr_logical.1 hr
  have hle : s.Le a.supply := Supply.le_drawJoin.trans (h₁.le ha)
  have hle' : a.supply.Le t.supply := logicalTest_le ht
  have hle₂ : t.supply.Le b.supply := h₂.le hb
  have hjoin : ¬ a.supply.Fresh (joinName s.joins) := Supply.not_fresh_join (h₁.le ha).2
  refine (ih₁ ha hat.left hσ).bind fun d m₁ hd => ?_
  have hat₁ := hd.1.pc ▸ hat.right
  have harr := (hd.1.of_le Supply.le_drawJoin).put_join (Nat.le_refl _) (d.2.look d.1)
  -- the left value goes to the join variable, where it is tested and stays if the right side is jumped over
  refine .step (advance_assign hat₁.head hd.resolve) ?_
  obtain ⟨n, m₃, hn, harr₃, w, hw, hwt⟩ :=
    Choice.comes_test ht hat₁.tail.left harr.holds (get?_put m₁ (joinName s.joins) (d.2.look d.1))
  refine .trans hn ?_
  have hat₃ := harr₃.pc ▸ hat₁.tail.right
  have harr₃' := harr.trans harr₃ hle
  split
  · rename_i htake
    refine .step (advance_pass hat₃.head hw (hwt.trans htake)) ?_
    refine (ih₂ hb hat₃.tail.left harr₃'.next.holds).bind fun d' m₄ hd' => ?_
    have hat₄ := hd'.1.pc ▸ hat₃.tail.right
    refine .step (advance_assign hat₄.head hd'.resolve) (.step (advance_label hat₄.tail.head) (.ok ⟨?_, ?_⟩))
    · have harr₄ := harr₃'.next.trans hd'.1 (hle.trans hle')
      refine (harr₄.put_join (Nat.le_refl _) _).next.cast ?_
      simp [Machine.put, Machine.next, harr₃.pc, hd.1.pc]; omega
    · exact Supply.stands_set fun hf => hjoin (hf.of_le (hle'.trans hle₂))
  · rename_i htake
    have hat₄ := hat₃.tail.right.tail
    refine .step (advance_branch hl hat₃.head hat₄.head hw (hwt.trans (Bool.eq_false_iff.2 htake)))
      (.step (advance_label hat₄.head) (.ok ⟨?_, ?_⟩))
    · refine (harr₃'.move _).next.cast ?_
      simp [Machine.put, harr₃.pc, hd.1.pc]; omega
    · exact (Supply.stands_set hjoin).mono harr₃.keeps (hle'.trans hle₂)

theorem Node.computes_conditional (hl : code.Linked) (h : n.IsExpr e) (h₁ : n₁.IsExpr a₁) (h₂ : n₂.IsExpr a₂)
    (ih : n.Computes code e) (ih₁ : n₁.Computes code a₁) (ih₂ : n₂.Computes code a₂) :
    Node.Computes code (.mk mark (.conditional n n₁ n₂)) (.cond e a₁ a₂) := by
  intro s r σ m hr hat hσ
  obtain ⟨a, ha, b, hb, c, hc, rfl⟩ := expr_conditional.1 hr
  have hle : s.Le a.supply := Supply.le_drawJoin.trans (h.le ha)
  have hjoin : ¬ c.supply.Fresh (joinName s.joins) := fun hf =>
    Supply.not_fresh_join (h.le ha).2 (hf.of_le ((h₁.le hb).trans (h₂.le hc)))
  refine (ih ha hat.left hσ).bind fun d m₁ hd => ?_
  have hat₁ := hd.1.pc ▸ hat.right
  have hfalse := hat₁.tail.right.tail.tail
  have hend := hfalse.tail.right.tail
  split
  · rename_i htrue
    refine .step (advance_pass hat₁.head hd.resolve htrue) ?_
    refine (ih₁ hb hat₁.tail.left hd.1.next.holds).bind fun d' m₂ hd' => ?_
    have hat₂ := hd'.1.pc ▸ hat₁.tail.right
    refine .step (advance_assign hat₂.head hd'.resolve) (.step (advance_goto hl hat₂.tail.head hend.head)
      (.step (advance_label hend.head) (.ok ⟨?_, Supply.stands_set hjoin⟩)))
    have harr := (hd.1.of_le Supply.le_drawJoin).next.trans hd'.1 hle
    refine ((harr.put_join (Nat.le_refl _) _).move _).next.cast ?_
    simp [hd.1.pc]; omega
  · rename_i hfalse'
    refine .step (advance_branch hl hat₁.head hfalse.head hd.resolve (Bool.eq_false_iff.2 hfalse'))
      (.step (advance_label hfalse.head) ?_)
    have harr := ((hd.1.of_le Supply.le_drawJoin).move (m₁.pc + 1 + b.code.length + 1 + 1)).next
    refine (ih₂ hc hfalse.tail.left harr.holds).bind fun d' m₂ hd' => ?_
    have hat₂ := hd'.1.pc ▸ hfalse.tail.right
    refine .step (advance_assign hat₂.head hd'.resolve)
      (.step (advance_label hat₂.tail.head) (.ok ⟨?_, Supply.stands_set hjoin⟩))
    have harr₂ := harr.trans hd'.1 (hle.trans (h₁.le hb))
    refine (harr₂.put_join (Nat.le_refl _) _).next.cast ?_
    simp [Machine.next, hd.1.pc]; omega

end

mutual

theorem Node.IsExpr.comes (hl : code.Linked) : ∀ {n : Node} {e : Expr}, n.IsExpr e → ∀ {s : Supply}
    {r : Lowered Operand} {σ : Store} {m : Machine}, expr n s = .ok r → code.At m.pc r.code → m.memory.Holds σ →
    Comes code m (e.defer σ) (m.Evaluated s r)
  | _, _, .literal ht, s, r, σ, m, hr, hat, hσ => by
    obtain rfl := expr_literal.1 hr
    exact .ok ⟨.refl hσ, Supply.stands_literal ht⟩
  | _, _, .template, s, r, σ, m, hr, hat, hσ => by
    obtain ⟨t, ht, rfl⟩ := expr_template.1 hr
    cases ht
    exact .ok ⟨.refl hσ, fun _ _ _ _ => rfl⟩
  | _, _, .identifier hx hm, s, r, σ, m, hr, hat, hσ => by
    obtain rfl := expr_identifier.1 hr
    rw [Mark.nameTree, hm]
    exact .ok ⟨.refl hσ, Supply.stands_variable hx⟩
  | _, _, .assignment hx hm h, s, r, σ, m, hr, hat, hσ => by
    obtain ⟨a, ha, rfl⟩ := (expr_assignment (assignee?_identifier hm) rfl).1 hr
    refine (h.comes hl ha hat.left hσ).bind fun d m₁ hd => ?_
    have hq := hd.1.pc ▸ hat.right.head
    refine .step (advance_assign hq hd.resolve) (.ok ⟨?_, Supply.stands_variable (Bool.and_eq_true_iff.1 hx).1⟩)
    exact (hd.1.put_variable hx _).cast (by simp; omega)
  | _, _, .compound hx hm hop h, s, r, σ, m, hr, hat, hσ => by
    obtain ⟨a, ha, rfl⟩ := (expr_compound (assignee?_identifier hm) (isText_of_compoundOp? hop) hop).1 hr
    have hs := (Bool.and_eq_true_iff.1 hx).1
    refine (h.comes hl ha hat.left hσ).bind fun d m₁ hd => ?_
    have hq := hd.1.pc ▸ hat.right.head
    have hv := Supply.stands_variable (s := s) hs _ _ .refl hd.1.holds
    refine (comes_operator hq hv hd.resolve).bind fun v m₂ hm₂ => ?_
    subst hm₂
    have hq' : code[(m₁.put (tempName a.supply.temps) v).pc]? = some _ := hd.1.pc ▸ hat.right.tail.head
    refine .step (advance_assign hq' (resolve_put m₁ _ v)) (.ok ⟨?_, Supply.stands_variable hs⟩)
    exact ((hd.1.put_temp (h.le ha).1 v).put_variable hx v).cast (by simp; omega)
  | _, _, .binary hop h₁ h₂, s, r, σ, m, hr, hat, hσ => by
    obtain ⟨a, ha, b, hb, rfl⟩ := (expr_binary hop).1 hr
    refine (h₁.comes hl ha hat.left hσ).bind fun d₁ m₁ hd₁ => ?_
    refine (h₂.comes hl hb (hd₁.1.pc ▸ hat.right.left) hd₁.1.holds).bind fun d₂ m₂ hd₂ => ?_
    have hq := hd₂.1.pc ▸ hd₁.1.pc ▸ hat.right.right.head
    -- the left operand still stands for its value behind the code of the right one
    refine (comes_operator hq (hd₁.2 _ _ hd₂.1.keeps hd₂.1.holds) hd₂.resolve).bind fun v m₃ hm₃ => ?_
    subst hm₃
    have hle := h₁.le ha
    refine .ok ⟨((hd₁.1.trans hd₂.1 hle).put_temp (hle.trans (h₂.le hb)).1 v).cast ?_, Supply.stands_drawTemp⟩
    simp [hd₁.1.pc]; omega
  | _, _, .unary hop h, s, r, σ, m, hr, hat, hσ => by
    obtain ⟨a, ha, rfl⟩ := (expr_unary (isText_of_unaryOp? hop) hop).1 hr
    refine (h.comes hl ha hat.left hσ).bind fun d m₁ hd => ?_
    have hq := hd.1.pc ▸ hat.right.head
    refine (comes_operator (w := .undefined) hq hd.resolve rfl).bind fun v m₂ hm₂ => ?_
    subst hm₂
    refine .ok ⟨(hd.1.put_temp (h.le ha).1 v).cast ?_, Supply.stands_drawTemp⟩
    simp; omega
  | _, _, .void h, s, r, σ, m, hr, hat, hσ => by
    obtain ⟨a, ha, rfl⟩ := (expr_void rfl).1 hr
    exact (h.comes hl ha hat hσ).bind fun d m₁ hd => .ok ⟨hd.1, Supply.stands_void⟩
  | _, _, .logical h₁ h₂, _, _, _, _, hr, hat, hσ => computes_logical hl h₁ h₂ (h₁.comes hl) (h₂.comes hl) hr hat hσ
  | _, _, .conditional h h₁ h₂, _, _, _, _, hr, hat, hσ =>
    computes_conditional hl h h₁ h₂ (h.comes hl) (h₁.comes hl) (h₂.comes hl) hr hat hσ
  | _, _, .sequence h, s, r, σ, m, hr, hat, hσ => by
    obtain ⟨as, has, rfl⟩ := expr_sequence.1 hr
    exact (h.comes hl has hat hσ).bind fun d m₁ hd => .ok ⟨hd.1, Supply.stands_last hd.2⟩

theorem Node.AreExprs.comes (hl : code.Linked) : ∀ {ns : List Node} {es : List Expr}, Node.AreExprs ns es →
    ∀ {s : Supply} {r : Lowered (List Operand)} {σ : Store} {m : Machine}, exprs ns s = .ok r →
    code.At m.pc r.code → m.memory.Holds σ → Comes code m (Expr.deferAll es σ) fun d m' =>
      m.Arrives (m.pc + r.code.length) s d.2 m' ∧ List.Forall₂ (r.supply.Stands m'.memory) r.value d.1
  | _, _, .nil, s, r, σ, m, hr, hat, hσ => by
    obtain rfl := exprs_nil.1 hr
    exact .ok ⟨.refl hσ, .nil⟩
  | _, _, .cons h hs, s, r, σ, m, hr, hat, hσ => by
    obtain ⟨a, ha, as, has, rfl⟩ := exprs_cons.1 hr
    refine (h.comes hl ha hat.left hσ).bind fun d m₁ hd => ?_
    refine (hs.comes hl has (hd.1.pc ▸ hat.right) hd.1.holds).bind fun ds m₂ hds => ?_
    obtain ⟨_, has', hle⟩ := hs.lowers a.supply
    cases has.symm.trans has'
    refine .ok ⟨(hd.1.trans hds.1 (h.le ha)).cast ?_, .cons (hd.2.mono hds.1.keeps hle) hds.2⟩
    simp [hd.1.pc]; omega

end

end

end QuadScript
