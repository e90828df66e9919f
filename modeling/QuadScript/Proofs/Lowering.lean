import QuadScript.Proofs.Names
import Mathlib.Tactic.Simps.Basic

/-!
# What lowering emits, form by form

For each form of node, exactly when its lowering succeeds and what it then gives: the results of the
parts in the order in which they are lowered, and the code put together from them. These are the
equations that later proofs use; none of them opens the lowering again.

`Lower.Yields x s before r` is the working form of a result: the action `x` succeeds after the code
`before`, and `r` holds that code as well, so that the code of a sequence of actions comes out as
one list.
-/

namespace QuadScript

/-! ### The instructions that are emitted -/

namespace Quad

@[simps] def assign (a : Operand) (x : Target) : Quad := { op := .assign, arg1 := a, result := x }

@[simps] def label (l : String) : Quad := { op := .label, result := .name l }

@[simps] def goto (l : String) : Quad := { op := .goto, result := .name l }

@[simps] def jumpIfFalse (a : Operand) (l : String) : Quad :=
  { op := .jumpIfFalse, arg1 := a, result := .name l }

@[simps] def operator (op : Operator) (a b : Operand) (t : String) : Quad :=
  { op := .operator op, arg1 := a, arg2 := b, result := .name t }

@[simps] def param (a : Operand) : Quad := { op := .param, arg1 := a }

@[simps] def receive (x : Target) : Quad := { op := .receive, result := x }

@[simps] def call (f : String) (count : Nat) (x : Target) : Quad :=
  { op := .call, arg1 := .name f, arg2 := .num (.int count), result := x }

@[simps] def ret (a : Operand) : Quad := { op := .ret, arg1 := a }

end Quad

namespace Supply

/-- The supply after a temporary was drawn from it. -/
def drawTemp (s : Supply) : Supply := { s with temps := s.temps + 1 }

/-- The supply after this many labels were drawn from it. -/
def drawLabels (n : Nat) (s : Supply) : Supply := { s with labels := s.labels + n }

def drawJoin (s : Supply) : Supply := { s with joins := s.joins + 1 }

def warned (s : Supply) (w : String) : Supply := { s with warnings := s.warnings ++ [w] }

end Supply

namespace Lower

variable {α β : Type} {s : Supply} {c : Code} {r : Lowered α}

/-- An action succeeds after some code, and its result holds that code too. -/
def Yields (x : Lower α) (s : Supply) (before : Code) (r : Lowered α) : Prop :=
  ∃ b, x s = .ok b ∧ r = ⟨b.value, before ++ b.code, b.supply⟩

theorem eq_ok_iff_yields {x : Lower α} : x s = .ok r ↔ Yields x s [] r := by simp [Yields]

theorem yields_bind {x : Lower α} {f : α → Lower β} {r : Lowered β} :
    Yields (x >>= f) s c r ↔ ∃ a, x s = .ok a ∧ Yields (f a.value) a.supply (c ++ a.code) r := by
  simp only [Yields, bind_eq_ok]
  constructor
  · rintro ⟨_, ⟨a, b, hx, hf, rfl⟩, rfl⟩
    exact ⟨a, hx, b, hf, by simp⟩
  · rintro ⟨a, hx, b, hf, rfl⟩
    exact ⟨_, ⟨a, b, hx, hf, rfl⟩, by simp⟩

theorem yields_pure {a : α} : Yields (pure a) s c r ↔ r = ⟨a, c, s⟩ := by
  change (∃ b, Except.ok (Lowered.mk a [] s) = .ok b ∧ _) ↔ _
  simp

/-- A part of which everything is known is replaced by what it is made from. -/
theorem exists_eq_part {γ : Type} {p : α → Prop} {g : α → γ} {q : γ → Prop} :
    (∃ t, (∃ a, p a ∧ t = g a) ∧ q t) ↔ ∃ a, p a ∧ q (g a) := by
  constructor
  · rintro ⟨_, ⟨a, ha, rfl⟩, hq⟩; exact ⟨a, ha, hq⟩
  · rintro ⟨a, ha, hq⟩; exact ⟨_, ⟨a, ha, rfl⟩, hq⟩

/-! ### Primitive actions -/

theorem pure_eq_ok {a : α} : (pure a : Lower α) s = .ok r ↔ r = ⟨a, [], s⟩ := by
  rw [eq_ok_iff_yields, yields_pure]

theorem lift_eq_ok {x : Except Fault α} : lift x s = .ok r ↔ ∃ a, x = .ok a ∧ r = ⟨a, [], s⟩ := by
  cases x <;> simp [lift, eq_comm]

section
variable {r : Lowered Unit} {r' : Lowered String}

theorem emit_eq_ok {q : Quad} : emit q s = .ok r ↔ r = ⟨(), [q], s⟩ := by simp [emit, eq_comm]

theorem warn_eq_ok {w : String} : warn w s = .ok r ↔ r = ⟨(), [], s.warned w⟩ := by
  simp [warn, Supply.warned, eq_comm]

theorem newTemp_eq_ok : newTemp s = .ok r' ↔ r' = ⟨tempName s.temps, [], s.drawTemp⟩ := by
  simp [newTemp, Supply.drawTemp, numbered, eq_comm]

theorem newLabel_eq_ok : newLabel s = .ok r' ↔ r' = ⟨labelName s.labels, [], s.drawLabels 1⟩ := by
  simp [newLabel, Supply.drawLabels, numbered, eq_comm]

theorem newJoin_eq_ok : newJoin s = .ok r' ↔ r' = ⟨joinName s.joins, [], s.drawJoin⟩ := by
  simp [newJoin, Supply.drawJoin, numbered, eq_comm]

theorem assign_eq_ok {a : Operand} {x : Target} : assign a x s = .ok r ↔ r = ⟨(), [Quad.assign a x], s⟩ :=
  emit_eq_ok

theorem label_eq_ok {l : String} : label l s = .ok r ↔ r = ⟨(), [Quad.label l], s⟩ := emit_eq_ok

theorem goto_eq_ok {l : String} : goto l s = .ok r ↔ r = ⟨(), [Quad.goto l], s⟩ := emit_eq_ok

theorem jumpIfFalse_eq_ok {a : Operand} {l : String} :
    jumpIfFalse a l s = .ok r ↔ r = ⟨(), [Quad.jumpIfFalse a l], s⟩ := emit_eq_ok

theorem operator_eq_ok {op : Operator} {a b : Operand} {r : Lowered Operand} :
    operator op a b s = .ok r ↔
      r = ⟨.name (tempName s.temps), [Quad.operator op a b (tempName s.temps)], s.drawTemp⟩ := by
  rw [eq_ok_iff_yields]
  simp only [operator, yields_bind, newTemp_eq_ok, emit_eq_ok, yields_pure, exists_eq_left,
    List.nil_append]
  rfl

theorem yields_emit {q : Quad} : Yields (emit q) s c r ↔ r = ⟨(), c ++ [q], s⟩ := by
  simp only [Yields, emit_eq_ok, exists_eq_left]

theorem yields_assign {a : Operand} {x : Target} : Yields (assign a x) s c r ↔
    r = ⟨(), c ++ [Quad.assign a x], s⟩ := yields_emit

theorem yields_label {l : String} : Yields (label l) s c r ↔ r = ⟨(), c ++ [Quad.label l], s⟩ := yields_emit

theorem yields_jumpIfFalse {a : Operand} {l : String} : Yields (jumpIfFalse a l) s c r ↔
    r = ⟨(), c ++ [Quad.jumpIfFalse a l], s⟩ := yields_emit

theorem yields_operator {op : Operator} {a b : Operand} {r : Lowered Operand} :
    Yields (operator op a b) s c r ↔
      r = ⟨.name (tempName s.temps), c ++ [Quad.operator op a b (tempName s.temps)], s.drawTemp⟩ := by
  simp only [Yields, operator_eq_ok, exists_eq_left]

end

theorem unsupportedNode_eq_ok {n : Node} {r : Lowered Unit} (h : unsupportedNode n s = .ok r) :
    ∃ w, r = ⟨(), [], s.warned w⟩ := by
  rw [unsupportedNode, eq_ok_iff_yields] at h
  simp only [yields_bind, lift_eq_ok] at h
  obtain ⟨_, ⟨m, -, rfl⟩, h⟩ := h
  cases m with
  | none =>
    obtain ⟨b, hb, rfl⟩ := h
    rw [warn_eq_ok.1 hb]; exact ⟨_, rfl⟩
  | some mark =>
    obtain ⟨b, hb, rfl⟩ := h
    rw [warn_eq_ok.1 hb]; exact ⟨_, rfl⟩

theorem unsupported_eq_ok {mark : Mark} {r : Lowered Unit} :
    unsupported mark s = .ok r ↔ r = ⟨(), [], s.warned (unsupportedText mark.kindText)⟩ := warn_eq_ok

@[simp] theorem drawLabels_drawLabels (s : Supply) (m n : Nat) :
    (s.drawLabels m).drawLabels n = s.drawLabels (m + n) := by
  simp [Supply.drawLabels, Nat.add_assoc]

@[simp] theorem drawLabels_labels (s : Supply) (n : Nat) : (s.drawLabels n).labels = s.labels + n := rfl

@[simp] theorem drawJoin_labels (s : Supply) : s.drawJoin.labels = s.labels := rfl

/-! ### Expressions -/

section
attribute [local simp] stmt stmts declarators declarator expr exprs
end

section
variable {mark : Mark} {r : Lowered Operand}

theorem expr_literal {value : Tree} : expr (.mk mark (.literal false value)) s = .ok r ↔
    r = ⟨literalOperand value, [], s⟩ := by
  rw [expr]; exact pure_eq_ok

theorem expr_template {text : Except Fault String} {es : List Node} :
    expr (.mk mark (.template text es)) s = .ok r ↔ ∃ t, text = .ok t ∧ r = ⟨.text t, [], s⟩ := by
  rw [expr, eq_ok_iff_yields]
  simp only [yields_bind, lift_eq_ok, yields_pure, List.nil_append]
  constructor
  · rintro ⟨_, ⟨t, ht, rfl⟩, rfl⟩; exact ⟨t, ht, rfl⟩
  · rintro ⟨t, ht, rfl⟩; exact ⟨_, ⟨t, ht, rfl⟩, rfl⟩

theorem expr_identifier : expr (.mk mark .identifier) s = .ok r ↔ r = ⟨nameOperand mark.nameTree, [], s⟩ := by
  rw [expr]; exact pure_eq_ok

theorem expr_assignment {operator name : Tree} {left right : Node} (hleft : assignee? left = .ok (some name))
    (hop : operator.isText "=" = true) : expr (.mk mark (.assignment operator left right)) s = .ok r ↔
      ∃ a, expr right s = .ok a ∧
        r = ⟨nameOperand name, a.code ++ [Quad.assign a.value (nameTarget name)], a.supply⟩ := by
  rw [expr, eq_ok_iff_yields]
  simp only [yields_bind, lift_eq_ok, hleft, Except.ok.injEq, exists_eq_left', exists_eq_left, if_pos hop,
    assign_eq_ok, yields_pure, List.nil_append]

theorem expr_compound {operator name : Tree} {left right : Node} {op : BinaryOp}
    (hleft : assignee? left = .ok (some name)) (hop : operator.isText "=" = false)
    (hc : compoundOp? operator = .ok (some op)) :
    expr (.mk mark (.assignment operator left right)) s = .ok r ↔
      ∃ a, expr right s = .ok a ∧
        r = ⟨nameOperand name,
          a.code ++ [Quad.operator (.binary op) (nameOperand name) a.value (tempName a.supply.temps),
            Quad.assign (.name (tempName a.supply.temps)) (nameTarget name)], a.supply.drawTemp⟩ := by
  rw [expr, eq_ok_iff_yields]
  simp only [yields_bind, lift_eq_ok, hleft, hc, hop, Except.ok.injEq, exists_eq_left', exists_eq_left,
    Bool.false_eq_true, if_false, operator_eq_ok, assign_eq_ok, yields_pure, List.nil_append,
    List.append_assoc, List.cons_append]

theorem expr_binary {operator : Tree} {left right : Node} {op : BinaryOp}
    (hop : binaryOp? operator = .ok (some op)) : expr (.mk mark (.binary operator left right)) s = .ok r ↔
      ∃ a, expr left s = .ok a ∧ ∃ b, expr right a.supply = .ok b ∧
        r = ⟨.name (tempName b.supply.temps), a.code ++ (b.code ++
          [Quad.operator (.binary op) a.value b.value (tempName b.supply.temps)]), b.supply.drawTemp⟩ := by
  rw [expr, eq_ok_iff_yields]
  simp only [yields_bind, lift_eq_ok, hop, Except.ok.injEq, exists_eq_left', exists_eq_left,
    yields_operator, List.nil_append, List.append_assoc]

theorem expr_void {operator : Tree} {argument : Node} (hop : operator.isText "void" = true) :
    expr (.mk mark (.unary operator argument)) s = .ok r ↔
      ∃ a, expr argument s = .ok a ∧ r = ⟨void, a.code, a.supply⟩ := by
  rw [expr, eq_ok_iff_yields]
  simp only [if_pos hop, yields_bind, yields_pure, List.nil_append]

theorem expr_unary {operator : Tree} {argument : Node} {op : UnaryOp} (hv : operator.isText "void" = false)
    (hop : unaryOp? operator = .ok (some op)) : expr (.mk mark (.unary operator argument)) s = .ok r ↔
      ∃ a, expr argument s = .ok a ∧
        r = ⟨.name (tempName a.supply.temps), a.code ++
          [Quad.operator (.unary op) a.value .none (tempName a.supply.temps)], a.supply.drawTemp⟩ := by
  rw [expr, eq_ok_iff_yields]
  simp only [hv, Bool.false_eq_true, if_false, yields_bind, lift_eq_ok, hop, Except.ok.injEq, exists_eq_left',
    exists_eq_left, yields_operator, List.nil_append]

/-- What a logical expression tests, once its left value is in the join variable. -/
def logicalTest (operator : Tree) (join : String) : Lower Operand :=
  if operator.isText "&&" then pure (.name join)
  else if operator.isText "||" then Lower.operator (.unary .not) (.name join) .none
  else Lower.operator (.binary .looseEq) (.name join) (.name "null")

theorem expr_logical {operator : Tree} {left right : Node} :
    expr (.mk mark (.logical operator left right)) s = .ok r ↔
      ∃ a, expr left (s.drawJoin.drawLabels 1) = .ok a ∧
        ∃ t, logicalTest operator (joinName s.joins) a.supply = .ok t ∧ ∃ b, expr right t.supply = .ok b ∧
          r = ⟨.name (joinName s.joins), a.code ++ Quad.assign a.value (.name (joinName s.joins)) ::
            (t.code ++ Quad.jumpIfFalse t.value (labelName s.labels) :: (b.code ++
              [Quad.assign b.value (.name (joinName s.joins)), Quad.label (labelName s.labels)])),
            b.supply⟩ := by
  rw [expr, eq_ok_iff_yields]
  simp only [yields_bind, newJoin_eq_ok, newLabel_eq_ok, assign_eq_ok, exists_eq_left, List.nil_append,
    drawJoin_labels, logicalTest]
  refine exists_congr fun a => and_congr_right fun _ => ?_
  split
  · simp only [yields_bind, yields_pure, pure_eq_ok, jumpIfFalse_eq_ok, assign_eq_ok, label_eq_ok,
      exists_eq_left, List.append_assoc, List.cons_append, List.nil_append]
  · split <;>
    simp only [yields_bind, yields_pure, operator_eq_ok, jumpIfFalse_eq_ok, assign_eq_ok, label_eq_ok,
      exists_eq_left, List.append_assoc, List.cons_append, List.nil_append]

theorem expr_conditional {test consequent alternate : Node} :
    expr (.mk mark (.conditional test consequent alternate)) s = .ok r ↔
      ∃ a, expr test (s.drawJoin.drawLabels 2) = .ok a ∧ ∃ b, expr consequent a.supply = .ok b ∧
        ∃ d, expr alternate b.supply = .ok d ∧
          r = ⟨.name (joinName s.joins), a.code ++ Quad.jumpIfFalse a.value (labelName s.labels) ::
            (b.code ++ Quad.assign b.value (.name (joinName s.joins)) ::
              Quad.goto (labelName (s.labels + 1)) :: Quad.label (labelName s.labels) :: (d.code ++
                [Quad.assign d.value (.name (joinName s.joins)), Quad.label (labelName (s.labels + 1))])),
            d.supply⟩ := by
  rw [expr, eq_ok_iff_yields]
  simp only [yields_bind, yields_pure, newJoin_eq_ok, newLabel_eq_ok, jumpIfFalse_eq_ok, assign_eq_ok,
    goto_eq_ok, label_eq_ok, exists_eq_left, List.nil_append, List.append_assoc, List.cons_append,
    drawLabels_drawLabels, drawJoin_labels, drawLabels_labels]

theorem expr_sequence {es : List Node} : expr (.mk mark (.sequence es)) s = .ok r ↔
    ∃ as, exprs es s = .ok as ∧ r = ⟨as.value.getLast?.getD void, as.code, as.supply⟩ := by
  rw [expr, eq_ok_iff_yields]
  simp only [yields_bind, yields_pure, List.nil_append]

/-- The operator of an increment or a decrement. -/
def updateOp (operator : Tree) : BinaryOp := if operator.isText "++" then .add else .sub

theorem expr_update_leading {operator name : Tree} {argument : Node}
    (harg : assignee? argument = .ok (some name)) :
    expr (.mk mark (.update operator true argument)) s = .ok r ↔
      r = ⟨nameOperand name,
        [Quad.operator (.binary (updateOp operator)) (nameOperand name) (.num (.int 1)) (tempName s.temps),
          Quad.assign (.name (tempName s.temps)) (nameTarget name)], s.drawTemp⟩ := by
  rw [expr, eq_ok_iff_yields]
  simp only [yields_bind, lift_eq_ok, harg, Except.ok.injEq, exists_eq_left', exists_eq_left, if_true,
    operator_eq_ok, assign_eq_ok, yields_pure, List.nil_append, List.cons_append, updateOp]

theorem expr_update_trailing {operator name : Tree} {argument : Node}
    (harg : assignee? argument = .ok (some name)) :
    expr (.mk mark (.update operator false argument)) s = .ok r ↔
      r = ⟨.name (tempName s.temps),
        [Quad.operator (.unary .pos) (nameOperand name) .none (tempName s.temps),
          Quad.operator (.binary (updateOp operator)) (nameOperand name) (.num (.int 1))
            (tempName s.drawTemp.temps),
          Quad.assign (.name (tempName s.drawTemp.temps)) (nameTarget name)], s.drawTemp.drawTemp⟩ := by
  rw [expr, eq_ok_iff_yields]
  simp only [yields_bind, lift_eq_ok, harg, Except.ok.injEq, exists_eq_left', exists_eq_left,
    Bool.false_eq_true, if_false, operator_eq_ok, assign_eq_ok, yields_pure, List.nil_append, List.cons_append,
    updateOp]

/-- What has no code gives no value and changes nothing but the warnings. -/
def Skipped (s : Supply) (r : Lowered Operand) : Prop := ∃ w, r = ⟨void, [], s.warned w⟩

theorem skipped_of_unsupported {mark : Mark}
    (h : (do unsupported mark; return void : Lower Operand) s = .ok r) : Skipped s r := by
  rw [eq_ok_iff_yields] at h
  simp only [yields_bind, unsupported_eq_ok, exists_eq_left, yields_pure, List.nil_append] at h
  exact ⟨_, h⟩

theorem skipped_of_unsupportedNode {n : Node}
    (h : (do unsupportedNode n; return void : Lower Operand) s = .ok r) : Skipped s r := by
  rw [eq_ok_iff_yields] at h
  simp only [yields_bind, yields_pure, List.nil_append] at h
  obtain ⟨a, ha, rfl⟩ := h
  obtain ⟨w, rfl⟩ := unsupportedNode_eq_ok ha
  exact ⟨w, rfl⟩

theorem lift_bind_eq_ok {x : Except Fault β} {f : β → Lower α} {r : Lowered α}
    (h : (lift x >>= f) s = .ok r) : ∃ b, x = .ok b ∧ f b s = .ok r := by
  rw [eq_ok_iff_yields] at h
  simp only [yields_bind, lift_eq_ok] at h
  obtain ⟨_, ⟨b, hb, rfl⟩, h⟩ := h
  exact ⟨b, hb, eq_ok_iff_yields.2 h⟩

theorem expr_assignment_inv {operator : Tree} {left right : Node}
    (h : expr (.mk mark (.assignment operator left right)) s = .ok r) :
    Skipped s r ∨ ∃ name, assignee? left = .ok (some name) ∧ (operator.isText "=" = true ∨
      operator.isText "=" = false ∧ ∃ op, compoundOp? operator = .ok (some op)) := by
  rw [expr] at h
  obtain ⟨o, ho, h⟩ := lift_bind_eq_ok h
  cases o with
  | none => exact .inl (skipped_of_unsupportedNode h)
  | some name =>
    cases hop : operator.isText "=" with
    | true => exact .inr ⟨name, ho, .inl rfl⟩
    | false =>
      simp only [hop, Bool.false_eq_true, if_false] at h
      obtain ⟨c, hc, h⟩ := lift_bind_eq_ok h
      cases c with
      | none => exact .inl (skipped_of_unsupported h)
      | some op => exact .inr ⟨name, ho, .inr ⟨rfl, op, hc⟩⟩

theorem expr_binary_inv {operator : Tree} {left right : Node}
    (h : expr (.mk mark (.binary operator left right)) s = .ok r) :
    Skipped s r ∨ ∃ op, binaryOp? operator = .ok (some op) := by
  rw [expr] at h
  obtain ⟨o, ho, h⟩ := lift_bind_eq_ok h
  cases o with
  | none => exact .inl (skipped_of_unsupported h)
  | some op => exact .inr ⟨op, ho⟩

theorem expr_unary_inv {operator : Tree} {argument : Node}
    (h : expr (.mk mark (.unary operator argument)) s = .ok r) :
    Skipped s r ∨ operator.isText "void" = true ∨
      operator.isText "void" = false ∧ ∃ op, unaryOp? operator = .ok (some op) := by
  rw [expr] at h
  cases hv : operator.isText "void" with
  | true => exact .inr (.inl rfl)
  | false =>
    simp only [hv, Bool.false_eq_true, if_false] at h
    obtain ⟨o, ho, h⟩ := lift_bind_eq_ok h
    cases o with
    | none => exact .inl (skipped_of_unsupported h)
    | some op => exact .inr (.inr ⟨rfl, op, ho⟩)

theorem expr_update_inv {operator : Tree} {leading : Bool} {argument : Node}
    (h : expr (.mk mark (.update operator leading argument)) s = .ok r) :
    Skipped s r ∨ ∃ name, assignee? argument = .ok (some name) := by
  rw [expr] at h
  obtain ⟨o, ho, h⟩ := lift_bind_eq_ok h
  cases o with
  | none => exact .inl (skipped_of_unsupportedNode h)
  | some name => exact .inr ⟨name, ho⟩

theorem expr_call_inv {called : Node} {arguments : List Node}
    (h : expr (.mk mark (.call called arguments)) s = .ok r) :
    Skipped s r ∨ (∃ method, callee called = .ok (.console method)) ∨ ∃ f, callee called = .ok (.function f) := by
  rw [expr] at h
  obtain ⟨c, hc, h⟩ := lift_bind_eq_ok h
  cases c with
  | unsupported => exact .inl (skipped_of_unsupportedNode h)
  | console method => exact .inr (.inl ⟨method, hc⟩)
  | function f => exact .inr (.inr ⟨f, hc⟩)

theorem emitParams_eq_ok {as : List Operand} {r : Lowered Unit} :
    emitParams as s = .ok r ↔ r = ⟨(), as.map Quad.param, s⟩ := by
  induction as generalizing r with
  | nil => rw [emitParams]; exact pure_eq_ok
  | cons a rest ih =>
    rw [emitParams, eq_ok_iff_yields]
    simp only [yields_bind, emitParam, emit_eq_ok, exists_eq_left]
    simp only [Yields, ih, exists_eq_left]
    rfl

theorem expr_print {called : Node} {arguments : List Node} {method : String}
    (hc : callee called = .ok (.console method)) : expr (.mk mark (.call called arguments)) s = .ok r ↔
      ∃ as, exprs arguments s = .ok as ∧
        r = ⟨void, as.code ++ (as.value.map Quad.param ++
          [Quad.call (consoleMark ++ method) as.value.length .none]), as.supply⟩ := by
  rw [expr, eq_ok_iff_yields]
  simp only [yields_bind, lift_eq_ok, hc, Except.ok.injEq, exists_eq_left', exists_eq_left, emitParams_eq_ok,
    emitCall, emit_eq_ok, yields_pure, List.nil_append, List.append_assoc, Callee.name]
  rfl

theorem expr_call {called : Node} {arguments : List Node} {f : String}
    (hc : callee called = .ok (.function f)) : expr (.mk mark (.call called arguments)) s = .ok r ↔
      ∃ as, exprs arguments s = .ok as ∧
        r = ⟨.name (tempName as.supply.temps), as.code ++ (as.value.map Quad.param ++
          [Quad.call (functionMark ++ f) as.value.length (.name (tempName as.supply.temps))]),
          as.supply.drawTemp⟩ := by
  rw [expr, eq_ok_iff_yields]
  simp only [yields_bind, lift_eq_ok, hc, Except.ok.injEq, exists_eq_left', exists_eq_left, emitParams_eq_ok,
    emitCall, newTemp_eq_ok, emit_eq_ok, yields_pure, List.nil_append, List.append_assoc, Callee.name]
  rfl

theorem exprs_nil {r : Lowered (List Operand)} : exprs [] s = .ok r ↔ r = ⟨[], [], s⟩ := by
  rw [exprs]; exact pure_eq_ok

theorem exprs_cons {n : Node} {rest : List Node} {r : Lowered (List Operand)} :
    exprs (n :: rest) s = .ok r ↔ ∃ a, expr n s = .ok a ∧ ∃ as, exprs rest a.supply = .ok as ∧
      r = ⟨a.value :: as.value, a.code ++ as.code, as.supply⟩ := by
  rw [exprs, eq_ok_iff_yields]
  simp only [yields_bind, yields_pure, List.nil_append]

end

/-! ### Statements -/

section
variable {mark : Mark} {loop : Option Loop} {r : Lowered Unit}

theorem stmt_expression {e : Node} : stmt loop (.mk mark (.expression e)) s = .ok r ↔
    ∃ a, expr e s = .ok a ∧ r = ⟨(), a.code, a.supply⟩ := by
  rw [stmt, eq_ok_iff_yields]
  simp only [yields_bind, yields_pure, List.nil_append]

theorem stmt_if {test consequent alternate : Node} :
    stmt loop (.mk mark (.if test consequent alternate)) s = .ok r ↔
      ∃ a, expr test (s.drawLabels 2) = .ok a ∧ ∃ b, stmt loop consequent a.supply = .ok b ∧
        ∃ d, stmt loop alternate b.supply = .ok d ∧
          r = ⟨(), a.code ++ Quad.jumpIfFalse a.value (labelName s.labels) :: (b.code ++
            Quad.goto (labelName (s.labels + 1)) :: Quad.label (labelName s.labels) :: (d.code ++
              [Quad.label (labelName (s.labels + 1))])), d.supply⟩ := by
  rw [stmt, eq_ok_iff_yields]
  simp only [yields_bind, newLabel_eq_ok, jumpIfFalse_eq_ok, goto_eq_ok, label_eq_ok, exists_eq_left,
    List.nil_append, List.append_assoc, List.cons_append, drawLabels_drawLabels, drawLabels_labels, yields_label]

theorem stmt_while {test body : Node} : stmt loop (.mk mark (.while test body)) s = .ok r ↔
    ∃ a, expr test (s.drawLabels 2) = .ok a ∧
      ∃ b, stmt (some ⟨labelName s.labels, labelName (s.labels + 1)⟩) body a.supply = .ok b ∧
        r = ⟨(), Quad.label (labelName s.labels) :: (a.code ++
          Quad.jumpIfFalse a.value (labelName (s.labels + 1)) :: (b.code ++
            [Quad.goto (labelName s.labels), Quad.label (labelName (s.labels + 1))])), b.supply⟩ := by
  rw [stmt, eq_ok_iff_yields]
  simp only [yields_bind, newLabel_eq_ok, jumpIfFalse_eq_ok, goto_eq_ok, label_eq_ok, exists_eq_left,
    List.nil_append, List.append_assoc, List.cons_append, drawLabels_drawLabels, drawLabels_labels, yields_label]

/-- What a `for` loop starts with: a declaration or an expression. -/
def forInit : Node → Lower Unit
  | .mk _ (.declaration _ ds) => declarators ds
  | init => do
    let _ ← expr init

/-- The test of a `for` loop, which may be missing. -/
def forTest (test : Node) (exit : String) : Lower Unit :=
  if test.isAbsent then pure () else do jumpIfFalse (← expr test) exit

theorem forInit_declaration {mark : Mark} {kind : DeclKind} {ds : List Declarator} :
    forInit (.mk mark (.declaration kind ds)) = declarators ds := rfl

theorem forInit_eq_ok {init : Node} (h : ∀ mark kind ds, init ≠ .mk mark (.declaration kind ds)) :
    forInit init s = .ok r ↔ ∃ a, expr init s = .ok a ∧ r = ⟨(), a.code, a.supply⟩ := by
  rw [forInit, eq_ok_iff_yields]
  · simp only [yields_bind, yields_pure, List.nil_append]
  · exact h

theorem forTest_eq_ok {test : Node} {exit : String} : forTest test exit s = .ok r ↔
    if test.isAbsent then r = ⟨(), [], s⟩
    else ∃ a, expr test s = .ok a ∧ r = ⟨(), a.code ++ [Quad.jumpIfFalse a.value exit], a.supply⟩ := by
  unfold forTest
  split
  · exact pure_eq_ok
  · rw [eq_ok_iff_yields]
    simp only [yields_bind, yields_jumpIfFalse, List.nil_append]

theorem stmt_for {init test update body : Node} :
    stmt loop (.mk mark (.for init test update body)) s = .ok r ↔
      ∃ i, forInit init s = .ok i ∧
        ∃ t, forTest test (labelName (i.supply.labels + 2)) (i.supply.drawLabels 3) = .ok t ∧
          ∃ b, stmt (some ⟨labelName (i.supply.labels + 1), labelName (i.supply.labels + 2)⟩) body t.supply
              = .ok b ∧
            ∃ u, expr update b.supply = .ok u ∧
              r = ⟨(), i.code ++ Quad.label (labelName i.supply.labels) :: (t.code ++ (b.code ++
                Quad.label (labelName (i.supply.labels + 1)) :: (u.code ++
                  [Quad.goto (labelName i.supply.labels), Quad.label (labelName (i.supply.labels + 2))]))),
                u.supply⟩ := by
  by_cases h : ∃ mark kind ds, init = .mk mark (.declaration kind ds)
  · obtain ⟨mark', kind, ds, rfl⟩ := h
    rw [stmt, forInit_declaration, eq_ok_iff_yields]
    simp only [yields_bind, newLabel_eq_ok, label_eq_ok, exists_eq_left, List.nil_append, drawLabels_drawLabels,
      drawLabels_labels, forTest_eq_ok]
    refine exists_congr fun i => and_congr_right fun _ => ?_
    cases test.isAbsent <;>
    simp only [Bool.not_true, Bool.not_false, Bool.false_eq_true, if_true, if_false, exists_eq_left,
      yields_bind, jumpIfFalse_eq_ok, goto_eq_ok, label_eq_ok, yields_label, exists_eq_part, Nat.reduceAdd,
      Nat.add_assoc, List.nil_append, List.append_assoc, List.cons_append]
  · have h' : ∀ mark kind ds, init ≠ .mk mark (.declaration kind ds) :=
      fun mark kind ds hi => h ⟨mark, kind, ds, hi⟩
    rw [stmt, eq_ok_iff_yields]
    · simp only [yields_bind, newLabel_eq_ok, label_eq_ok, exists_eq_left, List.nil_append, drawLabels_drawLabels,
        drawLabels_labels, forTest_eq_ok, forInit_eq_ok h', exists_eq_part]
      refine exists_congr fun i => and_congr_right fun _ => ?_
      cases test.isAbsent <;>
      simp only [Bool.not_true, Bool.not_false, Bool.false_eq_true, if_true, if_false, exists_eq_left,
        yields_bind, jumpIfFalse_eq_ok, goto_eq_ok, label_eq_ok, yields_label, exists_eq_part, Nat.reduceAdd,
        Nat.add_assoc, List.nil_append, List.append_assoc, List.cons_append]
    · exact h'

theorem stmt_return {argument : Node} : stmt loop (.mk mark (.return argument)) s = .ok r ↔
    ∃ a, expr argument s = .ok a ∧ r = ⟨(), a.code ++ [Quad.ret a.value], a.supply⟩ := by
  rw [stmt, eq_ok_iff_yields]
  simp only [yields_bind, yields_emit, List.nil_append]
  rfl

theorem stmts_nil : stmts loop [] s = .ok r ↔ r = ⟨(), [], s⟩ := by
  rw [stmts]; exact pure_eq_ok

theorem stmts_cons {n : Node} {rest : List Node} : stmts loop (n :: rest) s = .ok r ↔
    ∃ a, stmt loop n s = .ok a ∧ ∃ b, stmts loop rest a.supply = .ok b ∧ r = ⟨(), a.code ++ b.code, b.supply⟩ := by
  rw [stmts, eq_ok_iff_yields]
  simp only [yields_bind, List.nil_append]
  rfl

theorem declarators_nil : declarators [] s = .ok r ↔ r = ⟨(), [], s⟩ := by
  rw [declarators]; exact pure_eq_ok

theorem declarators_cons {d : Declarator} {rest : List Declarator} : declarators (d :: rest) s = .ok r ↔
    ∃ a, declarator d s = .ok a ∧ ∃ b, declarators rest a.supply = .ok b ∧
      r = ⟨(), a.code ++ b.code, b.supply⟩ := by
  rw [declarators, eq_ok_iff_yields]
  simp only [yields_bind, List.nil_append]
  rfl

theorem declarator_identifier {mark' : Mark} {given : Bool} {init : Node} :
    declarator (.mk mark (.mk mark' .identifier) given init) s = .ok r ↔
      if init.isAbsent then r = ⟨(), [], s⟩
      else ∃ a, expr init s = .ok a ∧ ∃ name, mark'.requireName = .ok name ∧
        r = ⟨(), a.code ++ [Quad.assign a.value (nameTarget name)], a.supply⟩ := by
  rw [declarator, eq_ok_iff_yields]
  cases hi : init.isAbsent
  · simp only [Bool.not_false, if_true, Bool.false_eq_true, if_false, yields_bind, lift_eq_ok, yields_assign,
      List.nil_append]
    refine exists_congr fun a => and_congr_right fun _ => ?_
    constructor
    · rintro ⟨_, ⟨name, hn, rfl⟩, rfl⟩; exact ⟨name, hn, by simp⟩
    · rintro ⟨name, hn, rfl⟩; exact ⟨_, ⟨name, hn, rfl⟩, by simp⟩
  · simp only [Bool.not_true, Bool.false_eq_true, if_false, if_true, yields_pure]

theorem declarator_inv {id : Node} {given : Bool} {init : Node}
    (h : declarator (.mk mark id given init) s = .ok r) :
    (∃ w, r = ⟨(), [], s.warned w⟩) ∨ ∃ mark', id = .mk mark' .identifier := by
  by_cases hid : ∃ mark', id = .mk mark' .identifier
  · exact .inr hid
  · rw [declarator] at h
    · exact .inl (unsupportedNode_eq_ok h)
    · exact fun mark' h' => hid ⟨mark', h'⟩

theorem receiveParams_eq_ok {params : List Param} (h : receiveParams params s = .ok r) :
    ∃ xs : List Target, params.mapM receivedName = .ok xs ∧ r = ⟨(), xs.map Quad.receive, s⟩ := by
  induction params generalizing r with
  | nil =>
    rw [receiveParams, pure_eq_ok] at h
    exact ⟨[], rfl, h⟩
  | cons p rest ih =>
    rw [receiveParams, eq_ok_iff_yields] at h
    simp only [yields_bind, lift_eq_ok, emit_eq_ok] at h
    obtain ⟨_, ⟨x, hx, rfl⟩, _, rfl, b, hb, rfl⟩ := h
    obtain ⟨xs, hxs, rfl⟩ := ih hb
    refine ⟨x :: xs, ?_, rfl⟩
    simp [List.mapM_cons, hx, hxs]
    rfl

/-- The warning on a function that is declared again. -/
def redeclared (f : String) : String :=
  s!"Function '{f}' is declared more than once; " ++ "calls reach the last declaration"

/-- The supply after a function was declared, which is warned about the second time. -/
def announce (f : String) (s : Supply) : Supply :=
  if s.functions.contains f then s.warned (redeclared f) else { s with functions := s.functions ++ [f] }

theorem announce_eq (f : String) (s : Supply) :
    ∃ fs ws, announce f s = { s with functions := fs, warnings := ws } := by
  unfold announce
  split
  · exact ⟨s.functions, _, rfl⟩
  · exact ⟨_, s.warnings, rfl⟩

/-- A function declared again is warned about, which its code does not depend on. -/
theorem declareFunction_bind_eq_ok {f : String} {x : Lower Unit}
    (h : (do
      if ← declareFunction f then
        warn (redeclared f)
      x) s = .ok r) :
    x (announce f s) = .ok r := by
  rw [eq_ok_iff_yields] at h
  simp only [yields_bind] at h
  obtain ⟨d, hd, h⟩ := h
  unfold declareFunction at hd
  unfold announce
  split at hd
  · rename_i hf
    cases hd
    simp only [if_true, yields_bind, warn_eq_ok, exists_eq_left, List.nil_append] at h
    rw [if_pos hf]
    exact eq_ok_iff_yields.2 h
  · rename_i hf
    cases hd
    simp only [Bool.false_eq_true, if_false] at h
    rw [if_neg hf]
    exact eq_ok_iff_yields.2 h

/-- The code of a function stands between its two labels, and is jumped over. -/
def functionCode (f : String) (xs : List Target) (body : Code) : Code :=
  Quad.goto (endMark ++ f) :: Quad.label (functionMark ++ f) :: (xs.map Quad.receive ++
    (body ++ [Quad.ret void, Quad.label (endMark ++ f)]))

theorem stmt_function_eq {id : Node} {params : List Param} {body : Node}
    (h : stmt loop (.mk mark (.function id params body)) s = .ok r) :
    (∃ name w, id.nameTree = .ok name ∧ name.truthy = false ∧ r = ⟨(), [], s.warned w⟩) ∨
      ∃ f xs b, id.nameTree = .ok (.str f) ∧ f ≠ "" ∧
      params.mapM receivedName = .ok xs ∧ stmt none body (announce f s) = .ok b ∧
      r = ⟨(), functionCode f xs b.code, b.supply⟩ := by
  rw [stmt] at h
  obtain ⟨name, hname, h⟩ := lift_bind_eq_ok h
  cases ht : name.truthy with
  | false =>
    simp only [ht, Bool.not_false, if_true] at h
    exact .inl ⟨name, _, hname, ht, unsupported_eq_ok.1 h⟩
  | true =>
    simp only [ht, Bool.not_true, Bool.false_eq_true, if_false] at h
    obtain ⟨start, hstart, h'⟩ := lift_bind_eq_ok h
    obtain ⟨finish, hfinish, h₁⟩ := lift_bind_eq_ok h'
    cases name with
    | str f =>
      have h₂ := declareFunction_bind_eq_ok h₁
      rw [eq_ok_iff_yields] at h₂
      simp only [yields_bind, goto_eq_ok, label_eq_ok, exists_eq_left, emit_eq_ok, yields_label] at h₂
      obtain ⟨ps, hps, b, hb, rfl⟩ := h₂
      obtain ⟨xs, hxs, rfl⟩ := receiveParams_eq_ok hps
      cases hstart
      cases hfinish
      refine .inr ⟨f, xs, b, hname, by simpa [Tree.truthy] using ht, hxs, hb, ?_⟩
      simp only [functionCode, List.nil_append, List.cons_append, List.append_assoc]
      rfl
    | _ => cases hstart

theorem stmt_function_inv {id : Node} {params : List Param} {body : Node}
    (h : stmt loop (.mk mark (.function id params body)) s = .ok r) :
    (∃ name w, id.nameTree = .ok name ∧ name.truthy = false ∧ r = ⟨(), [], s.warned w⟩) ∨
      ∃ f xs fs ws b, id.nameTree = .ok (.str f) ∧ f ≠ "" ∧
      params.mapM receivedName = .ok xs ∧ stmt none body { s with functions := fs, warnings := ws } = .ok b ∧
      r = ⟨(), functionCode f xs b.code, b.supply⟩ := by
  obtain h | ⟨f, xs, b, hname, hf, hxs, hb, hr⟩ := stmt_function_eq h
  · exact .inl h
  · obtain ⟨fs, ws, hs⟩ := announce_eq f s
    exact .inr ⟨f, xs, fs, ws, b, hname, hf, hxs, hs ▸ hb, hr⟩

theorem stmt_break_inv {labelled : Bool} (h : stmt loop (.mk mark (.break labelled)) s = .ok r) :
    (∃ w, r = ⟨(), [], s.warned w⟩) ∨ ∃ l, loop = some l ∧ r = ⟨(), [Quad.goto l.exit], s⟩ := by
  rcases loop with _ | l
  · rw [stmt] at h
    · exact .inl ⟨_, unsupported_eq_ok.1 h⟩
    · simp
  · cases labelled with
    | false => rw [stmt] at h; exact .inr ⟨l, rfl, goto_eq_ok.1 h⟩
    | true =>
      rw [stmt] at h
      · exact .inl ⟨_, unsupported_eq_ok.1 h⟩
      · simp

theorem stmt_continue_inv {labelled : Bool} (h : stmt loop (.mk mark (.continue labelled)) s = .ok r) :
    (∃ w, r = ⟨(), [], s.warned w⟩) ∨ ∃ l, loop = some l ∧ r = ⟨(), [Quad.goto l.next], s⟩ := by
  rcases loop with _ | l
  · rw [stmt] at h
    · exact .inl ⟨_, unsupported_eq_ok.1 h⟩
    · simp
  · cases labelled with
    | false => rw [stmt] at h; exact .inr ⟨l, rfl, goto_eq_ok.1 h⟩
    | true =>
      rw [stmt] at h
      · exact .inl ⟨_, unsupported_eq_ok.1 h⟩
      · simp

end

end Lower

end QuadScript
