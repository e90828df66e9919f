import QuadScript.Proofs.Lowering
import QuadScript.Proofs.Steps

/-!
# The shape of lowered code

`Evaluates` and `Emits` say how the code of expressions and of statements is built, without the
program it came from: which instructions follow which, which temporaries and labels a piece of code
draws, and which operands hold values after it. `Lower.expr_evaluates` and `Lower.stmt_emits` show that
all lowered code has this shape; what holds of lowered code in general is proved by induction on it.

`Node.Plain` is the condition on a program under which its operands are scalars: names are texts,
and literals are scalars whose numbers satisfy a condition. It is a hypothesis behind a proposition
`p`, so that one induction serves plain programs and all others.
-/

namespace QuadScript

/-! ### Plain programs -/

/-- A scalar whose number, if it is one, satisfies the condition. -/
def Tree.Scalar (N : Number → Prop) : Tree → Prop
  | .null => True
  | .bool _ => True
  | .num n => N n
  | .str _ => True
  | _ => False

def Operand.Scalar (N : Number → Prop) : Operand → Prop
  | .num n => N n
  | .raw _ => False
  | _ => True

def Target.Scalar : Target → Prop
  | .raw _ => False
  | _ => True

/-- A name is a text. -/
def Mark.Plain (mark : Mark) : Prop := ∀ t, mark.name = some t → ∃ s, t = .str s

/-- A parameter binds a name that is a text, or none. -/
def Param.Plain : Param → Prop
  | .mk _ name _ => ∀ t, name = .ok t → t = .null ∨ ∃ s, t = .str s
  | _ => True

mutual

/-- Names are texts and literals are scalars, everywhere in what is lowered. -/
def Node.Plain (N : Number → Prop) : Node → Prop
  | .mk mark form => mark.Plain ∧ form.Plain N
  | _ => True

def Form.Plain (N : Number → Prop) : Form → Prop
  | .program body => Node.PlainList N body
  | .block body => Node.PlainList N body
  | .expression e => e.Plain N
  | .declaration _ ds => Declarator.PlainList N ds
  | .function _ params body => (∀ p ∈ params, p.Plain) ∧ body.Plain N
  | .if test consequent alternate => test.Plain N ∧ consequent.Plain N ∧ alternate.Plain N
  | .while test body => test.Plain N ∧ body.Plain N
  | .for init test update body => init.Plain N ∧ test.Plain N ∧ update.Plain N ∧ body.Plain N
  | .return argument => argument.Plain N
  | .literal regex value => regex = false → value.Scalar N
  | .assignment _ left right => left.Plain N ∧ right.Plain N
  | .binary _ left right => left.Plain N ∧ right.Plain N
  | .logical _ left right => left.Plain N ∧ right.Plain N
  | .unary _ argument => argument.Plain N
  | .update _ _ argument => argument.Plain N
  | .conditional test consequent alternate => test.Plain N ∧ consequent.Plain N ∧ alternate.Plain N
  | .call _ arguments => Node.PlainList N arguments
  | .sequence es => Node.PlainList N es
  | _ => True

def Node.PlainList (N : Number → Prop) : List Node → Prop
  | [] => True
  | n :: rest => n.Plain N ∧ Node.PlainList N rest

def Declarator.PlainList (N : Number → Prop) : List Declarator → Prop
  | [] => True
  | d :: rest => d.Plain N ∧ Declarator.PlainList N rest

def Declarator.Plain (N : Number → Prop) : Declarator → Prop
  | .mk _ id _ init => id.Plain N ∧ init.Plain N
  | _ => True

end

mutual

/-- The functions that a statement declares, in order. -/
def Node.functions : Node → List String
  | .mk _ form => form.functions
  | _ => []

def Form.functions : Form → List String
  | .program body => Node.functionsList body
  | .block body => Node.functionsList body
  | .function id _ body =>
    match id.nameTree with
    | .ok (.str f) => if f = "" then [] else f :: body.functions
    | _ => []
  | .if _ consequent alternate => consequent.functions ++ alternate.functions
  | .while _ body => body.functions
  | .for _ _ _ body => body.functions
  | _ => []

def Node.functionsList : List Node → List String
  | [] => []
  | n :: rest => n.functions ++ Node.functionsList rest

end

/-! ### Nodes that stand nowhere -/

namespace Node

/-- A node that tells nothing about itself. -/
def bare (form : Form) : Node := .mk { path := "", kind := none, name := none, position := .ok .none } form

def named (x : String) : Node :=
  .mk { path := "", kind := none, name := some (.str x), position := .ok .none } .identifier

def int (n : Int) : Node := bare (.literal false (.num (.int n)))

def binary (op : String) (a b : Node) : Node := bare (.binary (.str op) a b)

/-- An assignment to a variable. -/
def set (x : String) (a : Node) : Node := bare (.assignment (.str "=") (named x) a)

/-- A call that prints a line of values. -/
def print (as : List Node) : Node := bare (.call (bare (.member false (named "console") (named "log"))) as)

end Node

/-! ### Shapes -/

section
variable (P : Operand → Prop) (Q : Target → Prop)

/-- `Evaluates P Q t l c as t' l'`: the code `c` evaluates expressions whose values the operands `as`
then hold. It draws the temporaries from `t` to `t'` and the labels from `l` to `l'`; the other
operands and targets in it satisfy `P` and `Q`. -/
inductive Evaluates : Nat → Nat → Code → List Operand → Nat → Nat → Prop
  | nothing {t l : Nat} : Evaluates t l [] [] t l
  | operand {t l : Nat} {a : Operand} (ha : a.temp? = none) (hP : P a) : Evaluates t l [] [a] t l
  | append {t l t₁ l₁ t₂ l₂ : Nat} {c d : Code} {as bs : List Operand} :
      Evaluates t l c as t₁ l₁ → Evaluates t₁ l₁ d bs t₂ l₂ → Evaluates t l (c ++ d) (as ++ bs) t₂ l₂
  | forget {t l t₁ l₁ : Nat} {c : Code} {as b : List Operand} :
      Evaluates t l c as t₁ l₁ → b ⊆ as → Evaluates t l c b t₁ l₁
  | assign {t l t₁ l₁ : Nat} {c : Code} {as : List Operand} {a : Operand} {x : Target} :
      Evaluates t l c as t₁ l₁ → a ∈ as → x.temp? = none → Q x →
      Evaluates t l (c ++ [Quad.assign a x]) as t₁ l₁
  | operator {t l t₁ l₁ : Nat} {c : Code} {as : List Operand} {o : Operator} {a b : Operand} :
      Evaluates t l c as t₁ l₁ → a ∈ as → b ∈ as →
      Evaluates t l (c ++ [Quad.operator o a b (tempName t₁)]) (.name (tempName t₁) :: as) (t₁ + 1) l₁
  | print {t l t₁ l₁ : Nat} {c : Code} {as : List Operand} {f : String} :
      Evaluates t l c as t₁ l₁ →
      Evaluates t l (c ++ (as.map Quad.param ++ [Quad.call (consoleMark ++ f) as.length .none])) as t₁ l₁
  | call {t l t₁ l₁ : Nat} {c : Code} {as : List Operand} {f : String} :
      Evaluates t l c as t₁ l₁ →
      Evaluates t l
        (c ++ (as.map Quad.param ++ [Quad.call (functionMark ++ f) as.length (.name (tempName t₁))]))
        (.name (tempName t₁) :: as) (t₁ + 1) l₁
  | skip {t l t₁ l₁ t₂ l₂ : Nat} {c d : Code} {as bs : List Operand} {a : Operand} :
      Evaluates t (l + 1) c as t₁ l₁ → a ∈ as → Evaluates t₁ l₁ d bs t₂ l₂ →
      Evaluates t l (c ++ Quad.jumpIfFalse a (labelName l) :: (d ++ [Quad.label (labelName l)])) as t₂ l₂
  | choose {t l t₁ l₁ t₂ l₂ t₃ l₃ : Nat} {c d e : Code} {as bs es : List Operand} {a : Operand} :
      Evaluates t (l + 2) c as t₁ l₁ → a ∈ as → Evaluates t₁ l₁ d bs t₂ l₂ → Evaluates t₂ l₂ e es t₃ l₃ →
      Evaluates t l (c ++ Quad.jumpIfFalse a (labelName l) :: (d ++ Quad.goto (labelName (l + 1)) ::
        Quad.label (labelName l) :: (e ++ [Quad.label (labelName (l + 1))]))) as t₃ l₃

/-- The jump out of a loop whose test is missing or fails. -/
def exitTest (exit : String) : Option Operand → Code
  | none => []
  | some a => [Quad.jumpIfFalse a exit]

/-- `Emits P Q loop t l c fs t' l'`: the code `c` executes statements inside the given loop, which
declare the functions `fs`. -/
inductive Emits : Option Loop → Nat → Nat → Code → List String → Nat → Nat → Prop
  | expression {loop : Option Loop} {t l t₁ l₁ : Nat} {c : Code} {as : List Operand} :
      Evaluates P Q t l c as t₁ l₁ → Emits loop t l c [] t₁ l₁
  | append {loop : Option Loop} {t l t₁ l₁ t₂ l₂ : Nat} {c d : Code} {fs gs : List String} :
      Emits loop t l c fs t₁ l₁ → Emits loop t₁ l₁ d gs t₂ l₂ → Emits loop t l (c ++ d) (fs ++ gs) t₂ l₂
  | branch {loop : Option Loop} {t l t₁ l₁ t₂ l₂ t₃ l₃ : Nat} {c d e : Code} {fs gs : List String}
      {as : List Operand} {a : Operand} :
      Evaluates P Q t (l + 2) c as t₁ l₁ → a ∈ as → Emits loop t₁ l₁ d fs t₂ l₂ →
      Emits loop t₂ l₂ e gs t₃ l₃ →
      Emits loop t l (c ++ Quad.jumpIfFalse a (labelName l) :: (d ++ Quad.goto (labelName (l + 1)) ::
        Quad.label (labelName l) :: (e ++ [Quad.label (labelName (l + 1))]))) (fs ++ gs) t₃ l₃
  | while {loop : Option Loop} {t l t₁ l₁ t₂ l₂ : Nat} {c d : Code} {fs : List String}
      {as : List Operand} {a : Operand} :
      Evaluates P Q t (l + 2) c as t₁ l₁ → a ∈ as →
      Emits (some ⟨labelName l, labelName (l + 1)⟩) t₁ l₁ d fs t₂ l₂ →
      Emits loop t l (Quad.label (labelName l) :: (c ++ Quad.jumpIfFalse a (labelName (l + 1)) :: (d ++
        [Quad.goto (labelName l), Quad.label (labelName (l + 1))]))) fs t₂ l₂
  | for {loop : Option Loop} {t l t₁ l₁ t₂ l₂ t₃ l₃ : Nat} {c d e : Code} {fs : List String}
      {as bs : List Operand} {a : Option Operand} :
      Evaluates P Q t (l + 3) c as t₁ l₁ → (∀ b ∈ a, b ∈ as) →
      Emits (some ⟨labelName (l + 1), labelName (l + 2)⟩) t₁ l₁ d fs t₂ l₂ →
      Evaluates P Q t₂ l₂ e bs t₃ l₃ →
      Emits loop t l (Quad.label (labelName l) :: (c ++ (exitTest (labelName (l + 2)) a ++ (d ++
        Quad.label (labelName (l + 1)) :: (e ++ [Quad.goto (labelName l), Quad.label (labelName (l + 2))])))))
        fs t₃ l₃
  | break {t l : Nat} {loop : Loop} : Emits (some loop) t l [Quad.goto loop.exit] [] t l
  | continue {t l : Nat} {loop : Loop} : Emits (some loop) t l [Quad.goto loop.next] [] t l
  | return {loop : Option Loop} {t l t₁ l₁ : Nat} {c : Code} {as : List Operand} {a : Operand} :
      Evaluates P Q t l c as t₁ l₁ → a ∈ as → Emits loop t l (c ++ [Quad.ret a]) [] t₁ l₁
  | function {loop : Option Loop} {t l t₁ l₁ : Nat} {d : Code} {fs : List String} {f : String}
      {xs : List Target} :
      f ≠ "" → (∀ x ∈ xs, x.temp? = none ∧ Q x) → Emits none t l d fs t₁ l₁ →
      Emits loop t l (Lower.functionCode f xs d) (f :: fs) t₁ l₁

end

/-! ### Operands of the program -/

theorem Mark.requireName_eq_ok {mark : Mark} {name : Tree} (h : mark.requireName = .ok name) :
    mark.name = some name := by
  unfold requireName at h
  split at h
  · rename_i hname
    cases h
    exact hname
  · cases h

theorem Lower.assignee?_eq_some {n : Node} {name : Tree} (h : assignee? n = .ok (some name)) :
    ∃ mark, n = .mk mark .identifier ∧ mark.name = some name := by
  cases n with
  | mk mark form =>
    cases form with
    | identifier =>
      obtain ⟨t, ht, h⟩ := except_bind_eq_ok h
      cases h
      exact ⟨mark, rfl, Mark.requireName_eq_ok ht⟩
    | _ => cases h
  | _ => cases h

namespace Lower

theorem temp?_ofSymbol_mangle (x : String) : (Operand.ofSymbol (mangle x)).temp? = none := by
  unfold Operand.ofSymbol
  split
  · rfl
  · simp [Operand.temp?, isTempName_mangle]

theorem temp?_nameOperand (t : Tree) : (nameOperand t).temp? = none := by
  cases t <;> first | rfl | exact temp?_ofSymbol_mangle _

theorem temp?_nameTarget (t : Tree) : (nameTarget t).temp? = none := by
  cases t with
  | str x => simp [nameTarget, Target.temp?, isTempName_mangle]
  | _ => rfl

theorem temp?_literalOperand (t : Tree) : (literalOperand t).temp? = none := by
  cases t <;> rfl

theorem temp?_joinName (k : Nat) : (Operand.name (joinName k)).temp? = none := by
  have h := isTempName_eq_false (s := joinName k) (by rw [head_joinName]; decide)
  simp [Operand.temp?, h]

theorem temp?_joinTarget (k : Nat) : (Target.name (joinName k)).temp? = none := by
  have h := isTempName_eq_false (s := joinName k) (by rw [head_joinName]; decide)
  simp [Target.temp?, h]

theorem temp?_receivedName {q : Param} {x : Target} (h : receivedName q = .ok x) : x.temp? = none := by
  cases q with
  | fault f => cases h
  | absent f => cases h; rfl
  | mk position name default =>
    obtain ⟨t, ht, h⟩ := except_bind_eq_ok h
    cases h
    exact temp?_nameTarget t

/-- A name of the program: a text, or null where there is none. -/
def IsName (t : Tree) : Prop := t = .null ∨ ∃ x, t = .str x

section
variable {N : Number → Prop}

theorem scalar_nameOperand {t : Tree} (h : IsName t) : (nameOperand t).Scalar N := by
  rcases h with rfl | ⟨x, rfl⟩
  · trivial
  · change (Operand.ofSymbol (mangle x)).Scalar N
    unfold Operand.ofSymbol
    split <;> trivial

theorem scalar_nameTarget {t : Tree} (h : IsName t) : (nameTarget t).Scalar := by
  rcases h with rfl | ⟨x, rfl⟩ <;> trivial

theorem scalar_literalOperand {t : Tree} (h : t.Scalar N) : (literalOperand t).Scalar N := by
  cases t <;> trivial

theorem plain_nameTree {mark : Mark} (h : mark.Plain) :
    IsName mark.nameTree := by
  unfold Mark.nameTree
  cases hn : mark.name with
  | none => exact .inl rfl
  | some t => exact .inr (h t hn)

theorem plain_requireName {mark : Mark} {t : Tree} (hm : mark.Plain) (h : mark.requireName = .ok t) :
    IsName t := .inr (hm t (Mark.requireName_eq_ok h))

theorem plain_assignee {n : Node} {t : Tree} (hn : n.Plain N) (h : assignee? n = .ok (some t)) :
    IsName t := by
  obtain ⟨mark, rfl, hname⟩ := assignee?_eq_some h
  rw [Node.Plain] at hn
  exact .inr (hn.1 t hname)

theorem scalar_receivedName {q : Param} {x : Target} (hq : q.Plain) (h : receivedName q = .ok x) :
    x.Scalar := by
  cases q with
  | fault f => cases h
  | absent f => cases h; trivial
  | mk position name default =>
    obtain ⟨t, ht, h⟩ := except_bind_eq_ok h
    cases h
    exact scalar_nameTarget (hq t ht)

/-! ### Expressions -/

section
variable {p : Prop} {s : Supply} {mark : Mark}

/-- What an expression gives: code that evaluates it and the operand of its value. -/
abbrev Gives (N : Number → Prop) (p : Prop) (s : Supply) (r : Lowered Operand) : Prop :=
  Evaluates (fun a => p → a.Scalar N) (fun x => p → x.Scalar) s.temps s.labels r.code [r.value]
    r.supply.temps r.supply.labels

theorem gives_operand {a : Operand} {s' : Supply} (ht : s'.temps = s.temps) (hl : s'.labels = s.labels)
    (ha : a.temp? = none) (hN : p → a.Scalar N) : Gives N p s ⟨a, [], s'⟩ := by
  unfold Gives
  rw [ht, hl]
  exact .operand ha hN

theorem gives_void {s' : Supply} (ht : s'.temps = s.temps) (hl : s'.labels = s.labels) :
    Gives N p s ⟨void, [], s'⟩ :=
  gives_operand ht hl (by decide) fun _ => trivial

theorem Skipped.gives {r : Lowered Operand} (h : Skipped s r) : Gives N p s r := by
  obtain ⟨w, rfl⟩ := h
  exact gives_void rfl rfl

theorem evaluates_name {c : Code} {as : List Operand} {t l t' l' : Nat} {name : Tree} (hn : p → IsName name)
    (h : Evaluates (fun a => p → a.Scalar N) (fun x => p → x.Scalar) t l c as t' l') :
    Evaluates (fun a => p → a.Scalar N) (fun x => p → x.Scalar) t l c (nameOperand name :: as) t' l' := by
  have h' := (Evaluates.operand (t := t) (l := l) (temp?_nameOperand name)
    fun hp => scalar_nameOperand (hn hp)).append h
  simpa using h'

theorem gives_assignment {a : Lowered Operand} {name : Tree} (hn : p → IsName name) (ha : Gives N p s a) :
    Gives N p s ⟨nameOperand name, a.code ++ [Quad.assign a.value (nameTarget name)], a.supply⟩ := by
  have h₁ := ha.assign (List.mem_singleton_self a.value) (temp?_nameTarget name)
    fun hp => scalar_nameTarget (hn hp)
  exact (evaluates_name hn h₁).forget (by simp)

theorem gives_compound {a : Lowered Operand} {name : Tree} {o : Operator} (hn : p → IsName name)
    (ha : Gives N p s a) : Gives N p s ⟨nameOperand name,
      a.code ++ [Quad.operator o (nameOperand name) a.value (tempName a.supply.temps),
        Quad.assign (.name (tempName a.supply.temps)) (nameTarget name)], a.supply.drawTemp⟩ := by
  have h₁ := (evaluates_name hn ha).operator (o := o) (a := nameOperand name) (b := a.value)
    (by simp) (by simp)
  have h₂ := h₁.assign (a := .name (tempName a.supply.temps)) (by simp) (temp?_nameTarget name)
    fun hp => scalar_nameTarget (hn hp)
  rw [List.append_assoc] at h₂
  exact h₂.forget (by simp)

theorem gives_binary {a b : Lowered Operand} {o : Operator} (ha : Gives N p s a) (hb : Gives N p a.supply b) :
    Gives N p s ⟨.name (tempName b.supply.temps), a.code ++ (b.code ++
      [Quad.operator o a.value b.value (tempName b.supply.temps)]), b.supply.drawTemp⟩ := by
  have h := (ha.append hb).operator (o := o) (a := a.value) (b := b.value) (by simp) (by simp)
  rw [List.append_assoc] at h
  exact h.forget (by simp)

theorem gives_unary {a : Lowered Operand} {o : Operator} (ha : Gives N p s a) :
    Gives N p s ⟨.name (tempName a.supply.temps), a.code ++
      [Quad.operator o a.value .none (tempName a.supply.temps)], a.supply.drawTemp⟩ := by
  have hn : Gives N p a.supply ⟨.none, [], a.supply⟩ := gives_operand rfl rfl rfl fun _ => trivial
  simpa using gives_binary ha hn

/-- A branch ends with its value in the join variable. -/
theorem evaluates_join {b : Lowered Operand} (k : Nat) (hb : Gives N p s b) :
    Evaluates (fun a => p → a.Scalar N) (fun x => p → x.Scalar) s.temps s.labels
      (b.code ++ [Quad.assign b.value (.name (joinName k))]) [.name (joinName k)]
      b.supply.temps b.supply.labels := by
  have h₁ := hb.assign (List.mem_singleton_self b.value) (temp?_joinTarget k) fun _ => trivial
  have h₂ := h₁.append (.operand (temp?_joinName k) fun _ => trivial)
  simpa using h₂.forget (b := [.name (joinName k)]) (by simp)

theorem evaluates_test {c : Code} {t l : Nat} {s' : Supply} {operator : Tree} {k : Nat} {b : Lowered Operand}
    (hc : Evaluates (fun a => p → a.Scalar N) (fun x => p → x.Scalar) t l c [.name (joinName k)]
      s'.temps s'.labels)
    (hb : logicalTest operator (joinName k) s' = .ok b) :
    Evaluates (fun a => p → a.Scalar N) (fun x => p → x.Scalar) t l (c ++ b.code)
      [b.value, .name (joinName k)] b.supply.temps b.supply.labels := by
  unfold logicalTest at hb
  split at hb
  · rw [pure_eq_ok.1 hb]
    simpa using hc.forget (b := [.name (joinName k), .name (joinName k)]) (by simp)
  · have hc' : ∀ a : Operand, a.temp? = none → (p → a.Scalar N) →
        Evaluates (fun a => p → a.Scalar N) (fun x => p → x.Scalar) t l c [.name (joinName k), a]
          s'.temps s'.labels := by
      intro a ha hN
      simpa using hc.append (.operand ha hN)
    split at hb
    · rw [operator_eq_ok.1 hb]
      have h := (hc' .none rfl fun _ => trivial).operator (o := .unary .not) (a := .name (joinName k))
        (b := .none) (by simp) (by simp)
      exact h.forget (by simp)
    · rw [operator_eq_ok.1 hb]
      have h := (hc' (.name "null") (by decide) fun _ => trivial).operator (o := .binary .looseEq)
        (a := .name (joinName k)) (b := .name "null") (by simp) (by simp)
      exact h.forget (by simp)

theorem gives_logical {a t b : Lowered Operand} {operator : Tree}
    (ha : Gives N p (s.drawJoin.drawLabels 1) a)
    (ht : logicalTest operator (joinName s.joins) a.supply = .ok t) (hb : Gives N p t.supply b) :
    Gives N p s ⟨.name (joinName s.joins), a.code ++ Quad.assign a.value (.name (joinName s.joins)) ::
      (t.code ++ Quad.jumpIfFalse t.value (labelName s.labels) :: (b.code ++
        [Quad.assign b.value (.name (joinName s.joins)), Quad.label (labelName s.labels)])), b.supply⟩ := by
  have h := (evaluates_test (evaluates_join s.joins ha) ht).skip (a := t.value) (by simp)
    (evaluates_join s.joins hb)
  simp only [List.append_assoc, List.cons_append, List.nil_append] at h
  exact h.forget (by simp)

theorem gives_conditional {a b d : Lowered Operand} (ha : Gives N p (s.drawJoin.drawLabels 2) a)
    (hb : Gives N p a.supply b) (hd : Gives N p b.supply d) :
    Gives N p s ⟨.name (joinName s.joins), a.code ++ Quad.jumpIfFalse a.value (labelName s.labels) ::
      (b.code ++ Quad.assign b.value (.name (joinName s.joins)) ::
        Quad.goto (labelName (s.labels + 1)) :: Quad.label (labelName s.labels) :: (d.code ++
          [Quad.assign d.value (.name (joinName s.joins)), Quad.label (labelName (s.labels + 1))])),
      d.supply⟩ := by
  have h₁ := ha.append (.operand (temp?_joinName s.joins) fun _ => trivial)
  have h := h₁.choose (a := a.value) (by simp) (evaluates_join s.joins hb) (evaluates_join s.joins hd)
  simp only [List.append_assoc, List.cons_append, List.nil_append, List.append_nil] at h
  exact h.forget (by simp)

theorem gives_update {operator name : Tree} {leading : Bool} {argument : Node} {r : Lowered Operand}
    (hone : p → N (.int 1)) (hn : p → IsName name) (harg : assignee? argument = .ok (some name))
    (h : expr (.mk mark (.update operator leading argument)) s = .ok r) : Gives N p s r := by
  have one : ∀ s : Supply, Gives N p s ⟨.num (.int 1), [], s⟩ := fun s => gives_operand rfl rfl rfl hone
  cases leading with
  | true =>
    rw [(expr_update_leading harg).1 h]
    exact gives_compound hn (one s)
  | false =>
    rw [(expr_update_trailing harg).1 h]
    have h₁ : Gives N p s ⟨nameOperand name, [], s⟩ :=
      gives_operand rfl rfl (temp?_nameOperand name) fun hp => scalar_nameOperand (hn hp)
    have h₂ := (gives_unary (o := .unary .pos) h₁).append
      (gives_compound (o := .binary (updateOp operator)) hn (one s.drawTemp))
    exact h₂.forget (by simp)

end

/-! ### All nodes -/

variable {p : Prop}

mutual

theorem expr_evaluates (hone : p → N (.int 1)) : ∀ (n : Node) {s : Supply} {r : Lowered Operand},
    (p → n.Plain N) → expr n s = .ok r → Gives N p s r
  | .absent, s, r, _, h => by
    rw [expr, pure_eq_ok] at h
    rw [h]; exact gives_void rfl rfl
  | .fault f, s, r, _, h => by rw [expr] at h; cases h
  | .mk mark form, s, r, hp, h => by
    -- a form is skipped or lowered from its parts; the inversion lemmas tell which
    cases form with
    | literal regex value =>
      cases regex with
      | true => rw [expr] at h; exact (skipped_of_unsupported h).gives
      | false =>
        rw [expr_literal.1 h]
        refine gives_operand rfl rfl (temp?_literalOperand value) fun hp' => scalar_literalOperand ?_
        exact (hp hp').2 rfl
    | template text es =>
      obtain ⟨t, -, rfl⟩ := expr_template.1 h
      exact gives_operand rfl rfl rfl fun _ => trivial
    | identifier =>
      rw [expr_identifier.1 h]
      exact gives_operand rfl rfl (temp?_nameOperand _) fun hp' => scalar_nameOperand (plain_nameTree (hp hp').1)
    | assignment operator left right =>
      rcases expr_assignment_inv h with h' | ⟨name, hleft, hop | ⟨hop, op, hc⟩⟩
      · exact h'.gives
      · obtain ⟨a, ha, rfl⟩ := (expr_assignment hleft hop).1 h
        exact gives_assignment (fun hp' => plain_assignee (hp hp').2.1 hleft)
          (expr_evaluates hone right (fun hp' => (hp hp').2.2) ha)
      · obtain ⟨a, ha, rfl⟩ := (expr_compound hleft hop hc).1 h
        exact gives_compound (fun hp' => plain_assignee (hp hp').2.1 hleft)
          (expr_evaluates hone right (fun hp' => (hp hp').2.2) ha)
    | binary operator left right =>
      rcases expr_binary_inv h with h' | ⟨op, hop⟩
      · exact h'.gives
      · obtain ⟨a, ha, b, hb, rfl⟩ := (expr_binary hop).1 h
        exact gives_binary (expr_evaluates hone left (fun hp' => (hp hp').2.1) ha)
          (expr_evaluates hone right (fun hp' => (hp hp').2.2) hb)
    | unary operator argument =>
      rcases expr_unary_inv h with h' | hv | ⟨hv, op, hop⟩
      · exact h'.gives
      · obtain ⟨a, ha, rfl⟩ := (expr_void hv).1 h
        have h₁ := (expr_evaluates hone argument (fun hp' => (hp hp').2) ha).append
          (gives_void (N := N) (p := p) (s := a.supply) rfl rfl)
        rw [List.append_nil] at h₁
        exact h₁.forget (by simp)
      · obtain ⟨a, ha, rfl⟩ := (expr_unary hv hop).1 h
        exact gives_unary (expr_evaluates hone argument (fun hp' => (hp hp').2) ha)
    | update operator leading argument =>
      rcases expr_update_inv h with h' | ⟨name, harg⟩
      · exact h'.gives
      · exact gives_update hone (fun hp' => plain_assignee (hp hp').2 harg) harg h
    | logical operator left right =>
      obtain ⟨a, ha, t, ht, b, hb, rfl⟩ := expr_logical.1 h
      exact gives_logical (expr_evaluates hone left (fun hp' => (hp hp').2.1) ha) ht
        (expr_evaluates hone right (fun hp' => (hp hp').2.2) hb)
    | conditional test consequent alternate =>
      obtain ⟨a, ha, b, hb, d, hd, rfl⟩ := expr_conditional.1 h
      exact gives_conditional (expr_evaluates hone test (fun hp' => (hp hp').2.1) ha)
        (expr_evaluates hone consequent (fun hp' => (hp hp').2.2.1) hb)
        (expr_evaluates hone alternate (fun hp' => (hp hp').2.2.2) hd)
    | call called arguments =>
      rcases expr_call_inv h with h' | ⟨method, hc⟩ | ⟨f, hc⟩
      · exact h'.gives
      · obtain ⟨as, has, rfl⟩ := (expr_print hc).1 h
        have h₁ := (exprs_evaluates hone arguments (fun hp' => (hp hp').2) has).print (f := method)
        have h₂ := h₁.append (gives_void (N := N) (p := p) (s := as.supply) rfl rfl)
        rw [List.append_nil] at h₂
        exact h₂.forget (by simp)
      · obtain ⟨as, has, rfl⟩ := (expr_call hc).1 h
        have h₁ := (exprs_evaluates hone arguments (fun hp' => (hp hp').2) has).call (f := f)
        exact h₁.forget (by simp)
    | sequence es =>
      obtain ⟨as, has, rfl⟩ := expr_sequence.1 h
      have h₁ := (exprs_evaluates hone es (fun hp' => (hp hp').2) has).append
        (gives_void (N := N) (p := p) (s := as.supply) rfl rfl)
      rw [List.append_nil] at h₁
      exact h₁.forget (by cases hl : as.value.getLast? <;> simp [List.mem_of_getLast?, hl])
    | _ => exact (skipped_of_unsupported h).gives

theorem exprs_evaluates (hone : p → N (.int 1)) : ∀ (ns : List Node) {s : Supply} {r : Lowered (List Operand)},
    (p → Node.PlainList N ns) → exprs ns s = .ok r →
    Evaluates (fun a => p → a.Scalar N) (fun x => p → x.Scalar) s.temps s.labels r.code r.value
      r.supply.temps r.supply.labels
  | [], s, r, _, h => by rw [exprs_nil.1 h]; exact .nothing
  | n :: rest, s, r, hp, h => by
    obtain ⟨a, ha, as, has, rfl⟩ := exprs_cons.1 h
    exact (expr_evaluates hone n (fun hp' => (hp hp').1) ha).append
      (exprs_evaluates hone rest (fun hp' => (hp hp').2) has)

end

/-- What a statement gives: code that executes it and declares its functions. -/
abbrev Executes (N : Number → Prop) (p : Prop) (loop : Option Loop) (s : Supply) (fs : List String)
    (r : Lowered Unit) : Prop :=
  Emits (fun a => p → a.Scalar N) (fun x => p → x.Scalar) loop s.temps s.labels r.code fs
    r.supply.temps r.supply.labels

theorem declarator_executes (hone : p → N (.int 1)) {d : Declarator} {s : Supply} {r : Lowered Unit}
    {loop : Option Loop} (hp : p → d.Plain N) (h : declarator d s = .ok r) : Executes N p loop s [] r := by
  cases d with
  | fault f => rw [declarator] at h; cases h
  | mk mark id given init =>
    rcases declarator_inv h with ⟨w, rfl⟩ | ⟨mark', rfl⟩
    · exact .expression .nothing
    · rw [declarator_identifier] at h
      split at h
      · rw [h]; exact .expression .nothing
      · obtain ⟨a, ha, name, hname, rfl⟩ := h
        have hn : p → IsName name := fun hp' => plain_requireName (hp hp').1.1 hname
        exact .expression (gives_assignment hn (expr_evaluates hone init (fun hp' => (hp hp').2) ha))

theorem declarators_executes (hone : p → N (.int 1)) {ds : List Declarator} {s : Supply} {r : Lowered Unit}
    {loop : Option Loop} (hp : p → Declarator.PlainList N ds) (h : declarators ds s = .ok r) :
    Executes N p loop s [] r := by
  induction ds generalizing s r with
  | nil => rw [declarators_nil.1 h]; exact .expression .nothing
  | cons d rest ih =>
    obtain ⟨a, ha, b, hb, rfl⟩ := declarators_cons.1 h
    exact (declarator_executes hone (fun hp' => (hp hp').1) ha).append (ih (fun hp' => (hp hp').2) hb)

theorem forInit_executes (hone : p → N (.int 1)) {init : Node} {s : Supply} {r : Lowered Unit}
    {loop : Option Loop} (hp : p → init.Plain N) (h : forInit init s = .ok r) : Executes N p loop s [] r := by
  by_cases hd : ∃ mark kind ds, init = .mk mark (.declaration kind ds)
  · obtain ⟨mark, kind, ds, rfl⟩ := hd
    exact declarators_executes hone (fun hp' => (hp hp').2) h
  · rw [forInit_eq_ok fun mark kind ds hi => hd ⟨mark, kind, ds, hi⟩] at h
    obtain ⟨a, ha, rfl⟩ := h
    exact .expression (expr_evaluates hone init hp ha)

theorem forTest_evaluates (hone : p → N (.int 1)) {test : Node} {exit : String} {s : Supply}
    {r : Lowered Unit} (hp : p → test.Plain N) (h : forTest test exit s = .ok r) :
    ∃ (c : Code) (a : Option Operand), r.code = c ++ exitTest exit a ∧
      Evaluates (fun a => p → a.Scalar N) (fun x => p → x.Scalar) s.temps s.labels c a.toList
        r.supply.temps r.supply.labels := by
  rw [forTest_eq_ok] at h
  split at h
  · rw [h]; exact ⟨[], none, rfl, .nothing⟩
  · obtain ⟨a, ha, rfl⟩ := h
    exact ⟨a.code, some a.value, rfl, expr_evaluates hone test hp ha⟩

theorem executes_nothing {loop : Option Loop} {s s' : Supply} (ht : s'.temps = s.temps)
    (hl : s'.labels = s.labels) : Executes N p loop s [] ⟨(), [], s'⟩ := by
  unfold Executes
  rw [ht, hl]
  exact .expression .nothing

theorem functions_of_truthy_false {mark : Mark} {id body : Node} {params : List Param} {name : Tree}
    (hname : id.nameTree = .ok name) (ht : name.truthy = false) :
    (Node.mk mark (.function id params body)).functions = [] := by
  rw [Node.functions, Form.functions, hname]
  cases name with
  | str f =>
    have hf : f = "" := by simpa [Tree.truthy] using ht
    simp [hf]
  | _ => rfl

theorem receivedNames {params : List Param} {xs : List Target} (hp : p → ∀ q ∈ params, q.Plain)
    (h : params.mapM receivedName = .ok xs) : ∀ x ∈ xs, x.temp? = none ∧ (p → x.Scalar) := by
  induction params generalizing xs with
  | nil => cases h; simp
  | cons q rest ih =>
    rw [List.mapM_cons] at h
    obtain ⟨x, hx, h⟩ := except_bind_eq_ok h
    obtain ⟨xs', hxs, h⟩ := except_bind_eq_ok h
    cases h
    intro y hy
    rcases List.mem_cons.1 hy with rfl | hy
    · exact ⟨temp?_receivedName hx, fun hp' => scalar_receivedName (hp hp' q (by simp)) hx⟩
    · exact ih (fun hp' q' hq' => hp hp' q' (by simp [hq'])) hxs y hy

mutual

theorem stmt_emits (hone : p → N (.int 1)) : ∀ (n : Node) {loop : Option Loop} {s : Supply} {r : Lowered Unit},
    (p → n.Plain N) → stmt loop n s = .ok r → Executes N p loop s n.functions r
  | .absent, loop, s, r, _, h => by
    rw [stmt, pure_eq_ok] at h
    rw [h]; exact executes_nothing rfl rfl
  | .fault f, loop, s, r, _, h => by rw [stmt] at h; cases h
  | .mk mark form, loop, s, r, hp, h => by
    cases form with
    | program body =>
      rw [stmt] at h
      exact stmts_emits hone body (fun hp' => (hp hp').2) h
    | block body =>
      rw [stmt] at h
      exact stmts_emits hone body (fun hp' => (hp hp').2) h
    | expression e =>
      obtain ⟨a, ha, rfl⟩ := stmt_expression.1 h
      exact .expression (expr_evaluates hone e (fun hp' => (hp hp').2) ha)
    | declaration kind ds =>
      rw [stmt] at h
      exact declarators_executes hone (fun hp' => (hp hp').2) h
    | function id params body =>
      rcases stmt_function_inv h with ⟨name, w, hname, ht, rfl⟩ | ⟨f, xs, fs, ws, b, hname, hf, hxs, hb, rfl⟩
      · rw [functions_of_truthy_false hname ht]
        exact executes_nothing rfl rfl
      · have hfs : (Node.mk mark (.function id params body)).functions = f :: body.functions := by
          rw [Node.functions, Form.functions, hname]
          exact if_neg hf
        -- no loop around a function can be left from inside it
        have hbody := stmt_emits hone body (fun hp' => (hp hp').2.2) hb
        rw [hfs]
        exact .function hf (receivedNames (fun hp' => (hp hp').2.1) hxs) hbody
    | «if» test consequent alternate =>
      obtain ⟨a, ha, b, hb, d, hd, rfl⟩ := stmt_if.1 h
      exact .branch (expr_evaluates hone test (fun hp' => (hp hp').2.1) ha) (List.mem_singleton_self _)
        (stmt_emits hone consequent (fun hp' => (hp hp').2.2.1) hb)
        (stmt_emits hone alternate (fun hp' => (hp hp').2.2.2) hd)
    | «while» test body =>
      obtain ⟨a, ha, b, hb, rfl⟩ := stmt_while.1 h
      exact .while (expr_evaluates hone test (fun hp' => (hp hp').2.1) ha) (List.mem_singleton_self _)
        (stmt_emits hone body (fun hp' => (hp hp').2.2) hb)
    | «for» init test update body =>
      obtain ⟨i, hi, t, ht, b, hb, u, hu, rfl⟩ := stmt_for.1 h
      have h₁ : Executes N p loop s [] i := forInit_executes hone (fun hp' => (hp hp').2.1) hi
      obtain ⟨c, a, hc, h₂⟩ := forTest_evaluates hone (fun hp' => (hp hp').2.2.1) ht
      have h₃ := stmt_emits hone body (fun hp' => (hp hp').2.2.2.2) hb
      have h₄ := expr_evaluates hone update (fun hp' => (hp hp').2.2.2.1) hu
      have h₅ := h₁.append (.for (a := a) h₂ (by simp) h₃ h₄)
      simp only [hc, List.append_assoc]
      exact h₅
    | «return» argument =>
      obtain ⟨a, ha, rfl⟩ := stmt_return.1 h
      exact .return (expr_evaluates hone argument (fun hp' => (hp hp').2) ha) (List.mem_singleton_self _)
    | «break» labelled =>
      rcases stmt_break_inv h with ⟨w, rfl⟩ | ⟨l, rfl, rfl⟩
      · exact executes_nothing rfl rfl
      · exact .break
    | «continue» labelled =>
      rcases stmt_continue_inv h with ⟨w, rfl⟩ | ⟨l, rfl, rfl⟩
      · exact executes_nothing rfl rfl
      · exact .continue
    | empty => rw [stmt, pure_eq_ok] at h; rw [h]; exact executes_nothing rfl rfl
    | _ =>
      have h' := unsupported_eq_ok.1 h
      rw [h']; exact executes_nothing rfl rfl

theorem stmts_emits (hone : p → N (.int 1)) :
    ∀ (ns : List Node) {loop : Option Loop} {s : Supply} {r : Lowered Unit},
    (p → Node.PlainList N ns) → stmts loop ns s = .ok r → Executes N p loop s (Node.functionsList ns) r
  | [], loop, s, r, _, h => by rw [stmts_nil.1 h]; exact executes_nothing rfl rfl
  | n :: rest, loop, s, r, hp, h => by
    obtain ⟨a, ha, b, hb, rfl⟩ := stmts_cons.1 h
    exact (stmt_emits hone n (fun hp' => (hp hp').1) ha).append
      (stmts_emits hone rest (fun hp' => (hp hp').2) hb)

end

end

end Lower

/-- The code of a program has the shape of a statement outside of any loop. -/
theorem Node.lower_emits {N : Number → Prop} {p : Prop} {n : Node} {l : Lowered Unit} (hone : p → N (.int 1))
    (hp : p → n.Plain N) (h : n.lower = .ok l) : ∃ c, l.code = c.renumber ∧
      Emits (fun a => p → a.Scalar N) (fun x => p → x.Scalar) none 0 0 c n.functions l.supply.temps l.supply.labels := by
  obtain ⟨r, hr, h⟩ := except_bind_eq_ok h
  cases h
  exact ⟨r.code, rfl, Lower.stmt_emits hone n hp hr⟩

end QuadScript
