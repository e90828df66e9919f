import QuadScript.Proofs.Emitted
import QuadScript.Proofs.Initialization
import QuadScript.Proofs.Liveness

/-!
# Another initialiser

`Node.withInit x v n` is the program `n` with another constant in the place of the one that `x` is declared with.
-/

namespace QuadScript

/-- A literal, whose value is no list and no record. -/
structure Constant where
  mark : Mark
  regex : Bool
  value : Tree
  scalar : (regex || value.isName) = true

def Constant.node (v : Constant) : Node := .mk v.mark (.literal v.regex v.value)

namespace Node

/-- Whether a node is a constant. -/
def isConstant : Node → Bool
  | .mk _ (.literal regex value) => regex || value.isName
  | _ => false

/-- Whether a node is the variable of that name. -/
def isNamed (x : String) : Node → Bool
  | .mk mark .identifier => mark.nameTree.isText x
  | _ => false

end Node

mutual

/-- A program in which the variable `x` is declared with `v` wherever it is declared with a constant. -/
def Node.withInit (x : String) (v : Constant) : Node → Node
  | .absent => .absent
  | .fault f => .fault f
  | .mk mark form => .mk mark (form.withInit x v)

def Form.withInit (x : String) (v : Constant) : Form → Form
  | .program body => .program (Node.withInitAll x v body)
  | .block body => .block (Node.withInitAll x v body)
  | .expression e => .expression (e.withInit x v)
  | .declaration kind ds => .declaration kind (Declarator.withInitAll x v ds)
  | .function id params body => .function id (Param.withInitAll x v params) (body.withInit x v)
  | .classDecl id parent members => .classDecl id (parent.withInit x v) (Node.withInitAll x v members)
  | .method computed key params body =>
    .method computed (key.withInit x v) (Param.withInitAll x v params) (body.withInit x v)
  | .if test consequent alternate => .if (test.withInit x v) (consequent.withInit x v) (alternate.withInit x v)
  | .while test body => .while (test.withInit x v) (body.withInit x v)
  | .for init test update body =>
    .for (init.withInit x v) (test.withInit x v) (update.withInit x v) (body.withInit x v)
  | .return argument => .return (argument.withInit x v)
  | .break labelled => .break labelled
  | .continue labelled => .continue labelled
  | .empty => .empty
  | .throw argument => .throw (argument.withInit x v)
  | .identifier => .identifier
  | .literal regex value => .literal regex value
  | .template text es => .template text (Node.withInitAll x v es)
  | .assignment operator left right => .assignment operator (left.withInit x v) (right.withInit x v)
  | .binary operator left right => .binary operator (left.withInit x v) (right.withInit x v)
  | .logical operator left right => .logical operator (left.withInit x v) (right.withInit x v)
  | .unary operator argument => .unary operator (argument.withInit x v)
  | .update operator leading argument => .update operator leading (argument.withInit x v)
  | .conditional test consequent alternate =>
    .conditional (test.withInit x v) (consequent.withInit x v) (alternate.withInit x v)
  | .call callee arguments => .call (callee.withInit x v) (Node.withInitAll x v arguments)
  | .new callee arguments => .new (callee.withInit x v) (Node.withInitAll x v arguments)
  | .member computed object property => .member computed (object.withInit x v) (property.withInit x v)
  | .array elements => .array (Node.withInitAll x v elements)
  | .object properties => .object (Property.withInitAll x v properties)
  | .lambda params body => .lambda (Param.withInitAll x v params) (body.withInit x v)
  | .sequence es => .sequence (Node.withInitAll x v es)
  | .this => .this
  | .unknown => .unknown

def Node.withInitAll (x : String) (v : Constant) : List Node → List Node
  | [] => []
  | n :: rest => n.withInit x v :: Node.withInitAll x v rest

def Declarator.withInitAll (x : String) (v : Constant) : List Declarator → List Declarator
  | [] => []
  | d :: rest => d.withInit x v :: Declarator.withInitAll x v rest

def Declarator.withInit (x : String) (v : Constant) : Declarator → Declarator
  | .fault f => .fault f
  | .mk mark id given init =>
    .mk mark id given (if id.isNamed x && init.isConstant then v.node else init.withInit x v)

def Param.withInitAll (x : String) (v : Constant) : List Param → List Param
  | [] => []
  | p :: rest => p.withInit x v :: Param.withInitAll x v rest

def Param.withInit (x : String) (v : Constant) : Param → Param
  | .fault f => .fault f
  | .absent f => .absent f
  | .mk position name default => .mk position name (default.withInit x v)

def Property.withInitAll (x : String) (v : Constant) : List Property → List Property
  | [] => []
  | p :: rest => p.withInit x v :: Property.withInitAll x v rest

def Property.withInit (x : String) (v : Constant) : Property → Property
  | .fault f => .fault f
  | .mk mark computed key value => .mk mark computed (key.withInit x v) (value.withInit x v)

end

section
variable {x : String} {v : Constant} {n : Node}

theorem Node.mark?_withInit : (n.withInit x v).mark? = n.mark? := by
  cases n <;> simp only [withInit, mark?]

theorem Node.nameTree_withInit : (n.withInit x v).nameTree = n.nameTree := by
  rw [nameTree, nameTree, mark?_withInit]

theorem Node.isAbsent_withInit : (n.withInit x v).isAbsent = n.isAbsent := by
  cases n <;> simp only [withInit, isAbsent]

namespace Lower

theorem assignee?_withInit : assignee? (n.withInit x v) = assignee? n := by
  rcases n with _ | f | ⟨mark, form⟩
  · rw [Node.withInit]
  · rw [Node.withInit]
  · rw [Node.withInit]
    cases form <;> rw [Form.withInit] <;> rfl

theorem callee_withInit : callee (n.withInit x v) = callee n := by
  rcases n with _ | f | ⟨mark, form⟩
  · rw [Node.withInit]
  · rw [Node.withInit]
  · rw [Node.withInit]
    cases form with
    | member computed object property =>
      rw [Form.withInit]
      cases computed with
      | true => rfl
      | false => simp only [callee, methodName, Node.nameTree_withInit, Node.mark?_withInit]
    | _ => simp only [Form.withInit, callee]

theorem receivedNames_withInit (ps : List Param) :
    (Param.withInitAll x v ps).mapM receivedName = ps.mapM receivedName := by
  induction ps with
  | nil => rw [Param.withInitAll]
  | cons p rest ih =>
    have hp : receivedName (p.withInit x v) = receivedName p := by
      rcases p with _ | _ | _ <;> simp only [Param.withInit, receivedName]
    rw [Param.withInitAll, List.mapM_cons, List.mapM_cons, hp, ih]

end Lower

end

/-! ### Lowering with other warnings -/

/-- Supplies that give the same names. -/
structure Supply.Even (s s' : Supply) : Prop where
  temps : s'.temps = s.temps
  labels : s'.labels = s.labels
  joins : s'.joins = s.joins

namespace Lower

/-- The second action gives what the first gives, but for warnings. -/
structure Alike {α : Type} (y y' : Lower α) : Prop where
  run : ∀ {s s' : Supply} {r : Lowered α}, s.Even s' → y s = .ok r →
    ∃ s₁, y' s' = .ok ⟨r.value, r.code, s₁⟩ ∧ r.supply.Even s₁

namespace Alike

variable {α β : Type}

theorem pure (a : α) : Alike (Pure.pure a) (Pure.pure a) := by
  refine ⟨fun {s s' r} hs h => ?_⟩
  cases pure_eq_ok.1 h
  exact ⟨s', rfl, hs⟩

theorem bind {y y' : Lower α} {f f' : α → Lower β} (hy : Alike y y') (hf : ∀ a, Alike (f a) (f' a)) :
    Alike (y >>= f) (y' >>= f') := by
  refine ⟨fun {s s' r} hs h => ?_⟩
  obtain ⟨a, b, ha, hb, rfl⟩ := bind_eq_ok.1 h
  obtain ⟨s₁, ha', hs₁⟩ := hy.run hs ha
  obtain ⟨s₂, hb', hs₂⟩ := (hf a.value).run hs₁ hb
  exact ⟨s₂, bind_eq_ok.2 ⟨_, _, ha', hb', rfl⟩, hs₂⟩

theorem ite {b : Prop} [Decidable b] {y y' z z' : Lower α} (hy : Alike y y') (hz : Alike z z') :
    Alike (if b then y else z) (if b then y' else z') := by
  split
  · exact hy
  · exact hz

theorem fail (f : Fault) (y : Lower α) : Alike (Lower.fail f) y := ⟨fun _ h => by cases h⟩

theorem lift (y : Except Fault α) : Alike (Lower.lift y) (Lower.lift y) := by
  refine ⟨fun {s s' r} hs h => ?_⟩
  obtain ⟨a, rfl, rfl⟩ := lift_eq_ok.1 h
  exact ⟨s', rfl, hs⟩

theorem emit (q : Quad) : Alike (Lower.emit q) (Lower.emit q) := by
  refine ⟨fun {s s' r} hs h => ?_⟩
  cases emit_eq_ok.1 h
  exact ⟨s', rfl, hs⟩

theorem warn (w w' : String) : Alike (Lower.warn w) (Lower.warn w') := by
  refine ⟨fun {s s' r} hs h => ?_⟩
  cases warn_eq_ok.1 h
  exact ⟨_, rfl, hs.temps, hs.labels, hs.joins⟩

theorem newTemp : Alike Lower.newTemp Lower.newTemp := by
  refine ⟨fun {s s' r} hs h => ?_⟩
  cases newTemp_eq_ok.1 h
  exact ⟨s'.drawTemp, newTemp_eq_ok.2 (by rw [hs.temps]), congrArg (· + 1) hs.temps, hs.labels, hs.joins⟩

theorem newLabel : Alike Lower.newLabel Lower.newLabel := by
  refine ⟨fun {s s' r} hs h => ?_⟩
  cases newLabel_eq_ok.1 h
  exact ⟨s'.drawLabels 1, newLabel_eq_ok.2 (by rw [hs.labels]), hs.temps, congrArg (· + 1) hs.labels, hs.joins⟩

theorem newJoin : Alike Lower.newJoin Lower.newJoin := by
  refine ⟨fun {s s' r} hs h => ?_⟩
  cases newJoin_eq_ok.1 h
  exact ⟨s'.drawJoin, newJoin_eq_ok.2 (by rw [hs.joins]), hs.temps, hs.labels, congrArg (· + 1) hs.joins⟩

theorem operator (op : Operator) (a b : Operand) : Alike (Lower.operator op a b) (Lower.operator op a b) :=
  .bind .newTemp fun _ => .bind (.emit _) fun _ => .pure _

theorem emitParams (as : List Operand) : Alike (Lower.emitParams as) (Lower.emitParams as) := by
  induction as with
  | nil => exact .pure ()
  | cons a rest ih => exact .bind (.emit _) fun _ => ih

theorem emitCall (c : Callee) (count : Nat) : Alike (Lower.emitCall c count) (Lower.emitCall c count) := by
  cases c with
  | console method => exact .bind (.emit _) fun _ => .pure _
  | _ => exact .bind .newTemp fun _ => .bind (.emit _) fun _ => .pure _

theorem unsupportedNode {n n' : Node} (h : n'.mark? = n.mark?) :
    Alike (Lower.unsupportedNode n) (Lower.unsupportedNode n') := by
  rw [Lower.unsupportedNode, Lower.unsupportedNode, h]
  refine .bind (.lift _) fun m => ?_
  cases m with
  | none => exact .warn _ _
  | some mark => exact .warn _ _

theorem skipped (w w' : String) :
    Alike (do Lower.warn w; return void : Lower Operand) (do Lower.warn w'; return void : Lower Operand) :=
  .bind (.warn _ _) fun _ => .pure _

theorem skippedNode (x : String) (v : Constant) (n : Node) :
    Alike (do Lower.unsupportedNode n; return void : Lower Operand)
      (do Lower.unsupportedNode (n.withInit x v); return void : Lower Operand) :=
  .bind (.unsupportedNode Node.mark?_withInit) fun _ => .pure _

end Alike

section
variable {x : String} {v : Constant}

mutual

/-- Another initialiser does not change the code of an expression. -/
theorem expr_alike : ∀ n : Node, Alike (expr n) (expr (n.withInit x v))
  | .absent => by
    rw [Node.withInit]
    exact .pure void
  | .fault f => .fail f _
  | .mk mark form => by
    rw [Node.withInit]
    cases form with
    | literal regex value =>
      cases regex with
      | true =>
        rw [Form.withInit, expr]
        exact .skipped _ _
      | false =>
        rw [Form.withInit, expr]
        exact .pure _
    | template text es =>
      rw [Form.withInit, expr, expr]
      exact .bind (.lift _) fun _ => .pure _
    | identifier =>
      rw [Form.withInit, expr]
      exact .pure _
    | assignment operator left right =>
      rw [Form.withInit, expr, expr, assignee?_withInit]
      refine .bind (.lift _) fun t => ?_
      cases t with
      | none => exact .skippedNode x v left
      | some name =>
        refine .ite (.bind (expr_alike right) fun _ => .bind (.emit _) fun _ => .pure _) (.bind (.lift _) fun op => ?_)
        cases op with
        | none => exact .skipped _ _
        | some op =>
          exact .bind (expr_alike right) fun _ => .bind (.operator ..) fun _ => .bind (.emit _) fun _ => .pure _
    | binary operator left right =>
      rw [Form.withInit, expr, expr]
      refine .bind (.lift _) fun op => ?_
      cases op with
      | none => exact .skipped _ _
      | some op => exact .bind (expr_alike left) fun _ => .bind (expr_alike right) fun _ => .operator ..
    | unary operator argument =>
      rw [Form.withInit, expr, expr]
      refine .ite (.bind (expr_alike argument) fun _ => .pure _) (.bind (.lift _) fun op => ?_)
      cases op with
      | none => exact .skipped _ _
      | some op => exact .bind (expr_alike argument) fun _ => .operator ..
    | update operator leading argument =>
      rw [Form.withInit, expr, expr, assignee?_withInit]
      refine .bind (.lift _) fun t => ?_
      cases t with
      | none => exact .skippedNode x v argument
      | some name =>
        refine .ite (.bind (.operator ..) fun _ => .bind (.emit _) fun _ => .pure _) ?_
        exact .bind (.operator ..) fun _ => .bind (.operator ..) fun _ => .bind (.emit _) fun _ => .pure _
    | logical operator left right =>
      rw [Form.withInit, expr, expr]
      refine .bind .newJoin fun join => .bind .newLabel fun finish => .bind (expr_alike left) fun a => ?_
      have hend : Alike (do assign (← expr right) (.name join); label finish; return .name join : Lower Operand)
          (do assign (← expr (right.withInit x v)) (.name join); label finish; return .name join : Lower Operand) :=
        .bind (expr_alike right) fun _ => .bind (.emit _) fun _ => .bind (.emit _) fun _ => .pure _
      refine .bind (.emit _) fun _ => .ite (.bind (.emit _) fun _ => hend) (.ite ?_ ?_)
      · exact .bind (.operator ..) fun _ => .bind (.emit _) fun _ => hend
      · exact .bind (.operator ..) fun _ => .bind (.emit _) fun _ => hend
    | conditional test consequent alternate =>
      rw [Form.withInit, expr, expr]
      refine .bind .newJoin fun _ => .bind .newLabel fun _ => .bind .newLabel fun _ => ?_
      refine .bind (expr_alike test) fun _ => .bind (.emit _) fun _ => ?_
      refine .bind (expr_alike consequent) fun _ => .bind (.emit _) fun _ => .bind (.emit _) fun _ => ?_
      refine .bind (.emit _) fun _ => .bind (expr_alike alternate) fun _ => .bind (.emit _) fun _ => ?_
      exact .bind (.emit _) fun _ => .pure _
    | call called arguments =>
      rw [Form.withInit, expr, expr, callee_withInit]
      refine .bind (.lift _) fun c => ?_
      cases c with
      | unsupported => exact .skippedNode x v called
      | console method | function f =>
        exact .bind (exprs_alike arguments) fun _ => .bind (.emitParams _) fun _ => .emitCall _ _
    | sequence es =>
      rw [Form.withInit, expr, expr]
      exact .bind (exprs_alike es) fun _ => .pure _
    | _ => exact .skipped _ _

theorem exprs_alike : ∀ ns : List Node, Alike (exprs ns) (exprs (Node.withInitAll x v ns))
  | [] => by
    rw [Node.withInitAll]
    exact .pure []
  | n :: rest => by
    rw [Node.withInitAll, exprs, exprs]
    exact .bind (expr_alike n) fun _ => .bind (exprs_alike rest) fun _ => .pure _

end

end

end Lower

end QuadScript
