import QuadScript.Proofs.Emission
import QuadScript.Proofs.Events

/-!
# The parts of a program

A program is lowered part by part: a statement, a list of them, an expression. `Part.pieces` says how the code of a
part is laid out, as instructions of its own and the code of smaller parts, with what is lowered before each of them
and what is walked before it. `Part.Occurs` follows the pieces down from a program to any part in it that is lowered,
with the place of its code and the events of the walk before it.
-/

namespace QuadScript

/-- Something that is lowered. -/
inductive Part
  | stmt (loop : Option Loop) (n : Node)
  /-- The body of a function. -/
  | body (n : Node)
  /-- The statements of a program, or of a block where those that follow may be unreachable. -/
  | stmts (loop : Option Loop) (unreachable : Option Bool) (ns : List Node)
  /-- A round of a `for` loop: its body, and then the update. -/
  | round (loop : Loop) (body update : Node)
  | expr (n : Node)
  | exprs (ns : List Node)
  | declarators (kind : DeclKind) (ds : List Declarator)
  | declarator (kind : DeclKind) (d : Declarator)

/-- What an action gives, without its value. -/
def Lowered.forget {α : Type} (r : Lowered α) : Lowered Unit := ⟨(), r.code, r.supply⟩

namespace Part

def lower : Part → Supply → Except Fault (Lowered Unit)
  | .stmt loop n, s => Lower.stmt loop n s
  | .body n, s => Lower.stmt none n s
  | .stmts loop _ ns, s => Lower.stmts loop ns s
  | .round loop n update, s => do
    let b ← Lower.stmt (some loop) n s
    let u ← Lower.expr update b.supply
    return ⟨(), b.code ++ Quad.label loop.next :: u.code, u.supply⟩
  | .expr n, s => (Lower.expr n s).map Lowered.forget
  | .exprs ns, s => (Lower.exprs ns s).map Lowered.forget
  | .declarators _ ds, s => Lower.declarators ds s
  | .declarator _ d, s => Lower.declarator d s

/-- The code of a part that is lowered from a supply. -/
def code (w : Part) (s : Supply) : Code :=
  match w.lower s with
  | .ok r => r.code
  | .error _ => []

/-- The supply after a part was lowered. -/
def after (w : Part) (s : Supply) : Supply :=
  match w.lower s with
  | .ok r => r.supply
  | .error _ => s

/-- The events of the walk of a part. -/
def events : Part → List Event
  | .stmt _ n => n.events
  | .body n => n.bodyEvents n.blockEvents n.events
  | .stmts _ none ns => Node.eventsAll ns
  | .stmts _ (some unreachable) ns => Node.eventsStatements unreachable ns
  | .round _ n update => update.events ++ n.events
  | .expr n => n.events
  | .exprs ns => Node.eventsAll ns
  | .declarators kind ds => Declarator.eventsAll kind ds
  | .declarator kind d => d.events kind

/-- How much there is to lower. -/
noncomputable def size : Part → Nat
  | .stmt _ n => sizeOf n
  | .body n => sizeOf n
  | .stmts _ _ ns => sizeOf ns
  | .round _ n update => 1 + sizeOf n + sizeOf update
  | .expr n => sizeOf n
  | .exprs ns => sizeOf ns
  | .declarators _ ds => sizeOf ds
  | .declarator _ d => sizeOf d

/-- The functions whose code is in the code of a part. -/
def functions : Part → List String
  | .stmt _ n => n.functions
  | .body n => n.functions
  | .stmts _ _ ns => Node.functionsList ns
  | .round _ n _ => n.functions
  | _ => []

end Part

/-- A piece of the code of a part: instructions of its own, or a smaller part. Of a smaller part it tells whether it
is never reached, and the events of the walk of the whole that come before those of the part. -/
inductive Piece
  | code (c : Code)
  | part (dead : Bool) (es : List Event) (w : Part) (s : Supply)

def Piece.emitted : Piece → Code
  | .code c => c
  | .part _ _ w s => w.code s

namespace Node

/-- The operand that holds the value of an expression. -/
def operand (n : Node) (s : Supply) : Operand :=
  match Lower.expr n s with
  | .ok r => r.value
  | .error _ => void

/-- The operands that hold the values of expressions. -/
def operands (ns : List Node) (s : Supply) : List Operand :=
  match Lower.exprs ns s with
  | .ok r => r.value
  | .error _ => []

/-- Whether an expression is a literal that stands for the value it has in the program: null, a truth value, a text
or a number. -/
def isScalar : Node → Bool
  | .mk _ (.literal false value) =>
    match value with
    | .null => true
    | .bool _ => true
    | .str _ => true
    | .num n => !n.isNaN
    | _ => false
  | _ => false

/-- Whether a test always fails. -/
def isNever (test : Node) : Bool := test.isScalar && test.isAlwaysFalse

/-- Whether a test never fails. -/
def isEver (test : Node) : Bool := test.isScalar && test.isAlwaysTrue

/-- Whether a statement leaves the list that it stands in. -/
def leaves (loop : Option Loop) : Node → Bool
  | .mk _ (.return _) => true
  | .mk _ (.break labelled) => loop.isSome && !labelled
  | .mk _ (.continue labelled) => loop.isSome && !labelled
  | _ => false

/-- What a `for` loop starts with. -/
def initPart : Node → Part
  | .mk _ (.declaration kind ds) => .declarators kind ds
  | n => .expr n

def stmtPieces (loop : Option Loop) (s : Supply) : Node → List Piece
  | .mk mark form =>
    match form with
    | .program body => [.part false (.global :: hoists body) (.stmts loop none body) s]
    | .block body => [.part false (.enter .block :: hoists body) (.stmts loop (some false) body) s]
    | .expression e => [.part false [] (.expr e) s]
    | .declaration kind ds => [.part false [] (.declarators kind ds) s]
    | .function id params body =>
      match id.nameTree, params.mapM Lower.receivedName with
      | .ok (.str f), .ok xs =>
        if f = "" then []
        else
          [.code [Quad.goto (endMark ++ f), Quad.label (functionMark ++ f)], .code (xs.map Quad.receive),
            .part false (.own mark id params :: .enter .function :: Param.eventsAll params) (.body body)
              (Lower.announce f s),
            .code [Quad.ret void, Quad.label (endMark ++ f)]]
      | _, _ => []
    | .if test consequent alternate =>
      let s₁ := s.drawLabels 2
      let s₂ := (Part.expr test).after s₁
      let s₃ := (Part.stmt loop consequent).after s₂
      let warnings := warnEither test.isAlwaysTrue test.isAlwaysFalse
        "Condition is always true; the else branch is never executed"
        "Condition is always false; the if branch is never executed" mark.place
      [.part false [] (.expr test) s₁, .code [Quad.jumpIfFalse (test.operand s₁) (labelName s.labels)],
        .part test.isNever (test.events ++ warnings) (.stmt loop consequent) s₂,
        .code [Quad.goto (labelName (s.labels + 1)), Quad.label (labelName s.labels)],
        .part test.isEver (test.events ++ (warnings ++ consequent.events)) (.stmt loop alternate) s₃,
        .code [Quad.label (labelName (s.labels + 1))]]
    | .while test body =>
      let s₁ := s.drawLabels 2
      let s₂ := (Part.expr test).after s₁
      let warnings := warnEither test.isAlwaysTrue test.isAlwaysFalse "Possible infinite loop: condition is always true"
        "Loop condition is always false; the body never runs" mark.place
      [.code [Quad.label (labelName s.labels)], .part false [] (.expr test) s₁,
        .code [Quad.jumpIfFalse (test.operand s₁) (labelName (s.labels + 1))],
        .part test.isNever (test.events ++ warnings)
          (.stmt (some ⟨labelName s.labels, labelName (s.labels + 1)⟩) body) s₂,
        .code [Quad.goto (labelName s.labels), Quad.label (labelName (s.labels + 1))]]
    | .for init test update body =>
      let l := (init.initPart.after s).labels
      let s₁ := (init.initPart.after s).drawLabels 3
      let s₂ := (Part.expr test).after s₁
      let warnings := warnIf test.isAlwaysFalse "For loop condition is always false; the loop never runs" mark.place
      [.part false [.enter .block] init.initPart s, .code [Quad.label (labelName l)],
        .part false (.enter .block :: init.events) (.expr test) s₁,
        .code (if test.isAbsent then [] else [Quad.jumpIfFalse (test.operand s₁) (labelName (l + 2))]),
        .part test.isNever (.enter .block :: (init.events ++ (test.events ++ warnings)))
          (.round ⟨labelName (l + 1), labelName (l + 2)⟩ body update) s₂,
        .code [Quad.goto (labelName l), Quad.label (labelName (l + 2))]]
    | .return argument => [.part false [] (.expr argument) s, .code [Quad.ret (argument.operand s)]]
    | .break labelled =>
      match loop, labelled with
      | some l, false => [.code [Quad.goto l.exit]]
      | _, _ => []
    | .continue labelled =>
      match loop, labelled with
      | some l, false => [.code [Quad.goto l.next]]
      | _, _ => []
    | _ => []
  | _ => []

def exprPieces (s : Supply) : Node → List Piece
  | .mk _ form =>
    match form with
    | .assignment operator left right =>
      match Lower.assignee? left with
      | .ok (some name) =>
        if operator.isText "=" then
          [.part false [] (.expr right) s, .code [Quad.assign (right.operand s) (Lower.nameTarget name)]]
        else
          match Lower.compoundOp? operator with
          | .ok (some op) =>
            let dest := tempName ((Part.expr right).after s).temps
            [.part false [] (.expr right) s,
              .code [Quad.operator (.binary op) (Lower.nameOperand name) (right.operand s) dest,
                Quad.assign (.name dest) (Lower.nameTarget name)]]
          | _ => []
      | _ => []
    | .binary operator left right =>
      match Lower.binaryOp? operator with
      | .ok (some op) =>
        let s₁ := (Part.expr left).after s
        let dest := tempName ((Part.expr right).after s₁).temps
        [.part false [] (.expr left) s, .part false left.events (.expr right) s₁,
          .code [Quad.operator (.binary op) (left.operand s) (right.operand s₁) dest]]
      | _ => []
    | .unary operator argument =>
      if operator.isText "void" then [.part false [] (.expr argument) s]
      else
        match Lower.unaryOp? operator with
        | .ok (some op) =>
          [.part false [] (.expr argument) s,
            .code [Quad.operator (.unary op) (argument.operand s) .none (tempName ((Part.expr argument).after s).temps)]]
        | _ => []
    | .update operator leading argument =>
      match Lower.assignee? argument with
      | .ok (some name) =>
        let x := Lower.nameOperand name
        if leading then
          [.code [Quad.operator (.binary (Lower.updateOp operator)) x (.num (.int 1)) (tempName s.temps),
            Quad.assign (.name (tempName s.temps)) (Lower.nameTarget name)]]
        else
          [.code [Quad.operator (.unary .pos) x .none (tempName s.temps),
            Quad.operator (.binary (Lower.updateOp operator)) x (.num (.int 1)) (tempName (s.temps + 1)),
            Quad.assign (.name (tempName (s.temps + 1))) (Lower.nameTarget name)]]
      | _ => []
    | .logical operator left right =>
      let s₁ := s.drawJoin.drawLabels 1
      let join := joinName s.joins
      match Lower.logicalTest operator join ((Part.expr left).after s₁) with
      | .ok t =>
        let dead := operator.isText "&&" && left.isNever || operator.isText "||" && left.isEver
        [.part false [] (.expr left) s₁,
          .code [Quad.assign (left.operand s₁) (.name join)], .code t.code,
          .code [Quad.jumpIfFalse t.value (labelName s.labels)],
          .part dead left.events (.expr right) t.supply,
          .code [Quad.assign (right.operand t.supply) (.name join), Quad.label (labelName s.labels)]]
      | .error _ => []
    | .conditional test consequent alternate =>
      let s₁ := s.drawJoin.drawLabels 2
      let s₂ := (Part.expr test).after s₁
      let s₃ := (Part.expr consequent).after s₂
      let join := joinName s.joins
      [.part false [] (.expr test) s₁, .code [Quad.jumpIfFalse (test.operand s₁) (labelName s.labels)],
        .part test.isNever test.events (.expr consequent) s₂,
        .code [Quad.assign (consequent.operand s₂) (.name join), Quad.goto (labelName (s.labels + 1)),
          Quad.label (labelName s.labels)],
        .part test.isEver (test.events ++ consequent.events) (.expr alternate) s₃,
        .code [Quad.assign (alternate.operand s₃) (.name join), Quad.label (labelName (s.labels + 1))]]
    | .call called arguments =>
      let as := operands arguments s
      let first := Piece.part false (called.eventsOr .call called.events) (.exprs arguments) s
      match Lower.callee called with
      | .ok (.console method) =>
        [first, .code (as.map Quad.param ++ [Quad.call (consoleMark ++ method) as.length .none])]
      | .ok (.function f) =>
        let dest := tempName ((Part.exprs arguments).after s).temps
        [first, .code (as.map Quad.param ++ [Quad.call (functionMark ++ f) as.length (.name dest)])]
      | _ => []
    | .sequence es => [.part false [] (.exprs es) s]
    | _ => []
  | _ => []

/-- What is warned of before a statement of a block. -/
def unreached (unreachable : Option Bool) (n : Node) : List Event :=
  warnIf (unreachable.getD false) "Unreachable code detected" n.place

end Node

def Declarator.pieces (s : Supply) : Declarator → List Piece
  | .mk _ (.mk mark .identifier) _ init =>
    match mark.requireName with
    | .ok name =>
      if init.isAbsent then []
      else [.part false [] (.expr init) s, .code [Quad.assign (init.operand s) (Lower.nameTarget name)]]
    | .error _ => []
  | _ => []

def Part.pieces : Part → Supply → List Piece
  | .stmt loop n, s => n.stmtPieces loop s
  | .body (.mk _ (.block ns)), s => [.part false (Node.hoists ns) (.stmts none (some false) ns) s]
  | .body n, s => n.stmtPieces none s
  | .stmts _ _ [], _ => []
  | .stmts loop unreachable (n :: rest), s =>
    [.part false (n.unreached unreachable) (.stmt loop n) s,
      .part (n.leaves loop) (n.unreached unreachable ++ n.events)
        (.stmts loop (unreachable.map (· || n.isTerminator)) rest) ((Part.stmt loop n).after s)]
  | .round loop n update, s =>
    [.part false update.events (.stmt (some loop) n) s, .code [Quad.label loop.next],
      .part false [] (.expr update) ((Part.stmt (some loop) n).after s)]
  | .expr n, s => n.exprPieces s
  | .exprs [], _ => []
  | .exprs (n :: rest), s =>
    [.part false [] (.expr n) s, .part false n.events (.exprs rest) ((Part.expr n).after s)]
  | .declarators _ [], _ => []
  | .declarators kind (d :: rest), s =>
    [.part false [] (.declarator kind d) s,
      .part false (d.events kind) (.declarators kind rest) ((Part.declarator kind d).after s)]
  | .declarator _ d, s => d.pieces s

/-! ### The layout of a part -/

namespace Part

theorem code_eq {w : Part} {s : Supply} {r : Lowered Unit} (h : w.lower s = .ok r) : w.code s = r.code := by
  rw [code, h]

theorem after_eq {w : Part} {s : Supply} {r : Lowered Unit} (h : w.lower s = .ok r) : w.after s = r.supply := by
  rw [after, h]

/-- The code of a part is that of its pieces, all of which can be lowered. -/
structure Laid (pieces : List Piece) (c : Code) : Prop where
  lowers : ∀ {dead es w s}, .part dead es w s ∈ pieces → ∃ r, w.lower s = .ok r
  code : c = pieces.flatMap Piece.emitted

namespace Laid

variable {pieces : List Piece} {c d : Code} {dead : Bool} {es : List Event} {w : Part} {s : Supply} {r : Lowered Unit}

theorem nil : Laid [] [] := ⟨by simp, rfl⟩

theorem emit (h : Laid pieces d) : Laid (.code c :: pieces) (c ++ d) := by
  refine ⟨fun hp => ?_, by rw [h.code]; rfl⟩
  simp only [List.mem_cons, reduceCtorEq, false_or] at hp
  exact h.lowers hp

theorem part (hw : w.lower s = .ok r) (h : Laid pieces d) : Laid (.part dead es w s :: pieces) (r.code ++ d) := by
  refine ⟨fun hp => ?_, by rw [h.code, ← code_eq hw]; rfl⟩
  rcases List.mem_cons.1 hp with hp | hp
  · cases hp
    exact ⟨r, hw⟩
  · exact h.lowers hp

theorem single (hw : w.lower s = .ok r) : Laid [.part dead es w s] r.code := by
  simpa using part hw nil

theorem last : Laid [.code c] c := by
  simpa using emit (c := c) nil

theorem cast (h : Laid pieces c) (hc : d = c) : Laid pieces d := hc ▸ h

end Laid

theorem map_forget_eq_ok {α : Type} {x : Except Fault (Lowered α)} {r : Lowered Unit}
    (h : x.map Lowered.forget = .ok r) : ∃ a, x = .ok a ∧ r = a.forget := by
  cases x with
  | error f => cases h
  | ok a => cases h; exact ⟨a, rfl, rfl⟩

theorem lower_round {loop : Loop} {n update : Node} {s : Supply} {b : Lowered Unit} {u : Lowered Operand}
    (hb : Lower.stmt (some loop) n s = .ok b) (hu : Lower.expr update b.supply = .ok u) :
    (Part.round loop n update).lower s = .ok ⟨(), b.code ++ Quad.label loop.next :: u.code, u.supply⟩ := by
  simp only [lower, hb, hu, bind, Except.bind, pure, Except.pure]

theorem lower_expr {n : Node} {s : Supply} {a : Lowered Operand} (h : Lower.expr n s = .ok a) :
    (Part.expr n).lower s = .ok a.forget := by
  simp [lower, h, Except.map]

theorem lower_exprs {ns : List Node} {s : Supply} {a : Lowered (List Operand)} (h : Lower.exprs ns s = .ok a) :
    (Part.exprs ns).lower s = .ok a.forget := by
  simp [lower, h, Except.map]

end Part

theorem Node.operand_eq {n : Node} {s : Supply} {a : Lowered Operand} (h : Lower.expr n s = .ok a) :
    n.operand s = a.value := by
  rw [operand, h]

theorem Node.operands_eq {ns : List Node} {s : Supply} {a : Lowered (List Operand)} (h : Lower.exprs ns s = .ok a) :
    Node.operands ns s = a.value := by
  rw [operands, h]

namespace Node

open QuadScript.Part

theorem laid_skipped {s : Supply} {r : Lowered Operand} (h : Lower.Skipped s r) : Laid [] r.code := by
  obtain ⟨w, rfl⟩ := h
  exact .nil

theorem laid_expr {n : Node} {s : Supply} {r : Lowered Operand} (h : Lower.expr n s = .ok r) :
    Laid (n.exprPieces s) r.code := by
  cases n with
  | absent => rw [Lower.expr, Lower.pure_eq_ok] at h; rw [h]; exact .nil
  | fault f => rw [Lower.expr] at h; cases h
  | mk mark form =>
    -- each form is lowered as its pieces say, or skipped, and then it has none
    cases form with
    | literal regex value =>
      cases regex with
      | true => rw [Lower.expr] at h; exact laid_skipped (Lower.skipped_of_unsupported h)
      | false => rw [Lower.expr_literal.1 h]; exact .nil
    | template text es =>
      obtain ⟨t, -, rfl⟩ := Lower.expr_template.1 h
      exact .nil
    | identifier => rw [Lower.expr_identifier.1 h]; exact .nil
    | assignment operator left right =>
      by_cases hname : ∃ name, Lower.assignee? left = .ok (some name) ∧ (operator.isText "=" = true ∨
        operator.isText "=" = false ∧ ∃ op, Lower.compoundOp? operator = .ok (some op))
      · obtain ⟨name, hleft, hop | ⟨hop, op, hc⟩⟩ := hname
        · obtain ⟨a, ha, rfl⟩ := (Lower.expr_assignment hleft hop).1 h
          simp only [exprPieces, hleft, hop, if_true, operand_eq ha]
          exact .part (lower_expr ha) .last
        · obtain ⟨a, ha, rfl⟩ := (Lower.expr_compound hleft hop hc).1 h
          have hs : _ = a.supply := after_eq (lower_expr ha)
          simp only [exprPieces, hleft, hop, hc, Bool.false_eq_true, if_false, operand_eq ha, hs]
          exact .part (lower_expr ha) .last
      · have hnil : (Node.mk mark (.assignment operator left right)).exprPieces s = [] := by
          simp only [exprPieces]
          split
          · rename_i name hleft
            split
            · rename_i hop
              exact absurd ⟨name, hleft, .inl hop⟩ hname
            · rename_i hop
              split
              · rename_i op hc
                exact absurd ⟨name, hleft, .inr ⟨by simpa using hop, op, hc⟩⟩ hname
              · rfl
          · rfl
        rw [hnil]
        exact laid_skipped ((Lower.expr_assignment_inv h).resolve_right hname)
    | binary operator left right =>
      by_cases hop : ∃ op, Lower.binaryOp? operator = .ok (some op)
      · obtain ⟨op, hop⟩ := hop
        obtain ⟨a, ha, b, hb, rfl⟩ := (Lower.expr_binary hop).1 h
        have hs : _ = a.supply := after_eq (lower_expr ha)
        have hs' : _ = b.supply := after_eq (lower_expr hb)
        simp only [exprPieces, hop, hs, hs', operand_eq ha, operand_eq hb]
        exact .part (lower_expr ha) (.part (lower_expr hb) .last)
      · have hnil : (Node.mk mark (.binary operator left right)).exprPieces s = [] := by
          simp only [exprPieces]
          split
          · rename_i op hop'
            exact absurd ⟨op, hop'⟩ hop
          · rfl
        rw [hnil]
        exact laid_skipped ((Lower.expr_binary_inv h).resolve_right hop)
    | unary operator argument =>
      by_cases hop : operator.isText "void" = true ∨
        operator.isText "void" = false ∧ ∃ op, Lower.unaryOp? operator = .ok (some op)
      · obtain hv | ⟨hv, op, hop⟩ := hop
        · obtain ⟨a, ha, rfl⟩ := (Lower.expr_void hv).1 h
          simp only [exprPieces, hv, if_true]
          exact .single (lower_expr ha)
        · obtain ⟨a, ha, rfl⟩ := (Lower.expr_unary hv hop).1 h
          have hs : _ = a.supply := after_eq (lower_expr ha)
          simp only [exprPieces, hv, hop, Bool.false_eq_true, if_false, hs, operand_eq ha]
          exact .part (lower_expr ha) .last
      · have hnil : (Node.mk mark (.unary operator argument)).exprPieces s = [] := by
          simp only [exprPieces]
          split
          · rename_i hv
            exact absurd (.inl hv) hop
          · rename_i hv
            split
            · rename_i op hop'
              exact absurd (.inr ⟨by simpa using hv, op, hop'⟩) hop
            · rfl
        rw [hnil]
        exact laid_skipped ((Lower.expr_unary_inv h).resolve_right hop)
    | update operator leading argument =>
      by_cases harg : ∃ name, Lower.assignee? argument = .ok (some name)
      · obtain ⟨name, harg⟩ := harg
        simp only [exprPieces, harg]
        cases leading with
        | true => rw [(Lower.expr_update_leading harg).1 h]; exact .last
        | false => rw [(Lower.expr_update_trailing harg).1 h]; exact .last
      · have hnil : (Node.mk mark (.update operator leading argument)).exprPieces s = [] := by
          simp only [exprPieces]
          split
          · rename_i name harg'
            exact absurd ⟨name, harg'⟩ harg
          · rfl
        rw [hnil]
        exact laid_skipped ((Lower.expr_update_inv h).resolve_right harg)
    | logical operator left right =>
      obtain ⟨a, ha, t, ht, b, hb, rfl⟩ := Lower.expr_logical.1 h
      have hs : _ = a.supply := after_eq (lower_expr ha)
      simp only [exprPieces, hs, ht, operand_eq ha, operand_eq hb]
      exact .part (lower_expr ha) (.emit (.emit (.emit (.part (lower_expr hb) .last))))
    | conditional test consequent alternate =>
      obtain ⟨a, ha, b, hb, d, hd, rfl⟩ := Lower.expr_conditional.1 h
      have hs : _ = a.supply := after_eq (lower_expr ha)
      have hs' : _ = b.supply := after_eq (lower_expr hb)
      simp only [exprPieces, hs, hs', operand_eq ha, operand_eq hb, operand_eq hd]
      exact .part (lower_expr ha) (.emit (.part (lower_expr hb) (.emit (.part (lower_expr hd) .last))))
    | call called arguments =>
      by_cases hc : (∃ method, Lower.callee called = .ok (.console method)) ∨
        ∃ f, Lower.callee called = .ok (.function f)
      · obtain ⟨method, hc⟩ | ⟨f, hc⟩ := hc
        · obtain ⟨as, has, rfl⟩ := (Lower.expr_print hc).1 h
          simp only [exprPieces, hc, operands_eq has]
          exact .part (lower_exprs has) .last
        · obtain ⟨as, has, rfl⟩ := (Lower.expr_call hc).1 h
          have hs : _ = as.supply := after_eq (lower_exprs has)
          simp only [exprPieces, hc, operands_eq has, hs]
          exact .part (lower_exprs has) .last
      · have hnil : (Node.mk mark (.call called arguments)).exprPieces s = [] := by
          simp only [exprPieces]
          split
          · rename_i method hc'
            exact absurd (.inl ⟨method, hc'⟩) hc
          · rename_i f hc'
            exact absurd (.inr ⟨f, hc'⟩) hc
          · rfl
        rw [hnil]
        exact laid_skipped ((Lower.expr_call_inv h).resolve_right hc)
    | sequence es =>
      obtain ⟨as, has, rfl⟩ := Lower.expr_sequence.1 h
      exact .single (lower_exprs has)
    | _ => exact laid_skipped (Lower.skipped_of_unsupported h)

theorem laid_warned {s : Supply} {r : Lowered Unit} (h : ∃ w, r = ⟨(), [], s.warned w⟩) : Laid [] r.code := by
  obtain ⟨w, rfl⟩ := h
  exact .nil

theorem initPart_of_ne {init : Node} (h : ∀ mark kind ds, init ≠ .mk mark (.declaration kind ds)) :
    init.initPart = .expr init := by
  unfold initPart
  split
  · exact absurd rfl (h _ _ _)
  · rfl

theorem lower_initPart {init : Node} {s : Supply} {r : Lowered Unit} (h : Lower.forInit init s = .ok r) :
    init.initPart.lower s = .ok r := by
  by_cases hd : ∃ mark kind ds, init = .mk mark (.declaration kind ds)
  · obtain ⟨mark, kind, ds, rfl⟩ := hd
    exact h
  · have hne : ∀ mark kind ds, init ≠ .mk mark (.declaration kind ds) := fun mark kind ds hi => hd ⟨mark, kind, ds, hi⟩
    obtain ⟨a, ha, rfl⟩ := (Lower.forInit_eq_ok hne).1 h
    rw [initPart_of_ne hne]
    exact lower_expr ha

theorem laid_forTest {test : Node} {exit : String} {s : Supply} {r : Lowered Unit}
    (h : Lower.forTest test exit s = .ok r) : ∃ a, Lower.expr test s = .ok a ∧
      r.code = a.code ++ (if test.isAbsent then [] else [Quad.jumpIfFalse a.value exit]) ∧ r.supply = a.supply := by
  rw [Lower.forTest_eq_ok] at h
  cases test with
  | absent =>
    simp only [isAbsent, if_true] at h ⊢
    rw [h]
    exact ⟨⟨void, [], s⟩, by rw [Lower.expr]; rfl, rfl, rfl⟩
  | _ =>
    simp only [isAbsent, Bool.false_eq_true, if_false] at h ⊢
    obtain ⟨a, ha, rfl⟩ := h
    exact ⟨a, ha, rfl, rfl⟩

theorem laid_stmt {loop : Option Loop} {n : Node} {s : Supply} {r : Lowered Unit} (h : Lower.stmt loop n s = .ok r) :
    Laid (n.stmtPieces loop s) r.code := by
  cases n with
  | absent => rw [Lower.stmt, Lower.pure_eq_ok] at h; rw [h]; exact .nil
  | fault f => rw [Lower.stmt] at h; cases h
  | mk mark form =>
    cases form with
    | program body => exact .single (w := .stmts loop none body) h
    | block body => exact .single (w := .stmts loop (some false) body) h
    | expression e =>
      obtain ⟨a, ha, rfl⟩ := Lower.stmt_expression.1 h
      exact .single (lower_expr ha)
    | declaration kind ds => exact .single (w := .declarators kind ds) h
    | function id params body =>
      obtain ⟨name, w, hname, ht, rfl⟩ | ⟨f, xs, b, hname, hf, hxs, hb, rfl⟩ := Lower.stmt_function_eq h
      · have hnil : (Node.mk mark (.function id params body)).stmtPieces loop s = [] := by
          simp only [stmtPieces, hname]
          split
          · rename_i f xs hf _
            cases hf
            exact if_pos (by simpa [Tree.truthy] using ht)
          · rfl
        rw [hnil]
        exact .nil
      · simp only [stmtPieces, hname, hxs, hf, if_false]
        exact .emit (.emit (.part (w := .body body) hb .last))
    | «if» test consequent alternate =>
      obtain ⟨a, ha, b, hb, d, hd, rfl⟩ := Lower.stmt_if.1 h
      have hs : _ = a.supply := after_eq (lower_expr ha)
      have hs' := after_eq (w := .stmt loop consequent) hb
      simp only [stmtPieces, hs, hs', operand_eq ha]
      exact .part (lower_expr ha) (.emit (.part hb (.emit (.part hd .last))))
    | «while» test body =>
      obtain ⟨a, ha, b, hb, rfl⟩ := Lower.stmt_while.1 h
      have hs : _ = a.supply := after_eq (lower_expr ha)
      simp only [stmtPieces, hs, operand_eq ha]
      exact .emit (.part (lower_expr ha) (.emit (.part hb .last)))
    | «for» init test update body =>
      obtain ⟨i, hi, t, ht, b, hb, u, hu, rfl⟩ := Lower.stmt_for.1 h
      have hs := after_eq (lower_initPart hi)
      obtain ⟨a, ha, htest, hs'⟩ := laid_forTest ht
      have hs₁ : _ = a.supply := after_eq (lower_expr ha)
      have hround := lower_round (hs' ▸ hb) hu
      simp only [stmtPieces, hs, hs₁, operand_eq ha, htest]
      refine Laid.cast (.part (lower_initPart hi) (.emit (.part (lower_expr ha) (.emit (.part hround .last))))) ?_
      simp [Lowered.forget]
    | «return» argument =>
      obtain ⟨a, ha, rfl⟩ := Lower.stmt_return.1 h
      simp only [stmtPieces, operand_eq ha]
      exact .part (lower_expr ha) .last
    | «break» labelled =>
      rcases loop with _ | l
      · exact laid_warned ⟨_, Lower.unsupported_eq_ok.1 h⟩
      · cases labelled with
        | false => rw [Lower.goto_eq_ok.1 h]; exact .last
        | true => exact laid_warned ⟨_, Lower.unsupported_eq_ok.1 h⟩
    | «continue» labelled =>
      rcases loop with _ | l
      · exact laid_warned ⟨_, Lower.unsupported_eq_ok.1 h⟩
      · cases labelled with
        | false => rw [Lower.goto_eq_ok.1 h]; exact .last
        | true => exact laid_warned ⟨_, Lower.unsupported_eq_ok.1 h⟩
    | empty => rw [Lower.stmt, Lower.pure_eq_ok] at h; rw [h]; exact .nil
    | _ => exact laid_warned ⟨_, Lower.unsupported_eq_ok.1 h⟩

end Node

theorem Declarator.laid {d : Declarator} {s : Supply} {r : Lowered Unit} (h : Lower.declarator d s = .ok r) :
    Part.Laid (d.pieces s) r.code := by
  cases d with
  | fault f => rw [Lower.declarator] at h; cases h
  | mk mark id given init =>
    by_cases hid : ∃ mark', id = .mk mark' .identifier
    · obtain ⟨mark', rfl⟩ := hid
      rw [Lower.declarator_identifier] at h
      split at h
      · rename_i hi
        rw [h]
        simp only [pieces, hi, if_true]
        split <;> exact .nil
      · rename_i hi
        obtain ⟨a, ha, name, hname, rfl⟩ := h
        simp only [pieces, hname, if_neg hi, Node.operand_eq ha]
        exact .part (Part.lower_expr ha) .last
    · have hnil : (Declarator.mk mark id given init).pieces s = [] := by
        unfold pieces
        split
        · rename_i mark' _ _ h'
          cases h'
          exact absurd ⟨_, rfl⟩ hid
        · rfl
      rw [hnil]
      exact Node.laid_warned ((Lower.declarator_inv h).resolve_right hid)

theorem Part.laid {w : Part} {s : Supply} {r : Lowered Unit} (h : w.lower s = .ok r) : Laid (w.pieces s) r.code := by
  cases w with
  | stmt loop n => exact Node.laid_stmt h
  | body n =>
    by_cases hblock : ∃ mark ns, n = .mk mark (.block ns)
    · obtain ⟨mark, ns, rfl⟩ := hblock
      exact .single (w := .stmts none (some false) ns) h
    · rw [pieces]
      · exact Node.laid_stmt h
      · exact fun mark ns hn => hblock ⟨mark, ns, hn⟩
  | stmts loop unreachable ns =>
    cases ns with
    | nil =>
      have h' : Lower.stmts loop [] s = .ok r := h
      rw [Lower.stmts_nil.1 h']
      exact .nil
    | cons n rest =>
      obtain ⟨a, ha, b, hb, rfl⟩ := Lower.stmts_cons.1 h
      rw [pieces, after_eq (w := .stmt loop n) ha]
      exact .part (w := .stmt loop n) ha (.single (w := .stmts _ _ rest) hb)
  | round loop n update =>
    obtain ⟨b, hb, h⟩ := except_bind_eq_ok h
    obtain ⟨u, hu, h⟩ := except_bind_eq_ok h
    cases h
    rw [pieces, after_eq (w := .stmt (some loop) n) hb]
    exact .part (w := .stmt (some loop) n) hb (.emit (.single (lower_expr hu)))
  | expr n =>
    obtain ⟨a, ha, rfl⟩ := map_forget_eq_ok h
    exact Node.laid_expr ha
  | exprs ns =>
    obtain ⟨as, has, rfl⟩ := map_forget_eq_ok h
    cases ns with
    | nil => rw [Lower.exprs_nil.1 has]; exact .nil
    | cons n rest =>
      obtain ⟨a, ha, b, hb, rfl⟩ := Lower.exprs_cons.1 has
      have hs : _ = a.supply := after_eq (lower_expr ha)
      rw [pieces, hs]
      exact .part (lower_expr ha) (.single (lower_exprs hb))
  | declarators kind ds =>
    cases ds with
    | nil => rw [Lower.declarators_nil.1 h]; exact .nil
    | cons d rest =>
      obtain ⟨a, ha, b, hb, rfl⟩ := Lower.declarators_cons.1 h
      rw [pieces, after_eq (w := .declarator kind d) ha]
      exact .part (w := .declarator kind d) ha (.single (w := .declarators kind rest) hb)
  | declarator kind d => exact Declarator.laid h

/-! ### Smaller parts -/

/-- A piece is smaller than the whole, and is walked with it. -/
def Piece.Inside (size : Nat) (events : List Event) : Piece → Prop
  | .code _ => True
  | .part _ es w _ => w.size < size ∧ es ++ w.events <+: events

namespace Piece

variable {size : Nat} {events es rest : List Event} {c : Code} {dead : Bool} {w : Part} {s : Supply} {pieces : List Piece}

theorem inside_nil : ∀ piece ∈ ([] : List Piece), piece.Inside size events := by simp

theorem inside_code (h : ∀ piece ∈ pieces, piece.Inside size events) :
    ∀ piece ∈ .code c :: pieces, piece.Inside size events := List.forall_mem_cons.2 ⟨trivial, h⟩

theorem inside_part (rest : List Event) (hsize : w.size < size) (hevents : events = es ++ (w.events ++ rest))
    (h : ∀ piece ∈ pieces, piece.Inside size events) :
    ∀ piece ∈ .part dead es w s :: pieces, piece.Inside size events :=
  List.forall_mem_cons.2 ⟨⟨hsize, rest, by rw [hevents, List.append_assoc]⟩, h⟩

end Piece

namespace Node

open Piece

variable {s : Supply}

theorem size_initPart (init : Node) : init.initPart.size ≤ sizeOf init := by
  unfold initPart
  split
  · simp only [Part.size, Node.mk.sizeOf_spec, Form.declaration.sizeOf_spec]
    omega
  · exact Nat.le_refl _

theorem events_initPart (init : Node) : init.initPart.events = init.events := by
  unfold initPart
  split
  · rw [Node.events]; rfl
  · rfl

theorem inside_expr (n : Node) : ∀ piece ∈ n.exprPieces s, piece.Inside (sizeOf n) n.events := by
  cases n with
  | mk mark form =>
    -- the events before a smaller part are those of the parts that are walked before it, in the order of the walk
    cases form with
    | assignment operator left right =>
      have hright : (Part.expr right).size < sizeOf (mk mark (.assignment operator left right)) := by
        simp only [Part.size, Node.mk.sizeOf_spec, Form.assignment.sizeOf_spec]
        omega
      simp only [exprPieces]
      split
      · split
        · exact inside_part _ hright (by rw [Node.events]; rfl) (inside_code inside_nil)
        · split
          · exact inside_part _ hright (by rw [Node.events]; rfl) (inside_code inside_nil)
          · exact inside_nil
      · exact inside_nil
    | binary operator left right =>
      simp only [exprPieces]
      split
      · rw [Node.events]
        refine inside_part _ ?_ rfl (inside_part [] ?_ (by rw [List.append_nil]; rfl) (inside_code inside_nil))
        all_goals
          simp only [Part.size, Node.mk.sizeOf_spec, Form.binary.sizeOf_spec]
          omega
      · exact inside_nil
    | unary operator argument =>
      have hsize : (Part.expr argument).size < sizeOf (mk mark (.unary operator argument)) := by
        simp only [Part.size, Node.mk.sizeOf_spec, Form.unary.sizeOf_spec]
        omega
      have hevents : (mk mark (.unary operator argument)).events = [] ++ ((Part.expr argument).events ++ []) := by
        rw [Node.events, List.append_nil]; rfl
      simp only [exprPieces]
      split
      · exact inside_part _ hsize hevents inside_nil
      · split
        · exact inside_part _ hsize hevents (inside_code inside_nil)
        · exact inside_nil
    | update operator leading argument =>
      simp only [exprPieces]
      split
      · split <;> exact inside_code inside_nil
      · exact inside_nil
    | logical operator left right =>
      simp only [exprPieces]
      split
      · rw [Node.events]
        refine inside_part _ ?_ rfl (inside_code (inside_code (inside_code (inside_part _ ?_ rfl
          (inside_code inside_nil)))))
        all_goals
          simp only [Part.size, Node.mk.sizeOf_spec, Form.logical.sizeOf_spec]
          omega
      · exact inside_nil
    | conditional test consequent alternate =>
      simp only [exprPieces, Node.events]
      refine inside_part _ ?_ rfl (inside_code (inside_part _ ?_ rfl (inside_code (inside_part _ ?_
        (List.append_assoc _ _ _).symm (inside_code inside_nil)))))
      all_goals
        simp only [Part.size, Node.mk.sizeOf_spec, Form.conditional.sizeOf_spec]
        omega
    | call called arguments =>
      have hsize : (Part.exprs arguments).size < sizeOf (mk mark (.call called arguments)) := by
        simp only [Part.size, Node.mk.sizeOf_spec, Form.call.sizeOf_spec]
        omega
      simp only [exprPieces]
      rw [Node.events]
      split
      · exact inside_part [] hsize (by rw [List.append_nil]; rfl) (inside_code inside_nil)
      · exact inside_part [] hsize (by rw [List.append_nil]; rfl) (inside_code inside_nil)
      · exact inside_nil
    | sequence es =>
      simp only [exprPieces]
      refine inside_part [] ?_ (by rw [Node.events, List.append_nil]; rfl) inside_nil
      simp only [Part.size, Node.mk.sizeOf_spec, Form.sequence.sizeOf_spec]
      omega
    | _ => exact inside_nil
  | _ => exact inside_nil

theorem inside_stmt (loop : Option Loop) (n : Node) :
    ∀ piece ∈ n.stmtPieces loop s, piece.Inside (sizeOf n) n.events := by
  cases n with
  | mk mark form =>
    cases form with
    | program body =>
      refine inside_part [] ?_ (by rw [Node.events, List.append_nil]; rfl) inside_nil
      simp only [Part.size, Node.mk.sizeOf_spec, Form.program.sizeOf_spec]
      omega
    | block body =>
      refine inside_part [.leave] ?_ (by rw [Node.events, List.append_assoc]; rfl) inside_nil
      simp only [Part.size, Node.mk.sizeOf_spec, Form.block.sizeOf_spec]
      omega
    | expression e =>
      refine inside_part [] ?_ (by rw [Node.events, List.append_nil]; rfl) inside_nil
      simp only [Part.size, Node.mk.sizeOf_spec, Form.expression.sizeOf_spec]
      omega
    | declaration kind ds =>
      refine inside_part [] ?_ (by rw [Node.events, List.append_nil]; rfl) inside_nil
      simp only [Part.size, Node.mk.sizeOf_spec, Form.declaration.sizeOf_spec]
      omega
    | function id params body =>
      simp only [stmtPieces]
      split
      · split
        · exact inside_nil
        · refine inside_code (inside_code (inside_part [.leave] ?_ ?_ (inside_code inside_nil)))
          · simp only [Part.size, Node.mk.sizeOf_spec, Form.function.sizeOf_spec]
            omega
          · rw [Node.events, List.append_assoc]; rfl
      · exact inside_nil
    | «if» test consequent alternate =>
      simp only [stmtPieces, Node.events]
      refine inside_part _ ?_ rfl (inside_code (inside_part _ ?_ (List.append_assoc _ _ _).symm (inside_code
        (inside_part [] ?_ ?_ (inside_code inside_nil)))))
      case refine_4 => simp [Part.events]
      all_goals
        simp only [Part.size, Node.mk.sizeOf_spec, Form.if.sizeOf_spec]
        omega
    | «while» test body =>
      simp only [stmtPieces, Node.events]
      refine inside_code (inside_part _ ?_ rfl (inside_code (inside_part [] ?_ ?_ (inside_code inside_nil))))
      case refine_3 => simp [Part.events]
      all_goals
        simp only [Part.size, Node.mk.sizeOf_spec, Form.while.sizeOf_spec]
        omega
    | «for» init test update body =>
      have hinit := size_initPart init
      have hevents := events_initPart init
      simp only [stmtPieces, Node.events]
      refine inside_part _ (Nat.lt_of_le_of_lt hinit ?_) (by rw [hevents, List.append_assoc]; rfl) (inside_code
        (inside_part _ ?_ (by simp [Part.events]; rfl) (inside_code (inside_part [.leave] ?_ (by simp [Part.events])
          (inside_code inside_nil)))))
      all_goals
        simp only [Part.size, Node.mk.sizeOf_spec, Form.for.sizeOf_spec]
        omega
    | «return» argument =>
      refine inside_part [] ?_ (by rw [Node.events, List.append_nil]; rfl) (inside_code inside_nil)
      simp only [Part.size, Node.mk.sizeOf_spec, Form.return.sizeOf_spec]
      omega
    | «break» labelled =>
      simp only [stmtPieces]
      split
      · exact inside_code inside_nil
      · exact inside_nil
    | «continue» labelled =>
      simp only [stmtPieces]
      split
      · exact inside_code inside_nil
      · exact inside_nil
    | _ => exact inside_nil
  | _ => exact inside_nil

end Node

open Piece in
theorem Declarator.inside (kind : DeclKind) (d : Declarator) {s : Supply} :
    ∀ piece ∈ d.pieces s, piece.Inside (sizeOf d) (d.events kind) := by
  unfold pieces
  split
  · split
    · split
      · exact inside_nil
      · rw [Declarator.events]
        refine inside_part _ ?_ rfl (inside_code inside_nil)
        simp only [Part.size, Declarator.mk.sizeOf_spec]
        omega
    · exact inside_nil
  · exact inside_nil

theorem Part.events_body_of_ne {n : Node} (h : ∀ mark ns, n ≠ .mk mark (.block ns)) :
    (Part.body n).events = n.events := by
  rw [events, Node.bodyEvents.eq_def]
  split
  · rw [Node.events]
  · exact absurd rfl (h _ _)
  · rfl

theorem Part.events_stmts_cons {loop : Option Loop} {unreachable : Option Bool} {n : Node} {rest : List Node} :
    (Part.stmts loop unreachable (n :: rest)).events = n.unreached unreachable ++ (n.events ++
      (Part.stmts loop (unreachable.map (· || n.isTerminator)) rest).events) := by
  cases unreachable with
  | none => exact Node.eventsAll.eq_2 n rest
  | some b => exact Node.eventsStatements.eq_2 b n rest

open Piece in
theorem Part.inside (w : Part) (s : Supply) : ∀ piece ∈ w.pieces s, piece.Inside w.size w.events := by
  cases w with
  | stmt loop n => exact n.inside_stmt loop
  | body n =>
    by_cases hblock : ∃ mark ns, n = .mk mark (.block ns)
    · obtain ⟨mark, ns, rfl⟩ := hblock
      refine inside_part [] ?_ (by rw [events, List.append_nil]; rfl) inside_nil
      simp only [size, Node.mk.sizeOf_spec, Form.block.sizeOf_spec]
      omega
    · have hne : ∀ mark ns, n ≠ .mk mark (.block ns) := fun mark ns hn => hblock ⟨mark, ns, hn⟩
      rw [pieces, events_body_of_ne hne]
      · exact n.inside_stmt none
      · exact hne
  | stmts loop unreachable ns =>
    cases ns with
    | nil => exact inside_nil
    | cons n rest =>
      rw [pieces, events_stmts_cons]
      refine inside_part _ ?_ rfl (inside_part [] ?_ (by rw [List.append_nil, List.append_assoc]) inside_nil)
      all_goals
        simp only [size, List.cons.sizeOf_spec]
        omega
  | round loop n update =>
    rw [pieces, events]
    refine inside_part [] ?_ (by rw [List.append_nil]; rfl) (inside_code (inside_part _ ?_ rfl inside_nil))
    all_goals
      simp only [size]
      omega
  | expr n => exact n.inside_expr
  | exprs ns =>
    cases ns with
    | nil => exact inside_nil
    | cons n rest =>
      simp only [pieces, events, Node.eventsAll]
      refine inside_part _ ?_ rfl (inside_part [] ?_ (by rw [List.append_nil]; rfl) inside_nil)
      all_goals
        simp only [size, List.cons.sizeOf_spec]
        omega
  | declarators kind ds =>
    cases ds with
    | nil => exact inside_nil
    | cons d rest =>
      simp only [pieces, events, Declarator.eventsAll]
      refine inside_part _ ?_ rfl (inside_part [] ?_ (by rw [List.append_nil]; rfl) inside_nil)
      all_goals
        simp only [size, List.cons.sizeOf_spec]
        omega
  | declarator kind d => exact d.inside kind

end QuadScript
