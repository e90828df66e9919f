import QuadScript.Proofs.Names
import QuadScript.Proofs.Renaming.Machine
import Mathlib.Logic.Equiv.Basic

/-!
# Renaming the variables of programs

A `Renaming` moves the variables of a program, one to one; a variable may be called what temporaries are called. In
code a variable has a mangled name, so a renaming also moves the names of code (`Renaming.mangled`), and leaves
generated names alone. `Node.renameStmt` and `Node.renameExpr` rename the variables of a program where code is made
from them: in declarations, parameters, expressions, and what assignments and updates write to. The names of functions
are not variables.
-/

namespace QuadScript

/-! ### Names -/

/-- A renaming of the variables of programs. The names that stand for constants keep their meaning. -/
structure Renaming where
  toFun : String → String
  source : ∀ x, isSourceName x = true → isSourceName (toFun x) = true
  injective : ∀ x y, isSourceName x = true → isSourceName y = true → toFun x = toFun y → x = y
  constant : ∀ x, (namedConstant? x).isSome = true → toFun x = x

/-- The variable that a name of the code stands for, if it stands for one. -/
def sourceOf? (s : String) : Option String :=
  let x := if s.toList.head? = some '@' then String.ofList s.toList.tail else s
  if isSourceName x && mangle x = s then some x else none

theorem sourceOf?_eq_some {s x : String} : sourceOf? s = some x ↔ isSourceName x = true ∧ mangle x = s := by
  constructor
  · intro h
    obtain ⟨hx, h⟩ := Option.ite_none_right_eq_some.1 h
    rw [Option.some.inj h] at hx
    simpa using hx
  · rintro ⟨hx, rfl⟩
    have hback :
        (if (mangle x).toList.head? = some '@' then String.ofList (mangle x).toList.tail else mangle x) = x := by
      by_cases ht : isTempName x = true
      · rw [if_pos (head_mangle_of_temp ht), mangle, if_pos ht]
        simp
      · rw [mangle, if_neg ht, if_neg fun hc => (isSourceName_head hx hc).1 rfl]
    unfold sourceOf?
    simp only [hback, hx, decide_true, Bool.and_self, if_true]

namespace Renaming

/-- What a renaming does to the names of the code. -/
def mangled (r : Renaming) (s : String) : String :=
  match sourceOf? s with
  | some x => mangle (r.toFun x)
  | none => s

variable {r : Renaming} {s x : String}

theorem mangled_mangle (hx : isSourceName x = true) : r.mangled (mangle x) = mangle (r.toFun x) := by
  unfold mangled
  rw [sourceOf?_eq_some.2 ⟨hx, rfl⟩]

theorem mangled_cases (r : Renaming) (s : String) :
    (∃ x, isSourceName x = true ∧ s = mangle x) ∨ sourceOf? s = none ∧ r.mangled s = s := by
  cases hs : sourceOf? s with
  | some x =>
    obtain ⟨hx, rfl⟩ := sourceOf?_eq_some.1 hs
    exact .inl ⟨x, hx, rfl⟩
  | none =>
    refine .inr ⟨rfl, ?_⟩
    unfold mangled
    rw [hs]

theorem namedConstant?_toFun (r : Renaming) (hx : isSourceName x = true) :
    namedConstant? (r.toFun x) = namedConstant? x := by
  cases hc : (namedConstant? x).isSome with
  | true => rw [r.constant x hc]
  | false =>
    cases hc' : (namedConstant? (r.toFun x)).isSome with
    | true =>
      have hfix := r.injective _ _ (r.source x hx) hx (r.constant _ hc')
      rw [hfix, hc] at hc'
      cases hc'
    | false => rw [Option.isSome_eq_false_iff, Option.isNone_iff_eq_none] at hc hc'; rw [hc, hc']

theorem mangled_constant (h : (namedConstant? s).isSome = true) : r.mangled s = s := by
  rcases r.mangled_cases s with ⟨x, hx, rfl⟩ | ⟨-, hs⟩
  · rw [namedConstant?_mangle] at h
    rw [mangled_mangle hx, r.constant x h]
  · exact hs

theorem mangled_joinName (k : Nat) : r.mangled (joinName k) = joinName k := by
  rcases r.mangled_cases (joinName k) with ⟨x, hx, hj⟩ | ⟨-, hs⟩
  · exact absurd hj.symm (mangle_ne_joinName hx k)
  · exact hs

theorem mangled_injective (r : Renaming) : r.mangled.Injective := by
  have hne : ∀ {x t}, isSourceName x = true → sourceOf? t = none → mangle (r.toFun x) ≠ t := by
    rintro x t hx ht rfl
    rw [sourceOf?_eq_some.2 ⟨r.source x hx, rfl⟩] at ht
    cases ht
  intro s t h
  rcases r.mangled_cases s with ⟨x, hx, rfl⟩ | ⟨hs, hs'⟩ <;> rcases r.mangled_cases t with ⟨y, hy, rfl⟩ | ⟨ht, ht'⟩
  · rw [mangled_mangle hx, mangled_mangle hy] at h
    rw [r.injective x y hx hy (mangle_injective (r.source x hx) (r.source y hy) h)]
  · rw [mangled_mangle hx, ht'] at h
    exact absurd h (hne hx ht)
  · rw [mangled_mangle hy, hs'] at h
    exact absurd h.symm (hne hy hs)
  · rwa [hs', ht'] at h

theorem nameMap (r : Renaming) : NameMap r.mangled where
  injective := r.mangled_injective
  temp s hs := by
    rcases r.mangled_cases s with ⟨x, hx, rfl⟩ | ⟨-, hs'⟩
    · rw [isTempName_mangle] at hs
      cases hs
    · exact hs'
  constant s := by
    rcases r.mangled_cases s with ⟨x, hx, rfl⟩ | ⟨-, hs⟩
    · rw [mangled_mangle hx, namedConstant?_mangle, namedConstant?_mangle, r.namedConstant?_toFun hx]
    · rw [hs]

/-- Two variables exchanged. -/
def swap (a b : String) (ha : isSourceName a = true) (hb : isSourceName b = true) (hca : namedConstant? a = none)
    (hcb : namedConstant? b = none) : Renaming where
  toFun := Equiv.swap a b
  source x hx := by
    rw [Equiv.swap_apply_def]
    split
    · exact hb
    · split
      · exact ha
      · exact hx
  injective x y _ _ h := (Equiv.swap a b).injective h
  constant x hx := by
    refine Equiv.swap_apply_of_ne_of_ne ?_ ?_
    · rintro rfl; rw [hca] at hx; cases hx
    · rintro rfl; rw [hcb] at hx; cases hx

end Renaming

/-! ### Programs -/

/-- The name that a tree is. -/
def Tree.names : Tree → List String
  | .str s => [s]
  | _ => []

def Mark.rename (r : String → String) (mark : Mark) : Mark := { mark with name := mark.name.map (Tree.rename r) }

def Param.rename (r : String → String) : Param → Param
  | .mk position name default => .mk position (name.map (Tree.rename r)) default
  | p => p

def Param.variables : Param → List String
  | .mk _ (.ok name) _ => name.names
  | _ => []

mutual

/-- A statement with its variables renamed, where code is made from them. -/
def Node.renameStmt (r : String → String) : Node → Node
  | .absent => .absent
  | .fault f => .fault f
  | .mk mark form =>
    match form with
    | .program body => .mk mark (.program (Node.renameStmts r body))
    | .block body => .mk mark (.block (Node.renameStmts r body))
    | .expression e => .mk mark (.expression (e.renameExpr r))
    | .declaration kind ds => .mk mark (.declaration kind (Declarator.renameList r ds))
    | .function id params body => .mk mark (.function id (params.map (Param.rename r)) (body.renameStmt r))
    | .if test consequent alternate =>
      .mk mark (.if (test.renameExpr r) (consequent.renameStmt r) (alternate.renameStmt r))
    | .while test body => .mk mark (.while (test.renameExpr r) (body.renameStmt r))
    | .for init test update body =>
      let init := match init with
        | .mk mark (.declaration kind ds) => .mk mark (.declaration kind (Declarator.renameList r ds))
        | _ => init.renameExpr r
      .mk mark (.for init (test.renameExpr r) (update.renameExpr r) (body.renameStmt r))
    | .return argument => .mk mark (.return (argument.renameExpr r))
    | _ => .mk mark form

def Node.renameStmts (r : String → String) : List Node → List Node
  | [] => []
  | n :: rest => n.renameStmt r :: Node.renameStmts r rest

def Declarator.renameList (r : String → String) : List Declarator → List Declarator
  | [] => []
  | d :: rest => d.rename r :: Declarator.renameList r rest

def Declarator.rename (r : String → String) : Declarator → Declarator
  | .fault f => .fault f
  | .mk mark id given init => .mk mark (id.renameExpr r) given (init.renameExpr r)

/-- An expression with its variables renamed. -/
def Node.renameExpr (r : String → String) : Node → Node
  | .absent => .absent
  | .fault f => .fault f
  | .mk mark form =>
    match form with
    | .identifier => .mk (mark.rename r) .identifier
    | .assignment operator left right => .mk mark (.assignment operator (left.renameExpr r) (right.renameExpr r))
    | .binary operator left right => .mk mark (.binary operator (left.renameExpr r) (right.renameExpr r))
    | .unary operator argument => .mk mark (.unary operator (argument.renameExpr r))
    | .update operator leading argument => .mk mark (.update operator leading (argument.renameExpr r))
    | .logical operator left right => .mk mark (.logical operator (left.renameExpr r) (right.renameExpr r))
    | .conditional test consequent alternate =>
      .mk mark (.conditional (test.renameExpr r) (consequent.renameExpr r) (alternate.renameExpr r))
    | .call callee arguments => .mk mark (.call callee (Node.renameExprs r arguments))
    | .sequence es => .mk mark (.sequence (Node.renameExprs r es))
    | _ => .mk mark form

def Node.renameExprs (r : String → String) : List Node → List Node
  | [] => []
  | n :: rest => n.renameExpr r :: Node.renameExprs r rest

end

mutual

/-- The variables of a statement, where code is made from them. -/
def Node.stmtVariables : Node → List String
  | .absent => []
  | .fault _ => []
  | .mk _ form =>
    match form with
    | .program body => Node.stmtsVariables body
    | .block body => Node.stmtsVariables body
    | .expression e => e.exprVariables
    | .declaration _ ds => Declarator.variablesList ds
    | .function _ params body => params.flatMap Param.variables ++ body.stmtVariables
    | .if test consequent alternate => test.exprVariables ++ (consequent.stmtVariables ++ alternate.stmtVariables)
    | .while test body => test.exprVariables ++ body.stmtVariables
    | .for init test update body =>
      let declared := match init with
        | .mk _ (.declaration _ ds) => Declarator.variablesList ds
        | _ => init.exprVariables
      declared ++ (test.exprVariables ++ (update.exprVariables ++ body.stmtVariables))
    | .return argument => argument.exprVariables
    | _ => []

def Node.stmtsVariables : List Node → List String
  | [] => []
  | n :: rest => n.stmtVariables ++ Node.stmtsVariables rest

def Declarator.variablesList : List Declarator → List String
  | [] => []
  | d :: rest => d.variables ++ Declarator.variablesList rest

def Declarator.variables : Declarator → List String
  | .fault _ => []
  | .mk _ id _ init => id.exprVariables ++ init.exprVariables

/-- The variables of an expression. -/
def Node.exprVariables : Node → List String
  | .absent => []
  | .fault _ => []
  | .mk mark form =>
    match form with
    | .identifier => mark.nameTree.names
    | .assignment _ left right => left.exprVariables ++ right.exprVariables
    | .binary _ left right => left.exprVariables ++ right.exprVariables
    | .unary _ argument => argument.exprVariables
    | .update _ _ argument => argument.exprVariables
    | .logical _ left right => left.exprVariables ++ right.exprVariables
    | .conditional test consequent alternate =>
      test.exprVariables ++ (consequent.exprVariables ++ alternate.exprVariables)
    | .call _ arguments => Node.exprsVariables arguments
    | .sequence es => Node.exprsVariables es
    | _ => []

def Node.exprsVariables : List Node → List String
  | [] => []
  | n :: rest => n.exprVariables ++ Node.exprsVariables rest

end

end QuadScript
