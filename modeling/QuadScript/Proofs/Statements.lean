import QuadScript.Proofs.Expressions

/-!
# Structured programs and their execution

`Stmt` is the syntax of programs without functions: expressions evaluated for their effects, lines of the console,
branches and loops, with `break` and `continue`. `Stmt.exec` executes a program on one store; its first argument
bounds the number of rounds of each loop, so a program ends if it does under some bound. `Node.IsStmt` says which
nodes are such programs.
-/

namespace QuadScript

/-- The ways to print a line. -/
inductive Console
  | log
  | info
  | debug
  | warn
  | error

namespace Console

def method : Console → String
  | .log => "log"
  | .info => "info"
  | .debug => "debug"
  | .warn => "warn"
  | .error => "error"

/-- What a line starts with. -/
def lead : Console → String
  | .warn => "[WARN] "
  | .error => "[ERROR] "
  | _ => ""

theorem consoleLead?_method (c : Console) : consoleLead? (consoleMark ++ c.method) = some c.lead := by
  cases c <;> rfl

def line (c : Console) (vs : List Value) : String := c.lead ++ " ".intercalate (vs.map Value.toText)

end Console

inductive Stmt
  | skip
  | eval (e : Expr)
  | print (c : Console) (es : List Expr)
  | seq (a b : Stmt)
  | choose (test : Expr) (a b : Stmt)
  /-- A loop, with what comes between two rounds. A loop without a test is left by `break` only. -/
  | loop (test : Option Expr) (update body : Stmt)
  | break
  | continue

/-! ### Execution -/

/-- Where the execution of a statement goes on. -/
inductive Exit
  | normal
  | break
  | continue
deriving DecidableEq

/-- How a statement ended: the variables then, and the lines it printed. -/
structure Ending where
  exit : Exit
  store : Store
  lines : List String

namespace Ending

def normal (σ : Store) : Ending := ⟨.normal, σ, []⟩

def after (lines : List String) (x : Ending) : Ending := { x with lines := lines ++ x.lines }

end Ending

/-- The rounds of a loop, at most so many. -/
def iterate (test : Store → Option (Bool × Store)) (update body : Store → Option Ending) :
    Nat → Store → Option Ending
  | 0, _ => none
  | n + 1, σ => do
    let t ← test σ
    if t.1 then
      let x ← body t.2
      if x.exit = .break then return { x with exit := .normal }
      else
        let y ← update x.store
        return (← iterate test update body n y.store).after (x.lines ++ y.lines)
    else return .normal t.2

theorem exit_of_iterate {test : Store → Option (Bool × Store)} {update body : Store → Option Ending} {n : Nat}
    {σ : Store} {x : Ending} (h : iterate test update body n σ = some x) : x.exit = .normal := by
  induction n generalizing σ x with
  | zero => cases h
  | succ n ih =>
    obtain ⟨t, -, h⟩ := Option.bind_eq_some_iff.1 h
    split at h
    · obtain ⟨y, -, h⟩ := Option.bind_eq_some_iff.1 h
      split at h
      · cases h; rfl
      · obtain ⟨_, -, h⟩ := Option.bind_eq_some_iff.1 h
        obtain ⟨z, hz, h⟩ := Option.bind_eq_some_iff.1 h
        cases h; exact (ih hz :)
    · cases h; rfl

/-- Whether a loop goes on; without a test it does. -/
def Expr.holds? : Option Expr → Store → Option (Bool × Store)
  | none, σ => some (true, σ)
  | some t, σ => (t.eval σ).toOption.map fun r => (r.1.truthy, r.2)

/-- Executes a statement with at most so many rounds of each loop. There is no result if a loop needs more, or if
an operator fails. -/
def Stmt.exec (rounds : Nat) : Stmt → Store → Option Ending
  | .skip, σ => some (.normal σ)
  | .eval e, σ => (e.eval σ).toOption.map fun r => .normal r.2
  | .print c es, σ => (Expr.evalAll es σ).toOption.map fun r => ⟨.normal, r.2, [c.line r.1]⟩
  | .seq a b, σ => do
    let x ← a.exec rounds σ
    if x.exit = .normal then return (← b.exec rounds x.store).after x.lines else return x
  | .choose t a b, σ => do
    let r ← (t.eval σ).toOption
    if r.1.truthy then a.exec rounds r.2 else b.exec rounds r.2
  | .loop t u b, σ => iterate (Expr.holds? t) (u.exec rounds) (b.exec rounds) rounds σ
  | .break, σ => some ⟨.break, σ, []⟩
  | .continue, σ => some ⟨.continue, σ, []⟩

theorem holds?_eq_some {e : Expr} {σ : Store} {g : Bool × Store} :
    Expr.holds? (some e) σ = some g ↔ ∃ r, e.eval σ = .ok r ∧ g = (r.1.truthy, r.2) := by
  rw [Expr.holds?]
  cases e.eval σ <;> simp [Except.toOption, eq_comm]

theorem exec_eval_eq_some {rounds : Nat} {e : Expr} {σ : Store} {x : Ending} :
    (Stmt.eval e).exec rounds σ = some x ↔ ∃ r, e.eval σ = .ok r ∧ x = .normal r.2 := by
  rw [Stmt.exec]
  cases e.eval σ <;> simp [Except.toOption, eq_comm]

theorem exec_print_eq_some {rounds : Nat} {c : Console} {es : List Expr} {σ : Store} {x : Ending} :
    (Stmt.print c es).exec rounds σ = some x ↔
      ∃ r, Expr.evalAll es σ = .ok r ∧ x = ⟨.normal, r.2, [c.line r.1]⟩ := by
  rw [Stmt.exec]
  cases Expr.evalAll es σ <;> simp [Except.toOption, eq_comm]

theorem exec_choose_eq_some {rounds : Nat} {t : Expr} {a b : Stmt} {σ : Store} {x : Ending} :
    (Stmt.choose t a b).exec rounds σ = some x ↔
      ∃ r, t.eval σ = .ok r ∧ (if r.1.truthy then a else b).exec rounds r.2 = some x := by
  rw [Stmt.exec]
  cases t.eval σ with
  | error f => simp [Except.toOption]
  | ok r => cases h : r.1.truthy <;> simp [Except.toOption, h]

/-! ### Programs -/

/-- Declarators are that statement: a declarator without an initialiser does nothing. -/
inductive Declarator.AreDeclared : List Declarator → Stmt → Prop
  | nil : AreDeclared [] .skip
  | bare {mark mark' : Mark} {given : Bool} {ds : List Declarator} {p : Stmt} (h : AreDeclared ds p) :
      AreDeclared (.mk mark (.mk mark' .identifier) given .absent :: ds) p
  | cons {mark mark' : Mark} {given : Bool} {x : String} {n : Node} {e : Expr} {ds : List Declarator} {p : Stmt}
      (hx : isVariable x = true) (hm : mark'.name = some (.str x)) (hn : n.IsExpr e) (hs : e.settled = true)
      (h : AreDeclared ds p) :
      AreDeclared (.mk mark (.mk mark' .identifier) given n :: ds) (.seq (.eval (.assign x e)) p)

namespace Node

/-- An expression that is evaluated for its effects, or nothing. -/
inductive IsAction : Node → Stmt → Prop
  | absent : IsAction .absent .skip
  | expression {n : Node} {e : Expr} (h : n.IsExpr e) (hs : e.settled = true) : IsAction n (.eval e)

/-- What a loop with a counter starts with. -/
inductive IsInit : Node → Stmt → Prop
  | declaration {mark : Mark} {kind : DeclKind} {ds : List Declarator} {p : Stmt} (h : Declarator.AreDeclared ds p) :
      IsInit (.mk mark (.declaration kind ds)) p
  | action {n : Node} {p : Stmt} (h : n.IsAction p) : IsInit n p

inductive IsTest : Node → Option Expr → Prop
  | absent : IsTest .absent none
  | expression {n : Node} {e : Expr} (h : n.IsExpr e) (hs : e.settled = true) : IsTest n (some e)

mutual

/-- A node is that statement. The first argument says whether it stands inside of a loop. -/
inductive IsStmt : Bool → Node → Stmt → Prop
  | absent {b : Bool} : IsStmt b .absent .skip
  | empty {b : Bool} {mark : Mark} : IsStmt b (.mk mark .empty) .skip
  | program {b : Bool} {mark : Mark} {ns : List Node} {p : Stmt} (h : AreStmts b ns p) :
      IsStmt b (.mk mark (.program ns)) p
  | block {b : Bool} {mark : Mark} {ns : List Node} {p : Stmt} (h : AreStmts b ns p) :
      IsStmt b (.mk mark (.block ns)) p
  | expression {b : Bool} {mark : Mark} {n : Node} {e : Expr} (h : n.IsExpr e) (hs : e.settled = true) :
      IsStmt b (.mk mark (.expression n)) (.eval e)
  | print {b : Bool} {mark mark' : Mark} {n : Node} {ns : List Node} {es : List Expr} {c : Console}
      (hc : Lower.callee n = .ok (.console c.method)) (h : AreExprs ns es) (hs : Expr.settledArgs es = true) :
      IsStmt b (.mk mark (.expression (.mk mark' (.call n ns)))) (.print c es)
  | declaration {b : Bool} {mark : Mark} {kind : DeclKind} {ds : List Declarator} {p : Stmt}
      (h : Declarator.AreDeclared ds p) : IsStmt b (.mk mark (.declaration kind ds)) p
  | branch {b : Bool} {mark : Mark} {n n₁ n₂ : Node} {t : Expr} {p₁ p₂ : Stmt} (h : n.IsExpr t)
      (hs : t.settled = true) (h₁ : IsStmt b n₁ p₁) (h₂ : IsStmt b n₂ p₂) :
      IsStmt b (.mk mark (.if n n₁ n₂)) (.choose t p₁ p₂)
  | whileLoop {b : Bool} {mark : Mark} {n n₁ : Node} {t : Expr} {p : Stmt} (h : n.IsExpr t) (hs : t.settled = true)
      (h₁ : IsStmt true n₁ p) : IsStmt b (.mk mark (.while n n₁)) (.loop (some t) .skip p)
  | forLoop {b : Bool} {mark : Mark} {n₀ n n' n₁ : Node} {i u p : Stmt} {t : Option Expr} (h₀ : n₀.IsInit i)
      (h : n.IsTest t) (h' : n'.IsAction u) (h₁ : IsStmt true n₁ p) :
      IsStmt b (.mk mark (.for n₀ n n' n₁)) (.seq i (.loop t u p))
  | break {mark : Mark} : IsStmt true (.mk mark (.break false)) .break
  | continue {mark : Mark} : IsStmt true (.mk mark (.continue false)) .continue

inductive AreStmts : Bool → List Node → Stmt → Prop
  | nil {b : Bool} : AreStmts b [] .skip
  | cons {b : Bool} {n : Node} {ns : List Node} {p p' : Stmt} (h : IsStmt b n p) (hs : AreStmts b ns p') :
      AreStmts b (n :: ns) (.seq p p')

end

end Node

end QuadScript
