import QuadScript.Proofs.Emission

/-!
# Expressions and their evaluation

`Expr` is the syntax of expressions over variables of the program, and `Node.IsExpr` says which nodes are such
expressions. They are evaluated in two ways. `Expr.eval` fixes the value of every operand when the operand is
evaluated. `Expr.defer` lets an operand that is a variable or an assignment stand for its variable, which is
read when the operation that takes it is carried out. The two differ if a later operand writes to that
variable; where that does not happen (`Expr.settled`) they agree (`Expr.eval_eq_defer`).
-/

namespace QuadScript

/-! ### Variables -/

/-- The variables of a program. -/
abbrev Store := String → Option Value

namespace Store

def empty : Store := fun _ => none

def read (σ : Store) (x : String) : Value := (σ x).getD ((namedConstant? x).getD .undefined)

def set (σ : Store) (x : String) (v : Value) : Store := fun y => if y = x then some v else σ y

theorem set_of_ne {σ : Store} {x y : String} {v : Value} (h : y ≠ x) : σ.set x v y = σ y := if_neg h

@[simp] theorem set_self {σ : Store} {x : String} {v : Value} : σ.set x v x = some v := if_pos rfl

@[simp] theorem read_set_self {σ : Store} {x : String} {v : Value} : (σ.set x v).read x = v := by
  simp [read]

end Store

/-- What an operand stands for: a value, or a variable that is still to be read. -/
inductive Held
  | value (v : Value)
  | var (x : String)

def Held.var? : Held → Option String
  | .value _ => none
  | .var x => some x

def Store.look (σ : Store) : Held → Value
  | .value v => v
  | .var x => σ.read x

/-- What is held, with a variable read now. -/
def Held.fix (r : Held × Store) : Held × Store := (.value (r.2.look r.1), r.2)

theorem Store.look_congr {σ σ' : Store} {h : Held} (hx : ∀ x ∈ h.var?, σ' x = σ x) : σ'.look h = σ.look h := by
  cases h with
  | value v => rfl
  | var x => simp only [look, read, hx x rfl]

/-! ### Syntax -/

/-- The operators that evaluate their right operand only after some left values. -/
inductive Choice
  | and
  | or
  | nullish

namespace Choice

def word : Choice → String
  | .and => "&&"
  | .or => "||"
  | .nullish => "??"

/-- Whether the right operand is evaluated. -/
def takesRight : Choice → Value → Bool
  | .and, v => v.truthy
  | .or, v => !v.truthy
  | .nullish, v => v.isNullish

end Choice

inductive Expr
  | const (v : Value)
  | var (x : String)
  | assign (x : String) (e : Expr)
  /-- An assignment with an operator in it. -/
  | update (op : BinaryOp) (x : String) (e : Expr)
  | binary (op : BinaryOp) (a b : Expr)
  | unary (op : UnaryOp) (a : Expr)
  | void (a : Expr)
  | choice (c : Choice) (a b : Expr)
  | cond (test a b : Expr)
  | seq (es : List Expr)

/-- The value of a scalar. -/
def Tree.constant? : Tree → Option Value
  | .null => some .null
  | .bool b => some (.bool b)
  | .num n => some (.num n)
  | .str s => some (.str s)
  | _ => none

/-- A name that a program may assign to. -/
def isVariable (x : String) : Bool := isSourceName x && (namedConstant? x).isNone

mutual

/-- A node is that expression. -/
inductive Node.IsExpr : Node → Expr → Prop
  | literal {mark : Mark} {t : Tree} {v : Value} (h : t.constant? = some v) :
      Node.IsExpr (.mk mark (.literal false t)) (.const v)
  | template {mark : Mark} {s : String} {ns : List Node} :
      Node.IsExpr (.mk mark (.template (.ok s) ns)) (.const (.str s))
  | identifier {mark : Mark} {x : String} (hx : isSourceName x = true) (hm : mark.name = some (.str x)) :
      Node.IsExpr (.mk mark .identifier) (.var x)
  | assignment {mark mark' : Mark} {x : String} {n : Node} {e : Expr} (hx : isVariable x = true)
      (hm : mark'.name = some (.str x)) (h : Node.IsExpr n e) :
      Node.IsExpr (.mk mark (.assignment (.str "=") (.mk mark' .identifier) n)) (.assign x e)
  | compound {mark mark' : Mark} {t : Tree} {op : BinaryOp} {x : String} {n : Node} {e : Expr}
      (hx : isVariable x = true) (hm : mark'.name = some (.str x)) (hop : Lower.compoundOp? t = .ok (some op))
      (h : Node.IsExpr n e) : Node.IsExpr (.mk mark (.assignment t (.mk mark' .identifier) n)) (.update op x e)
  | binary {mark : Mark} {t : Tree} {op : BinaryOp} {n₁ n₂ : Node} {a b : Expr}
      (hop : Lower.binaryOp? t = .ok (some op)) (h₁ : Node.IsExpr n₁ a) (h₂ : Node.IsExpr n₂ b) :
      Node.IsExpr (.mk mark (.binary t n₁ n₂)) (.binary op a b)
  | unary {mark : Mark} {t : Tree} {op : UnaryOp} {n : Node} {a : Expr} (hop : Lower.unaryOp? t = .ok (some op))
      (h : Node.IsExpr n a) : Node.IsExpr (.mk mark (.unary t n)) (.unary op a)
  | void {mark : Mark} {n : Node} {a : Expr} (h : Node.IsExpr n a) :
      Node.IsExpr (.mk mark (.unary (.str "void") n)) (.void a)
  | logical {mark : Mark} {c : Choice} {n₁ n₂ : Node} {a b : Expr} (h₁ : Node.IsExpr n₁ a) (h₂ : Node.IsExpr n₂ b) :
      Node.IsExpr (.mk mark (.logical (.str c.word) n₁ n₂)) (.choice c a b)
  | conditional {mark : Mark} {n n₁ n₂ : Node} {t a b : Expr} (h : Node.IsExpr n t) (h₁ : Node.IsExpr n₁ a)
      (h₂ : Node.IsExpr n₂ b) : Node.IsExpr (.mk mark (.conditional n n₁ n₂)) (.cond t a b)
  | sequence {mark : Mark} {ns : List Node} {es : List Expr} (h : Node.AreExprs ns es) :
      Node.IsExpr (.mk mark (.sequence ns)) (.seq es)

inductive Node.AreExprs : List Node → List Expr → Prop
  | nil : Node.AreExprs [] []
  | cons {n : Node} {ns : List Node} {e : Expr} {es : List Expr} (h : Node.IsExpr n e) (hs : Node.AreExprs ns es) :
      Node.AreExprs (n :: ns) (e :: es)

end

/-! ### Evaluation -/

namespace Expr

mutual

/-- Evaluation from left to right; the value of an operand is fixed before the next is evaluated. -/
def eval : Expr → Store → Except Fault (Value × Store)
  | .const v, σ => .ok (v, σ)
  | .var x, σ => .ok (σ.read x, σ)
  | .assign x e, σ => do
    let r ← e.eval σ
    return (r.1, r.2.set x r.1)
  | .update op x e, σ => do
    let r ← e.eval σ
    let v ← op.eval (σ.read x) r.1
    return (v, r.2.set x v)
  | .binary op a b, σ => do
    let r ← a.eval σ
    let r' ← b.eval r.2
    let v ← op.eval r.1 r'.1
    return (v, r'.2)
  | .unary op a, σ => do
    let r ← a.eval σ
    let v ← op.eval r.1
    return (v, r.2)
  | .void a, σ => do
    let r ← a.eval σ
    return (.undefined, r.2)
  | .choice c a b, σ => do
    let r ← a.eval σ
    if c.takesRight r.1 then b.eval r.2 else return r
  | .cond t a b, σ => do
    let r ← t.eval σ
    if r.1.truthy then a.eval r.2 else b.eval r.2
  | .seq es, σ => evalLast es σ

/-- The value of the last of some expressions. -/
def evalLast : List Expr → Store → Except Fault (Value × Store)
  | [], σ => .ok (.undefined, σ)
  | [e], σ => e.eval σ
  | e :: es, σ => do
    let r ← e.eval σ
    evalLast es r.2

end

def evalAll : List Expr → Store → Except Fault (List Value × Store)
  | [], σ => .ok ([], σ)
  | e :: es, σ => do
    let r ← e.eval σ
    let rs ← evalAll es r.2
    return (r.1 :: rs.1, rs.2)

mutual

/-- Evaluation in which variables are read as late as the operation that takes them. -/
def defer : Expr → Store → Except Fault (Held × Store)
  | .const v, σ => .ok (.value v, σ)
  | .var x, σ => .ok (.var x, σ)
  | .assign x e, σ => do
    let r ← e.defer σ
    return (.var x, r.2.set x (r.2.look r.1))
  | .update op x e, σ => do
    let r ← e.defer σ
    let v ← op.eval (r.2.read x) (r.2.look r.1)
    return (.var x, r.2.set x v)
  | .binary op a b, σ => do
    let r ← a.defer σ
    let r' ← b.defer r.2
    let v ← op.eval (r'.2.look r.1) (r'.2.look r'.1)
    return (.value v, r'.2)
  | .unary op a, σ => do
    let r ← a.defer σ
    let v ← op.eval (r.2.look r.1)
    return (.value v, r.2)
  | .void a, σ => do
    let r ← a.defer σ
    return (.value .undefined, r.2)
  | .choice c a b, σ => do
    let r ← a.defer σ
    if c.takesRight (r.2.look r.1) then return Held.fix (← b.defer r.2) else return Held.fix r
  | .cond t a b, σ => do
    let r ← t.defer σ
    if (r.2.look r.1).truthy then return Held.fix (← a.defer r.2) else return Held.fix (← b.defer r.2)
  | .seq es, σ => do
    let r ← deferAll es σ
    return (r.1.getLast?.getD (.value .undefined), r.2)

def deferAll : List Expr → Store → Except Fault (List Held × Store)
  | [], σ => .ok ([], σ)
  | e :: es, σ => do
    let r ← e.defer σ
    let rs ← deferAll es r.2
    return (r.1 :: rs.1, rs.2)

end

/-! ### When the two agree -/

mutual

/-- The variables that an expression assigns. -/
def assigned : Expr → List String
  | .const _ => []
  | .var _ => []
  | .assign x e => x :: e.assigned
  | .update _ x e => x :: e.assigned
  | .binary _ a b => a.assigned ++ b.assigned
  | .unary _ a => a.assigned
  | .void a => a.assigned
  | .choice _ a b => a.assigned ++ b.assigned
  | .cond t a b => t.assigned ++ (a.assigned ++ b.assigned)
  | .seq es => assignedAll es

def assignedAll : List Expr → List String
  | [] => []
  | e :: es => e.assigned ++ assignedAll es

end

mutual

/-- The variable that an expression stands for. -/
def stands? : Expr → Option String
  | .var x => some x
  | .assign x _ => some x
  | .update _ x _ => some x
  | .seq es => standsLast? es
  | _ => none

def standsLast? : List Expr → Option String
  | [] => none
  | [e] => e.stands?
  | _ :: es => standsLast? es

end

mutual

/-- No operand stands for a variable that is assigned before the operation takes it. -/
def settled : Expr → Bool
  | .const _ => true
  | .var _ => true
  | .assign _ e => e.settled
  | .update _ x e => e.settled && !e.assigned.contains x
  | .binary _ a b => a.settled && b.settled && a.stands?.all fun x => !b.assigned.contains x
  | .unary _ a => a.settled
  | .void a => a.settled
  | .choice _ a b => a.settled && b.settled
  | .cond t a b => t.settled && a.settled && b.settled
  | .seq es => settledAll es

def settledAll : List Expr → Bool
  | [] => true
  | e :: es => e.settled && settledAll es

end

/-- The same of the arguments of a call, which are taken after all of them were evaluated. -/
def settledArgs : List Expr → Bool
  | [] => true
  | e :: es => e.settled && settledArgs es && e.stands?.all fun x => !(assignedAll es).contains x

variable {e : Expr} {es : List Expr} {σ : Store}

mutual

theorem defer_var? : ∀ {e : Expr} {σ : Store} {r : Held × Store}, e.defer σ = .ok r → r.1.var? = e.stands?
  | .const _, _, _, h => by cases h; rfl
  | .var _, _, _, h => by cases h; rfl
  | .assign _ _, _, _, h => by
    obtain ⟨_, -, h⟩ := except_bind_eq_ok h
    cases h; rfl
  | .update _ _ _, _, _, h => by
    obtain ⟨_, -, h⟩ := except_bind_eq_ok h
    obtain ⟨_, -, h⟩ := except_bind_eq_ok h
    cases h; rfl
  | .binary _ _ _, _, _, h => by
    obtain ⟨_, -, h⟩ := except_bind_eq_ok h
    obtain ⟨_, -, h⟩ := except_bind_eq_ok h
    obtain ⟨_, -, h⟩ := except_bind_eq_ok h
    cases h; rfl
  | .unary _ _, _, _, h => by
    obtain ⟨_, -, h⟩ := except_bind_eq_ok h
    obtain ⟨_, -, h⟩ := except_bind_eq_ok h
    cases h; rfl
  | .void _, _, _, h => by
    obtain ⟨_, -, h⟩ := except_bind_eq_ok h
    cases h; rfl
  | .choice _ _ _, _, _, h => by
    obtain ⟨_, -, h⟩ := except_bind_eq_ok h
    split at h
    · obtain ⟨_, -, h⟩ := except_bind_eq_ok h
      cases h; rfl
    · cases h; rfl
  | .cond _ _ _, _, _, h => by
    obtain ⟨_, -, h⟩ := except_bind_eq_ok h
    split at h <;> obtain ⟨_, -, h⟩ := except_bind_eq_ok h <;> cases h <;> rfl
  | .seq _, _, _, h => by
    obtain ⟨_, hs, h⟩ := except_bind_eq_ok h
    cases h; exact deferAll_var? hs

theorem deferAll_var? : ∀ {es : List Expr} {σ : Store} {rs : List Held × Store}, deferAll es σ = .ok rs →
    (rs.1.getLast?.getD (.value .undefined)).var? = standsLast? es
  | [], _, _, h => by cases h; rfl
  | [_], _, _, h => by
    obtain ⟨_, hr, h⟩ := except_bind_eq_ok h
    obtain ⟨_, hs, h⟩ := except_bind_eq_ok h
    cases hs; cases h
    exact defer_var? hr
  | _ :: e :: es, _, _, h => by
    obtain ⟨_, -, h⟩ := except_bind_eq_ok h
    obtain ⟨rs, hs, h⟩ := except_bind_eq_ok h
    have ih := deferAll_var? hs
    obtain ⟨_, -, hs⟩ := except_bind_eq_ok hs
    obtain ⟨_, -, hs⟩ := except_bind_eq_ok hs
    cases hs; cases h
    simpa [standsLast?] using ih

end

mutual

theorem defer_frame : ∀ (e : Expr) {σ : Store} {r : Held × Store} {x : String}, e.defer σ = .ok r →
    x ∉ e.assigned → r.2 x = σ x
  | .const _, _, _, _, h, _ => by cases h; rfl
  | .var _, _, _, _, h, _ => by cases h; rfl
  | .assign _ e, _, _, _, h, hx => by
    obtain ⟨hne, hx⟩ := not_or.1 (mt List.mem_cons.2 hx)
    obtain ⟨_, hr, h⟩ := except_bind_eq_ok h
    cases h
    exact (Store.set_of_ne hne).trans (defer_frame e hr hx)
  | .update _ _ e, _, _, _, h, hx => by
    obtain ⟨hne, hx⟩ := not_or.1 (mt List.mem_cons.2 hx)
    obtain ⟨_, hr, h⟩ := except_bind_eq_ok h
    obtain ⟨_, -, h⟩ := except_bind_eq_ok h
    cases h
    exact (Store.set_of_ne hne).trans (defer_frame e hr hx)
  | .binary _ a b, _, _, _, h, hx => by
    obtain ⟨hx, hx'⟩ := not_or.1 (mt List.mem_append.2 hx)
    obtain ⟨_, hr, h⟩ := except_bind_eq_ok h
    obtain ⟨_, hr', h⟩ := except_bind_eq_ok h
    obtain ⟨_, -, h⟩ := except_bind_eq_ok h
    cases h
    exact (defer_frame b hr' hx').trans (defer_frame a hr hx)
  | .unary _ a, _, _, _, h, hx => by
    obtain ⟨_, hr, h⟩ := except_bind_eq_ok h
    obtain ⟨_, -, h⟩ := except_bind_eq_ok h
    cases h; exact (defer_frame a hr hx :)
  | .void a, _, _, _, h, hx => by
    obtain ⟨_, hr, h⟩ := except_bind_eq_ok h
    cases h; exact (defer_frame a hr hx :)
  | .choice _ a b, _, _, _, h, hx => by
    obtain ⟨hx, hx'⟩ := not_or.1 (mt List.mem_append.2 hx)
    obtain ⟨_, hr, h⟩ := except_bind_eq_ok h
    split at h
    · obtain ⟨_, hr', h⟩ := except_bind_eq_ok h
      cases h
      exact (defer_frame b hr' hx').trans (defer_frame a hr hx)
    · cases h; exact (defer_frame a hr hx :)
  | .cond t a b, _, _, _, h, hx => by
    obtain ⟨hx, hx'⟩ := not_or.1 (mt List.mem_append.2 hx)
    obtain ⟨hx₁, hx₂⟩ := not_or.1 (mt List.mem_append.2 hx')
    obtain ⟨_, hr, h⟩ := except_bind_eq_ok h
    split at h <;> obtain ⟨_, hr', h⟩ := except_bind_eq_ok h <;> cases h
    · exact (defer_frame a hr' hx₁).trans (defer_frame t hr hx)
    · exact (defer_frame b hr' hx₂).trans (defer_frame t hr hx)
  | .seq es, _, _, _, h, hx => by
    obtain ⟨_, hs, h⟩ := except_bind_eq_ok h
    cases h; exact deferAll_frame es hs hx

theorem deferAll_frame : ∀ (es : List Expr) {σ : Store} {rs : List Held × Store} {x : String},
    deferAll es σ = .ok rs → x ∉ assignedAll es → rs.2 x = σ x
  | [], _, _, _, h, _ => by cases h; rfl
  | e :: es, _, _, _, h, hx => by
    obtain ⟨hx, hx'⟩ := not_or.1 (mt List.mem_append.2 hx)
    obtain ⟨_, hr, h⟩ := except_bind_eq_ok h
    obtain ⟨_, hs, h⟩ := except_bind_eq_ok h
    cases h
    exact (deferAll_frame es hs hx').trans (defer_frame e hr hx)

end

/-- An operand keeps its value while others are evaluated that do not assign what it stands for. -/
theorem look_of_defer {r : Held × Store} {σ' : Store} {xs : List String} (hr : e.defer σ = .ok r)
    (hx : (e.stands?.all fun x => !xs.contains x) = true) (hσ : ∀ x, x ∉ xs → σ' x = r.2 x) :
    σ'.look r.1 = r.2.look r.1 := by
  refine Store.look_congr fun x h => hσ x ?_
  rw [defer_var? hr] at h
  simpa [Option.mem_def.1 h] using hx

mutual

theorem eval_eq_defer : ∀ (e : Expr) (σ : Store), e.settled = true →
    e.eval σ = do let r ← e.defer σ; return (r.2.look r.1, r.2)
  | .const _, _, _ => rfl
  | .var _, _, _ => rfl
  | .assign x e, σ, h => by
    rw [eval, defer, eval_eq_defer e σ h]
    cases e.defer σ with
    | error f => rfl
    | ok r => simp [bind, Except.bind, pure, Except.pure, Store.look]
  | .update op x e, σ, h => by
    simp only [settled, Bool.and_eq_true] at h
    rw [eval, defer, eval_eq_defer e σ h.1]
    cases hr : e.defer σ with
    | error f => rfl
    | ok r =>
      have hx : r.2.read x = σ.read x := by
        simp only [Store.read, defer_frame e hr (by simpa using h.2)]
      simp only [bind, Except.bind, pure, Except.pure, hx]
      cases op.eval (σ.read x) (r.2.look r.1) with
      | error f => rfl
      | ok v => simp [Store.look]
  | .binary op a b, σ, h => by
    simp only [settled, Bool.and_eq_true] at h
    rw [eval, defer, eval_eq_defer a σ h.1.1]
    cases hr : a.defer σ with
    | error f => rfl
    | ok r =>
      simp only [bind, Except.bind, pure, Except.pure]
      rw [eval_eq_defer b r.2 h.1.2]
      cases hr' : b.defer r.2 with
      | error f => rfl
      | ok r' =>
        -- the right side of a settled expression assigns nothing that the left operand stands for
        have hl : r'.2.look r.1 = r.2.look r.1 := look_of_defer hr h.2 fun x hx => defer_frame b hr' hx
        simp only [bind, Except.bind, pure, Except.pure, hl]
        cases op.eval (r.2.look r.1) (r'.2.look r'.1) <;> rfl
  | .unary op a, σ, h => by
    rw [eval, defer, eval_eq_defer a σ h]
    cases a.defer σ with
    | error f => rfl
    | ok r =>
      simp only [bind, Except.bind, pure, Except.pure]
      cases op.eval (r.2.look r.1) <;> rfl
  | .void a, σ, h => by
    rw [eval, defer, eval_eq_defer a σ h]
    cases a.defer σ <;> rfl
  | .choice c a b, σ, h => by
    simp only [settled, Bool.and_eq_true] at h
    rw [eval, defer, eval_eq_defer a σ h.1]
    cases a.defer σ with
    | error f => rfl
    | ok r =>
      simp only [bind, Except.bind, pure, Except.pure]
      split
      · rw [eval_eq_defer b r.2 h.2]
        cases b.defer r.2 <;> rfl
      · rfl
  | .cond t a b, σ, h => by
    simp only [settled, Bool.and_eq_true] at h
    rw [eval, defer, eval_eq_defer t σ h.1.1]
    cases t.defer σ with
    | error f => rfl
    | ok r =>
      simp only [bind, Except.bind, pure, Except.pure]
      split
      · rw [eval_eq_defer a r.2 h.1.2]
        cases a.defer r.2 <;> rfl
      · rw [eval_eq_defer b r.2 h.2]
        cases b.defer r.2 <;> rfl
  | .seq es, σ, h => by
    rw [eval, defer, evalLast_eq_deferAll es σ h]
    cases deferAll es σ <;> rfl

theorem evalLast_eq_deferAll : ∀ (es : List Expr) (σ : Store), settledAll es = true →
    evalLast es σ = do
      let rs ← deferAll es σ
      return (rs.2.look (rs.1.getLast?.getD (.value .undefined)), rs.2)
  | [], _, _ => rfl
  | [e], σ, h => by
    simp only [settledAll, Bool.and_true] at h
    rw [evalLast, deferAll, eval_eq_defer e σ h]
    cases e.defer σ <;> rfl
  | e :: e' :: es, σ, h => by
    rw [settledAll, Bool.and_eq_true] at h
    rw [evalLast, deferAll, eval_eq_defer e σ h.1]
    · cases e.defer σ with
      | error f => rfl
      | ok r =>
        simp only [bind, Except.bind, pure, Except.pure]
        rw [evalLast_eq_deferAll (e' :: es) r.2 h.2]
        cases hs : deferAll (e' :: es) r.2 with
        | error f => rfl
        | ok rs =>
          obtain ⟨_, -, hs⟩ := except_bind_eq_ok hs
          obtain ⟨_, -, hs⟩ := except_bind_eq_ok hs
          cases hs; simp [bind, Except.bind, pure, Except.pure]
    · simp

end

theorem evalAll_eq_deferAll (σ : Store) (h : settledArgs es = true) :
    evalAll es σ = do let rs ← deferAll es σ; return (rs.1.map rs.2.look, rs.2) := by
  induction es generalizing σ with
  | nil => rfl
  | cons e es ih =>
    simp only [settledArgs, Bool.and_eq_true] at h
    rw [evalAll, deferAll, eval_eq_defer e σ h.1.1]
    cases hr : e.defer σ with
    | error f => rfl
    | ok r =>
      simp only [bind, Except.bind, pure, Except.pure]
      rw [ih r.2 h.1.2]
      cases hs : deferAll es r.2 with
      | error f => rfl
      | ok rs =>
        have hl : rs.2.look r.1 = r.2.look r.1 := look_of_defer hr h.2 fun x hx => deferAll_frame es hs hx
        simp [bind, Except.bind, pure, Except.pure, hl]

/-! ### Expressions without assignments -/

mutual

theorem settled_of_assigned : ∀ {e : Expr}, e.assigned = [] → e.settled = true
  | .const _, _ => rfl
  | .var _, _ => rfl
  | .binary _ a b, h => by
    obtain ⟨ha, hb⟩ := List.append_eq_nil_iff.1 h
    simp [settled, settled_of_assigned ha, settled_of_assigned hb, hb]
  | .unary _ a, h => settled_of_assigned (e := a) h
  | .void a, h => settled_of_assigned (e := a) h
  | .choice _ a b, h => by
    obtain ⟨ha, hb⟩ := List.append_eq_nil_iff.1 h
    simp [settled, settled_of_assigned ha, settled_of_assigned hb]
  | .cond t a b, h => by
    obtain ⟨ht, h⟩ := List.append_eq_nil_iff.1 h
    obtain ⟨ha, hb⟩ := List.append_eq_nil_iff.1 h
    simp [settled, settled_of_assigned ht, settled_of_assigned ha, settled_of_assigned hb]
  | .seq es, h => by
    have hes : assignedAll es = [] := h
    exact (settledAll_of_assigned hes).1

theorem settledAll_of_assigned : ∀ {es : List Expr}, assignedAll es = [] →
    settledAll es = true ∧ settledArgs es = true
  | [], _ => ⟨rfl, rfl⟩
  | e :: es, h => by
    obtain ⟨he, hs⟩ := List.append_eq_nil_iff.1 h
    have ih := settledAll_of_assigned hs
    simp [settledAll, settledArgs, settled_of_assigned he, ih, hs]

end

end Expr

end QuadScript
