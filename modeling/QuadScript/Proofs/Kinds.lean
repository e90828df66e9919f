import QuadScript.Proofs.EvaluationOrder
import QuadScript.Proofs.Events
import QuadScript.Proofs.Exact

/-!
# Kinds and the values they describe

An analysis gives an expression a kind without running it. A kind describes a value if it is the value's type or is
not known (`Kind.Describes`). Every rule of the analysis keeps to this for the operator that it is about, whatever the
operands are (`BinaryOp.describes_eval`, `UnaryOp.describes_eval`, `Kind.exists_common`), so the kind of a closed
expression describes the value that its code computes (`Node.IsClosed.realizes_kind`).
-/

namespace QuadScript

/-! ### Closed expressions -/

/-- The operator in a source. The words of instructions are no operators of a source. -/
def BinaryOp.source : BinaryOp → String
  | .looseEq => "=="
  | .looseNe => "!="
  | .strictEq => "==="
  | .strictNe => "!=="
  | op => op.code

def UnaryOp.source : UnaryOp → String
  | .neg => "-"
  | .pos => "+"
  | .not => "!"
  | .bitNot => "~"
  | .typeOf => "typeof"

theorem BinaryOp.ofSource?_source (op : BinaryOp) : ofSource? op.source = some op := by
  cases op <;> decide

theorem UnaryOp.ofSource?_source (op : UnaryOp) : ofSource? op.source = some op := by
  cases op <;> rfl

/-- An expression without variables, with numbers of a class. What stands in a template is never evaluated. -/
inductive Node.IsClosed (N : Number → Prop) : Node → Prop
  | literal {mark : Mark} {t : Tree} (h : t.Scalar N) : IsClosed N (.mk mark (.literal false t))
  | template {mark : Mark} {s : String} {ns : List Node} : IsClosed N (.mk mark (.template (.ok s) ns))
  | unary {mark : Mark} {n : Node} (op : UnaryOp) (h : IsClosed N n) :
      IsClosed N (.mk mark (.unary (.str op.source) n))
  | void {mark : Mark} {n : Node} (h : IsClosed N n) : IsClosed N (.mk mark (.unary (.str "void") n))
  | binary {mark : Mark} {n₁ n₂ : Node} (op : BinaryOp) (h₁ : IsClosed N n₁) (h₂ : IsClosed N n₂) :
      IsClosed N (.mk mark (.binary (.str op.source) n₁ n₂))
  | logical {mark : Mark} {n₁ n₂ : Node} (c : Choice) (h₁ : IsClosed N n₁) (h₂ : IsClosed N n₂) :
      IsClosed N (.mk mark (.logical (.str c.word) n₁ n₂))
  | conditional {mark : Mark} {n n₁ n₂ : Node} (h : IsClosed N n) (h₁ : IsClosed N n₁) (h₂ : IsClosed N n₂) :
      IsClosed N (.mk mark (.conditional n n₁ n₂))
  | sequence {mark : Mark} {n : Node} {ns : List Node} (h : ∀ n' ∈ n :: ns, IsClosed N n') :
      IsClosed N (.mk mark (.sequence (n :: ns)))

/-! ### Kinds of values -/

/-- The value is of that kind, unless the kind is not known. -/
def Kind.Describes (k : Kind) (v : Value) : Prop := k ≠ .unknown → v.typeName = k.word

namespace Value

variable {v : Value}

theorem typeName_eq_number (h : v.typeName = "number") : ∃ n, v = .num n := by
  cases v with
  | num n => exact ⟨n, rfl⟩
  | _ => simp [typeName] at h

theorem typeName_eq_string (h : v.typeName = "string") : ∃ s, v = .str s := by
  cases v with
  | str s => exact ⟨s, rfl⟩
  | _ => simp [typeName] at h

end Value

namespace Kind

variable {k l : Kind} {a b v : Value}

theorem describes_unknown : Kind.unknown.Describes v := fun h => absurd rfl h

theorem describes_literal {t : Tree} (h : t.constant? = some v) : (literalKind t).Describes v := by
  cases t <;> cases h <;> exact fun _ => rfl

theorem exists_common (k l : Kind) :
    ∃ m, Analyze.commonKind (some k) (some l) = some m ∧ ∀ v, k.Describes v ∨ l.Describes v → m.Describes v := by
  unfold Analyze.commonKind
  by_cases hkl : some k = some l
  · cases hkl
    exact ⟨k, if_pos rfl, fun v hv => hv.elim id id⟩
  · exact ⟨.unknown, if_neg hkl, fun v _ => describes_unknown⟩

end Kind

namespace BinaryOp

open Analyze

variable {k l : Kind} {a b v : Value}

theorem describes_number {s : String} (hcompare : comparisonOps.contains s = false) (hadd : s ≠ "+")
    (k l : Option Kind) (n : Number) : (binaryKind (.str s) k l).Describes (.num n) := by
  have hplus : (Tree.str s).isText "+" = false := by simpa [Tree.isText] using hadd
  simp only [binaryKind, Tree.isOneOf, hcompare, hplus, Bool.false_and, Bool.false_eq_true, if_false]
  split_ifs
  · exact fun _ => rfl
  · exact fun _ => rfl
  · exact Kind.describes_unknown

theorem describes_add (ha : k.Describes a) (hb : l.Describes b) (hv : evalAdd a b = .ok v) :
    (binaryKind (.str "+") (some k) (some l)).Describes v := by
  have hkind : binaryKind (.str "+") (some k) (some l) =
      if k = .number ∧ l = .number then .number else if k = .string ∨ l = .string then .string else .unknown := by
    simp [binaryKind, Tree.isOneOf, Tree.isText, comparisonOps, bitwiseOps]
  rw [hkind]
  split_ifs with hnumber hstring
  · obtain ⟨rfl, rfl⟩ := hnumber
    obtain ⟨m, rfl⟩ := Value.typeName_eq_number (ha (by decide))
    obtain ⟨n, rfl⟩ := Value.typeName_eq_number (hb (by decide))
    obtain ⟨r, -, hv⟩ := except_bind_eq_ok hv
    cases hv
    exact fun _ => rfl
  · -- a text on either side makes the sum a text
    rcases hstring with rfl | rfl
    · obtain ⟨s, rfl⟩ := Value.typeName_eq_string (ha (by decide))
      cases hv
      exact fun _ => rfl
    · obtain ⟨t, rfl⟩ := Value.typeName_eq_string (hb (by decide))
      cases a <;> cases hv <;> exact fun _ => rfl
  · exact Kind.describes_unknown

/-- The rule for binary expressions is right about every operator. -/
theorem describes_eval {op : BinaryOp} (ha : k.Describes a) (hb : l.Describes b) (hv : op.eval a b = .ok v) :
    (binaryKind (.str op.source) (some k) (some l)).Describes v := by
  cases op with
  | add => exact describes_add ha hb hv
  | sub | mul | div | rem | pow =>
    obtain ⟨n, -, hv⟩ := except_bind_eq_ok hv
    cases hv
    exact describes_number (by decide) (by decide) _ _ _
  | bitAnd | bitOr | bitXor | shiftLeft | shiftRight | shiftRightZero =>
    obtain ⟨m, -, hv⟩ := except_bind_eq_ok hv
    obtain ⟨n, -, hv⟩ := except_bind_eq_ok hv
    cases hv
    exact describes_number (by decide) (by decide) _ _ _
  | _ =>
    cases hv
    exact fun _ => rfl

end BinaryOp

namespace UnaryOp

open Analyze

variable {a v : Value} {op : UnaryOp}

/-- The kind of the values of an operator. -/
def kind : UnaryOp → Kind
  | .not => .boolean
  | .typeOf => .string
  | _ => .number

theorem describes_eval (hv : op.eval a = .ok v) : op.kind.Describes v := by
  cases op with
  | bitNot =>
    obtain ⟨m, -, hv⟩ := except_bind_eq_ok hv
    cases hv
    exact fun _ => rfl
  | _ =>
    cases hv
    exact fun _ => rfl

end UnaryOp

/-! ### The walk -/

namespace Analyze

variable {σ τ : AnalysisState} {mark : Mark} {k : Option Kind} {t : Tree} {n n₁ n₂ : Node}

theorem visit_unary (h : visit (.mk mark (.unary t n)) σ = .ok (k, τ)) : ∃ a σ₁ l σ₂,
    visit n σ = .ok (a, σ₁) ∧ unaryKind t n mark.place σ₁ = .ok (l, σ₂) ∧
      record mark (some l) σ₂ = .ok (k, τ) := by
  rw [visit] at h
  obtain ⟨a, σ₁, ha, h⟩ := bind_eq_ok h
  obtain ⟨l, σ₂, hl, h⟩ := bind_eq_ok h
  exact ⟨a, σ₁, l, σ₂, ha, hl, h⟩

theorem visit_binary (h : visit (.mk mark (.binary t n₁ n₂)) σ = .ok (k, τ)) : ∃ a σ₁ b σ₂,
    visit n₁ σ = .ok (a, σ₁) ∧ visit n₂ σ₁ = .ok (b, σ₂) ∧
      record mark (some (binaryKind t a b)) σ₂ = .ok (k, τ) := by
  rw [visit] at h
  obtain ⟨a, σ₁, ha, h⟩ := bind_eq_ok h
  obtain ⟨b, σ₂, hb, h⟩ := bind_eq_ok h
  exact ⟨a, σ₁, b, σ₂, ha, hb, h⟩

theorem visit_logical (h : visit (.mk mark (.logical t n₁ n₂)) σ = .ok (k, τ)) : ∃ a σ₁ b σ₂ σ₃,
    visit n₁ σ = .ok (a, σ₁) ∧ visit n₂ σ₁ = .ok (b, σ₂) ∧ record mark (commonKind a b) σ₃ = .ok (k, τ) := by
  rw [visit] at h
  obtain ⟨a, σ₁, ha, h⟩ := bind_eq_ok h
  obtain ⟨b, σ₂, hb, h⟩ := bind_eq_ok h
  refine ⟨a, σ₁, b, σ₂, ?_⟩
  dsimp only at h
  split_ifs at h
  · obtain ⟨_, σ₃, -, h⟩ := bind_eq_ok h
    exact ⟨σ₃, ha, hb, h⟩
  · obtain ⟨_, σ₃, -, h⟩ := bind_eq_ok h
    exact ⟨σ₃, ha, hb, h⟩
  · exact ⟨σ₂, ha, hb, h⟩

theorem visit_conditional (h : visit (.mk mark (.conditional n n₁ n₂)) σ = .ok (k, τ)) : ∃ σ₁ a σ₂ b σ₃ σ₄,
    visit n₁ σ₁ = .ok (a, σ₂) ∧ visit n₂ σ₂ = .ok (b, σ₃) ∧ record mark (commonKind a b) σ₄ = .ok (k, τ) := by
  rw [visit] at h
  obtain ⟨_, σ₁, -, h⟩ := bind_eq_ok h
  obtain ⟨a, σ₂, ha, h⟩ := bind_eq_ok h
  obtain ⟨b, σ₃, hb, h⟩ := bind_eq_ok h
  refine ⟨σ₁, a, σ₂, b, σ₃, ?_⟩
  dsimp only at h
  split_ifs at h
  · obtain ⟨_, σ₄, -, h⟩ := bind_eq_ok h
    exact ⟨σ₄, ha, hb, h⟩
  · obtain ⟨_, σ₄, -, h⟩ := bind_eq_ok h
    exact ⟨σ₄, ha, hb, h⟩
  · exact ⟨σ₃, ha, hb, h⟩

theorem visit_sequence {ns : List Node} (h : visit (.mk mark (.sequence ns)) σ = .ok (k, τ)) :
    ∃ a ρ, visitLast none ns σ = .ok (a, ρ) ∧ record mark a ρ = .ok (k, τ) := by
  rw [visit] at h
  exact bind_eq_ok h

theorem unaryKind_eq_ok {op : UnaryOp} {place : Except Fault Place} {l : Kind}
    (h : unaryKind (.str op.source) n place σ = .ok (l, τ)) : l = op.kind := by
  cases op with
  | not =>
    have hnot : unaryKind (.str UnaryOp.not.source) n place =
        if isNegation n then do
          warning "Double negation (!!), consider using Boolean() instead" place
          return .boolean
        else return .boolean := rfl
    rw [hnot] at h
    split_ifs at h
    · obtain ⟨_, _, -, h⟩ := bind_eq_ok h
      cases h
      rfl
    · cases h
      rfl
  | typeOf =>
    cases h
    rfl
  | neg | pos | bitNot =>
    obtain ⟨_, _, -, h⟩ := bind_eq_ok h
    cases h
    rfl

end Analyze

/-! ### Values of closed expressions -/

/-- The way to a node. -/
def Node.path : Node → String
  | .mk mark _ => mark.path
  | _ => ""

/-- An expression of that value, whatever the variables are. Its walk ends with the note of a kind that describes the
value. -/
structure Node.Described (N : Number → Prop) (n : Node) (v : Value) : Prop where
  expr : ∃ e, n.IsExpr e ∧ e.assigned = [] ∧ ∀ σ, e.eval σ = .ok (v, σ)
  within : v.Within N
  kind {σ τ : AnalysisState} {k : Option Kind} (h : Analyze.visit n σ = .ok (k, τ)) :
    ∃ l, k = some l ∧ τ.kinds.getLast? = some (n.path, l) ∧ l.Describes v

namespace Node.Described

open Analyze

variable {N : Number → Prop} {mark : Mark} {n n₁ n₂ : Node} {v v₁ v₂ : Value}

theorem record {σ τ : AnalysisState} {k : Option Kind} {l : Kind} (h : record mark (some l) σ = .ok (k, τ))
    (hl : l.Describes v) : ∃ l, k = some l ∧ τ.kinds.getLast? = some (mark.path, l) ∧ l.Describes v := by
  cases h
  exact ⟨l, rfl, List.getLast?_concat, hl⟩

theorem literal {t : Tree} (h : t.Scalar N) : ∃ v, (Node.mk mark (.literal false t)).Described N v := by
  have hconstant : ∃ v, t.constant? = some v ∧ v.Within N := by
    cases t with
    | null | bool | str => exact ⟨_, rfl, trivial⟩
    | num n => exact ⟨_, rfl, h⟩
    | _ => cases h
  obtain ⟨v, hv, hN⟩ := hconstant
  refine ⟨v, ⟨_, .literal hv, rfl, fun _ => rfl⟩, hN, fun hvisit => ?_⟩
  rw [visit] at hvisit
  exact record hvisit (Kind.describes_literal hv)

theorem template {s : String} {ns : List Node} : (Node.mk mark (.template (.ok s) ns)).Described N (.str s) := by
  refine ⟨⟨_, .template, rfl, fun _ => rfl⟩, trivial, fun hvisit => ?_⟩
  rw [visit] at hvisit
  obtain ⟨_, _, -, hvisit⟩ := bind_eq_ok hvisit
  exact record hvisit fun _ => rfl

theorem unary (hN : Number.Closed N) (op : UnaryOp) (h : n.Described N v) :
    ∃ w, (Node.mk mark (.unary (.str op.source) n)).Described N w := by
  obtain ⟨w, hw, hwN⟩ := op.eval_within hN h.within
  obtain ⟨e, he, hassigned, heval⟩ := h.expr
  have hop : Lower.unaryOp? (.str op.source) = .ok (some op) := congrArg Except.ok op.ofSource?_source
  refine ⟨w, ⟨.unary op e, .unary hop he, hassigned, fun σ => ?_⟩, hwN, fun hvisit => ?_⟩
  · simp [Expr.eval, heval, hw, bind, Except.bind, pure, Except.pure]
  · obtain ⟨_, _, l, _, -, hl, hrecord⟩ := visit_unary hvisit
    rw [unaryKind_eq_ok hl] at hrecord
    exact record hrecord (UnaryOp.describes_eval hw)

theorem void (h : n.Described N v) : (Node.mk mark (.unary (.str "void") n)).Described N .undefined := by
  obtain ⟨e, he, hassigned, heval⟩ := h.expr
  refine ⟨⟨.void e, .void he, hassigned, fun σ => ?_⟩, trivial, fun hvisit => ?_⟩
  · rw [Expr.eval, heval]
    rfl
  · obtain ⟨_, _, l, _, -, hl, hrecord⟩ := visit_unary hvisit
    cases hl
    exact record hrecord fun _ => rfl

theorem binary (hN : Number.Closed N) (op : BinaryOp) (h₁ : n₁.Described N v₁) (h₂ : n₂.Described N v₂) :
    ∃ w, (Node.mk mark (.binary (.str op.source) n₁ n₂)).Described N w := by
  obtain ⟨w, hw, hwN⟩ := op.eval_within hN h₁.within h₂.within
  obtain ⟨a, ha, hassigned₁, heval₁⟩ := h₁.expr
  obtain ⟨b, hb, hassigned₂, heval₂⟩ := h₂.expr
  have hop : Lower.binaryOp? (.str op.source) = .ok (some op) := congrArg Except.ok op.ofSource?_source
  refine ⟨w, ⟨.binary op a b, .binary hop ha hb, ?_, fun σ => ?_⟩, hwN, fun hvisit => ?_⟩
  · rw [Expr.assigned, hassigned₁, hassigned₂, List.append_nil]
  · simp [Expr.eval, heval₁, heval₂, hw, bind, Except.bind, pure, Except.pure]
  · obtain ⟨_, _, _, _, hl₁, hl₂, hrecord⟩ := visit_binary hvisit
    obtain ⟨l₁, rfl, -, hd₁⟩ := h₁.kind hl₁
    obtain ⟨l₂, rfl, -, hd₂⟩ := h₂.kind hl₂
    exact record hrecord (BinaryOp.describes_eval hd₁ hd₂ hw)

theorem record_common {σ τ σ₁ τ₁ σ₂ τ₂ : AnalysisState} {k k₁ k₂ : Option Kind} (h₁ : n₁.Described N v₁)
    (h₂ : n₂.Described N v₂) (hk₁ : visit n₁ σ₁ = .ok (k₁, τ₁)) (hk₂ : visit n₂ σ₂ = .ok (k₂, τ₂))
    (h : Analyze.record mark (commonKind k₁ k₂) σ = .ok (k, τ)) (hv : v = v₁ ∨ v = v₂) :
    ∃ l, k = some l ∧ τ.kinds.getLast? = some (mark.path, l) ∧ l.Describes v := by
  obtain ⟨l₁, rfl, -, hd₁⟩ := h₁.kind hk₁
  obtain ⟨l₂, rfl, -, hd₂⟩ := h₂.kind hk₂
  obtain ⟨l, hl, hd⟩ := Kind.exists_common l₁ l₂
  rw [hl] at h
  refine record h (hd v ?_)
  rcases hv with rfl | rfl
  · exact .inl hd₁
  · exact .inr hd₂

theorem logical (c : Choice) (h₁ : n₁.Described N v₁) (h₂ : n₂.Described N v₂) :
    (Node.mk mark (.logical (.str c.word) n₁ n₂)).Described N (if c.takesRight v₁ then v₂ else v₁) := by
  obtain ⟨a, ha, hassigned₁, heval₁⟩ := h₁.expr
  obtain ⟨b, hb, hassigned₂, heval₂⟩ := h₂.expr
  refine ⟨⟨.choice c a b, .logical ha hb, ?_, fun σ => ?_⟩, ?_, fun hvisit => ?_⟩
  · rw [Expr.assigned, hassigned₁, hassigned₂, List.append_nil]
  · simp only [Expr.eval, heval₁, heval₂, bind, Except.bind, pure, Except.pure]
    split <;> rfl
  · split
    · exact h₂.within
    · exact h₁.within
  · obtain ⟨_, _, _, _, _, hl₁, hl₂, hrecord⟩ := visit_logical hvisit
    refine record_common h₁ h₂ hl₁ hl₂ hrecord ?_
    split
    · exact .inr rfl
    · exact .inl rfl

theorem conditional (h : n.Described N v) (h₁ : n₁.Described N v₁) (h₂ : n₂.Described N v₂) :
    (Node.mk mark (.conditional n n₁ n₂)).Described N (if v.truthy then v₁ else v₂) := by
  obtain ⟨t, ht, hassigned, heval⟩ := h.expr
  obtain ⟨a, ha, hassigned₁, heval₁⟩ := h₁.expr
  obtain ⟨b, hb, hassigned₂, heval₂⟩ := h₂.expr
  refine ⟨⟨.cond t a b, .conditional ht ha hb, ?_, fun σ => ?_⟩, ?_, fun hvisit => ?_⟩
  · rw [Expr.assigned, hassigned, hassigned₁, hassigned₂, List.append_nil, List.append_nil]
  · simp only [Expr.eval, heval, heval₁, heval₂, bind, Except.bind]
    split <;> rfl
  · split
    · exact h₁.within
    · exact h₂.within
  · obtain ⟨_, _, _, _, _, _, hl₁, hl₂, hrecord⟩ := visit_conditional hvisit
    refine record_common h₁ h₂ hl₁ hl₂ hrecord ?_
    split
    · exact .inl rfl
    · exact .inr rfl

theorem last {ns : List Node} (h : ∀ n' ∈ n :: ns, ∃ v, n'.Described N v) : ∃ es v,
    Node.AreExprs (n :: ns) es ∧ Expr.assignedAll es = [] ∧ (∀ σ, Expr.evalLast es σ = .ok (v, σ)) ∧ v.Within N ∧
      ∀ {last k : Option Kind} {σ τ : AnalysisState}, visitLast last (n :: ns) σ = .ok (k, τ) →
        ∃ l, k = some l ∧ l.Describes v := by
  induction ns generalizing n with
  | nil =>
    obtain ⟨v, hv⟩ := h n List.mem_cons_self
    obtain ⟨e, he, hassigned, heval⟩ := hv.expr
    refine ⟨[e], v, .cons he .nil, ?_, heval, hv.within, fun hvisit => ?_⟩
    · rw [Expr.assignedAll, hassigned]
      rfl
    · rw [visitLast] at hvisit
      obtain ⟨a, _, ha, hvisit⟩ := bind_eq_ok hvisit
      cases hvisit
      obtain ⟨l, hl, -, hd⟩ := hv.kind ha
      exact ⟨l, hl, hd⟩
  | cons n' ns ih =>
    obtain ⟨_, hv⟩ := h n List.mem_cons_self
    obtain ⟨e, he, hassigned, heval⟩ := hv.expr
    obtain ⟨es, v, hes, hassigneds, hevals, hN, hkind⟩ := ih fun m hm => h m (List.mem_cons_of_mem n hm)
    refine ⟨e :: es, v, .cons he hes, ?_, fun σ => ?_, hN, fun hvisit => ?_⟩
    · rw [Expr.assignedAll, hassigned, hassigneds]
      rfl
    · cases hes with
      | cons =>
        simp only [Expr.evalLast, heval, bind, Except.bind]
        exact hevals σ
    · rw [visitLast] at hvisit
      obtain ⟨_, _, -, hvisit⟩ := bind_eq_ok hvisit
      exact hkind hvisit

theorem sequence {ns : List Node} (h : ∀ n' ∈ n :: ns, ∃ v, n'.Described N v) :
    ∃ v, (Node.mk mark (.sequence (n :: ns))).Described N v := by
  obtain ⟨es, v, hes, hassigned, heval, hN, hkind⟩ := last h
  refine ⟨v, ⟨.seq es, .sequence hes, hassigned, fun σ => ?_⟩, hN, fun hvisit => ?_⟩
  · rw [Expr.eval, heval]
  · obtain ⟨a, ρ, ha, hrecord⟩ := visit_sequence hvisit
    obtain ⟨l, rfl, hd⟩ := hkind ha
    exact record hrecord hd

theorem realizes_start (h : n.Described N v) (s : Supply) (answers : Answers) :
    ∃ r, Lower.expr n s = .ok r ∧ (Machine.start answers).Realizes r.code r.value (.ok (v, .empty)) := by
  obtain ⟨e, he, hassigned, heval⟩ := h.expr
  obtain ⟨r, hr, -⟩ := he.lowers s
  have hdefer := he.realizes_defer (m := Machine.start answers) rfl .empty hr
  rw [← Expr.eval_eq_defer e _ (Expr.settled_of_assigned hassigned), heval] at hdefer
  exact ⟨r, hr, hdefer⟩

end Node.Described

namespace Node.IsClosed

variable {N : Number → Prop} {n : Node}

theorem exists_described (hN : Number.Closed N) (h : n.IsClosed N) : ∃ v, n.Described N v := by
  induction h with
  | literal ht => exact Described.literal ht
  | template => exact ⟨_, .template⟩
  | unary op h ih =>
    obtain ⟨v, hv⟩ := ih
    exact hv.unary hN op
  | void h ih =>
    obtain ⟨v, hv⟩ := ih
    exact ⟨_, hv.void⟩
  | binary op h₁ h₂ ih₁ ih₂ =>
    obtain ⟨v₁, hv₁⟩ := ih₁
    obtain ⟨v₂, hv₂⟩ := ih₂
    exact hv₁.binary hN op hv₂
  | logical c h₁ h₂ ih₁ ih₂ =>
    obtain ⟨v₁, hv₁⟩ := ih₁
    obtain ⟨v₂, hv₂⟩ := ih₂
    exact ⟨_, hv₁.logical c hv₂⟩
  | conditional h h₁ h₂ ih ih₁ ih₂ =>
    obtain ⟨v, hv⟩ := ih
    obtain ⟨v₁, hv₁⟩ := ih₁
    obtain ⟨v₂, hv₂⟩ := ih₂
    exact ⟨_, hv.conditional hv₁ hv₂⟩
  | sequence h ih => exact Described.sequence ih

/-- The walk of a closed expression notes a kind for it, in any state of the analysis. Its code, run with no variables,
computes a value, and the value is of that kind unless the kind is not known. -/
theorem realizes_kind (h : n.IsClosed Number.Exact) {σ τ : AnalysisState} {k : Option Kind}
    (hvisit : (Analyze.visit n).run σ = .ok (k, τ)) :
    ∃ l v, k = some l ∧ τ.kinds.getLast? = some (n.path, l) ∧ (l ≠ .unknown → v.typeName = l.word) ∧
      ∀ s answers, ∃ r, Lower.expr n s = .ok r ∧
        (Machine.start answers).Realizes r.code r.value (.ok (v, .empty)) := by
  obtain ⟨v, hv⟩ := h.exists_described Number.closed_exact
  obtain ⟨l, hl, hnote, hd⟩ := hv.kind hvisit
  exact ⟨l, v, hl, hnote, hd, hv.realizes_start⟩

end Node.IsClosed

/-- The type of null and a power after it, if the last of two expressions is true. -/
def Node.telling : Node := .bare (.conditional
  (.bare (.sequence [.int 1,
    .bare (.logical (.str "&&") (.bare (.unary (.str "!") (.int 0))) (.binary ">" (.int 5) (.int 3)))]))
  (.binary "+" (.bare (.unary (.str "typeof") (.bare (.literal false .null)))) (.binary "**" (.int 2) (.int 53)))
  (.bare (.template (.ok "x") [.int 7])))

theorem Node.isClosed_telling : Node.telling.IsClosed Number.Exact := by
  have hint : ∀ {i : Int}, i.natAbs ≤ Number.exactLimit → (Node.int i).IsClosed Number.Exact := fun hi => .literal hi
  refine .conditional (.sequence ?_) (.binary .add (.unary .typeOf (.literal trivial)) ?_) .template
  · rintro n (_ | ⟨_, _ | ⟨_, ⟨⟩⟩⟩)
    · exact hint (by decide)
    · exact .logical .and (.unary .not (hint (by decide))) (.binary .gt (hint (by decide)) (hint (by decide)))
  · exact .binary .pow (hint (by decide)) (hint (by decide))

theorem Node.IsClosed.realizes_kind_telling : Node.telling.IsClosed Number.Exact ∧
    ∃ τ v, (Analyze.visit Node.telling).run .initial = .ok (some .string, τ) ∧ v.typeName = "string" ∧
      ∀ s answers, ∃ r, Lower.expr Node.telling s = .ok r ∧
        (Machine.start answers).Realizes r.code r.value (.ok (v, .empty)) := by
  obtain ⟨τ, hτ⟩ : ∃ τ, (Analyze.visit Node.telling).run .initial = .ok (some .string, τ) := ⟨_, rfl⟩
  obtain ⟨l, v, hl, -, htype, hruns⟩ := realizes_kind Node.isClosed_telling hτ
  cases hl
  exact ⟨Node.isClosed_telling, τ, v, hτ, htype (by decide), hruns⟩

end QuadScript
