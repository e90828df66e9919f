import QuadScript.Proofs.ExpressionCode
import QuadScript.Proofs.Scopes
import QuadScript.Proofs.Statements

/-!
# The code of statements

`Code.Carries code loop p q f`: from position `p` the code does what `f` says, and then stands at `q`, or at the
label of the surrounding loop where a `break` or `continue` leads. The statements of a program are carried out by
their code (`Node.IsStmt.carries`); for the rounds of a loop this is proved once, whatever the code of the loop
looks like (`Code.carries_iterate`).
-/

namespace QuadScript

open Machine Lower

/-! ### Between two statements -/

/-- The machine stands at a position between two statements. -/
structure Machine.Ready (m : Machine) (p : Nat) (σ : Store) : Prop where
  pc : m.pc = p
  params : m.params = []
  holds : m.memory.Holds σ

/-- The run gets from a machine to a position, with these variables then, and prints these lines. -/
def Machine.Does (code : Code) (m : Machine) (p : Nat) (σ : Store) (lines : List String) : Prop :=
  ∃ k m', Steps code k m m' ∧ m'.Ready p σ ∧ m'.output = m.output ++ lines

namespace Machine

variable {code : Code} {m m₁ : Machine} {p p' q : Nat} {σ σ' : Store} {ls ls' : List String} {s : Supply}

theorem Ready.move (h : m.Ready p σ) : Machine.Ready { m with pc := q } q σ := ⟨rfl, h.params, h.holds⟩

theorem Ready.next (h : m.Ready p σ) : m.next.Ready (p + 1) σ := ⟨congrArg (· + 1) h.pc, h.params, h.holds⟩

theorem Arrives.ready (h : m.Arrives q s σ' m₁) (hm : m.Ready p σ) : m₁.Ready q σ' :=
  ⟨h.pc, by rw [h.eq, hm.params], h.holds⟩

theorem Arrives.output (h : m.Arrives q s σ' m₁) : m₁.output = m.output := by rw [h.eq]

namespace Does

theorem refl (h : m.Ready p σ) : Does code m p σ [] := ⟨0, m, .refl m, h, (List.append_nil _).symm⟩

theorem trans (h : Does code m p σ ls) (h' : ∀ m', m'.Ready p σ → Does code m' p' σ' ls') :
    Does code m p' σ' (ls ++ ls') := by
  obtain ⟨k, m₁, hk, hm₁, ho⟩ := h
  obtain ⟨k', m₂, hk', hm₂, ho'⟩ := h' m₁ hm₁
  exact ⟨k + k', m₂, hk.trans hk', hm₂, by rw [ho', ho, List.append_assoc]⟩

theorem step (hs : m.advance code code.labels = some (.ok m₁)) (ho : m₁.output = m.output)
    (h : Does code m₁ p σ ls) : Does code m p σ ls := by
  obtain ⟨k, m₂, hk, hm₂, ho'⟩ := h
  exact ⟨k + 1, m₂, .head hs hk, hm₂, by rw [ho', ho]⟩

theorem goto {l : String} (hl : code.Linked) (hm : m.Ready p σ) (hq : code[p]? = some (Quad.goto l))
    (hp : code[q]? = some (Quad.label l)) : Does code m q σ [] :=
  .step (advance_goto hl (hm.pc ▸ hq) hp) rfl (.refl hm.move)

theorem label {l : String} (hm : m.Ready p σ) (hq : code[p]? = some (Quad.label l)) : Does code m (p + 1) σ [] :=
  .step (advance_label (hm.pc ▸ hq)) rfl (.refl hm.next)

end Does

end Machine

/-! ### Pieces of code -/

namespace Code

/-- Where the code goes on after a statement that ends at a position. -/
def Leads (code : Code) (loop : Option Loop) (q : Nat) : Exit → Nat → Prop
  | .normal, p => p = q
  | .break, p => ∃ l ∈ loop, code[p]? = some (Quad.label l.exit)
  | .continue, p => ∃ l ∈ loop, code[p]? = some (Quad.label l.next)

/-- The code from one position to another does what a function says. -/
def Carries (code : Code) (loop : Option Loop) (p q : Nat) (f : Store → Option Ending) : Prop :=
  ∀ ⦃m : Machine⦄ ⦃σ : Store⦄ ⦃x : Ending⦄, m.Ready p σ → f σ = some x →
    ∃ p', code.Leads loop q x.exit p' ∧ Does code m p' x.store x.lines

theorem Leads.eq_of_none {code : Code} {x : Exit} {p q : Nat} (h : code.Leads none q x p) : x = .normal ∧ p = q := by
  cases x with
  | normal => exact ⟨rfl, h⟩
  | «break» => obtain ⟨_, ⟨⟩, _⟩ := h
  | «continue» => obtain ⟨_, ⟨⟩, _⟩ := h

/-- The labels of a loop stand somewhere in the code. -/
def HasLoop (code : Code) (loop : Option Loop) : Prop :=
  ∀ l ∈ loop, (∃ p : Nat, code[p]? = some (Quad.label l.next)) ∧ ∃ p : Nat, code[p]? = some (Quad.label l.exit)

variable {code : Code} {loop : Option Loop} {p q r : Nat} {rounds : Nat} {a b : Stmt}

theorem Carries.does {f : Store → Option Ending} {m : Machine} {σ : Store} {x : Ending} (h : code.Carries none p q f)
    (hm : m.Ready p σ) (hx : f σ = some x) : Does code m q x.store x.lines := by
  obtain ⟨p', hp', hdo⟩ := h hm hx
  exact hp'.eq_of_none.2 ▸ hdo

theorem carries_skip : code.Carries loop p p (Stmt.skip.exec rounds) := by
  intro m σ x hm hx
  cases hx
  exact ⟨p, rfl, .refl hm⟩

theorem Carries.seq (ha : code.Carries loop p q (a.exec rounds)) (hb : code.Carries loop q r (b.exec rounds)) :
    code.Carries loop p r ((Stmt.seq a b).exec rounds) := by
  intro m σ z hm hz
  obtain ⟨x, hx, hz⟩ := Option.bind_eq_some_iff.1 hz
  obtain ⟨p₁, hp₁, hdo⟩ := ha hm hx
  split at hz
  · rename_i hn
    obtain ⟨y, hy, hz⟩ := Option.bind_eq_some_iff.1 hz
    cases hz
    rw [hn] at hp₁
    cases hp₁
    obtain ⟨k, m₁, hk, hm₁, ho⟩ := hdo
    obtain ⟨p₂, hp₂, k', m₂, hk', hm₂, ho'⟩ := hb hm₁ hy
    exact ⟨p₂, hp₂, k + k', m₂, hk.trans hk', hm₂, by rw [ho', ho, List.append_assoc]; rfl⟩
  · rename_i hn
    cases hz
    refine ⟨p₁, ?_, hdo⟩
    cases hexit : z.exit with
    | normal => exact absurd hexit hn
    | «break» => rwa [hexit] at hp₁
    | «continue» => rwa [hexit] at hp₁

/-- Code that ends somewhere else goes there first. -/
theorem Carries.finish {f : Store → Option Ending} (h : code.Carries loop p q f)
    (hq : ∀ {m σ}, m.Ready q σ → Does code m r σ []) : code.Carries loop p r f := by
  intro m σ x hm hx
  obtain ⟨p', hp', hdo⟩ := h hm hx
  cases hexit : x.exit with
  | normal =>
    rw [hexit] at hp'
    cases hp'
    exact ⟨r, rfl, by simpa using hdo.trans fun _ hm' => hq hm'⟩
  | «break» => rw [hexit] at hp'; exact ⟨p', hp', hdo⟩
  | «continue» => rw [hexit] at hp'; exact ⟨p', hp', hdo⟩

theorem Carries.cast {f : Store → Option Ending} (h : code.Carries loop p q f) (hq : q = r) :
    code.Carries loop p r f := hq ▸ h

theorem Carries.of_label {f : Store → Option Ending} {l : String} (hp : code[p]? = some (Quad.label l))
    (h : code.Carries loop (p + 1) q f) : code.Carries loop p q f := by
  intro m σ x hm hx
  obtain ⟨p', hp', hdo⟩ := h hm.next hx
  exact ⟨p', hp', .step (advance_label (hm.pc ▸ hp)) rfl hdo⟩

theorem HasLoop.of_some {l : Loop} (hp : code[p]? = some (Quad.label l.next)) (hq : code[q]? = some (Quad.label l.exit)) :
    code.HasLoop (some l) := by
  rintro _ ⟨⟩
  exact ⟨⟨p, hp⟩, q, hq⟩

theorem carries_choose {t : Expr} {p₁ p₂ : Nat}
    (htest : ∀ {m σ v}, m.Ready p σ → t.eval σ = .ok v → Does code m (if v.1.truthy then p₁ else p₂) v.2 [])
    (ha : code.Carries loop p₁ q (a.exec rounds)) (hb : code.Carries loop p₂ q (b.exec rounds)) :
    code.Carries loop p q ((Stmt.choose t a b).exec rounds) := by
  intro m σ x hm hx
  obtain ⟨v, hv, hx⟩ := exec_choose_eq_some.1 hx
  obtain ⟨k, m₁, hk, hm₁, ho⟩ := htest hm hv
  obtain ⟨p', hp', k', m₂, hk', hm₂, ho'⟩ : ∃ p', code.Leads loop q x.exit p' ∧ Does code m₁ p' x.store x.lines := by
    cases ht : v.1.truthy with
    | true => rw [ht] at hx hm₁; exact ha hm₁ hx
    | false => rw [ht] at hx hm₁; exact hb hm₁ hx
  exact ⟨p', hp', k + k', m₂, hk.trans hk', hm₂, by rw [ho', ho, List.append_nil]⟩

/-- Code that carries out the parts of a loop carries out its rounds. The body ends at `u`, or at the label `n`
that a `continue` leads to, and from both the code gets back to the start. -/
theorem carries_iterate {test : Store → Option (Bool × Store)} {update body : Store → Option Ending} {l : Loop}
    {start u n exit : Nat} (hl : code.Linked) (hnext : code[n]? = some (Quad.label l.next))
    (hexit : code[exit]? = some (Quad.label l.exit))
    (htest : ∀ {m σ t}, m.Ready start σ → test σ = some t → Does code m (if t.1 then p else exit) t.2 [])
    (hbody : code.Carries (some l) p u body)
    (hupdate : ∀ {m σ y q}, q = u ∨ q = n → m.Ready q σ → update σ = some y → Does code m start y.store y.lines) :
    ∀ {rounds m σ x}, m.Ready start σ → iterate test update body rounds σ = some x →
      Does code m exit x.store x.lines := by
  intro rounds
  -- on the number of rounds: a round ends in a `break`, or comes back to the start of the loop by way of the update
  induction rounds with
  | zero => intro m σ x _ hx; cases hx
  | succ rounds ih =>
    intro m σ z hm hz
    obtain ⟨t, ht, hz⟩ := Option.bind_eq_some_iff.1 hz
    have hdo := htest hm ht
    cases htrue : t.1 with
    | false =>
      rw [htrue] at hdo hz
      cases hz
      exact hdo
    | true =>
      rw [htrue, if_pos rfl] at hdo hz
      obtain ⟨x, hx, hz⟩ := Option.bind_eq_some_iff.1 hz
      split at hz
      · rename_i hbreak
        cases hz
        refine hdo.trans fun m₁ hm₁ => ?_
        obtain ⟨p', hp', hdo'⟩ := hbody hm₁ hx
        rw [hbreak] at hp'
        obtain ⟨_, ⟨⟩, hp'⟩ := hp'
        exact hl.unique hp' hexit ▸ hdo'
      · rename_i hbreak
        obtain ⟨y, hy, hz⟩ := Option.bind_eq_some_iff.1 hz
        obtain ⟨w, hw, hz⟩ := Option.bind_eq_some_iff.1 hz
        cases hz
        have hback : ∀ m₁, m₁.Ready p t.2 → Does code m₁ start y.store (x.lines ++ y.lines) := by
          intro m₁ hm₁
          obtain ⟨p', hp', hdo'⟩ := hbody hm₁ hx
          refine hdo'.trans fun m₂ hm₂ => hupdate ?_ hm₂ hy
          cases hx' : x.exit with
          | normal => rw [hx'] at hp'; exact .inl hp'
          | «break» => exact absurd hx' hbreak
          | «continue» =>
            rw [hx'] at hp'
            obtain ⟨_, ⟨⟩, hp'⟩ := hp'
            exact .inr (hl.unique hp' hnext)
        exact (hdo.trans hback).trans fun m₂ hm₂ => ih hm₂ hw

end Code

/-! ### Expressions as statements -/

section
variable {code : Code} {loop : Option Loop} {p q rounds : Nat} {n : Node} {e : Expr} {s : Supply} {a : Lowered Operand}
  {m : Machine} {σ : Store} {l : String}

theorem Node.IsExpr.steps {r : Value × Store} (h : n.IsExpr e) (hs : e.settled = true) (hl : code.Linked)
    (ha : expr n s = .ok a) (hat : code.At p a.code) (hm : m.Ready p σ) (hr : e.eval σ = .ok r) :
    ∃ k m', Steps code k m m' ∧ m'.Ready (p + a.code.length) r.2 ∧ m'.output = m.output ∧
      m'.memory.resolve a.value = .ok r.1 := by
  have hcomes := h.comes hl ha (hm.pc ▸ hat) hm.holds
  rw [Expr.eval_eq_defer e σ hs] at hr
  obtain ⟨d, hd, hr⟩ := except_bind_eq_ok hr
  cases hr
  rw [hd] at hcomes
  obtain ⟨k, m', hk, hev⟩ := hcomes
  exact ⟨k, m', hk, hm.pc ▸ hev.1.ready hm, hev.1.output, hev.resolve⟩

theorem Node.IsExpr.carries (h : n.IsExpr e) (hs : e.settled = true) (hl : code.Linked) (ha : expr n s = .ok a)
    (hat : code.At p a.code) : code.Carries loop p (p + a.code.length) ((Stmt.eval e).exec rounds) := by
  intro m σ x hm hx
  obtain ⟨r, hr, rfl⟩ := exec_eval_eq_some.1 hx
  obtain ⟨k, m', hk, hm', ho, -⟩ := h.steps hs hl ha hat hm hr
  exact ⟨_, rfl, k, m', hk, hm', by rw [ho]; exact (List.append_nil _).symm⟩

theorem Node.IsExpr.does_test {r : Value × Store} (h : n.IsExpr e) (hs : e.settled = true) (hl : code.Linked)
    (ha : expr n s = .ok a) (hat : code.At p (a.code ++ [Quad.jumpIfFalse a.value l]))
    (hq : code[q]? = some (Quad.label l)) (hm : m.Ready p σ) (hr : e.eval σ = .ok r) :
    Does code m (if r.1.truthy then p + (a.code ++ [Quad.jumpIfFalse a.value l]).length else q) r.2 [] := by
  obtain ⟨k, m', hk, hm', ho, hv⟩ := h.steps hs hl ha hat.left hm hr
  have hjump := hm'.pc ▸ hat.right.head
  have hlen : p + (a.code ++ [Quad.jumpIfFalse a.value l]).length = p + a.code.length + 1 := by simp; omega
  cases ht : r.1.truthy with
  | true =>
    rw [if_pos rfl, hlen]
    exact ⟨k + 1, m'.next, hk.tail (advance_pass hjump hv ht), hm'.next, by rw [List.append_nil]; exact ho⟩
  | false =>
    rw [if_neg Bool.false_ne_true]
    exact ⟨k + 1, _, hk.tail (advance_branch hl hjump hq hv ht), hm'.move, by rw [List.append_nil]; exact ho⟩

/-! ### Printing -/

theorem Machine.advance_print {c : Console} {k : Nat}
    (hq : code[m.pc]? = some (Quad.call (consoleMark ++ c.method) k .none)) :
    m.advance code code.labels = some (.ok (m.printLine c.lead).next) :=
  advance_console hq c.consoleLead?_method

theorem Node.AreExprs.carries {ns : List Node} {es : List Expr} {as : Lowered (List Operand)} {c : Console} {k : Nat}
    (h : Node.AreExprs ns es) (hs : Expr.settledArgs es = true) (hl : code.Linked) (has : exprs ns s = .ok as)
    (hat : code.At p (as.code ++ (as.value.map Quad.param ++ [Quad.call (consoleMark ++ c.method) k .none]))) :
    code.Carries loop p (p + as.code.length + as.value.length + 1) ((Stmt.print c es).exec rounds) := by
  intro m σ x hm hx
  obtain ⟨r, hr, rfl⟩ := exec_print_eq_some.1 hx
  have hcomes := h.comes hl has (hm.pc ▸ hat.left) hm.holds
  rw [Expr.evalAll_eq_deferAll σ hs] at hr
  obtain ⟨d, hd, hr⟩ := except_bind_eq_ok hr
  cases hr
  rw [hd] at hcomes
  obtain ⟨k, m₁, hk, harr, hst⟩ := hcomes
  have hm₁ := hm.pc ▸ harr.ready hm
  have hvs : List.Forall₂ (fun a v => m₁.memory.resolve a = .ok v) as.value (d.1.map d.2.look) := by
    refine List.forall₂_map_right_iff.2 (hst.imp fun a v hav => ?_)
    exact hav _ _ .refl hm₁.holds
  have hat₁ := hm₁.pc ▸ hat.right
  have hparams := Machine.steps_params m₁ hvs hat₁.left
  have hcall := hat₁.right.head
  rw [List.length_map] at hcall
  refine ⟨_, rfl, _, _, (hk.trans hparams).tail (advance_print hcall), ⟨?_, rfl, hm₁.holds⟩, ?_⟩
  · exact congrArg (· + as.value.length + 1) hm₁.pc
  · rw [← harr.output]
    simp [Machine.next, Machine.printLine, hm₁.params, Console.line]

/-! ### Declarations and the parts of loops -/

theorem Node.IsExpr.isAbsent (h : n.IsExpr e) : n.isAbsent = false := by cases h <;> rfl

theorem Node.IsExpr.ne_declaration (h : n.IsExpr e) (mark : Mark) (kind : DeclKind) (ds : List Declarator) :
    n ≠ .mk mark (.declaration kind ds) := by
  rintro rfl; cases h

theorem Lower.expr_absent : expr .absent s = .ok a ↔ a = ⟨void, [], s⟩ := by
  rw [expr]; exact pure_eq_ok

theorem Lower.declarator_absent {mark mark' : Mark} {given : Bool} {r : Lowered Unit} :
    declarator (.mk mark (.mk mark' .identifier) given .absent) s = .ok r ↔ r = ⟨(), [], s⟩ := by
  rw [declarator_identifier, Node.isAbsent, if_pos rfl]

theorem Lower.forTest_absent {r : Lowered Unit} : forTest .absent l s = .ok r ↔ r = ⟨(), [], s⟩ := by
  rw [forTest_eq_ok, Node.isAbsent, if_pos rfl]

theorem Lower.forTest_expr {r : Lowered Unit} (h : n.IsExpr e) : forTest n l s = .ok r ↔
    ∃ a, expr n s = .ok a ∧ r = ⟨(), a.code ++ [Quad.jumpIfFalse a.value l], a.supply⟩ := by
  rw [forTest_eq_ok, h.isAbsent, if_neg Bool.false_ne_true]

theorem Lower.declarator_expr {mark mark' : Mark} {given : Bool} {x : String} {r : Lowered Unit} (h : n.IsExpr e)
    (hm : mark'.name = some (.str x)) :
    declarator (.mk mark (.mk mark' .identifier) given n) s = .ok r ↔
      ∃ a, expr (.mk mark (.assignment (.str "=") (.mk mark' .identifier) n)) s = .ok a ∧ r = ⟨(), a.code, a.supply⟩ := by
  have heq : (Tree.str "=").isText "=" = true := rfl
  rw [declarator_identifier, h.isAbsent, if_neg Bool.false_ne_true]
  simp only [Mark.requireName, hm, Except.ok.injEq, exists_eq_left', expr_assignment (assignee?_identifier hm) heq,
    exists_eq_part]

theorem Declarator.AreDeclared.lowers {ds : List Declarator} {d : Stmt} (h : AreDeclared ds d) (s : Supply) :
    ∃ r, declarators ds s = .ok r := by
  induction h generalizing s with
  | nil => exact ⟨_, declarators_nil.2 rfl⟩
  | bare _ ih =>
    obtain ⟨r, hr⟩ := ih s
    exact ⟨_, declarators_cons.2 ⟨_, declarator_absent.2 rfl, r, hr, rfl⟩⟩
  | @cons mark mark' _ x n e _ _ hx hm hn hs _ ih =>
    have hn' : (Node.mk mark (.assignment (.str "=") (.mk mark' .identifier) n)).IsExpr (.assign x e) :=
      .assignment hx hm hn
    obtain ⟨a, ha, -⟩ := hn'.lowers s
    obtain ⟨r, hr⟩ := ih a.supply
    exact ⟨_, declarators_cons.2 ⟨_, (declarator_expr hn hm).2 ⟨a, ha, rfl⟩, r, hr, rfl⟩⟩

theorem Declarator.AreDeclared.carries {ds : List Declarator} {d : Stmt} {r : Lowered Unit} (h : AreDeclared ds d)
    (hl : code.Linked) (hr : declarators ds s = .ok r) (hat : code.At p r.code) :
    code.Carries loop p (p + r.code.length) (d.exec rounds) := by
  induction h generalizing s r p with
  | nil =>
    obtain rfl := declarators_nil.1 hr
    exact Code.carries_skip
  | bare _ ih =>
    obtain ⟨a, ha, b, hb, rfl⟩ := declarators_cons.1 hr
    obtain rfl := declarator_absent.1 ha
    exact ih hb hat
  | @cons mark mark' _ x n e _ _ hx hm hn hs _ ih =>
    have hn' : (Node.mk mark (.assignment (.str "=") (.mk mark' .identifier) n)).IsExpr (.assign x e) :=
      .assignment hx hm hn
    obtain ⟨a, ha, b, hb, rfl⟩ := declarators_cons.1 hr
    obtain ⟨a', ha', rfl⟩ := (declarator_expr hn hm).1 ha
    rw [List.length_append, ← Nat.add_assoc]
    exact (hn'.carries hs hl ha' hat.left).seq (ih hb hat.right)

theorem Node.IsAction.lowers {u : Stmt} (h : n.IsAction u) (s : Supply) : ∃ a, expr n s = .ok a := by
  cases h with
  | absent => exact ⟨_, expr_absent.2 rfl⟩
  | expression h _ =>
    obtain ⟨a, ha, -⟩ := h.lowers s
    exact ⟨a, ha⟩

theorem Node.IsAction.carries {u : Stmt} (h : n.IsAction u) (hl : code.Linked) (ha : expr n s = .ok a)
    (hat : code.At p a.code) : code.Carries loop p (p + a.code.length) (u.exec rounds) := by
  cases h with
  | absent =>
    obtain rfl := expr_absent.1 ha
    exact Code.carries_skip
  | expression h hs => exact h.carries hs hl ha hat

theorem Node.IsAction.forInit_eq_ok {u : Stmt} {r : Lowered Unit} (h : n.IsAction u) :
    forInit n s = .ok r ↔ ∃ a, expr n s = .ok a ∧ r = ⟨(), a.code, a.supply⟩ := by
  refine Lower.forInit_eq_ok fun mark kind ds he => ?_
  cases h with
  | absent => cases he
  | expression h _ => exact h.ne_declaration mark kind ds he

theorem Node.IsInit.lowers {u : Stmt} (h : n.IsInit u) (s : Supply) : ∃ r, forInit n s = .ok r := by
  cases h with
  | declaration h => rw [forInit_declaration]; exact h.lowers s
  | action h =>
    obtain ⟨a, ha⟩ := h.lowers s
    exact ⟨_, h.forInit_eq_ok.2 ⟨a, ha, rfl⟩⟩

theorem Node.IsInit.carries {u : Stmt} {r : Lowered Unit} (h : n.IsInit u) (hl : code.Linked)
    (hr : forInit n s = .ok r) (hat : code.At p r.code) :
    code.Carries loop p (p + r.code.length) (u.exec rounds) := by
  cases h with
  | declaration h => rw [forInit_declaration] at hr; exact h.carries hl hr hat
  | action h =>
    obtain ⟨a, ha, rfl⟩ := h.forInit_eq_ok.1 hr
    exact h.carries hl ha hat

theorem Node.IsTest.lowers {t : Option Expr} (h : n.IsTest t) (l : String) (s : Supply) : ∃ r, forTest n l s = .ok r := by
  cases h with
  | absent => exact ⟨_, forTest_absent.2 rfl⟩
  | expression h _ =>
    obtain ⟨a, ha, -⟩ := h.lowers s
    exact ⟨_, (forTest_expr h).2 ⟨a, ha, rfl⟩⟩

theorem Node.IsTest.does {t : Option Expr} {r : Lowered Unit} {g : Bool × Store} (h : n.IsTest t) (hl : code.Linked)
    (hr : forTest n l s = .ok r) (hat : code.At p r.code) (hq : code[q]? = some (Quad.label l)) (hm : m.Ready p σ)
    (hg : Expr.holds? t σ = some g) : Does code m (if g.1 then p + r.code.length else q) g.2 [] := by
  cases h with
  | absent =>
    obtain rfl := forTest_absent.1 hr
    cases hg
    exact .refl hm
  | expression h hs =>
    obtain ⟨a, ha, rfl⟩ := (forTest_expr h).1 hr
    obtain ⟨v, hv, rfl⟩ := holds?_eq_some.1 hg
    exact h.does_test hs hl ha hat hq hm hv

end

/-! ### Loops -/

section
variable {code : Code} {loop : Option Loop} {l : Loop} {p q e k rounds : Nat} {n n' : Node} {s s' : Supply}
  {r : Lowered Unit} {b : Code} {x : String} {t : Option Expr} {update body : Stmt}

theorem Node.IsTest.carries_loop (ht : n.IsTest t) (hl : code.Linked) (hr : forTest n l.exit s = .ok r)
    (hat : code.At p (Quad.label x :: r.code)) (hnext : code[k]? = some (Quad.label l.next))
    (hexit : code[e]? = some (Quad.label l.exit))
    (hbody : code.Carries (some l) (p + 1 + r.code.length) q (body.exec rounds))
    (hupdate : ∀ {m σ y q'}, q' = q ∨ q' = k → m.Ready q' σ → update.exec rounds σ = some y →
      Does code m p y.store y.lines) :
    code.Carries loop p (e + 1) ((Stmt.loop t update body).exec rounds) := by
  intro m σ z hm hz
  rw [exit_of_iterate hz]
  have hdo : Does code m e z.store z.lines := by
    refine Code.carries_iterate hl hnext hexit (fun hm' hg => ?_) hbody hupdate hm hz
    exact (Does.label hm' hat.head).trans fun _ hm₁ => ht.does hl hr hat.tail hexit hm₁ hg
  exact ⟨e + 1, rfl, by simpa using hdo.trans fun _ hm' => .label hm' hexit⟩

theorem Node.IsTest.carries_while (ht : n.IsTest t) (hl : code.Linked) (hr : forTest n l.exit s = .ok r)
    (hat : code.At p (Quad.label l.next :: (r.code ++ (b ++ [Quad.goto l.next, Quad.label l.exit]))))
    (hbody : code.Carries (some l) (p + 1 + r.code.length) (p + 1 + r.code.length + b.length) (body.exec rounds)) :
    code.Carries loop p (p + 1 + r.code.length + b.length + 1 + 1) ((Stmt.loop t .skip body).exec rounds) := by
  have hback := hat.tail.right.right
  refine ht.carries_loop hl hr (Code.At.left (c := Quad.label l.next :: r.code) hat) hat.head hback.tail.head hbody ?_
  intro m σ y q' hq' hm hy
  cases hy
  rcases hq' with rfl | rfl
  · exact .goto hl hm hback.head hat.head
  · exact .refl hm

/-- A loop that carries something out before it goes back. -/
theorem Node.IsTest.carries_for {u : Lowered Operand} (ht : n.IsTest t) (hu : n'.IsAction update) (hl : code.Linked)
    (hr : forTest n l.exit s = .ok r) (hu' : expr n' s' = .ok u)
    (hat : code.At p (Quad.label x :: (r.code ++ (b ++ Quad.label l.next :: (u.code ++
      [Quad.goto x, Quad.label l.exit])))))
    (hbody : code.Carries (some l) (p + 1 + r.code.length) (p + 1 + r.code.length + b.length) (body.exec rounds)) :
    code.Carries loop p (p + 1 + r.code.length + b.length + 1 + u.code.length + 1 + 1)
      ((Stmt.loop t update body).exec rounds) := by
  have hnext := hat.tail.right.right
  have hback := hnext.tail.right
  refine ht.carries_loop hl hr (Code.At.left (c := Quad.label x :: r.code) hat) hnext.head hback.tail.head hbody ?_
  intro m σ y q' hq' hm hy
  obtain rfl : q' = _ := hq'.elim id id
  have hcarries : code.Carries none _ _ (update.exec rounds) := hu.carries hl hu' hnext.tail.left
  have hdo : Does code m _ y.store ([] ++ y.lines) := (Does.label hm hnext.head).trans fun _ hm₁ => hcarries.does hm₁ hy
  simpa using hdo.trans fun _ hm₂ => .goto hl hm₂ hback.head hat.head

end

/-! ### Statements -/

section
variable {code : Code} {rounds : Nat} {mark : Mark} {loop : Option Loop} {l : Loop} {s : Supply} {r : Lowered Unit}

theorem Lower.stmt_absent : stmt loop .absent s = .ok r ↔ r = ⟨(), [], s⟩ := by
  rw [stmt]; exact pure_eq_ok

theorem Lower.stmt_empty : stmt loop (.mk mark .empty) s = .ok r ↔ r = ⟨(), [], s⟩ := by
  rw [stmt]; exact pure_eq_ok

theorem Lower.stmt_break : stmt (some l) (.mk mark (.break false)) s = .ok r ↔ r = ⟨(), [Quad.goto l.exit], s⟩ := by
  rw [stmt]; exact goto_eq_ok

theorem Lower.stmt_continue : stmt (some l) (.mk mark (.continue false)) s = .ok r ↔
    r = ⟨(), [Quad.goto l.next], s⟩ := by
  rw [stmt]; exact goto_eq_ok

mutual

theorem Node.IsStmt.lowers : ∀ {b : Bool} {n : Node} {d : Stmt}, n.IsStmt b d → ∀ loop : Option Loop,
    loop.isSome = b → ∀ s : Supply, ∃ r, stmt loop n s = .ok r
  | _, _, _, .absent, _, _, s => ⟨_, stmt_absent.2 rfl⟩
  | _, _, _, .empty, _, _, s => ⟨_, stmt_empty.2 rfl⟩
  | _, _, _, .program h, loop, hb, s => by rw [stmt]; exact h.lowers loop hb s
  | _, _, _, .block h, loop, hb, s => by rw [stmt]; exact h.lowers loop hb s
  | _, _, _, .expression h _, _, _, s => by
    obtain ⟨a, ha, -⟩ := h.lowers s
    exact ⟨_, stmt_expression.2 ⟨a, ha, rfl⟩⟩
  | _, _, _, .print hc h _, _, _, s => by
    obtain ⟨as, has, -⟩ := h.lowers s
    exact ⟨_, stmt_expression.2 ⟨_, (expr_print hc).2 ⟨as, has, rfl⟩, rfl⟩⟩
  | _, _, _, .declaration h, _, _, s => by rw [stmt]; exact h.lowers s
  | _, _, _, .branch h _ h₁ h₂, loop, hb, s => by
    obtain ⟨a, ha, -⟩ := h.lowers (s.drawLabels 2)
    obtain ⟨b, hb'⟩ := h₁.lowers loop hb a.supply
    obtain ⟨d, hd⟩ := h₂.lowers loop hb b.supply
    exact ⟨_, stmt_if.2 ⟨a, ha, b, hb', d, hd, rfl⟩⟩
  | _, _, _, .whileLoop h _ h₁, _, _, s => by
    obtain ⟨a, ha, -⟩ := h.lowers (s.drawLabels 2)
    obtain ⟨b, hb⟩ := h₁.lowers (some ⟨labelName s.labels, labelName (s.labels + 1)⟩) rfl a.supply
    exact ⟨_, stmt_while.2 ⟨a, ha, b, hb, rfl⟩⟩
  | _, _, _, .forLoop h₀ h h' h₁, _, _, s => by
    obtain ⟨i, hi⟩ := h₀.lowers s
    obtain ⟨t, ht⟩ := h.lowers (labelName (i.supply.labels + 2)) (i.supply.drawLabels 3)
    obtain ⟨b, hb⟩ := h₁.lowers (some ⟨labelName (i.supply.labels + 1), labelName (i.supply.labels + 2)⟩) rfl t.supply
    obtain ⟨u, hu⟩ := h'.lowers b.supply
    exact ⟨_, stmt_for.2 ⟨i, hi, t, ht, b, hb, u, hu, rfl⟩⟩
  | _, _, _, .break, some l, _, s => ⟨_, stmt_break.2 rfl⟩
  | _, _, _, .continue, some l, _, s => ⟨_, stmt_continue.2 rfl⟩

theorem Node.AreStmts.lowers : ∀ {b : Bool} {ns : List Node} {d : Stmt}, Node.AreStmts b ns d →
    ∀ loop : Option Loop, loop.isSome = b → ∀ s : Supply, ∃ r, stmts loop ns s = .ok r
  | _, _, _, .nil, _, _, s => ⟨_, stmts_nil.2 rfl⟩
  | _, _, _, .cons h hs, loop, hb, s => by
    obtain ⟨a, ha⟩ := h.lowers loop hb s
    obtain ⟨r, hr⟩ := hs.lowers loop hb a.supply
    exact ⟨_, stmts_cons.2 ⟨a, ha, r, hr, rfl⟩⟩

end

mutual

theorem Node.IsStmt.carries (hl : code.Linked) : ∀ {b : Bool} {n : Node} {d : Stmt}, n.IsStmt b d →
    ∀ {loop : Option Loop} {s : Supply} {r : Lowered Unit} {p : Nat}, loop.isSome = b → code.HasLoop loop →
    stmt loop n s = .ok r → code.At p r.code → code.Carries loop p (p + r.code.length) (d.exec rounds)
  | _, _, _, .absent, loop, s, r, p, hb, hloop, hr, hat => by
    obtain rfl := stmt_absent.1 hr
    exact Code.carries_skip
  | _, _, _, .empty, loop, s, r, p, hb, hloop, hr, hat => by
    obtain rfl := stmt_empty.1 hr
    exact Code.carries_skip
  | _, _, _, .program h, loop, s, r, p, hb, hloop, hr, hat => by
    rw [stmt] at hr
    exact h.carries hl hb hloop hr hat
  | _, _, _, .block h, loop, s, r, p, hb, hloop, hr, hat => by
    rw [stmt] at hr
    exact h.carries hl hb hloop hr hat
  | _, _, _, .expression h hs, loop, s, r, p, hb, hloop, hr, hat => by
    obtain ⟨a, ha, rfl⟩ := stmt_expression.1 hr
    exact h.carries hs hl ha hat
  | _, _, _, .print hc h hs, loop, s, r, p, hb, hloop, hr, hat => by
    obtain ⟨_, ha, rfl⟩ := stmt_expression.1 hr
    obtain ⟨as, has, rfl⟩ := (expr_print hc).1 ha
    exact (h.carries hs hl has hat).cast (by simp; omega)
  | _, _, _, .declaration h, loop, s, r, p, hb, hloop, hr, hat => by
    rw [stmt] at hr
    exact h.carries hl hr hat
  | _, _, _, .branch h hs h₁ h₂, loop, s, r, p, hb, hloop, hr, hat => by
    obtain ⟨a, ha, b, hb', d, hd, rfl⟩ := stmt_if.1 hr
    rw [← List.singleton_append (x := Quad.jumpIfFalse _ _), ← List.append_assoc] at hat
    have hthen := hat.right
    have helse := hthen.right.tail
    have hend := helse.tail.right
    have htrue := (h₁.carries hl hb hloop hb' hthen.left).finish fun hm =>
      (Does.goto hl hm hthen.right.head hend.head).trans fun _ hm' => .label hm' hend.head
    have hfalse := ((h₂.carries hl hb hloop hd helse.tail.left).finish fun hm => .label hm hend.head).of_label helse.head
    refine (Code.carries_choose (fun hm hv => h.does_test hs hl ha hat.left helse.head hm hv) htrue hfalse).cast ?_
    simp; omega
  | _, _, _, .whileLoop h hs h₁, loop, s, r, p, hb, hloop, hr, hat => by
    obtain ⟨a, ha, b, hb', rfl⟩ := stmt_while.1 hr
    rw [← List.singleton_append (x := Quad.jumpIfFalse _ _), ← List.append_assoc] at hat
    have hback := hat.tail.right.right
    have hbody := h₁.carries hl rfl (.of_some hat.head hback.tail.head) hb' hat.tail.right.left
    refine ((Node.IsTest.expression h hs).carries_while hl ((forTest_expr h).2 ⟨a, ha, rfl⟩) hat hbody).cast ?_
    simp; omega
  | _, _, _, .forLoop h₀ h h' h₁, loop, s, r, p, hb, hloop, hr, hat => by
    obtain ⟨i, hi, t, ht, b, hb', u, hu, rfl⟩ := stmt_for.1 hr
    have hat' := hat.right
    have hnext := hat'.tail.right.right
    have hbody := h₁.carries hl rfl (.of_some hnext.head hnext.tail.right.tail.head) hb' hat'.tail.right.left
    refine ((h₀.carries hl hi hat.left).seq (h.carries_for h' hl ht hu hat' hbody)).cast ?_
    simp; omega
  | _, _, _, .break, some l, s, r, p, hb, hloop, hr, hat => by
    obtain rfl := stmt_break.1 hr
    obtain ⟨q, hq⟩ := (hloop l rfl).2
    intro m σ x hm hx
    cases hx
    exact ⟨q, ⟨l, rfl, hq⟩, .goto hl hm hat.head hq⟩
  | _, _, _, .continue, some l, s, r, p, hb, hloop, hr, hat => by
    obtain rfl := stmt_continue.1 hr
    obtain ⟨q, hq⟩ := (hloop l rfl).1
    intro m σ x hm hx
    cases hx
    exact ⟨q, ⟨l, rfl, hq⟩, .goto hl hm hat.head hq⟩

theorem Node.AreStmts.carries (hl : code.Linked) : ∀ {b : Bool} {ns : List Node} {d : Stmt}, Node.AreStmts b ns d →
    ∀ {loop : Option Loop} {s : Supply} {r : Lowered Unit} {p : Nat}, loop.isSome = b → code.HasLoop loop →
    stmts loop ns s = .ok r → code.At p r.code → code.Carries loop p (p + r.code.length) (d.exec rounds)
  | _, _, _, .nil, loop, s, r, p, hb, hloop, hr, hat => by
    obtain rfl := stmts_nil.1 hr
    exact Code.carries_skip
  | _, _, _, .cons h hs, loop, s, r, p, hb, hloop, hr, hat => by
    obtain ⟨a, ha, b, hb', rfl⟩ := stmts_cons.1 hr
    rw [List.length_append, ← Nat.add_assoc]
    exact (h.carries hl hb hloop ha hat.left).seq (hs.carries hl hb hloop hb' hat.right)

end

/-! ### Programs -/

mutual

theorem Node.IsStmt.functions : ∀ {b : Bool} {n : Node} {d : Stmt}, n.IsStmt b d → n.functions = []
  | _, _, _, .absent => rfl
  | _, _, _, .empty => rfl
  | _, _, _, .program h => h.functions
  | _, _, _, .block h => h.functions
  | _, _, _, .expression _ _ => rfl
  | _, _, _, .print _ _ _ => rfl
  | _, _, _, .declaration _ => rfl
  | _, _, _, .branch _ _ h₁ h₂ => List.append_eq_nil_iff.2 ⟨h₁.functions, h₂.functions⟩
  | _, _, _, .whileLoop _ _ h => h.functions
  | _, _, _, .forLoop _ _ _ h => h.functions
  | _, _, _, .break => rfl
  | _, _, _, .continue => rfl

theorem Node.AreStmts.functions : ∀ {b : Bool} {ns : List Node} {d : Stmt}, Node.AreStmts b ns d →
    Node.functionsList ns = []
  | _, _, _, .nil => rfl
  | _, _, _, .cons h hs => List.append_eq_nil_iff.2 ⟨h.functions, hs.functions⟩

end

/-- A structured program has code. If the program ends, so does every run of its code that is given enough steps:
without a fault, with the lines that the program prints and the variables that it leaves. -/
theorem Node.IsStmt.run_eq_exec {n : Node} {d : Stmt} {x : Ending} (h : n.IsStmt false d)
    (hx : d.exec rounds .empty = some x) (answers : Answers) :
    ∃ c, n.lower = .ok c ∧ ∃ k : Nat, ∀ maxSteps : Int, k ≤ maxSteps →
      (execute c.code maxSteps answers).fault = none ∧ (run c.code maxSteps answers).output = x.lines ∧
        (run c.code maxSteps answers).memory.Holds x.store := by
  obtain ⟨r, hr⟩ := h.lowers none rfl {}
  have hemits := Lower.stmt_emits (p := False) (N := fun _ => True) nofun n nofun hr
  rw [h.functions] at hemits
  have hemitted := hemits.emitted (fun _ h => h.elim) (fun h => h.elim) Loop.drawn_none
  have hl : r.code.Linked := Code.linked_of_places List.nodup_nil hemitted hemits.places
  have hfault : r.code.linkFault? = none := hemits.linkFault?_eq_none (fun _ h => h.elim) fun h => h.elim
  have hcarries : r.code.Carries none 0 (0 + r.code.length) (d.exec rounds) :=
    h.carries hl rfl (fun _ h => by cases h) hr .self
  have hstart : (start answers).Ready 0 .empty := ⟨rfl, rfl, fun _ _ => rfl, fun _ _ => rfl⟩
  obtain ⟨k, m, hk, hm, hout⟩ := hcarries.does hstart hx
  have hend : r.code[m.pc]? = none := by rw [hm.pc]; exact List.getElem?_eq_none (by omega)
  refine ⟨⟨(), r.code.renumber, r.supply⟩, by rw [Node.lower, hr]; rfl, k, fun maxSteps hmax => ?_⟩
  have hrun : execute r.code.renumber maxSteps answers = { machine := m } := by
    rw [execute_renumber, execute, hfault]
    exact hk.runFor_eq hend maxSteps (by omega)
  rw [run, hrun]
  exact ⟨rfl, hout, hm.holds⟩

end

/-- A loop that leaves out the 1, and is left at 3. -/
def countingLoop : Node := .bare (.program [.bare (.for (.set "i" (.int 0)) (.binary "<" (.named "i") (.int 5))
  (.set "i" (.binary "+" (.named "i") (.int 1))) (.bare (.block [
    .bare (.if (.binary "==" (.named "i") (.int 1)) (.bare (.continue false)) .absent),
    .bare (.if (.binary "==" (.named "i") (.int 3)) (.bare (.break false)) .absent),
    .bare (.expression (.print [.named "i"]))])))])

def countingStmt : Stmt :=
  let i := Expr.var "i"
  let int n := Expr.const (.num (.int n))
  .seq (.seq (.eval (.assign "i" (int 0)))
    (.loop (some (.binary .lt i (int 5))) (.eval (.assign "i" (.binary .add i (int 1))))
      (.seq (.choose (.binary .looseEq i (int 1)) .continue .skip)
        (.seq (.choose (.binary .looseEq i (int 3)) .break .skip) (.seq (.print .log [i]) .skip))))) .skip

theorem isStmt_countingLoop : countingLoop.IsStmt false countingStmt := by
  have hi : (Node.named "i").IsExpr (.var "i") := .identifier (by decide) rfl
  have hset : ∀ {n e}, Node.IsExpr n e → (Node.set "i" n).IsExpr (.assign "i" e) := .assignment (by decide) rfl
  have hbinary : ∀ {op w k}, Lower.binaryOp? (.str w) = .ok (some op) →
      (Node.binary w (.named "i") (.int k)).IsExpr (.binary op (.var "i") (.const (.num (.int k)))) :=
    fun hop => .binary hop hi (.literal rfl)
  refine .program (.cons (.forLoop (.action (.expression (hset (.literal rfl)) rfl)) (.expression (hbinary rfl) rfl)
    (.expression (hset (hbinary rfl)) rfl) (.block ?_)) .nil)
  exact .cons (.branch (hbinary rfl) rfl .continue .absent) (.cons (.branch (hbinary rfl) rfl .break .absent)
    (.cons (.print rfl (.cons hi .nil) rfl) .nil))

theorem Node.IsStmt.run_eq_exec_counting : ∃ c, countingLoop.lower = .ok c ∧ ∃ k : Nat, ∀ maxSteps : Int, k ≤ maxSteps →
    (run c.code maxSteps .nobody).output = ["0", "2"] ∧
      (run c.code maxSteps .nobody).memory.get? (.text "i") = some (.num (.int 3)) := by
  obtain ⟨x, hx, hlines, hi⟩ : ∃ x, countingStmt.exec 5 .empty = some x ∧ x.lines = ["0", "2"] ∧
      x.store "i" = some (.num (.int 3)) := ⟨_, rfl, by decide +kernel, by rfl⟩
  obtain ⟨c, hc, k, hk⟩ := isStmt_countingLoop.run_eq_exec hx .nobody
  refine ⟨c, hc, k, fun maxSteps hmax => ?_⟩
  obtain ⟨-, hout, hmem⟩ := hk maxSteps hmax
  exact ⟨hout.trans hlines, (hmem.vars "i" (by decide)).trans hi⟩

end QuadScript
