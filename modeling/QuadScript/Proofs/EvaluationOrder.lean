import QuadScript.Proofs.ExpressionCode

/-!
# The order of evaluation

The code of an expression on its own, run from any memory, gives the value and the variables that evaluation from
left to right does, as long as no operand stands for a variable that is assigned before it is used
(`Node.IsExpr.realizes`). An operand of that sort is read too late: `x + (x = 5)` is 10.
-/

namespace QuadScript

open Machine Lower

/-- The run of the code computes this: the value of an operand and the variables, or a fault. -/
def Machine.Realizes (m : Machine) (code : Code) (a : Operand) : Except Fault (Value × Store) → Prop
  | .ok (v, σ) => ∃ N, ∀ fuel ≥ N, ∀ ceiling, ∃ μ : Memory, μ.resolve a = .ok v ∧ μ.Holds σ ∧
      runFor code code.labels ceiling fuel m = { machine := { m with pc := code.length, memory := μ } }
  | .error f => ∃ N, ∀ fuel ≥ N, ∀ ceiling, (runFor code code.labels ceiling fuel m).fault = some f

variable {code : Code} {m m' : Machine} {a : Operand} {s : Supply} {r : Lowered Operand} {n : Node} {e : Expr}
  {σ σ' : Store} {v v' : Value}

theorem Machine.Realizes.value_unique (h : m.Realizes code a (.ok (v, σ))) (h' : m.Realizes code a (.ok (v', σ'))) :
    v = v' := by
  obtain ⟨N, h⟩ := h
  obtain ⟨N', h'⟩ := h'
  obtain ⟨μ, hv, -, hrun⟩ := h (max N N') (Nat.le_max_left _ _) 0
  obtain ⟨μ', hv', -, hrun'⟩ := h' (max N N') (Nat.le_max_right _ _) 0
  have hμ : μ = μ' := congrArg (fun o => o.machine.memory) (hrun.symm.trans hrun')
  rw [hμ, hv'] at hv
  exact (Except.ok.inj hv).symm

theorem Lower.linked_expr (h : expr n s = .ok r) : r.code.Linked :=
  have he := expr_evaluates (p := False) (N := fun _ => True) nofun n nofun h
  Code.linked_of_places List.nodup_nil (he.emitted fun _ h => h.elim) he.places

/-- The code of every expression computes what its deferred evaluation does. -/
theorem Node.IsExpr.realizes_defer (h : n.IsExpr e) (hpc : m.pc = 0) (hσ : m.memory.Holds σ)
    (hr : expr n s = .ok r) :
    m.Realizes r.code r.value (do let d ← e.defer σ; return (d.2.look d.1, d.2)) := by
  have hat : r.code.At m.pc r.code := hpc ▸ .self
  have hcomes := h.comes (linked_expr hr) hr hat hσ
  cases hd : e.defer σ with
  | error f =>
    rw [hd] at hcomes
    obtain ⟨k, m₁, m₂, hk, hf⟩ := hcomes
    exact ⟨k + 1, fun fuel hfuel ceiling => hk.runFor_fault hf ceiling hfuel⟩
  | ok d =>
    rw [hd] at hcomes
    obtain ⟨k, m₁, hk, hev⟩ := hcomes
    have hm₁ : m₁ = { m with pc := r.code.length, memory := m₁.memory } := by
      simpa only [hpc, Nat.zero_add] using hev.1.eq
    have hend : r.code[m₁.pc]? = none := by rw [hm₁]; exact List.getElem?_eq_none (Nat.le_refl _)
    refine ⟨k, fun fuel hfuel ceiling => ⟨m₁.memory, hev.resolve, hev.1.holds, ?_⟩⟩
    rw [hk.runFor_eq hend ceiling hfuel, ← hm₁]

/-- An expression has code. Run on its own from any memory, the code computes the deferred evaluation of the
expression, and its evaluation from left to right if no operand is assigned before it is used. -/
theorem Node.IsExpr.realizes (h : n.IsExpr e) (hpc : m.pc = 0) (hσ : m.memory.Holds σ) (s : Supply) :
    ∃ r, expr n s = .ok r ∧ m.Realizes r.code r.value (do let d ← e.defer σ; return (d.2.look d.1, d.2)) ∧
      (e.settled = true → m.Realizes r.code r.value (e.eval σ)) := by
  obtain ⟨r, hr, -⟩ := h.lowers s
  have hdefer := h.realizes_defer hpc hσ hr
  refine ⟨r, hr, hdefer, fun hs => ?_⟩
  rw [Expr.eval_eq_defer e σ hs]
  exact hdefer

/-! ### A sum with an assignment in it -/

/-- The sum of a variable and the value that is assigned to one. -/
def Node.addSet (x y : String) : Node := .binary "+" (.named x) (.set y (.int 5))

def Expr.addSet (x y : String) : Expr := .binary .add (.var x) (.assign y (.const (.num (.int 5))))

theorem Node.isExpr_addSet {x y : String} (hx : isSourceName x = true) (hy : isVariable y = true) :
    (Node.addSet x y).IsExpr (.addSet x y) :=
  .binary rfl (.identifier hx rfl) (.assignment hy rfl (.literal rfl))

/-- A machine before a run with one variable. -/
def Machine.holding (x : String) (v : Value) : Machine := { memory := Table.set ∅ (.text (mangle x)) v }

theorem Machine.holds_holding {x : String} (v : Value) (hx : isVariable x = true) :
    (Machine.holding x v).memory.Holds (Store.empty.set x v) :=
  Memory.Holds.empty.set_variable hx

/-- A variable that is assigned in the second operand of a sum is read after it. -/
theorem Node.IsExpr.not_realizes_eval : ∃ r, (Node.addSet "x" "x").IsExpr (.addSet "x" "x") ∧
    expr (.addSet "x" "x") {} = .ok r ∧
    ¬ (Machine.holding "x" (.num (.int 1))).Realizes r.code r.value
      ((Expr.addSet "x" "x").eval (Store.empty.set "x" (.num (.int 1)))) := by
  have h := Node.isExpr_addSet (x := "x") (y := "x") (by decide) (by decide)
  obtain ⟨r, hr, -⟩ := h.lowers {}
  refine ⟨r, h, hr, fun hrun => ?_⟩
  have hdefer := h.realizes_defer rfl (Machine.holds_holding (x := "x") (.num (.int 1)) (by decide)) hr
  have hv : Value.num (.int 6) = .num (.int 10) := Machine.Realizes.value_unique hrun hdefer
  cases hv

theorem Node.IsExpr.realizes_addSet : ∃ r σ, expr (.addSet "y" "x") {} = .ok r ∧
    (Machine.holding "y" (.num (.int 1))).Realizes r.code r.value (.ok (.num (.int 6), σ)) ∧
    σ "x" = some (.num (.int 5)) ∧ σ "y" = some (.num (.int 1)) := by
  have h := Node.isExpr_addSet (x := "y") (y := "x") (by decide) (by decide)
  have hσ := Machine.holds_holding (x := "y") (.num (.int 1)) (by decide)
  obtain ⟨r, hr, -, heval⟩ := h.realizes rfl hσ {}
  exact ⟨r, _, hr, heval (by decide), rfl, rfl⟩

end QuadScript
