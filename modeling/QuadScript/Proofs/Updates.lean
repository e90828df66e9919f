import QuadScript.Proofs.CallingConvention
import QuadScript.Proofs.EvaluationOrder
import QuadScript.Proofs.Initialization
import QuadScript.Proofs.Operators

/-!
# Increments and decrements

The code of an update steps its variable by the operator of sums or of differences. A difference is always one of
numbers, but a sum with a text is a text, so an update leaves the variable with its number and one more or less unless
it is an increment of a text (`Node.update_numeric_iff`). What it yields is right in every case: the new value, or the
number of the old one if the operator stands behind the variable.
-/

namespace QuadScript

open Lower Machine

/-! ### Steps of a variable -/

def updateWord (up : Bool) : String := if up then "++" else "--"

namespace Node

/-- An increment or a decrement of a variable; a leading operator gives the new value. -/
inductive IsUpdate (x : String) (up leading : Bool) : Node → Prop
  | mk {mark mark' : Mark} (h : mark'.name = some (.str x)) :
      IsUpdate x up leading (.mk mark (.update (.str (updateWord up)) leading (.mk mark' .identifier)))

/-- The assignment `x = +x + 1`, or `x = +x - 1`. -/
inductive IsNumericStep (x : String) (up : Bool) : Node → Prop
  | mk {mark mark' binary unary operand one : Mark} (h : mark'.name = some (.str x))
      (h' : operand.name = some (.str x)) :
      IsNumericStep x up (.mk mark (.assignment (.str "=") (.mk mark' .identifier)
        (.mk binary (.binary (.str (if up then "+" else "-"))
          (.mk unary (.unary (.str "+") (.mk operand .identifier))) (.mk one (.literal false (.num (.int 1))))))))

end Node

/-- The number that a value stands for, and one more or one less. -/
def Value.stepped (up : Bool) (v : Value) : Except Fault Value :=
  return .num (← if up then v.toNumber.add (.int 1) else v.toNumber.sub (.int 1)).collapse

def stepOp (up : Bool) : BinaryOp := if up then .add else .sub

theorem updateOp_updateWord (up : Bool) : updateOp (.str (updateWord up)) = stepOp up := by
  cases up <;> decide

namespace Value

variable {v : Value} {up : Bool}

theorem exists_stepped (up : Bool) (h : v.Exact) : ∃ n, v.stepped up = .ok (.num n) := by
  have hv := (toNumber_within Number.closed_exact h.within).fits
  have hone : (Number.int 1).Fits := Number.Exact.fits (show (1 : Int).natAbs ≤ Number.exactLimit by decide)
  cases up with
  | false =>
    obtain ⟨r, hr⟩ := Number.sub_ok hv hone
    exact ⟨r.collapse, by simp only [stepped, Bool.false_eq_true, if_false, hr]; rfl⟩
  | true =>
    obtain ⟨r, hr⟩ := Number.add_ok hv hone
    exact ⟨r.collapse, by simp only [stepped, if_true, hr]; rfl⟩

theorem eval_stepOp (h : up = true → ∀ t, v ≠ .str t) : (stepOp up).eval v (.num (.int 1)) = v.stepped up := by
  cases up with
  | false => rfl
  | true =>
    cases v with
    | str t => exact absurd rfl (h rfl t)
    | _ => rfl

theorem eval_stepOp_number (up : Bool) (v : Value) :
    (stepOp up).eval (.num v.toNumber) (.num (.int 1)) = v.stepped up := by
  cases up <;> rfl

theorem eval_stepOp_text (t : String) : (stepOp true).eval (.str t) (.num (.int 1)) = .ok (.str (t ++ "1")) := rfl

end Value

/-! ### The code of a step -/

variable {n : Node} {x : String} {up leading : Bool} {s : Supply}

theorem nameOperand_source (hx : isSourceName x = true) : nameOperand (.str x) = .name (mangle x) := ofSymbol_mangle hx

/-- The code of an increment or a decrement. -/
def loweredUpdate (up leading : Bool) (x : String) (s : Supply) : Lowered Operand :=
  if leading then
    ⟨.name (mangle x), [Quad.operator (.binary (stepOp up)) (.name (mangle x)) (.num (.int 1)) (tempName s.temps),
      Quad.assign (.name (tempName s.temps)) (.name (mangle x))], s.drawTemp⟩
  else
    ⟨.name (tempName s.temps), [Quad.operator (.unary .pos) (.name (mangle x)) .none (tempName s.temps),
      Quad.operator (.binary (stepOp up)) (.name (mangle x)) (.num (.int 1)) (tempName s.drawTemp.temps),
      Quad.assign (.name (tempName s.drawTemp.temps)) (.name (mangle x))], s.drawTemp.drawTemp⟩

/-- The code of the assignment of a number and one more or less. -/
def loweredNumericStep (up : Bool) (x : String) (s : Supply) : Lowered Operand :=
  ⟨.name (mangle x), [Quad.operator (.unary .pos) (.name (mangle x)) .none (tempName s.temps),
    Quad.operator (.binary (stepOp up)) (.name (tempName s.temps)) (.num (.int 1)) (tempName s.drawTemp.temps),
    Quad.assign (.name (tempName s.drawTemp.temps)) (.name (mangle x))], s.drawTemp.drawTemp⟩

theorem Node.IsUpdate.expr_eq (h : n.IsUpdate x up leading) (hx : isSourceName x = true) (s : Supply) :
    expr n s = .ok (loweredUpdate up leading x s) := by
  obtain ⟨hname⟩ := h
  have harg := assignee?_identifier hname
  cases leading with
  | true =>
    rw [expr_update_leading harg, updateOp_updateWord, nameOperand_source hx]
    rfl
  | false =>
    rw [expr_update_trailing harg, updateOp_updateWord, nameOperand_source hx]
    rfl

theorem Node.IsNumericStep.expr_eq (h : n.IsNumericStep x up) (hx : isSourceName x = true) (s : Supply) :
    expr n s = .ok (loweredNumericStep up x s) := by
  obtain ⟨hname, hname'⟩ := h
  have hop : binaryOp? (.str (if up then "+" else "-")) = .ok (some (stepOp up)) := by
    cases up <;> rfl
  rw [expr_assignment (assignee?_identifier hname) rfl]
  refine ⟨_, (expr_binary hop).2 ⟨_, (expr_unary rfl rfl).2 ⟨_, expr_identifier.2 rfl, rfl⟩, _, expr_literal.2 rfl,
    rfl⟩, ?_⟩
  rw [Mark.nameTree, hname', Option.getD_some, nameOperand_source hx]
  rfl

/-! ### Running it -/

namespace Machine

variable {code : Code} {m m₁ m' : Machine} {r : Lowered Operand} {v w u : Value} {y : String} {k : Nat}

theorem steps_unnumber : Steps code.unnumber k m m' ↔ Steps code k m m' := by
  rw [← steps_renumber, Code.renumber_unnumber, steps_renumber]

/-- In these steps nothing is written but the variable and temporaries that the supply has not given out. -/
structure StepsVariable (code : Code) (s : Supply) (x : String) (k : Nat) (m m' : Machine) : Prop where
  steps : Steps code k m m'
  eq : m' = { m with pc := m.pc + k, memory := m'.memory }
  keeps : ∀ key, key ≠ .text (mangle x) → (∀ i, s.temps ≤ i → key ≠ .text (tempName i)) →
    m'.memory.get? key = m.memory.get? key

/-- The run gets through the code of an expression. Then the variable holds a value, and the operand of the expression
stands for one. -/
def Leaves (m : Machine) (code : Code) (s : Supply) (r : Lowered Operand) (x : String) (w u : Value) : Prop :=
  ∃ m', StepsVariable code s x r.code.length m m' ∧ m'.memory.get? (.text (mangle x)) = some w ∧
    m'.memory.resolve r.value = .ok u

namespace StepsVariable

theorem refl (m : Machine) : StepsVariable code s x 0 m m := ⟨.refl m, rfl, fun _ _ _ => rfl⟩

theorem pc (h : StepsVariable code s x k m m₁) : m₁.pc = m.pc + k := by rw [h.eq]

theorem put (h : StepsVariable code s x k m m₁) (hadv : m₁.advance code code.labels = some (.ok (m₁.put y v)))
    (hy : y = mangle x ∨ ∃ i, s.temps ≤ i ∧ y = tempName i) : StepsVariable code s x (k + 1) m (m₁.put y v) := by
  refine ⟨h.steps.tail hadv, ?_, ?_⟩
  · rw [Machine.put, h.eq]
    rfl
  · intro key hvar htemps
    have hne : Key.text y ≠ key := by
      rintro rfl
      rcases hy with rfl | ⟨i, hi, rfl⟩
      · exact hvar rfl
      · exact htemps i hi rfl
    rw [Machine.put, Table.get?_set, if_neg hne]
    exact h.keeps key hvar htemps

theorem operator {op : Operator} {a b : Operand} {i : Nat} (h : StepsVariable code s x k m m₁)
    (hq : code[m.pc + k]? = some (Quad.operator op a b (tempName i))) (ha : m₁.memory.resolve a = .ok v)
    (hb : m₁.memory.resolve b = .ok w) (hu : op.eval v w = .ok u) (hi : s.temps ≤ i) :
    StepsVariable code s x (k + 1) m (m₁.put (tempName i) u) := by
  refine h.put ?_ (.inr ⟨i, hi, rfl⟩)
  rw [← h.pc] at hq
  rw [advance_of_getElem? hq, step_operator rfl ha hb hu]
  exact congrArg some write_name

theorem assign {a : Operand} (h : StepsVariable code s x k m m₁)
    (hq : code[m.pc + k]? = some (Quad.assign a (.name (mangle x)))) (ha : m₁.memory.resolve a = .ok v) :
    StepsVariable code s x (k + 1) m (m₁.put (mangle x) v) :=
  h.put (advance_assign (h.pc ▸ hq) ha) (.inl rfl)

end StepsVariable

theorem read_put_of_ne (m : Machine) (v : Value) (h : y ≠ x) : (m.put y v).memory.read x = m.memory.read x := by
  have hne : Key.text y ≠ .text x := fun he => h (Key.text.inj he)
  simp only [Memory.read, Machine.put, Table.get?_set, if_neg hne]

theorem leaves_leading (hat : code.At m.pc (loweredUpdate up true x s).code)
    (hw : (stepOp up).eval (m.memory.read (mangle x)) (.num (.int 1)) = .ok w) :
    m.Leaves code s (loweredUpdate up true x s) x w w := by
  have h₁ := (StepsVariable.refl m).operator (s := s) (x := x) hat.head rfl rfl hw (Nat.le_refl _)
  have h₂ := h₁.assign hat.tail.head (resolve_put _ _ _)
  exact ⟨_, h₂, get?_put _ _ _, resolve_put _ _ _⟩

theorem leaves_trailing (hat : code.At m.pc (loweredUpdate up false x s).code)
    (hw : (stepOp up).eval (m.memory.read (mangle x)) (.num (.int 1)) = .ok w) :
    m.Leaves code s (loweredUpdate up false x s) x w (.num (m.memory.read (mangle x)).toNumber) := by
  have hname (i : Nat) : mangle x ≠ tempName i := mangle_ne_tempName x i
  have hnew : tempName s.drawTemp.temps ≠ tempName s.temps := fun he => Nat.succ_ne_self _ (numbered_injective _ he)
  have h₁ := (StepsVariable.refl m).operator (s := s) (x := x) hat.head rfl rfl rfl (Nat.le_refl _)
  have h₂ := h₁.operator hat.tail.head (congrArg Except.ok (read_put_of_ne _ _ (hname _).symm)) rfl hw (Nat.le_succ _)
  have h₃ := h₂.assign hat.tail.tail.head (resolve_put _ _ _)
  refine ⟨_, h₃, get?_put _ _ _, ?_⟩
  -- neither the second temporary nor the variable is the temporary with the number
  exact (congrArg Except.ok ((read_put_of_ne _ _ (hname _)).trans (read_put_of_ne _ _ hnew))).trans (resolve_put _ _ _)

theorem leaves_numericStep (hat : code.At m.pc (loweredNumericStep up x s).code)
    (hw : (m.memory.read (mangle x)).stepped up = .ok w) : m.Leaves code s (loweredNumericStep up x s) x w w := by
  rw [← Value.eval_stepOp_number] at hw
  have h₁ := (StepsVariable.refl m).operator (s := s) (x := x) hat.head rfl rfl rfl (Nat.le_refl _)
  have h₂ := h₁.operator hat.tail.head (resolve_put _ _ _) rfl hw (Nat.le_succ _)
  have h₃ := h₂.assign hat.tail.tail.head (resolve_put _ _ _)
  exact ⟨_, h₃, get?_put _ _ _, resolve_put _ _ _⟩

theorem Leaves.of_unnumber (h : m.Leaves code.unnumber s r x w u) : m.Leaves code s r x w u := by
  obtain ⟨m', ⟨hsteps, heq, hkeeps⟩, hw, hu⟩ := h
  exact ⟨m', ⟨steps_unnumber.1 hsteps, heq, hkeeps⟩, hw, hu⟩

/-- Steps along the code of an update, wherever it stands. -/
theorem leaves_update (hhas : code.Has m.pc (loweredUpdate up leading x s).code) (hv : m.memory.read (mangle x) = v)
    (hw : (stepOp up).eval v (.num (.int 1)) = .ok w) :
    m.Leaves code s (loweredUpdate up leading x s) x w (if leading then w else .num v.toNumber) := by
  subst hv
  cases leading with
  | true => exact (leaves_leading hhas hw).of_unnumber
  | false => exact (leaves_trailing hhas hw).of_unnumber

end Machine

/-! ### Updates and numbers -/

/-- An update gets through, and then its variable holds the number of the old value and one more or one less, as it
does after the assignment that says so; only an increment of a text leaves a text instead. -/
theorem Node.update_numeric_iff {n n' : Node} {m : Machine} {v : Value} (hn : n.IsUpdate x up leading)
    (hn' : n'.IsNumericStep x up) (hx : isSourceName x = true) (hv : m.memory.read (mangle x) = v) (hexact : v.Exact)
    (s : Supply) : ∃ z w, v.stepped up = .ok z ∧
      (∃ r, expr n s = .ok r ∧ ∀ code : Code, code.Has m.pc r.code →
        m.Leaves code s r x w (if leading then w else .num v.toNumber)) ∧
      (∃ r, expr n' s = .ok r ∧ ∀ code : Code, code.Has m.pc r.code → m.Leaves code s r x z z) ∧
      (w = z ↔ ¬ (up = true ∧ ∃ t, v = .str t)) ∧ ∀ t, up = true → v = .str t → w = .str (t ++ "1") := by
  obtain ⟨z, hz⟩ := Value.exists_stepped up hexact
  have hstep : ∃ r, expr n' s = .ok r ∧
      ∀ code : Code, code.Has m.pc r.code → m.Leaves code s r x (.num z) (.num z) := by
    refine ⟨_, hn'.expr_eq hx s, ?_⟩
    intro code hhas
    exact (leaves_numericStep hhas (hv ▸ hz)).of_unnumber
  by_cases htext : up = true ∧ ∃ t, v = .str t
  · obtain ⟨rfl, t, rfl⟩ := htext
    refine ⟨.num z, .str (t ++ "1"), hz, ⟨_, hn.expr_eq hx s, ?_⟩, hstep, ?_, ?_⟩
    · intro code hhas
      exact leaves_update hhas hv (Value.eval_stepOp_text t)
    · exact iff_of_false Value.noConfusion fun h => h ⟨rfl, t, rfl⟩
    · rintro t' - ⟨⟩
      rfl
  · have hnumber : (stepOp up).eval v (.num (.int 1)) = .ok (.num z) := by
      rw [Value.eval_stepOp fun hup t ht => htext ⟨hup, t, ht⟩, hz]
    refine ⟨.num z, .num z, hz, ⟨_, hn.expr_eq hx s, ?_⟩, hstep, iff_of_true rfl htext, ?_⟩
    · intro code hhas
      exact leaves_update hhas hv hnumber
    · intro t hup ht
      exact absurd ⟨hup, t, ht⟩ htext

/-- The decrement of a text yields its number, and leaves the number before it. -/
theorem Node.update_numeric_iff_text :
    ∃ r, expr (.bare (.update (.str "--") false (.named "x"))) {} = .ok r ∧ ∀ code : Code, code.Has 0 r.code →
      (Machine.holding "x" (.str " 0x10 ")).Leaves code {} r "x" (.num (.int 15)) (.num (.int 16)) := by
  have hn : (Node.bare (.update (.str "--") false (.named "x"))).IsUpdate "x" false false := ⟨rfl⟩
  have hn' : (Node.set "x" (.binary "-" (.bare (.unary (.str "+") (.named "x"))) (.int 1))).IsNumericStep "x" false :=
    ⟨rfl, rfl⟩
  have hv : (Machine.holding "x" (.str " 0x10 ")).memory.read (mangle "x") = .str " 0x10 " := by rfl
  obtain ⟨z, w, hz, ⟨r, hr, hleaves⟩, -, hw, -⟩ := Node.update_numeric_iff hn hn' (by decide) hv trivial {}
  obtain rfl : z = .num (.int 15) := by
    have hstepped : Value.stepped false (.str " 0x10 ") = .ok (.num (.int 15)) := by rfl
    exact Except.ok.inj (hz.symm.trans hstepped)
  obtain rfl : w = .num (.int 15) := hw.2 fun h => absurd h.1 (by decide)
  exact ⟨r, hr, hleaves⟩

/-- Declares a variable with a text, steps it and prints it. -/
def Node.steppedText (step : Node) : Node := .bare (.program [
  .letOne "x" true (.bare (.literal false (.str "5"))), .bare (.expression step),
  .bare (.expression (.print [.named "x"]))])

/-- The increment of a text puts a digit behind it, where the assignment adds numbers. -/
theorem Node.increment_appends :
    (Node.bare (.update (.str "++") false (.named "x"))).IsUpdate "x" true false ∧
    (Node.set "x" (.binary "+" (.bare (.unary (.str "+") (.named "x"))) (.int 1))).IsNumericStep "x" true ∧
    (Node.steppedText (.bare (.update (.str "++") false (.named "x")))).lower.toOption.map
      (fun r => (run r.code 20 .nobody).output) = some ["51"] ∧
    (Node.steppedText (.set "x" (.binary "+" (.bare (.unary (.str "+") (.named "x"))) (.int 1)))).lower.toOption.map
      (fun r => (run r.code 20 .nobody).output) = some ["6"] := by
  refine ⟨⟨rfl⟩, ⟨rfl, rfl⟩, ?_, ?_⟩
  · decide +kernel
  · decide +kernel

end QuadScript
