import QuadScript.Optimizer.Basic
import QuadScript.Proofs.Optimizer.Fold
import QuadScript.Proofs.Optimizer.Propagate
import QuadScript.Proofs.Renaming.Machine

/-!
# The optimizer under other names

Every pass gives, for renamed code, the renamed code that it gives for the code. What a pass knows of names is
renamed with them (`Facts.rename`); which names are temporaries and which operands are constants stays.
-/

namespace QuadScript

variable {ρ : String → String}

theorem except_map_bind {ε α β γ δ : Type} {f : α → β} {g : γ → δ} {x : Except ε α} {k : α → Except ε γ}
    {k' : β → Except ε δ} (h : ∀ a, k' (f a) = (k a).map g) : x.map f >>= k' = (x >>= k).map g := by
  cases x with
  | ok a => exact h a
  | error e => rfl

/-! ### Operands and targets -/

theorem Operand.temp?_rename (hρ : NameMap ρ) (a : Operand) : (a.rename ρ).temp? = a.temp? := by
  cases a with
  | name s =>
    unfold rename temp?
    dsimp only
    rw [hρ.isTempName]
    split
    · rename_i hs; rw [hρ.temp s hs]
    · rfl
  | _ => rfl

theorem Target.temp?_rename (hρ : NameMap ρ) (x : Target) : (x.rename ρ).temp? = x.temp? := by
  cases x with
  | name s => exact Operand.temp?_rename hρ (.name s)
  | _ => rfl

theorem Operand.literal?_rename (a : Operand) : (a.rename ρ).literal? = a.literal? := by cases a <;> rfl

theorem Operand.isLiteral_rename (a : Operand) : (a.rename ρ).isLiteral = a.isLiteral := by cases a <;> rfl

theorem Operand.isConst_rename (n : Number) (a : Operand) : (a.rename ρ).isConst n = a.isConst n := by cases a <;> rfl

theorem Operand.rename_of_literal? {a : Operand} {v : Value} (h : a.literal? = some v) : a.rename ρ = a := by
  cases a with
  | bool b => rfl
  | num n => rfl
  | text s => rfl
  | _ => cases h

/-! ### Propagation -/

namespace Facts

def rename (ρ : String → String) (facts : Facts) : Facts where
  temps := facts.temps.map ρ (Operand.rename ρ)
  names := facts.names.map (Key.rename ρ) (Operand.rename ρ)

variable {facts : Facts} {q : Quad} {place : Nat}

theorem known?_rename (hρ : NameMap ρ) (s : String) :
    (facts.rename ρ).known? (ρ s) = (facts.known? s).map (Operand.rename ρ) := by
  have htemps := Table.get?_map hρ.injective (Operand.rename ρ) facts.temps s
  have hnames := Table.get?_map (Key.rename_keyMap hρ.injective).injective (Operand.rename ρ) facts.names (.text s)
  unfold known? rename
  dsimp only
  rw [htemps]
  cases facts.temps.get? s with
  | some a => rfl
  | none => exact hnames

theorem replace_rename (hρ : NameMap ρ) (a : Operand) :
    (facts.rename ρ).replace (a.rename ρ) = Prod.map (Operand.rename ρ) id (facts.replace a) := by
  cases a with
  | name s =>
    unfold Operand.rename replace
    dsimp only
    rw [known?_rename hρ]
    cases facts.known? s <;> rfl
  | _ => rfl

theorem surviving_rename : (facts.rename ρ).surviving (q.rename ρ) = (facts.surviving q).rename ρ := by
  unfold surviving
  rw [Quad.rename_op]
  split <;> rfl

theorem learn_rename (hρ : NameMap ρ) (x : Target) (a : Operand) :
    (facts.rename ρ).learn place (x.rename ρ) (a.rename ρ) = (facts.learn place x a).map (rename ρ) := by
  unfold learn
  rw [Target.temp?_rename hρ, Target.key_rename]
  cases hx : x.temp? with
  | some s =>
    have hset := Table.set_map hρ.injective (Operand.rename ρ) facts.temps s a
    rw [hρ.temp s (Target.temp?_eq_some hx).2] at hset
    exact congrArg (fun temps => Except.ok { facts.rename ρ with temps := temps }) hset.symm
  | none =>
    refine except_map_bind fun k => ?_
    have hset := Table.setKey_map (f := Operand.rename ρ) (t := facts.names) (k := k) (Key.rename_keyMap hρ.injective) a
    exact congrArg (fun names => Except.ok { facts.rename ρ with names := names }) hset.symm

theorem forget_rename (hρ : NameMap ρ) (x : Target) :
    (facts.rename ρ).forget place (x.rename ρ) = (facts.forget place x).map (rename ρ) := by
  have hnone : (x.rename ρ).isNone = x.isNone := by cases x <;> rfl
  have hempty : (facts.rename ρ).names.entries.isEmpty = facts.names.entries.isEmpty := List.isEmpty_map
  unfold forget
  rw [hnone, hempty, Target.key_rename]
  split
  · rfl
  · refine except_map_bind fun k => ?_
    have herase :=
      Table.eraseKey_map (f := Operand.rename ρ) (t := facts.names) (k := k) (Key.rename_keyMap hρ.injective)
    exact congrArg (fun names => Except.ok { facts.rename ρ with names := names }) herase.symm

theorem after_rename (hρ : NameMap ρ) :
    (facts.rename ρ).after place (q.rename ρ) = (facts.after place q).map (rename ρ) := by
  unfold after
  rw [Quad.rename_op, surviving_rename]
  by_cases hop : q.op = .assign
  · rw [Quad.rename_arg1 (by rw [hop]; nofun), Quad.rename_result (by rw [hop]; rfl), Operand.isLiteral_rename]
    dsimp only
    split
    · exact learn_rename hρ q.result q.arg1
    · split
      · exact forget_rename hρ q.result
      · rfl
  · simp only [hop, decide_false, Bool.false_and, Bool.false_eq_true, if_false]
    split
    · rename_i hw
      rw [Quad.rename_result hw]
      exact forget_rename hρ q.result
    · rfl

end Facts

theorem Quad.propagate_rename (hρ : NameMap ρ) (facts : Facts) (q : Quad) :
    (q.rename ρ).propagate (facts.rename ρ) = Prod.map (Quad.rename ρ) id (q.propagate facts) := by
  unfold propagate
  rw [rename_op]
  by_cases hop : q.op = .call
  · rw [if_pos hop, if_pos hop]
    rfl
  · rw [if_neg hop, if_neg hop, rename_arg1 hop, rename_arg2 hop, Facts.replace_rename hρ, Facts.replace_rename hρ]
    simp only [Prod.map, rename, if_neg hop, id]

namespace Code

variable {code code' : Code}

theorem propagateFrom_rename (hρ : NameMap ρ) (facts : Facts) : propagateFrom (facts.rename ρ) (code.rename ρ) =
    (propagateFrom facts code).map (Prod.map (rename ρ) id) := by
  induction code generalizing facts with
  | nil => rfl
  | cons q rest ih =>
    have hcons : rename ρ (q :: rest) = q.rename ρ :: rename ρ rest := rfl
    have hlen : (rename ρ rest).length = rest.length := List.length_map _
    rw [hcons, propagateFrom_cons, propagateFrom_cons, Quad.propagate_rename hρ, hlen]
    dsimp only [Prod.map]
    rw [Facts.after_rename hρ]
    refine except_map_bind fun facts' => ?_
    rw [ih]
    exact except_map_bind fun r => rfl

theorem propagate_rename (hρ : NameMap ρ) :
    (code.rename ρ).propagate = code.propagate.map (Prod.map (rename ρ) id) :=
  propagateFrom_rename hρ {}

end Code

/-! ### Folding -/

namespace Operator

variable {op : Operator} {a b : Operand}

theorem constant?_rename :
    op.constant? (a.rename ρ) (b.rename ρ) = (op.constant? a b).map (Option.map (Operand.rename ρ)) := by
  have hsame : op.constant? (a.rename ρ) (b.rename ρ) = op.constant? a b := by
    unfold constant?
    rw [Operand.literal?_rename, Operand.literal?_rename]
  rw [hsame]
  cases h : op.constant? a b with
  | error fault => rfl
  | ok c =>
    cases c with
    | none => rfl
    | some c =>
      obtain ⟨v, hv, -⟩ := constant?_eq_some h
      exact congrArg (fun c => Except.ok (some c)) (Operand.rename_of_literal? hv).symm

theorem simplified?_rename :
    op.simplified? (a.rename ρ) (b.rename ρ) = (op.simplified? a b).map (Operand.rename ρ) := by
  unfold simplified?
  simp only [Operand.isConst_rename]
  split
  · split <;> rfl
  · split
    · rfl
    · split <;> rfl
  · rfl

theorem folded?_rename :
    op.folded? (a.rename ρ) (b.rename ρ) = (op.folded? a b).map (Option.map (Operand.rename ρ)) := by
  unfold folded?
  rw [constant?_rename, simplified?_rename]
  refine except_map_bind fun c => ?_
  cases c <;> rfl

end Operator

theorem Quad.fold?_rename (q : Quad) : (q.rename ρ).fold? = q.fold?.map (Option.map (Quad.rename ρ)) := by
  unfold fold?
  rw [rename_op]
  cases hop : q.op with
  | operator op =>
    rw [rename_arg1 (by rw [hop]; nofun), rename_arg2 (by rw [hop]; nofun), rename_result (by rw [hop]; rfl)]
    dsimp only
    rw [Operator.folded?_rename]
    refine except_map_bind fun c => ?_
    cases c <;> rfl
  | _ => rfl

theorem Code.fold_rename {code : Code} : (code.rename ρ).fold = code.fold.map (Prod.map (rename ρ) id) := by
  induction code with
  | nil => rfl
  | cons q rest ih =>
    have hcons : rename ρ (q :: rest) = q.rename ρ :: rename ρ rest := rfl
    rw [hcons, fold_cons, fold_cons, Quad.fold?_rename, ih]
    refine except_map_bind fun q' => except_map_bind fun r => ?_
    cases q' <;> rfl

/-! ### Dead temporaries -/

theorem Quad.usedTemps_rename (hρ : NameMap ρ) (q : Quad) : (q.rename ρ).usedTemps = q.usedTemps := by
  unfold usedTemps rename
  dsimp only
  split
  · rfl
  · rw [Operand.temp?_rename hρ, Operand.temp?_rename hρ]

theorem Quad.isLive_rename (hρ : NameMap ρ) (used : List String) (q : Quad) :
    (q.rename ρ).isLive used = q.isLive used := by
  have hres : (q.rename ρ).result.temp? = q.result.temp? := by
    unfold rename
    dsimp only
    split
    · exact Target.temp?_rename hρ q.result
    · rfl
  unfold isLive
  rw [rename_op, hres]

namespace Code

variable {code code' : Code}

theorem dropDead_rename (hρ : NameMap ρ) : (code.rename ρ).dropDead = Prod.map (rename ρ) id code.dropDead := by
  have hused : (code.rename ρ).usedTemps = code.usedTemps := by
    unfold usedTemps rename
    rw [List.flatMap_map]
    exact List.flatMap_congr fun q _ => Quad.usedTemps_rename hρ q
  have hkept : (code.rename ρ).filter (Quad.isLive code.usedTemps) =
      rename ρ (code.filter (Quad.isLive code.usedTemps)) := by
    unfold rename
    rw [List.filter_map]
    exact congrArg _ (List.filter_congr fun q _ => Quad.isLive_rename hρ _ q)
  unfold dropDead
  dsimp only
  rw [hused, hkept]
  simp [rename]

/-! ### Passes -/

theorem pass_rename (hρ : NameMap ρ) : (code.rename ρ).pass = code.pass.map (Prod.map (rename ρ) id) := by
  unfold pass
  rw [propagate_rename hρ]
  refine except_map_bind fun r => ?_
  dsimp only [Prod.map]
  rw [fold_rename]
  refine except_map_bind fun r' => ?_
  dsimp only [Prod.map]
  rw [dropDead_rename hρ]
  rfl

theorem passes_rename (hρ : NameMap ρ) (n : Nat) : passes n (code.rename ρ) = (passes n code).map (rename ρ) := by
  induction n generalizing code with
  | zero => rfl
  | succ n ih =>
    unfold passes
    rw [pass_rename hρ]
    refine except_map_bind fun r => ?_
    dsimp only [Prod.map, id]
    split
    · exact ih
    · rfl

theorem renumber_rename : (code.rename ρ).renumber = rename ρ code.renumber := by
  apply List.ext_getElem?
  intro i
  unfold rename
  rw [getElem?_renumber, List.getElem?_map, List.getElem?_map, getElem?_renumber, Option.map_map, Option.map_map]
  rfl

theorem optimize_rename (hρ : NameMap ρ) (maxPasses : Int) :
    (code.rename ρ).optimize maxPasses = (code.optimize maxPasses).map (rename ρ) := by
  unfold optimize
  rw [passes_rename hρ]
  exact except_map_bind fun c => congrArg Except.ok renumber_rename

/-! ### Calls -/

theorem CallsDrawn.renumber (hc : code.CallsDrawn) : code.renumber.CallsDrawn := by
  intro q hq hop
  obtain ⟨i, hi⟩ := List.mem_iff_getElem?.1 hq
  rw [getElem?_renumber, Option.map_eq_some_iff] at hi
  obtain ⟨q₀, hq₀, rfl⟩ := hi
  exact hc q₀ (List.mem_of_getElem? hq₀) hop

theorem CallsDrawn.pass {changed : Bool} (hc : code.CallsDrawn) (h : code.pass = .ok (code', changed)) :
    code'.CallsDrawn := by
  obtain ⟨⟨code₁, changed₁⟩, hprop, h⟩ := except_bind_eq_ok h
  obtain ⟨⟨code₂, changed₂⟩, hfold, h⟩ := except_bind_eq_ok h
  cases h
  obtain ⟨F, hF⟩ := exists_scan hprop
  have h₁ : code₁.CallsDrawn := hF.lockstep.forall_mem hc fun i q q' _ hq' hq => by
    rw [hq', Quad.propagate_op, Quad.propagate_result]
    exact hq
  have h₂ : code₂.CallsDrawn := (foldsTo_of_fold hfold).forall_mem h₁ fun i q q' _ hq' hq hop => by
    rw [hq'.result]
    rcases hq'.op with hsame | ⟨hassign, -⟩
    · exact hq (hsame ▸ hop)
    · rw [hassign] at hop; cases hop
  exact fun q hq => h₂ q (List.mem_filter.1 hq).1

theorem CallsDrawn.passes {n : Nat} (hc : code.CallsDrawn) (h : passes n code = .ok code') : code'.CallsDrawn := by
  induction n generalizing code with
  | zero => cases h; exact hc
  | succ n ih =>
    obtain ⟨⟨code₁, changed⟩, hpass, h⟩ := except_bind_eq_ok h
    cases changed with
    | true => exact ih (hc.pass hpass) h
    | false => cases h; exact hc.pass hpass

theorem CallsDrawn.optimize {maxPasses : Int} (hc : code.CallsDrawn) (h : code.optimize maxPasses = .ok code') :
    code'.CallsDrawn := by
  obtain ⟨code₁, hpasses, h⟩ := except_bind_eq_ok h
  cases h
  exact (hc.passes hpasses).renumber

/-- Optimized code prints the same under other names, and the optimizer fails on both codes or on none. -/
theorem optimize_rename_output (hρ : NameMap ρ) (hc : code.CallsDrawn) (maxPasses maxSteps : Int) (answers : Answers) :
    ((code.rename ρ).optimize maxPasses).map (fun c => (Machine.run c maxSteps answers).output) =
      (code.optimize maxPasses).map fun c => (Machine.run c maxSteps answers).output := by
  rw [optimize_rename hρ]
  cases hopt : code.optimize maxPasses with
  | error fault => rfl
  | ok code' => exact congrArg Except.ok (Machine.run_rename hρ (hc.optimize hopt) maxSteps answers)

end Code

end QuadScript
