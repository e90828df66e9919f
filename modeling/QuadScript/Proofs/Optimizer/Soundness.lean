import QuadScript.Proofs.Optimizer.Totality

/-!
# Passes keep what is printed

`Code.Refines code code'`: a safe run of `code` that ends is matched by one of `code'` that takes no more
instructions, prints the same and ends with the same fault. Every pass gives code that refines its
input and is again fit for a pass, so any number of passes does (`exists_optimize`); the outputs under one
ceiling are then equal (`Refines.run_output`).
-/

namespace QuadScript

open Machine

namespace Code

variable {code code' code'' : Code}

structure Refines (code code' : Code) : Prop where
  tame : code'.Tame Number.Exact
  link : code'.linkFault? = code.linkFault?
  ends : ∀ {answers : Answers} {n : Nat} {o : Outcome}, Ends Safe code n (start answers) o →
    ∃ n' ≤ n, ∃ o', Ends Safe code' n' (start answers) o' ∧ o'.fault = o.fault ∧
      o'.machine.output = o.machine.output

theorem Refines.trans (h : Refines code code') (h' : Refines code' code'') : Refines code code'' where
  tame := h'.tame
  link := h'.link.trans h.link
  ends he := by
    obtain ⟨n₁, hn₁, o₁, he₁, hf₁, ho₁⟩ := h.ends he
    obtain ⟨n₂, hn₂, o₂, he₂, hf₂, ho₂⟩ := h'.ends he₁
    exact ⟨n₂, hn₂.trans hn₁, o₂, he₂, hf₂.trans hf₁, ho₂.trans ho₁⟩

theorem Refines.of_same_ends (ht : code'.Tame Number.Exact) (hc : code'.map Quad.control = code.map Quad.control)
    (he : ∀ {answers : Answers} {n : Nat} {o : Outcome}, Ends Safe code n (start answers) o →
      Ends Safe code' n (start answers) o) : Refines code code' where
  tame := ht
  link := linkFault?_congr hc
  ends h := ⟨_, Nat.le_refl _, _, he h, rfl, rfl⟩

/-! ### The passes -/

theorem refines_refl (ht : code.Tame Number.Exact) : Refines code code := .of_same_ends ht rfl id

theorem refines_propagate {changed : Bool} (ht : code.Tame Number.Exact) (h : code.propagate = .ok (code', changed)) :
    Refines code code' := by
  obtain ⟨F, hF⟩ := exists_scan h
  exact .of_same_ends (hF.tame ht) hF.control_eq fun he => hF.ends ht (.start hF _) he

theorem refines_fold {changed : Bool} (ht : code.Tame Number.Exact) (h : code.fold = .ok (code', changed)) :
    Refines code code' := by
  have hf := foldsTo_of_fold h
  exact .of_same_ends (hf.tame Number.closed_exact ht) (hf.map_eq fun _ _ _ h => h.control) fun he => hf.ends ht he

theorem refines_live (ht : code.Tame Number.Exact) : Refines code code.live where
  tame := ht.live
  link := linkFault?_filter ht.droppable.keeps
  ends he := (Related.start _).ends_safe ht.droppable he

theorem refines_renumber (ht : code.Tame Number.Exact) : Refines code code.renumber := by
  have hlock := @lockstep_renumber code
  refine .of_same_ends ht.renumber control_renumber fun he => ?_
  refine hlock.ends (I := fun _ => True) ?_ (fun _ _ _ _ _ _ _ => trivial) he trivial
  rintro m q q' - - rfl hS
  rw [labels_congr control_renumber]
  exact ⟨hS, step_congr rfl rfl rfl (fun _ => ⟨rfl, rfl⟩) hlock.length⟩

/-! ### Any number of passes -/

theorem refines_pass {changed : Bool} (ht : code.Tame Number.Exact) (h : code.pass = .ok (code', changed)) :
    Refines code code' := by
  obtain ⟨⟨code₁, changed₁⟩, hpropagate, h⟩ := except_bind_eq_ok h
  obtain ⟨⟨code₂, changed₂⟩, hfold, h⟩ := except_bind_eq_ok h
  cases h
  have h₁ := refines_propagate ht hpropagate
  have h₂ := refines_fold h₁.tame hfold
  exact (h₁.trans h₂).trans (refines_live h₂.tame)

theorem refines_passes {n : Nat} (ht : code.Tame Number.Exact) (h : passes n code = .ok code') :
    Refines code code' := by
  induction n generalizing code with
  | zero =>
    cases h
    exact refines_refl ht
  | succ n ih =>
    obtain ⟨⟨code₁, changed⟩, hpass, h⟩ := except_bind_eq_ok h
    have h₁ := refines_pass ht hpass
    cases changed with
    | true => exact h₁.trans (ih h₁.tame h)
    | false => cases h; exact h₁

/-- The optimizer gives code that refines what it was given. -/
theorem exists_optimize (maxPasses : Int) (ht : code.Tame Number.Exact) :
    ∃ code', code.optimize maxPasses = .ok code' ∧ Refines code code' := by
  obtain ⟨code', h, -⟩ := ht.exists_optimize Number.closed_exact maxPasses
  refine ⟨code', h, ?_⟩
  obtain ⟨code₁, hpasses, h⟩ := except_bind_eq_ok h
  cases h
  have h₁ := refines_passes ht hpasses
  exact h₁.trans (refines_renumber h₁.tame)

/-! ### Output -/

/-- Code prints what the code it refines prints, if that run is safe and not cut off. -/
theorem Refines.run_output (h : Refines code code') {maxSteps : Int} {answers : Answers}
    (hsafe : ∀ m q, Machine.Performs code maxSteps answers m q → m.Safe q)
    (hlimit : (execute code maxSteps answers).fault ≠ some (.stepLimit maxSteps)) :
    (run code' maxSteps answers).output = (run code maxSteps answers).output := by
  unfold run execute at *
  rw [h.link]
  cases hlink : code.linkFault? with
  | some fault => rfl
  | none =>
    rw [hlink] at hlimit
    obtain ⟨n, hn, he⟩ := ends_of_runFor (fun k hk m q hs hq => hsafe m q ⟨hlink, hq, k, hk, hs⟩) hlimit
    obtain ⟨n', hn', o', he', hfault, houtput⟩ := h.ends he
    have hrun := he'.runFor maxSteps (hn'.trans hn)
    change (Outcome.report (runFor code' code'.labels maxSteps maxSteps.toNat (start answers))).output = _
    rw [hrun, report_output, report_output, hfault, houtput]
    rfl

end Code

/-! ### Programs -/

/-- Optimized programs print what the programs print. The program is plain with exact integers, and its run is
not cut off by the ceiling; operators succeed in it, and neutral operands are exact. -/
theorem Node.optimize_keeps_output {n : Node} {l : Lowered Unit} (hplain : n.Plain Number.Exact)
    (hl : n.lower = .ok l) (maxPasses maxSteps : Int) (answers : Answers)
    (hlimit : (execute l.code maxSteps answers).fault ≠ some (.stepLimit maxSteps))
    (hsafe : ∀ m q, Machine.Performs l.code maxSteps answers m q → m.OperatesSafely q) :
    ∃ code, l.code.optimize maxPasses = .ok code ∧
      (run code maxSteps answers).output = (run l.code maxSteps answers).output := by
  obtain ⟨c, hc, htame⟩ := tame_of_lower (by unfold Number.Exact; decide) hplain hl
  have htame' : l.code.Tame Number.Exact := hc ▸ (Code.refines_renumber htame).tame
  obtain ⟨code, hcode, hrefines⟩ := Code.exists_optimize maxPasses htame'
  refine ⟨code, hcode, hrefines.run_output (fun m q hq => ⟨?_, hsafe m q hq⟩) hlimit⟩
  obtain ⟨-, hpc, k, -, hsteps⟩ := hq
  exact readsPresent_of_reachable hl ⟨k, hsteps⟩ hpc

/-- A function that adds a zero, called in a loop. -/
def twiceProgram : Node := .bare (.program [
  .bare (.function (.named "twice") [.mk (.ok .none) (.ok (.str "n")) .absent] (.bare (.block [
    .bare (.return (.binary "+" (.binary "*" (.named "n") (.int 2)) (.int 0)))]))),
  .bare (.expression (.set "i" (.int 0))),
  .bare (.while (.binary "<" (.named "i") (.int 2)) (.bare (.block [
    .bare (.expression (.print [.bare (.call (.named "twice") [.named "i"])])),
    .bare (.expression (.set "i" (.binary "+" (.named "i") (.int 1))))])))])

def twiceCode : Code := Code.renumber [
  Quad.goto "END_FUNC_twice", Quad.label "FUNC_twice", Quad.receive (.name "n"),
  Quad.operator (.binary .mul) (.name "n") (.num (.int 2)) "t0",
  Quad.operator (.binary .add) (.name "t0") (.num (.int 0)) "t1",
  Quad.ret (.name "t1"), Quad.ret void, Quad.label "END_FUNC_twice",
  Quad.assign (.num (.int 0)) (.name "i"), Quad.label "L0",
  Quad.operator (.binary .lt) (.name "i") (.num (.int 2)) "t2", Quad.jumpIfFalse (.name "t2") "L1",
  Quad.param (.name "i"), Quad.call "FUNC_twice" 1 (.name "t3"), Quad.param (.name "t3"), Quad.call "console_log" 1 .none,
  Quad.operator (.binary .add) (.name "i") (.num (.int 1)) "t4", Quad.assign (.name "t4") (.name "i"),
  Quad.goto "L0", Quad.label "L1"]

theorem twiceProgram_lower :
    twiceProgram.lower = .ok ⟨(), twiceCode, { temps := 5, labels := 2, functions := ["twice"] }⟩ := by
  cbv

theorem twiceProgram_plain : twiceProgram.Plain Number.Exact := by
  simp [twiceProgram, Node.bare, Node.named, Node.int, Node.binary, Node.set, Node.print, Node.Plain, Form.Plain,
    Node.PlainList, Mark.Plain, Param.Plain, Tree.Scalar, Number.Exact]
  decide

theorem Node.optimize_keeps_output_twice :
    ∃ code, twiceCode.optimize 10 = .ok code ∧ (run code 60 (.scripted [])).output = (run twiceCode 60 (.scripted [])).output ∧
      (run twiceCode 60 (.scripted [])).output = ["0", "2"] := by
  have hlimit : (execute twiceCode 60 (.scripted [])).fault = none := by rfl
  obtain ⟨code, hcode, houtput⟩ := optimize_keeps_output twiceProgram_plain twiceProgram_lower 10 60 (.scripted [])
    (by rw [hlimit]; nofun) (Machine.Performs.of_after (by decide +kernel))
  exact ⟨code, hcode, houtput, by decide +kernel⟩

end QuadScript
