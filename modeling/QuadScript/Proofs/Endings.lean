import QuadScript.Proofs.Labels

/-!
# Runs that end

`Machine.Ends S code n m o`: from `m` the run of the code ends after `n` instructions with the outcome
`o`, and `S` held before every instruction. A run with a ceiling that does not reach it is one that
ends (`ends_of_runFor`), and a run that ends has the same outcome under every ceiling that allows it
(`Ends.runFor`). Transformations of code are proved sound by induction on `Ends`. A transformation that keeps
every step gives code that runs in step with its source (`Machine.InStep`).
-/

namespace QuadScript

/-- The operands whose values an instruction takes. -/
def Quad.reads (q : Quad) : List Operand :=
  match q.op with
  | .assign => [q.arg1]
  | .operator _ => [q.arg1, q.arg2]
  | .jumpIfFalse => [q.arg1]
  | .param => [q.arg1]
  | .ret => [q.arg1]
  | _ => []

theorem Quad.eq_arg_of_mem_reads {q : Quad} {a : Operand} (h : a ∈ q.reads) : a = q.arg1 ∨ a = q.arg2 := by
  unfold reads at h
  cases hop : q.op <;> simp_all

namespace Machine

variable {code code' : Code} {labels : Labels} {m m' : Machine} {q q' : Quad}

/-! ### Instructions with the same effect -/

theorem resolve_congr {a a' : Operand} (h : m.memory.resolve a' = m.memory.resolve a) :
    m.resolve a' = m.resolve a := by
  unfold resolve; rw [h]

theorem leave_congr (v : Value) (hlen : code'.length = code.length) : m.leave code' v = m.leave code v := by
  unfold leave; rw [hlen]

theorem call_congr (h₁ : q'.arg1 = q.arg1) (h₂ : q'.arg2 = q.arg2) (hres : q'.result = q.result) :
    m.call labels q' = m.call labels q := by
  unfold call callNamed callIntrinsic enter
  rw [h₁, h₂, hres]

/-- Instructions of one sort with one target and equal values of their operands do the same. -/
theorem step_congr (hop : q'.op = q.op) (hres : q'.result = q.result)
    (hreads : q'.reads.map m.memory.resolve = q.reads.map m.memory.resolve)
    (hcall : q.op = .call → q'.arg1 = q.arg1 ∧ q'.arg2 = q.arg2) (hlen : code'.length = code.length) :
    m.step code' labels q' = m.step code labels q := by
  unfold Quad.reads at hreads
  unfold step
  rw [hop] at hreads ⊢
  -- a call does not read its operands but takes them as they are
  cases h : q.op with
  | call => exact call_congr (hcall h).1 (hcall h).2 hres
  | assign =>
    simp only [h, List.map_cons, List.map_nil, List.cons.injEq] at hreads
    simp only [resolve_congr hreads.1, hres]
  | operator op =>
    simp only [h, List.map_cons, List.map_nil, List.cons.injEq] at hreads
    simp only [resolve_congr hreads.1, resolve_congr hreads.2.1, hres]
  | jumpIfFalse =>
    simp only [h, List.map_cons, List.map_nil, List.cons.injEq] at hreads
    simp only [resolve_congr hreads.1, hres]
  | param =>
    simp only [h, List.map_cons, List.map_nil, List.cons.injEq] at hreads
    simp only [resolve_congr hreads.1]
  | ret =>
    simp only [h, List.map_cons, List.map_nil, List.cons.injEq] at hreads
    simp only [resolve_congr hreads.1, leave_congr _ hlen]
  | goto => simp only [hres]
  | receive => simp only [hres]
  | label => rfl
  | unknown word => rfl

/-! ### Positions in the listing -/

end Machine

namespace Code

variable {code : Code}

theorem getElem?_renumber (i : Nat) : code.renumber[i]? = code[i]?.map fun q => { q with index := i } := by
  simp [renumber]

theorem map_renumber {α : Type} {f : Quad → α} (hf : ∀ q i, f { q with index := i } = f q) :
    code.renumber.map f = code.map f := by
  apply List.ext_getElem?
  intro i
  rw [List.getElem?_map, List.getElem?_map, getElem?_renumber, Option.map_map]
  exact congrArg (Option.map · _) (funext fun q => hf q i)

theorem control_renumber : code.renumber.map Quad.control = code.map Quad.control :=
  map_renumber fun _ _ => rfl

end Code

namespace Machine

variable {code code' : Code} {labels : Labels} {m m' : Machine} {q q' : Quad} {answers : Answers}

theorem advance_renumber : m.advance code.renumber code.renumber.labels = m.advance code code.labels := by
  unfold advance
  rw [Code.labels_congr Code.control_renumber, Code.getElem?_renumber, Option.map_map]
  cases code[m.pc]? with
  | none => rfl
  | some q =>
    exact congrArg some (step_congr rfl rfl rfl (fun _ => ⟨rfl, rfl⟩) (by simp [Code.renumber]))

theorem steps_renumber {n : Nat} : Steps code.renumber n m m' ↔ Steps code n m m' := by
  constructor
  · intro h
    induction h with
    | refl m => exact .refl m
    | head hs _ ih => exact .head (advance_renumber ▸ hs) ih
  · intro h
    induction h with
    | refl m => exact .refl m
    | head hs _ ih => exact .head (advance_renumber.trans hs) ih

theorem reachable_renumber : Reachable code.renumber answers m ↔ Reachable code answers m := by
  simp only [Reachable, steps_renumber]

/-- The positions that instructions know do not matter to a run. -/
theorem execute_renumber (maxSteps : Int) : execute code.renumber maxSteps answers = execute code maxSteps answers := by
  unfold execute
  rw [Code.linkFault?_congr Code.control_renumber]
  cases code.linkFault? with
  | some fault => rfl
  | none =>
    exact runFor_congr (P := fun _ => True) (fun m _ => advance_renumber) (fun _ _ _ _ => trivial) maxSteps _ trivial

/-! ### Endings -/

/-- From a machine, the run ends after that many instructions with that outcome, and `S` holds before
every instruction. -/
inductive Ends (S : Machine → Quad → Prop) (code : Code) : Nat → Machine → Outcome → Prop
  | done {m : Machine} (hq : code[m.pc]? = none) : Ends S code 0 m { machine := m }
  | fail {m : Machine} {q : Quad} {f : Failure} (hq : code[m.pc]? = some q) (hS : S m q)
      (hf : m.step code code.labels q = .error f) :
      Ends S code 1 m { machine := f.machine, fault := some f.fault }
  | step {m m₁ : Machine} {q : Quad} {n : Nat} {o : Outcome} (hq : code[m.pc]? = some q) (hS : S m q)
      (hm : m.step code code.labels q = .ok m₁) (h : Ends S code n m₁ o) : Ends S code (n + 1) m o

variable {S : Machine → Quad → Prop} {n : Nat} {o : Outcome}

theorem runFor_succ (ceiling : Int) (fuel : Nat) (hq : code[m.pc]? = some q) :
    runFor code labels ceiling (fuel + 1) m = match m.step code labels q with
      | .ok m => runFor code labels ceiling fuel m
      | .error f => { machine := f.machine, fault := some f.fault } := by
  have hadv : m.advance code labels = some (m.step code labels q) := advance_of_getElem? hq
  cases hs : m.step code labels q with
  | ok m₁ => rw [runFor, hadv, hs]
  | error f => rw [runFor, hadv, hs]

theorem Ends.mono {S' : Machine → Quad → Prop} (h : Ends S code n m o) (hS : ∀ m q, S m q → S' m q) :
    Ends S' code n m o := by
  induction h with
  | done hq => exact .done hq
  | fail hq hSq hf => exact .fail hq (hS _ _ hSq) hf
  | step hq hSq hm _ ih => exact .step hq (hS _ _ hSq) hm ih

theorem Ends.runFor (h : Ends S code n m o) (ceiling : Int) {fuel : Nat} (hn : n ≤ fuel) :
    runFor code code.labels ceiling fuel m = o := by
  induction h generalizing fuel with
  | done hq => unfold Machine.runFor; rw [advance, hq]; rfl
  | fail hq _ hf =>
    obtain ⟨k, rfl⟩ : ∃ k, fuel = k + 1 := ⟨fuel - 1, by omega⟩
    rw [runFor_succ ceiling k hq, hf]
  | step hq _ hm _ ih =>
    obtain ⟨k, rfl⟩ : ∃ k, fuel = k + 1 := ⟨fuel - 1, by omega⟩
    rw [runFor_succ ceiling k hq, hm]
    exact ih (by omega)

theorem execute_of_linked (h : code.linkFault? = none) (maxSteps : Int) :
    execute code maxSteps answers = runFor code code.labels maxSteps maxSteps.toNat (start answers) := by
  unfold execute; rw [h]; rfl

/-- How many instructions are executed with this much fuel; one that fails counts. -/
def stepsFor (code : Code) (labels : Labels) : Nat → Machine → Nat
  | 0, _ => 0
  | fuel + 1, m =>
    match m.advance code labels with
    | none => 0
    | some (.error _) => 1
    | some (.ok m) => stepsFor code labels fuel m + 1

/-- How many instructions a run executes. -/
def stepCount (code : Code) (maxSteps : Int) (answers : Answers) : Nat :=
  match code.linkFault? with
  | some _ => 0
  | none => stepsFor code code.labels maxSteps.toNat (start answers)

theorem Ends.stepsFor_eq (h : Ends S code n m o) {fuel : Nat} (hn : n ≤ fuel) :
    stepsFor code code.labels fuel m = n := by
  induction h generalizing fuel with
  | done hq =>
    cases fuel with
    | zero => rfl
    | succ k => rw [stepsFor, advance, hq]; rfl
  | fail hq _ hf =>
    obtain ⟨k, rfl⟩ : ∃ k, fuel = k + 1 := ⟨fuel - 1, by omega⟩
    rw [stepsFor, advance_of_getElem? hq, hf]
  | step hq _ hm _ ih =>
    obtain ⟨k, rfl⟩ : ∃ k, fuel = k + 1 := ⟨fuel - 1, by omega⟩
    rw [stepsFor, advance_of_getElem? hq, hm]
    exact congrArg (· + 1) (ih (by omega))

theorem ends_of_runFor {ceiling : Int} {fuel : Nat}
    (hS : ∀ k < fuel, ∀ m' q, Steps code k m m' → code[m'.pc]? = some q → S m' q)
    (hfault : (runFor code code.labels ceiling fuel m).fault ≠ some (.stepLimit ceiling)) :
    ∃ n ≤ fuel, Ends S code n m (runFor code code.labels ceiling fuel m) := by
  -- a run that uses up its fuel has the fault of the ceiling, which is excluded
  induction fuel generalizing m with
  | zero =>
    cases hq : code[m.pc]? with
    | none =>
      rw [runFor_of_end ceiling 0 (by simp [advance, hq])]
      exact ⟨0, Nat.le_refl 0, .done hq⟩
    | some q =>
      unfold runFor at hfault
      rw [advance_of_getElem? hq] at hfault
      exact absurd rfl hfault
  | succ fuel ih =>
    cases hq : code[m.pc]? with
    | none =>
      rw [runFor_of_end ceiling _ (by simp [advance, hq])]
      exact ⟨0, Nat.zero_le _, .done hq⟩
    | some q =>
      rw [runFor_succ ceiling fuel hq] at hfault ⊢
      cases hm : m.step code code.labels q with
      | error f =>
        exact ⟨1, by omega, .fail hq (hS 0 (by omega) m q (.refl m) hq) hm⟩
      | ok m₁ =>
        rw [hm] at hfault
        have hadv : m.advance code code.labels = some (.ok m₁) := by rw [advance_of_getElem? hq, hm]
        obtain ⟨n, hn, h⟩ := ih (fun k hk m' q' hs => hS (k + 1) (by omega) m' q' (.head hadv hs)) hfault
        exact ⟨n + 1, by omega, .step hq (hS 0 (by omega) m q (.refl m) hq) hm h⟩

theorem report_output (o : Outcome) : o.report.output =
    o.machine.output ++ (o.fault.map fun fault => errorMark ++ fault.message).toList := by
  unfold Outcome.report
  split <;> simp [*]

/-- The run under a ceiling comes to a machine and executes this instruction in it. -/
def Performs (code : Code) (maxSteps : Int) (answers : Answers) (m : Machine) (q : Quad) : Prop :=
  code.linkFault? = none ∧ code[m.pc]? = some q ∧ ∃ k < maxSteps.toNat, Steps code k (start answers) m

theorem Performs.of_after {maxSteps : Int} (h : ∀ k < maxSteps.toNat, ∀ m ∈ after code k (start answers),
    ∀ q ∈ code[m.pc]?, S m q) : ∀ m q, Performs code maxSteps answers m q → S m q :=
  fun m q ⟨_, hq, k, hk, hs⟩ => h k hk m hs.after_eq q hq

/-! ### Runs in step -/

theorem after_congr {k : Nat} (h : ∀ j < k, ∀ m₁, Steps code j m m₁ →
    m₁.advance code' code'.labels = m₁.advance code code.labels) : after code' k m = after code k m := by
  induction k generalizing m with
  | zero => rfl
  | succ k ih =>
    unfold after
    rw [h 0 (by omega) m (.refl m)]
    split
    · rename_i m₁ hs
      exact ih fun j hj m₂ hm₂ => h (j + 1) (by omega) m₂ (.head hs hm₂)
    · rfl

theorem runFor_congr_steps (hlen : code'.length = code.length) (ceiling : Int) {fuel : Nat}
    (h : ∀ j < fuel, ∀ m₁, Steps code j m m₁ → m₁.advance code' code'.labels = m₁.advance code code.labels) :
    runFor code' code'.labels ceiling fuel m = runFor code code.labels ceiling fuel m := by
  induction fuel generalizing m with
  | zero =>
    cases hq : code[m.pc]? with
    | none =>
      have hq' : code'[m.pc]? = none := by rw [List.getElem?_eq_none_iff] at hq ⊢; omega
      rw [runFor_of_end ceiling 0 (by simp [advance, hq']), runFor_of_end ceiling 0 (by simp [advance, hq])]
    | some q =>
      have hlt : m.pc < code'.length := by rw [hlen]; exact (List.getElem?_eq_some_iff.1 hq).1
      unfold runFor
      simp only [advance_of_getElem? hq, advance_of_getElem? (List.getElem?_eq_getElem hlt)]
  | succ fuel ih =>
    unfold runFor
    rw [h 0 (by omega) m (.refl m)]
    cases hs : m.advance code code.labels with
    | none => rfl
    | some r =>
      cases r with
      | error f => rfl
      | ok m₁ => exact ih fun j hj m₂ hm₂ => h (j + 1) (by omega) m₂ (.head hs hm₂)

/-- Two codes whose runs go in step: both can be started or neither, for the same reason, the machines are equal
after every number of instructions, and what is executed next does the same or fails with the same fault. -/
structure InStep (code code' : Code) (maxSteps : Int) (answers : Answers) : Prop where
  link : code'.linkFault? = code.linkFault?
  states : code.linkFault? = none → ∀ k ≤ maxSteps.toNat, after code' k (start answers) = after code k (start answers)
  next : code.linkFault? = none → ∀ k < maxSteps.toNat, ∀ m ∈ after code k (start answers),
    m.advance code' code'.labels = m.advance code code.labels
  outcome : execute code' maxSteps answers = execute code maxSteps answers

theorem inStep_of_advance {maxSteps : Int} (hlink : code'.linkFault? = code.linkFault?)
    (hlen : code'.length = code.length) (h : code.linkFault? = none → ∀ k < maxSteps.toNat, ∀ m,
      Steps code k (start answers) m → m.advance code' code'.labels = m.advance code code.labels) :
    InStep code code' maxSteps answers where
  link := hlink
  states hnone k hk := after_congr fun j hj m hm => h hnone j (by omega) m hm
  next hnone k hk m hm := h hnone k hk m (steps_of_after hm)
  outcome := by
    cases hf : code.linkFault? with
    | some fault => simp only [execute, hlink, hf]
    | none =>
      rw [execute_of_linked hf, execute_of_linked (hlink.trans hf)]
      exact runFor_congr_steps hlen maxSteps (h hf)

end Machine

end QuadScript
