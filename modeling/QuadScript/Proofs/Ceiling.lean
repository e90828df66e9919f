import QuadScript.Proofs.Endings
import QuadScript.Proofs.Lowering

/-!
# The ceiling on the number of steps

A ceiling does nothing but cut a run off. The only fault that names a ceiling is that of the run itself: an instruction
that fails has a fault of its own, and the lines printed before it stay (`Machine.step_fails`). So a run either stops
below its ceiling, and then every higher ceiling gives the same run, or it is cut off after exactly as many
instructions as the ceiling allows, and then every higher ceiling gives a run that starts with the same lines
(`Machine.runFor_cut`).
-/

namespace QuadScript

/-! ### Faults that name no ceiling -/

/-- Whether a fault lies in an instruction, not in the number of instructions. -/
def Fault.isOwn : Fault → Bool
  | .stepLimit _ => false
  | _ => true

theorem except_bind_eq_error {ε α β : Type} {x : Except ε α} {f : α → Except ε β} {e : ε}
    (h : (x >>= f) = .error e) : x = .error e ∨ ∃ a, x = .ok a ∧ f a = .error e := by
  cases x with
  | error e' =>
    cases h
    exact .inl rfl
  | ok a => exact .inr ⟨a, rfl, h⟩

/-- A computation that can fail with a fault of its own only. -/
def FailsOwn {α : Type} (x : Except Fault α) : Prop := ∀ f, x = .error f → f.isOwn = true

namespace FailsOwn

variable {α β : Type}

theorem ok (a : α) : FailsOwn (.ok a) := by
  intro f h
  cases h

theorem pure (a : α) : FailsOwn (Pure.pure a) := ok a

theorem error {f : Fault} (hf : f.isOwn = true) : FailsOwn (.error f : Except Fault α) := by
  rintro _ ⟨⟩
  exact hf

theorem bind {x : Except Fault α} {g : α → Except Fault β} (hx : FailsOwn x) (hg : ∀ a, FailsOwn (g a)) :
    FailsOwn (x >>= g) := by
  intro f h
  rcases except_bind_eq_error h with h | ⟨a, -, h⟩
  · exact hx f h
  · exact hg a f h

theorem ite {b : Prop} [Decidable b] {x y : Except Fault α} (hx : FailsOwn x) (hy : FailsOwn y) :
    FailsOwn (if b then x else y) := by
  by_cases hb : b
  · rw [if_pos hb]
    exact hx
  · rw [if_neg hb]
    exact hy

end FailsOwn

namespace Number

theorem toFloat_failsOwn (a : Number) : FailsOwn a.toFloat := by
  cases a with
  | int n => exact .ite (.error rfl) (.ok _)
  | float x => exact .ok _

theorem doubles_failsOwn (a b : Number) (f : Float → Float → Float) :
    FailsOwn (do return Number.float (f (← a.toFloat) (← b.toFloat))) :=
  .bind a.toFloat_failsOwn fun _ => .bind b.toFloat_failsOwn fun _ => .pure _

theorem add_failsOwn (a b : Number) : FailsOwn (a.add b) := by
  unfold add
  split
  · exact .ok _
  · exact doubles_failsOwn a b _

theorem sub_failsOwn (a b : Number) : FailsOwn (a.sub b) := by
  unfold sub
  split
  · exact .ok _
  · exact doubles_failsOwn a b _

theorem mul_failsOwn (a b : Number) : FailsOwn (a.mul b) := by
  unfold mul
  split
  · exact .ok _
  · exact doubles_failsOwn a b _

theorem isNegative_failsOwn (a : Number) : FailsOwn a.isNegative := .bind a.toFloat_failsOwn fun _ => .pure _

theorem isInfinite_failsOwn (a : Number) : FailsOwn a.isInfinite := .bind a.toFloat_failsOwn fun _ => .pure _

theorem div_failsOwn (a b : Number) : FailsOwn (a.div b) := by
  refine .ite (.ite (.pure _) ?_) ?_
  · exact .bind a.isNegative_failsOwn fun _ => .bind b.isNegative_failsOwn fun _ => .pure _
  · split
    · exact .ite (.error rfl) (.ok _)
    · exact doubles_failsOwn a b _

theorem rem_failsOwn (a b : Number) : FailsOwn (a.rem b) := by
  refine .ite (.pure _) (.bind a.isInfinite_failsOwn fun _ => .ite (.pure _) ?_)
  refine .bind b.isInfinite_failsOwn fun _ => .ite (.pure _) ?_
  refine .bind a.toFloat_failsOwn fun _ => .bind b.toFloat_failsOwn fun _ => ?_
  split
  · exact .pure _
  · exact .pure _

theorem powTooLarge_failsOwn (a b : Number) : FailsOwn (powTooLarge a b) := by
  refine .bind (.bind b.toFloat_failsOwn fun _ => ?_) fun _ => .pure _
  split
  · exact .pure _
  · exact .pure _

theorem powFloat_failsOwn (a b : Number) : FailsOwn (powFloat a b) := by
  refine .bind b.toFloat_failsOwn fun _ => ?_
  cases a.toFloat with
  | error f => exact powTooLarge_failsOwn a b
  | ok x => exact .ite (powTooLarge_failsOwn a b) (.pure _)

theorem pow_failsOwn (a b : Number) : FailsOwn (a.pow b) := by
  unfold pow
  split
  · refine .ite (.bind (toFloat_failsOwn _) fun _ => powFloat_failsOwn _ _) ?_
    exact .ite (.pure _) (powFloat_failsOwn _ _)
  · exact powFloat_failsOwn a b

theorem truncate_failsOwn (a : Number) : FailsOwn a.truncate := by
  refine .bind a.toFloat_failsOwn fun _ => ?_
  split
  · exact .pure _
  · exact .pure _

end Number

namespace Value

theorem toInt32_failsOwn (v : Value) : FailsOwn v.toInt32 := .bind (Number.truncate_failsOwn _) fun _ => .pure _

theorem toUInt32_failsOwn (v : Value) : FailsOwn v.toUInt32 := .bind v.toInt32_failsOwn fun _ => .pure _

theorem shiftCount_failsOwn (v : Value) : FailsOwn v.shiftCount := .bind v.toUInt32_failsOwn fun _ => .pure _

end Value

theorem BinaryOp.eval_failsOwn (op : BinaryOp) (a b : Value) : FailsOwn (op.eval a b) := by
  cases op with
  | add =>
    show FailsOwn (evalAdd a b)
    unfold evalAdd
    split
    · exact .ok _
    · exact .ok _
    · exact .bind (Number.add_failsOwn _ _) fun _ => .pure _
  | sub => exact .bind (Number.sub_failsOwn _ _) fun _ => .pure _
  | mul => exact .bind (Number.mul_failsOwn _ _) fun _ => .pure _
  | div => exact .bind (Number.div_failsOwn _ _) fun _ => .pure _
  | rem => exact .bind (Number.rem_failsOwn _ _) fun _ => .pure _
  | pow => exact .bind (Number.pow_failsOwn _ _) fun _ => .pure _
  | bitAnd | bitOr | bitXor => exact .bind a.toInt32_failsOwn fun _ => .bind b.toInt32_failsOwn fun _ => .pure _
  | shiftLeft | shiftRight => exact .bind a.toInt32_failsOwn fun _ => .bind b.shiftCount_failsOwn fun _ => .pure _
  | shiftRightZero => exact .bind a.toUInt32_failsOwn fun _ => .bind b.shiftCount_failsOwn fun _ => .pure _
  | _ => exact .ok _

theorem Operator.eval_failsOwn (op : Operator) (a b : Value) : FailsOwn (op.eval a b) := by
  cases op with
  | binary op => exact op.eval_failsOwn a b
  | unary op =>
    cases op with
    | bitNot => exact .bind a.toInt32_failsOwn fun _ => .pure _
    | _ => exact .ok _

theorem Key.ofTree_failsOwn (place : Nat) (t : Tree) : FailsOwn (Key.ofTree place t) := by
  cases t with
  | list | record => exact .error rfl
  | _ => exact .ok _

theorem Intrinsic.eval_failsOwn (f : Intrinsic) (args : List Value) (answers : Answers) :
    FailsOwn (f.eval args answers) := by
  cases f with
  | prompt =>
    unfold eval
    dsimp only
    split
    · exact .ok _
    · exact .ok _
  | parseInt =>
    cases args with
    | nil => exact .ok _
    | cons v args =>
      refine .bind ?_ fun _ => .pure _
      unfold readInt
      split
      · exact .ok _
      · exact .ite (.error rfl) (.ok _)
  | parseFloat => cases args <;> exact .ok _

theorem argumentCount_failsOwn (waiting : Nat) (a : Operand) : FailsOwn (argumentCount waiting a) := by
  cases a with
  | num n =>
    cases n with
    | int i => exact .ok _
    | float x => exact .ite (.ok _) (.ite (.ok _) (.error rfl))
  | text s => exact .error rfl
  | name s => exact .ite (.ok _) (.error rfl)
  | raw t => exact .ite (.error rfl) (.ok _)
  | _ => exact .ok _

theorem Memory.resolve_failsOwn (memory : Memory) (a : Operand) : FailsOwn (memory.resolve a) := by
  cases a with
  | raw t => exact .bind (Key.ofTree_failsOwn 0 t) fun _ => .pure _
  | _ => exact .ok _

namespace Code

theorem labelsFrom_isOwn {position : Nat} {labels : Labels} {code : Code} {fault : Fault}
    (h : (code.labelsFrom position labels).2 = some fault) : fault.isOwn = true := by
  induction code generalizing position labels with
  | nil => cases h
  | cons q rest ih =>
    unfold labelsFrom at h
    split at h
    · split at h
      · exact ih h
      · rename_i fault' hfault
        cases h
        exact Key.ofTree_failsOwn position _ fault hfault
    · exact ih h

theorem jumpFault?_isOwn {labels : Labels} {q : Quad} {position : Nat} {fault : Fault}
    (h : jumpFault? labels q position = some fault) : fault.isOwn = true := by
  unfold jumpFault? at h
  split at h
  · split at h
    · split at h
      · cases h
      · cases h
        rfl
    · rename_i fault' hfault
      cases h
      exact Key.ofTree_failsOwn position _ fault hfault
  · cases h

theorem linkFault?_isOwn {code : Code} {fault : Fault} (h : code.linkFault? = some fault) : fault.isOwn = true := by
  unfold linkFault? at h
  rcases Option.or_eq_some_iff.1 h with h | ⟨-, h⟩
  · exact labelsFrom_isOwn h
  · obtain ⟨⟨q, position⟩, -, h⟩ := List.exists_of_findSome?_eq_some h
    exact jumpFault?_isOwn h

end Code

/-! ### Instructions that fail -/

namespace Machine

variable {code : Code} {labels : Labels} {m m' : Machine} {q : Quad} {f : Failure} {answers : Answers}

/-- A fault that lies in the instruction, on a machine that has printed nothing since. -/
structure Fails (m : Machine) (f : Failure) : Prop where
  own : f.fault.isOwn = true
  output : f.machine.output = m.output

theorem fail_fails {α : Type} {fault : Fault} (hfault : fault.isOwn = true)
    (h : (m.fail fault : Except Failure α) = .error f) : m.Fails f := by
  cases h
  exact ⟨hfault, rfl⟩

theorem resolve_fails {a : Operand} (h : m.resolve a = .error f) : m.Fails f := by
  unfold resolve at h
  split at h
  · cases h
  · rename_i fault hfault
    exact fail_fails (m.memory.resolve_failsOwn a fault hfault) h

theorem write_fails {place : Nat} {target : Target} {v : Value} (h : m.write place target v = .error f) :
    m.Fails f := by
  unfold write at h
  split at h
  · cases h
  · rename_i fault hfault
    exact fail_fails (Key.ofTree_failsOwn place _ fault hfault) h

theorem store_fails {place : Nat} {target : Target} {v : Value} (h : m.store place target v = .error f) :
    m.Fails f := by
  unfold store at h
  split at h
  · exact write_fails h
  · cases h

theorem jump_fails {target : Target} (h : m.jump labels target = .error f) : m.Fails f := by
  unfold jump at h
  split at h
  · rename_i fault hfault
    exact fail_fails (Key.ofTree_failsOwn m.pc _ fault hfault) h
  · split at h
    · cases h
    · exact fail_fails rfl h

theorem callIntrinsic_fails {g : Intrinsic} (h : m.callIntrinsic g q = .error f) : m.Fails f := by
  unfold callIntrinsic at h
  split at h
  · rename_i fault hfault
    exact fail_fails (argumentCount_failsOwn _ _ fault hfault) h
  · dsimp only at h
    split at h
    · rename_i fault hfault
      obtain ⟨hown, houtput⟩ := fail_fails (g.eval_failsOwn _ _ fault hfault) h
      exact ⟨hown, houtput⟩
    · rcases except_bind_eq_error h with h | ⟨_, -, h⟩
      · obtain ⟨hown, houtput⟩ := store_fails h
        exact ⟨hown, houtput⟩
      · cases h

theorem callNamed_fails {target : String} (h : m.callNamed labels q target = .error f) : m.Fails f := by
  unfold callNamed at h
  split at h
  · cases h
  · split at h
    · cases h
    · split at h
      · exact callIntrinsic_fails h
      · exact fail_fails rfl h

theorem call_fails (h : m.call labels q = .error f) : m.Fails f := by
  unfold call at h
  split at h
  · exact callNamed_fails h
  · exact callNamed_fails h
  · split at h
    · rename_i fault hfault
      exact fail_fails (Key.ofTree_failsOwn m.pc _ fault hfault) h
    · split at h
      · cases h
      · exact fail_fails rfl h

theorem leave_fails {v : Value} (h : m.leave code v = .error f) : m.Fails f := by
  unfold leave at h
  dsimp only at h
  split at h
  · cases h
  · obtain ⟨hown, houtput⟩ := store_fails h
    exact ⟨hown, houtput⟩

/-- An instruction that fails prints nothing, and its fault does not name a ceiling. -/
theorem step_fails (h : m.step code labels q = .error f) : m.Fails f := by
  unfold step at h
  -- an instruction fails where it reads, computes, writes or jumps, and none of these prints or knows of a ceiling
  split at h
  · rcases except_bind_eq_error h with h | ⟨v, -, h⟩
    · exact resolve_fails h
    · rcases except_bind_eq_error h with h | ⟨_, -, h⟩
      · exact write_fails h
      · cases h
  · rcases except_bind_eq_error h with h | ⟨a, -, h⟩
    · exact resolve_fails h
    · rcases except_bind_eq_error h with h | ⟨b, -, h⟩
      · exact resolve_fails h
      · split at h
        · rcases except_bind_eq_error h with h | ⟨_, -, h⟩
          · exact write_fails h
          · cases h
        · rename_i fault hfault
          exact fail_fails (Operator.eval_failsOwn _ a b fault hfault) h
  · exact jump_fails h
  · rcases except_bind_eq_error h with h | ⟨v, -, h⟩
    · exact resolve_fails h
    · split at h
      · cases h
      · exact jump_fails h
  · rcases except_bind_eq_error h with h | ⟨v, -, h⟩
    · exact resolve_fails h
    · cases h
  · rcases except_bind_eq_error h with h | ⟨_, -, h⟩
    · obtain ⟨hown, houtput⟩ := write_fails h
      exact ⟨hown, houtput⟩
    · cases h
  · exact call_fails h
  · rcases except_bind_eq_error h with h | ⟨v, -, h⟩
    · exact resolve_fails h
    · exact leave_fails h
  · cases h
  · cases h

/-! ### Runs that are cut off -/

theorem output_grows_step (h : m.step code labels q = .ok m') : m.output <+: m'.output := by
  cases step_effect h with
  | print => exact List.prefix_append _ _
  | _ => exact List.prefix_rfl

theorem output_grows_runFor (ceiling : Int) (fuel : Nat) :
    m.output <+: (runFor code labels ceiling fuel m).machine.output := by
  induction fuel generalizing m with
  | zero =>
    unfold runFor
    cases m.advance code labels <;> exact List.prefix_rfl
  | succ fuel ih =>
    cases hq : code[m.pc]? with
    | none =>
      unfold runFor
      rw [advance, hq]
      exact List.prefix_rfl
    | some q =>
      rw [runFor_succ ceiling fuel hq]
      cases hs : m.step code labels q with
      | ok m₁ => exact (output_grows_step hs).trans ih
      | error f => exact (step_fails hs).output ▸ List.prefix_rfl

/-- A run is cut off after exactly as many instructions as it has fuel, or it has the same end with more fuel. -/
theorem runFor_cut (code : Code) (m : Machine) (ceiling ceiling' : Int) {fuel fuel' : Nat} (hfuel : fuel ≤ fuel') :
    (∃ s, Steps code fuel m s ∧ s.pc < code.length ∧
      runFor code code.labels ceiling fuel m = { machine := s, fault := some (.stepLimit ceiling) }) ∨
    (∀ c, (runFor code code.labels ceiling fuel m).fault ≠ some (.stepLimit c)) ∧
      runFor code code.labels ceiling' fuel' m = runFor code code.labels ceiling fuel m := by
  -- on the smaller fuel, along the run: if it is not used up, no more of it changes anything
  induction fuel generalizing m fuel' with
  | zero =>
    cases hq : code[m.pc]? with
    | none =>
      have hend : m.advance code code.labels = none := by rw [advance, hq]; rfl
      rw [runFor_of_end ceiling 0 hend, runFor_of_end ceiling' fuel' hend]
      exact .inr ⟨by simp, rfl⟩
    | some q =>
      refine .inl ⟨m, .refl m, (List.getElem?_eq_some_iff.1 hq).1, ?_⟩
      unfold runFor
      rw [advance_of_getElem? hq]
  | succ fuel ih =>
    obtain ⟨fuel', rfl⟩ : ∃ k, fuel' = k + 1 := ⟨fuel' - 1, by omega⟩
    cases hq : code[m.pc]? with
    | none =>
      have hend : m.advance code code.labels = none := by rw [advance, hq]; rfl
      rw [runFor_of_end ceiling _ hend, runFor_of_end ceiling' _ hend]
      exact .inr ⟨by simp, rfl⟩
    | some q =>
      rw [runFor_succ ceiling fuel hq, runFor_succ ceiling' fuel' hq]
      cases hs : m.step code code.labels q with
      | ok m₁ =>
        have hadv : m.advance code code.labels = some (.ok m₁) := by rw [advance_of_getElem? hq, hs]
        rcases ih m₁ (Nat.le_of_succ_le_succ hfuel) with ⟨s, hsteps, hs⟩ | hsame
        · exact .inl ⟨s, .head hadv hsteps, hs⟩
        · exact .inr hsame
      | error f =>
        refine .inr ⟨fun c hc => ?_, rfl⟩
        -- the fault of an instruction is not that of a ceiling, so the run was not cut off
        have hown := (step_fails hs).own
        rw [Option.some.inj hc] at hown
        cases hown

/-- A ceiling only truncates. A run that does not reach its ceiling ends in the same machine, with the same lines, under
every higher one. A run that reaches it has executed as many instructions as it allows and has not come to the end of
the code; what it printed until then is followed by the one line that names the ceiling, and is the beginning of what
is printed under every higher ceiling, however that run ends. -/
theorem ceiling_truncates (code : Code) (answers : Answers) {low high : Int} (h : low ≤ high) :
    ((execute code low answers).fault ≠ some (.stepLimit low) →
      run code high answers = run code low answers) ∧
    ((execute code low answers).fault = some (.stepLimit low) →
      ∃ s, Steps code low.toNat (start answers) s ∧ s.pc < code.length ∧
        (run code low answers).output = s.output ++ [errorMark ++ (Fault.stepLimit low).message] ∧
        s.output <+: (run code high answers).output) := by
  cases hlink : code.linkFault? with
  | some fault =>
    have hexecute : ∀ c, execute code c answers = { machine := start answers, fault := some fault } := fun c => by
      unfold execute
      rw [hlink]
      rfl
    have hrun : run code high answers = run code low answers := by rw [run, run, hexecute, hexecute]
    refine ⟨fun _ => hrun, fun hfault => ?_⟩
    rw [hexecute] at hfault
    -- what keeps code from being started is no ceiling, so the second case does not arise
    have hown := Code.linkFault?_isOwn hlink
    rw [Option.some.inj hfault] at hown
    cases hown
  | none =>
    rw [run, run, execute_of_linked hlink, execute_of_linked hlink]
    rcases runFor_cut code (start answers) low high (Int.toNat_le_toNat h) with
      ⟨s, hsteps, hpc, hcut⟩ | ⟨hown, hsame⟩
    · refine ⟨fun hfault => absurd (by rw [hcut]) hfault, fun _ => ⟨s, hsteps, hpc, by rw [hcut]; rfl, ?_⟩⟩
      -- the longer run comes through the state in which the shorter one stops, and printing is never undone
      obtain ⟨k, hk⟩ := Nat.exists_eq_add_of_le (Int.toNat_le_toNat h)
      rw [hk, runFor_of_steps high k hsteps, report_output]
      exact (output_grows_runFor high k).trans (List.prefix_append _ _)
    · exact ⟨fun _ => by rw [hsame], fun hfault => absurd hfault (hown low)⟩

/-- A line that is printed once. -/
def lineCode : Code := Code.renumber [Quad.param (.text "a"), Quad.call "console_log" 1 .none]

/-- A line that is printed again and again. -/
def endlessCode : Code := Code.renumber
  [Quad.label "L0", Quad.param (.text "a"), Quad.call "console_log" 1 .none, Quad.goto "L0"]

/-- A run of as many instructions as the ceiling allows does not reach it; one that needs more is cut off. -/
theorem ceiling_truncates_lines : run lineCode 20 .nobody = run lineCode 2 .nobody ∧
    ∃ s, Steps endlessCode 6 (start .nobody) s ∧ s.output = ["a"] ∧
      (run endlessCode 6 .nobody).output =
        ["a", "Execution error: possible infinite loop: more than 6 instructions executed"] ∧
      ["a"] <+: (run endlessCode 20 .nobody).output := by
  have hline : (execute lineCode 2 .nobody).fault ≠ some (.stepLimit 2) := by decide +kernel
  have hendless : (execute endlessCode 6 .nobody).fault = some (.stepLimit 6) := by decide +kernel
  have hlines : (run endlessCode 6 .nobody).output =
      ["a", "Execution error: possible infinite loop: more than 6 instructions executed"] := by decide +kernel
  obtain ⟨s, hsteps, -, houtput, hbegin⟩ :=
    (ceiling_truncates endlessCode .nobody (by decide : (6 : Int) ≤ 20)).2 hendless
  have hs : s.output = ["a"] := by
    have hlast := congrArg List.dropLast (hlines.symm.trans houtput)
    rw [List.dropLast_concat] at hlast
    exact hlast.symm
  exact ⟨(ceiling_truncates lineCode .nobody (by decide)).1 hline, s, hsteps, hs, hlines, hs ▸ hbegin⟩

end Machine

end QuadScript
