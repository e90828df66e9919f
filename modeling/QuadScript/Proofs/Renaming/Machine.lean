import QuadScript.Optimizer.Propagate
import QuadScript.Proofs.Endings
import QuadScript.Proofs.Tables

/-!
# Runs under other names

`Code.rename ρ` replaces the names that instructions read and write; labels, and what calls call, stay. A `NameMap`
is an injection that fixes temporaries and keeps what names stand for when nothing was written to them. Under one,
the renamed code takes the renamed machine where the code takes the machine (`Machine.step_rename`), so both runs
print the same (`Machine.run_rename`).
-/

namespace QuadScript

structure NameMap (ρ : String → String) : Prop where
  injective : ρ.Injective
  temp : ∀ s, isTempName s = true → ρ s = s
  constant : ∀ s, namedConstant? (ρ s) = namedConstant? s

/-! ### Renaming code -/

section
variable (ρ : String → String)

def Tree.rename : Tree → Tree
  | .str s => .str (ρ s)
  | t => t

def Operand.rename : Operand → Operand
  | .name s => .name (ρ s)
  | .raw t => .raw (t.rename ρ)
  | a => a

def Target.rename : Target → Target
  | .none => .none
  | .name s => .name (ρ s)
  | .raw t => .raw (t.rename ρ)

def Key.rename : Key → Key
  | .text s => .text (ρ s)
  | k => k

/-- An instruction under other names. What a call calls, and where a label stands or a jump goes to, are no names of
the memory. -/
def Quad.rename (q : Quad) : Quad :=
  { q with
    arg1 := if q.op = .call then q.arg1 else q.arg1.rename ρ
    arg2 := if q.op = .call then q.arg2 else q.arg2.rename ρ
    result := if q.op.writes then q.result.rename ρ else q.result }

def Code.rename (code : Code) : Code := code.map (Quad.rename ρ)

end

/-- The target of a call that code was emitted for: a temporary, or nothing. -/
def Target.Drawn (x : Target) : Prop := x = .none ∨ x.temp? ≠ Option.none

/-- The results of all calls go to temporaries, or nowhere. -/
def Code.CallsDrawn (code : Code) : Prop := ∀ q ∈ code, q.op = .call → q.result.Drawn

section
variable {ρ : String → String} {q : Quad}

theorem NameMap.isTempName (hρ : NameMap ρ) (s : String) : isTempName (ρ s) = isTempName s := by
  cases hs : QuadScript.isTempName s with
  | true => rw [hρ.temp s hs, hs]
  | false =>
    cases ht : QuadScript.isTempName (ρ s) with
    | false => rfl
    | true =>
      have hfix := hρ.injective (hρ.temp (ρ s) ht)
      rw [hfix, hs] at ht
      cases ht

theorem Target.toTree_rename (x : Target) : (x.rename ρ).toTree = x.toTree.rename ρ := by
  cases x <;> rfl

theorem Key.ofTree_rename (place : Nat) (t : Tree) :
    Key.ofTree place (t.rename ρ) = (Key.ofTree place t).map (Key.rename ρ) := by
  cases t with
  | num n => by_cases hn : n.isNaN = true <;> simp [Tree.rename, ofTree, Except.map, hn, rename]
  | _ => rfl

theorem Target.key_rename (place : Nat) (x : Target) :
    (x.rename ρ).key place = (x.key place).map (Key.rename ρ) := by
  unfold key
  rw [toTree_rename, Key.ofTree_rename]

theorem Key.rename_keyMap (hρ : ρ.Injective) : Table.KeyMap (Key.rename ρ) where
  injective k k' h := by
    cases k <;> cases k' <;> simp_all [rename, hρ.eq_iff]
  number? k := by cases k <;> rfl

theorem Target.Drawn.rename {x : Target} (hx : x.Drawn) (hρ : NameMap ρ) : x.rename ρ = x := by
  rcases hx with rfl | hx
  · rfl
  · cases x with
    | name s =>
      have hs : isTempName s = true := by
        by_contra hs
        exact hx (if_neg hs)
      exact congrArg Target.name (hρ.temp s hs)
    | _ => exact absurd rfl hx

@[simp] theorem Quad.rename_op : (q.rename ρ).op = q.op := rfl

theorem Quad.rename_arg1 (h : q.op ≠ .call) : (q.rename ρ).arg1 = q.arg1.rename ρ := if_neg h

theorem Quad.rename_arg2 (h : q.op ≠ .call) : (q.rename ρ).arg2 = q.arg2.rename ρ := if_neg h

theorem Quad.rename_result (h : q.op.writes = true) : (q.rename ρ).result = q.result.rename ρ := if_pos h

theorem Quad.rename_goal (h : q.op.writes = false) : (q.rename ρ).result = q.result :=
  if_neg (by rw [h]; exact Bool.false_ne_true)

theorem Quad.control_rename : (q.rename ρ).control = q.control := by
  unfold control
  rw [rename_op]
  cases hop : q.op with
  | label => rw [rename_goal (by rw [hop]; rfl)]
  | goto => rw [rename_goal (by rw [hop]; rfl)]
  | jumpIfFalse => rw [rename_goal (by rw [hop]; rfl)]
  | _ => rfl

theorem Code.control_rename {code : Code} : (code.rename ρ).map Quad.control = code.map Quad.control := by
  unfold Code.rename
  rw [List.map_map]
  exact List.map_congr_left fun q _ => Quad.control_rename

end

/-! ### Renaming machines -/

namespace Machine

section
variable (ρ : String → String)

def renameMemory (memory : Memory) : Memory := memory.map (Key.rename ρ) id

def renameFrame (f : Frame) : Frame := { f with target := f.target.rename ρ, snapshot := renameMemory ρ f.snapshot }

def rename (m : Machine) : Machine :=
  { m with memory := renameMemory ρ m.memory, stack := m.stack.map (renameFrame ρ) }

/-- What a step gives, under other names. -/
def carry {α β : Type} (f : α → β) : Except Failure α → Except Failure β
  | .ok a => .ok (f a)
  | .error e => .error ⟨e.fault, e.machine.rename ρ⟩

def Outcome.rename (o : Outcome) : Outcome := { o with machine := o.machine.rename ρ }

end

variable {ρ : String → String} {α β γ δ : Type} {m m' : Machine} {code : Code} {labels : Labels} {q : Quad}
  {place : Nat} {v : Value}

@[simp] theorem rename_pc : (m.rename ρ).pc = m.pc := rfl

@[simp] theorem rename_params : (m.rename ρ).params = m.params := rfl

@[simp] theorem rename_answers : (m.rename ρ).answers = m.answers := rfl

theorem carry_bind {f : α → β} {g : γ → δ} {x : Except Failure α} {k : α → Except Failure γ}
    {k' : β → Except Failure δ} (h : ∀ a, k' (f a) = carry ρ g (k a)) : carry ρ f x >>= k' = carry ρ g (x >>= k) := by
  cases x with
  | ok a => exact h a
  | error e => rfl

theorem read_rename (hρ : NameMap ρ) (memory : Memory) (s : String) :
    (renameMemory ρ memory).read (ρ s) = memory.read s := by
  have hget : (renameMemory ρ memory).get? (.text (ρ s)) = (memory.get? (.text s)).map id :=
    Table.get?_map (Key.rename_keyMap hρ.injective).injective id memory (.text s)
  unfold Memory.read
  rw [hget, hρ.constant, Option.map_id]
  rfl

theorem memory_resolve_rename (hρ : NameMap ρ) (memory : Memory) (a : Operand) :
    (renameMemory ρ memory).resolve (a.rename ρ) = memory.resolve a := by
  cases a with
  | name s => exact congrArg Except.ok (read_rename hρ memory s)
  | raw t =>
    have hget := fun k : Key =>
      Table.getKey?_map (f := @id Value) (t := memory) (k := k) (Key.rename_keyMap hρ.injective)
    simp only [Operand.rename, Memory.resolve, Key.ofTree_rename]
    cases Key.ofTree 0 t with
    | error fault => rfl
    | ok k =>
      show Except.ok (((memory.map (Key.rename ρ) id).getKey? (k.rename ρ)).getD .undefined) = _
      rw [hget, Option.map_id]
      rfl
  | _ => rfl

theorem resolve_rename (hρ : NameMap ρ) (a : Operand) :
    (m.rename ρ).resolve (a.rename ρ) = carry ρ id (m.resolve a) := by
  have ha : (m.rename ρ).memory.resolve (a.rename ρ) = m.memory.resolve a := memory_resolve_rename hρ m.memory a
  unfold resolve
  rw [ha]
  cases m.memory.resolve a <;> rfl

theorem write_rename (hρ : NameMap ρ) (x : Target) :
    (m.rename ρ).write place (x.rename ρ) v = carry ρ (rename ρ) (m.write place x v) := by
  unfold write
  rw [Target.key_rename]
  cases x.key place with
  | error fault => rfl
  | ok k =>
    have hset := Table.setKey_map (f := @id Value) (t := m.memory) (k := k) (Key.rename_keyMap hρ.injective) v
    exact congrArg (fun memory => Except.ok { m.rename ρ with memory := memory }) hset.symm

theorem store_rename (hρ : NameMap ρ) {x : Target} (hx : x.Drawn) (place : Nat) (v : Value) :
    (m.rename ρ).store place (x.rename ρ) v = carry ρ (rename ρ) (m.store place x v) := by
  -- Whether a target counts as something is not kept in general: the empty name does not, and it may be moved.
  unfold store
  rw [write_rename hρ, hx.rename hρ]
  split <;> rfl

theorem jump_rename (x : Target) : (m.rename ρ).jump labels x = carry ρ (rename ρ) (m.jump labels x) := by
  unfold jump
  rw [rename_pc]
  split
  · rfl
  · split <;> rfl

theorem carry_next {x : Except Failure Machine} : (carry ρ (rename ρ) x >>= fun m => pure m.next) =
    carry ρ (rename ρ) (x >>= fun m => pure m.next) :=
  carry_bind fun _ => rfl

theorem callIntrinsic_rename (hρ : NameMap ρ) (hop : q.op = .call) (hq : q.result.Drawn) (f : Intrinsic) :
    (m.rename ρ).callIntrinsic f (q.rename ρ) = carry ρ (rename ρ) (m.callIntrinsic f q) := by
  have harg : (q.rename ρ).arg2 = q.arg2 := if_pos hop
  have hres := Quad.rename_result (ρ := ρ) (q := q) (by rw [hop]; rfl)
  unfold callIntrinsic
  rw [harg, hres]
  simp only [rename_params, rename_answers]
  split
  · rfl
  · rename_i count _
    split
    · rfl
    · rename_i v answers _
      have hstore := store_rename (m := { m with params := m.params.drop count, answers := answers }) hρ hq m.pc v
      exact (congrArg (· >>= fun m => (pure m.next : Except Failure Machine)) hstore).trans carry_next

theorem enter_rename (hop : q.op = .call) (position : Nat) :
    (m.rename ρ).enter (q.rename ρ) position = (m.enter q position).rename ρ := by
  have hres := Quad.rename_result (ρ := ρ) (q := q) (by rw [hop]; rfl)
  unfold enter
  rw [hres]
  rfl

theorem callNamed_rename (hρ : NameMap ρ) (hop : q.op = .call) (hq : q.result.Drawn) (target : String) :
    (m.rename ρ).callNamed labels (q.rename ρ) target = carry ρ (rename ρ) (m.callNamed labels q target) := by
  unfold callNamed
  split
  · rfl
  · split
    · exact congrArg Except.ok (enter_rename hop _)
    · split
      · exact callIntrinsic_rename hρ hop hq _
      · rfl

theorem call_rename (hρ : NameMap ρ) (hop : q.op = .call) (hq : q.result.Drawn) :
    (m.rename ρ).call labels (q.rename ρ) = carry ρ (rename ρ) (m.call labels q) := by
  have harg : (q.rename ρ).arg1 = q.arg1 := if_pos hop
  unfold call
  rw [harg]
  split
  · exact callNamed_rename hρ hop hq _
  · exact callNamed_rename hρ hop hq _
  · rw [rename_pc]
    split
    · rfl
    · split
      · exact congrArg Except.ok (enter_rename hop _)
      · rfl

/-- The results of the calls under way go to temporaries, or nowhere. -/
def FramesDrawn (m : Machine) : Prop := ∀ f ∈ m.stack, f.target.Drawn

theorem leave_rename (hρ : NameMap ρ) (hm : m.FramesDrawn) :
    (m.rename ρ).leave (code.rename ρ) v = carry ρ (rename ρ) (m.leave code v) := by
  obtain ⟨pc, memory, stack, params, output, answers⟩ := m
  cases stack with
  | nil =>
    show Except.ok _ = Except.ok _
    rw [Code.rename, List.length_map]
    rfl
  | cons frame rest =>
    have hframe : frame.target.Drawn := hm frame List.mem_cons_self
    exact store_rename (m := ⟨frame.returnIndex, memory, rest, [], output, answers⟩) hρ hframe _ v

theorem write_next_rename (hρ : NameMap ρ) (hw : q.op.writes = true) :
    (do return (← (m.rename ρ).write (m.rename ρ).pc (q.rename ρ).result v).next) =
      carry ρ (rename ρ) (do return (← m.write m.pc q.result v).next) := by
  rw [Quad.rename_result hw, write_rename hρ]
  exact carry_next

/-- The renamed instruction does to the renamed machine what the instruction does to the machine. -/
theorem step_rename (hρ : NameMap ρ) (hm : m.FramesDrawn) (hq : q.op = .call → q.result.Drawn) :
    (m.rename ρ).step (code.rename ρ) labels (q.rename ρ) = carry ρ (rename ρ) (m.step code labels q) := by
  unfold step
  rw [Quad.rename_op]
  -- labels keep their names, so that jumps and calls go to the same places
  cases hop : q.op with
  | call => exact call_rename hρ hop (hq hop)
  | assign =>
    rw [Quad.rename_arg1 (by simp [hop]), resolve_rename hρ]
    exact carry_bind fun v => write_next_rename hρ (by rw [hop]; rfl)
  | operator op =>
    rw [Quad.rename_arg1 (by simp [hop]), Quad.rename_arg2 (by simp [hop]), resolve_rename hρ,
      resolve_rename hρ]
    refine carry_bind fun a => carry_bind fun b => ?_
    rw [id, id]
    split
    · exact write_next_rename hρ (by rw [hop]; rfl)
    · rfl
  | goto =>
    rw [Quad.rename_goal (by rw [hop]; rfl)]
    exact jump_rename q.result
  | jumpIfFalse =>
    rw [Quad.rename_arg1 (by simp [hop]), resolve_rename hρ, Quad.rename_goal (by rw [hop]; rfl)]
    refine carry_bind fun v => ?_
    rw [id]
    split
    · rfl
    · exact jump_rename q.result
  | param =>
    rw [Quad.rename_arg1 (by simp [hop]), resolve_rename hρ]
    exact carry_bind fun v => rfl
  | receive => exact write_next_rename (m := { m with params := m.params.tail }) hρ (by rw [hop]; rfl)
  | ret =>
    rw [Quad.rename_arg1 (by simp [hop]), resolve_rename hρ]
    exact carry_bind fun v => leave_rename hρ hm
  | label => rfl
  | unknown word => rfl

/-! ### Runs -/

theorem FramesDrawn.step (hm : m.FramesDrawn) (hq : q.op = .call → q.result.Drawn)
    (h : m.step code labels q = .ok m') : m'.FramesDrawn := by
  cases step_effect h with
  | enter hop => exact List.forall_mem_cons.2 ⟨hq hop, hm⟩
  | leave _ _ hstack =>
    rw [FramesDrawn, hstack] at hm
    exact (List.forall_mem_cons.1 hm).2
  | _ => exact hm

theorem advance_rename (hρ : NameMap ρ) (hc : code.CallsDrawn) (hm : m.FramesDrawn) :
    (m.rename ρ).advance (code.rename ρ) labels = (m.advance code labels).map (carry ρ (rename ρ)) := by
  have hget : (code.rename ρ)[m.pc]? = code[m.pc]?.map (Quad.rename ρ) := List.getElem?_map
  unfold advance
  rw [rename_pc, hget]
  cases hq : code[m.pc]? with
  | none => rfl
  | some q => exact congrArg some (step_rename hρ hm (hc q (List.mem_of_getElem? hq)))

theorem runFor_rename (hρ : NameMap ρ) (hc : code.CallsDrawn) (hm : m.FramesDrawn) (ceiling : Int) (fuel : Nat) :
    runFor (code.rename ρ) labels ceiling fuel (m.rename ρ) = (runFor code labels ceiling fuel m).rename ρ := by
  induction fuel generalizing m with
  | zero =>
    unfold runFor
    rw [advance_rename hρ hc hm]
    cases m.advance code labels <;> rfl
  | succ fuel ih =>
    unfold runFor
    rw [advance_rename hρ hc hm]
    cases h : m.advance code labels with
    | none => rfl
    | some r =>
      cases r with
      | error e => rfl
      | ok m' =>
        obtain ⟨q, hq, hs⟩ := advance_eq_some h
        exact ih (hm.step (hc q (List.mem_of_getElem? hq)) hs)

theorem execute_rename (hρ : NameMap ρ) (hc : code.CallsDrawn) (maxSteps : Int) (answers : Answers) :
    execute (code.rename ρ) maxSteps answers = (execute code maxSteps answers).rename ρ := by
  unfold execute
  rw [Code.linkFault?_congr Code.control_rename, Code.labels_congr Code.control_rename]
  cases code.linkFault? with
  | some fault => rfl
  | none => exact runFor_rename (m := start answers) hρ hc (fun f hf => by cases hf) maxSteps _

theorem run_rename (hρ : NameMap ρ) (hc : code.CallsDrawn) (maxSteps : Int) (answers : Answers) :
    (run (code.rename ρ) maxSteps answers).output = (run code maxSteps answers).output := by
  unfold run
  rw [report_output, report_output, execute_rename hρ hc]
  rfl

end Machine

end QuadScript
