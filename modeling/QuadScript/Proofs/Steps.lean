import QuadScript.Machine.Run

/-!
# Runs as sequences of steps

`Machine.Steps code n m m'`: executing `n` instructions of the code takes `m` to `m'`. The states of
a run are those reachable from `Machine.start`; an invariant of a run is proved for the start and
for one step (`Reachable.induct`).

`Machine.Effect` says once what a successful step can do, one constructor for each way an instruction
can succeed; `step_effect` is the inversion of `Machine.step`, and no later proof opens `step` to
find out what a step did.
-/

namespace QuadScript

theorem except_bind_eq_ok {ε α β : Type} {x : Except ε α} {f : α → Except ε β} {b : β}
    (h : (x >>= f) = .ok b) : ∃ a, x = .ok a ∧ f a = .ok b := by
  cases x with
  | error e => cases h
  | ok a => exact ⟨a, rfl, h⟩

namespace Machine

/-- The machine before a run. -/
def start (answers : Answers) : Machine := { answers := answers }

/-- Executing `n` instructions takes the one machine to the other. -/
inductive Steps (code : Code) : Nat → Machine → Machine → Prop
  | refl (m : Machine) : Steps code 0 m m
  | head {n : Nat} {m m₁ m₂ : Machine} : m.advance code code.labels = some (.ok m₁) →
      Steps code n m₁ m₂ → Steps code (n + 1) m m₂

variable {code code' : Code} {m m₁ m₂ m' : Machine} {answers : Answers}

theorem Steps.single (h : m.advance code code.labels = some (.ok m₁)) : Steps code 1 m m₁ :=
  .head h (.refl m₁)

theorem Steps.trans {n k : Nat} (h : Steps code n m m₁) (h' : Steps code k m₁ m₂) :
    Steps code (n + k) m m₂ := by
  induction h with
  | refl => rw [Nat.zero_add]; exact h'
  | head hs _ ih => rw [Nat.add_right_comm]; exact .head hs (ih h')

theorem Steps.tail {n : Nat} (h : Steps code n m m₁) (h' : m₁.advance code code.labels = some (.ok m₂)) :
    Steps code (n + 1) m m₂ := h.trans (.single h')

/-- The machine after executing `n` instructions, if none of them fails and the code does not end before. -/
def after (code : Code) : Nat → Machine → Option Machine
  | 0, m => some m
  | n + 1, m =>
    match m.advance code code.labels with
    | some (.ok m₁) => after code n m₁
    | _ => none

theorem Steps.after_eq {n : Nat} (h : Steps code n m m₁) : after code n m = some m₁ := by
  induction h with
  | refl => rfl
  | head hs _ ih => rw [after, hs]; exact ih

theorem steps_of_after {n : Nat} (h : after code n m = some m₁) : Steps code n m m₁ := by
  induction n generalizing m with
  | zero => cases h; exact .refl _
  | succ n ih =>
    unfold after at h
    split at h
    · rename_i hs; exact .head hs (ih h)
    · cases h

/-- A state of the run of the code with these answers. -/
def Reachable (code : Code) (answers : Answers) (m : Machine) : Prop :=
  ∃ n, Steps code n (start answers) m

theorem Reachable.start : Reachable code answers (start answers) := ⟨0, .refl _⟩

theorem Reachable.step (h : Reachable code answers m) (hs : m.advance code code.labels = some (.ok m')) :
    Reachable code answers m' :=
  let ⟨n, hn⟩ := h; ⟨n + 1, hn.tail hs⟩

/-- What holds at the start and is kept by every step holds in every state of the run. -/
theorem Reachable.induct {P : Machine → Prop} (h : Reachable code answers m)
    (hstart : P (Machine.start answers))
    (hstep : ∀ m m', Reachable code answers m → P m → m.advance code code.labels = some (.ok m') → P m') :
    P m := by
  obtain ⟨n, hn⟩ := h
  have key : ∀ {n m m'}, Steps code n m m' → Reachable code answers m → P m → P m' := by
    intro n m m' hn
    induction hn with
    | refl => exact fun _ hP => hP
    | head hs _ ih => exact fun hr hP => ih (hr.step hs) (hstep _ _ hr hP hs)
  exact key hn .start hstart

/-! ### Runs with a ceiling -/

theorem runFor_of_steps {n : Nat} (ceiling : Int) (k : Nat) (h : Steps code n m m') :
    runFor code code.labels ceiling (n + k) m = runFor code code.labels ceiling k m' := by
  induction h with
  | refl => rw [Nat.zero_add]
  | head hs _ ih => rw [Nat.add_right_comm, runFor, hs]; exact ih

theorem runFor_of_end (ceiling : Int) (fuel : Nat) (h : m.advance code code.labels = none) :
    runFor code code.labels ceiling fuel m = { machine := m } := by
  unfold runFor; rw [h]

/-- Two codes whose steps agree in every state that an invariant allows have the same runs. -/
theorem runFor_congr {labels labels' : Labels} {P : Machine → Prop}
    (hadv : ∀ m, P m → m.advance code' labels' = m.advance code labels)
    (hstep : ∀ m m', P m → m.advance code labels = some (.ok m') → P m')
    (ceiling : Int) (fuel : Nat) (hm : P m) :
    runFor code' labels' ceiling fuel m = runFor code labels ceiling fuel m := by
  induction fuel generalizing m with
  | zero => unfold runFor; rw [hadv m hm]
  | succ fuel ih =>
    unfold runFor; rw [hadv m hm]
    cases h : m.advance code labels with
    | none => rfl
    | some r =>
      cases r with
      | error f => rfl
      | ok m₁ => exact ih (hstep m m₁ hm h)

theorem advance_eq_some {labels : Labels} {r : Except Failure Machine}
    (h : m.advance code labels = some r) :
    ∃ q, code[m.pc]? = some q ∧ m.step code labels q = r := by
  simpa [advance] using h

theorem advance_of_getElem? {labels : Labels} {q : Quad} (h : code[m.pc]? = some q) :
    m.advance code labels = some (m.step code labels q) := by
  simp [advance, h]

/-! ### What a step does -/

/-- What a successful step on an instruction does to the machine. -/
inductive Effect (code : Code) (labels : Labels) (m : Machine) (q : Quad) : Machine → Prop
  | assign {v : Value} {k : Key} (hop : q.op = .assign) (hv : m.memory.resolve q.arg1 = .ok v)
      (hk : q.result.key m.pc = .ok k) :
      Effect code labels m q ({ m with memory := m.memory.setKey k v }).next
  | operator {op : Operator} {a b v : Value} {k : Key} (hop : q.op = .operator op)
      (ha : m.memory.resolve q.arg1 = .ok a) (hb : m.memory.resolve q.arg2 = .ok b)
      (hv : op.eval a b = .ok v) (hk : q.result.key m.pc = .ok k) :
      Effect code labels m q ({ m with memory := m.memory.setKey k v }).next
  | goto {k : Key} {p : Nat} (hop : q.op = .goto) (hk : q.result.key m.pc = .ok k)
      (hp : labels.getKey? k = some p) : Effect code labels m q { m with pc := p }
  | pass {v : Value} (hop : q.op = .jumpIfFalse) (hv : m.memory.resolve q.arg1 = .ok v)
      (ht : v.truthy = true) : Effect code labels m q m.next
  | branch {v : Value} {k : Key} {p : Nat} (hop : q.op = .jumpIfFalse)
      (hv : m.memory.resolve q.arg1 = .ok v) (ht : v.truthy = false)
      (hk : q.result.key m.pc = .ok k) (hp : labels.getKey? k = some p) :
      Effect code labels m q { m with pc := p }
  | param {v : Value} (hop : q.op = .param) (hv : m.memory.resolve q.arg1 = .ok v) :
      Effect code labels m q ({ m with params := m.params ++ [v] }).next
  | receive {k : Key} (hop : q.op = .receive) (hk : q.result.key m.pc = .ok k) :
      Effect code labels m q ({ m with
        params := m.params.tail
        memory := m.memory.setKey k (m.params.head?.getD .undefined) }).next
  | print {s lead : String} (hop : q.op = .call) (harg : q.arg1.toTree = .str s)
      (hlead : consoleLead? s = some lead) : Effect code labels m q (m.printLine lead).next
  | enter {k : Key} {p : Nat} (hop : q.op = .call) (hk : Key.ofTree m.pc q.arg1.toTree = .ok k)
      (hp : labels.getKey? k = some p) : Effect code labels m q (m.enter q p)
  | intrinsic {count : Nat} {v : Value} {answers : Answers} {memory : Memory} (hop : q.op = .call)
      (hmem : memory = m.memory ∧ q.result.truthy = false ∨
        ∃ k, q.result.key m.pc = .ok k ∧ memory = m.memory.setKey k v)
      (hcount : argumentCount m.params.length q.arg2 = .ok count) :
      Effect code labels m q ({ m with
        params := m.params.drop count, answers := answers, memory := memory }).next
  | finish (hop : q.op = .ret) (hstack : m.stack = []) :
      Effect code labels m q { m with params := [], pc := code.length }
  | leave {v : Value} {frame : Frame} {rest : List Frame} {memory : Memory} (hop : q.op = .ret)
      (hv : m.memory.resolve q.arg1 = .ok v) (hstack : m.stack = frame :: rest)
      (hmem : memory = m.memory ∧ frame.target.truthy = false ∨
        ∃ k, frame.target.key (frame.returnIndex - 1) = .ok k ∧ memory = m.memory.setKey k v) :
      Effect code labels m q
        { m with params := [], stack := rest, pc := frame.returnIndex, memory := memory }
  | skip (hop : q.op = .label ∨ ∃ word, q.op = .unknown word) : Effect code labels m q m.next

variable {labels : Labels} {q : Quad}

theorem resolve_eq_ok {a : Operand} {v : Value} (h : m.resolve a = .ok v) :
    m.memory.resolve a = .ok v := by
  unfold resolve at h; split at h
  · rename_i hv; rw [hv, Except.ok.inj h]
  · cases h

theorem write_eq_ok {place : Nat} {target : Target} {v : Value} (h : m.write place target v = .ok m') :
    ∃ k, target.key place = .ok k ∧ m' = { m with memory := m.memory.setKey k v } := by
  unfold write at h; split at h
  · rename_i k hk; exact ⟨k, hk, (Except.ok.inj h).symm⟩
  · cases h

theorem store_eq_ok {place : Nat} {target : Target} {v : Value} (h : m.store place target v = .ok m') :
    ∃ memory, m' = { m with memory := memory } ∧
      (memory = m.memory ∧ target.truthy = false ∨
        ∃ k, target.key place = .ok k ∧ memory = m.memory.setKey k v) := by
  unfold store at h; split at h
  · obtain ⟨k, hk, rfl⟩ := write_eq_ok h
    exact ⟨_, rfl, .inr ⟨k, hk, rfl⟩⟩
  · rename_i ht
    exact ⟨m.memory, (Except.ok.inj h).symm, .inl ⟨rfl, by simpa using ht⟩⟩

theorem jump_eq_ok {target : Target} (h : m.jump labels target = .ok m') :
    ∃ k p, target.key m.pc = .ok k ∧ labels.getKey? k = some p ∧ m' = { m with pc := p } := by
  unfold jump at h; split at h
  · cases h
  · rename_i k hk; split at h
    · rename_i p hp; exact ⟨k, p, hk, hp, (Except.ok.inj h).symm⟩
    · cases h

theorem callIntrinsic_effect {f : Intrinsic} (hop : q.op = .call)
    (h : m.callIntrinsic f q = .ok m') : Effect code labels m q m' := by
  unfold callIntrinsic at h; split at h
  · cases h
  · rename_i hcount
    dsimp only at h; split at h
    · cases h
    · obtain ⟨m₁, hm₁, h⟩ := except_bind_eq_ok h
      obtain ⟨memory, rfl, hmem⟩ := store_eq_ok hm₁
      cases h
      exact .intrinsic hop hmem hcount

theorem callNamed_effect {s : String} (hop : q.op = .call) (harg : q.arg1.toTree = .str s)
    (h : m.callNamed labels q s = .ok m') : Effect code labels m q m' := by
  unfold callNamed at h; split at h
  · rename_i lead hlead; cases h; exact .print hop harg hlead
  · split at h
    · rename_i p hp; cases h
      exact .enter (k := .text s) hop (by rw [harg]; rfl) hp
    · split at h
      · exact callIntrinsic_effect hop h
      · cases h

theorem call_effect (hop : q.op = .call) (h : m.call labels q = .ok m') :
    Effect code labels m q m' := by
  unfold call at h; split at h
  · rename_i s hs; exact callNamed_effect hop (by rw [hs]; rfl) h
  · rename_i s hs; exact callNamed_effect hop (by rw [hs]; rfl) h
  · split at h
    · cases h
    · rename_i k hk; split at h
      · rename_i p hp; cases h; exact .enter hop hk hp
      · cases h

theorem leave_effect {v : Value} (hop : q.op = .ret) (hv : m.memory.resolve q.arg1 = .ok v)
    (h : m.leave code v = .ok m') : Effect code labels m q m' := by
  unfold leave at h; dsimp only at h; split at h
  · rename_i hs; cases h; exact .finish hop hs
  · rename_i frame rest hs
    obtain ⟨memory, rfl, hmem⟩ := store_eq_ok h
    exact .leave hop hv hs hmem

theorem step_effect (h : m.step code labels q = .ok m') : Effect code labels m q m' := by
  unfold step at h; split at h
  · rename_i hop
    obtain ⟨v, hv, h⟩ := except_bind_eq_ok h
    obtain ⟨m₁, hm₁, h⟩ := except_bind_eq_ok h
    obtain ⟨k, hk, rfl⟩ := write_eq_ok hm₁
    cases h; exact .assign hop (resolve_eq_ok hv) hk
  · rename_i op hop
    obtain ⟨a, ha, h⟩ := except_bind_eq_ok h
    obtain ⟨b, hb, h⟩ := except_bind_eq_ok h
    split at h
    · rename_i v hv
      obtain ⟨m₁, hm₁, h⟩ := except_bind_eq_ok h
      obtain ⟨k, hk, rfl⟩ := write_eq_ok hm₁
      cases h; exact .operator hop (resolve_eq_ok ha) (resolve_eq_ok hb) hv hk
    · cases h
  · rename_i hop
    obtain ⟨k, p, hk, hp, rfl⟩ := jump_eq_ok h
    exact .goto hop hk hp
  · rename_i hop
    obtain ⟨v, hv, h⟩ := except_bind_eq_ok h
    split at h
    · rename_i ht; cases h; exact .pass hop (resolve_eq_ok hv) ht
    · rename_i ht
      obtain ⟨k, p, hk, hp, rfl⟩ := jump_eq_ok h
      exact .branch hop (resolve_eq_ok hv) (by simpa using ht) hk hp
  · rename_i hop
    obtain ⟨v, hv, h⟩ := except_bind_eq_ok h
    cases h; exact .param hop (resolve_eq_ok hv)
  · rename_i hop
    obtain ⟨m₁, hm₁, h⟩ := except_bind_eq_ok h
    obtain ⟨k, hk, rfl⟩ := write_eq_ok hm₁
    cases h; exact .receive hop hk
  · rename_i hop; exact call_effect hop h
  · rename_i hop
    obtain ⟨v, hv, h⟩ := except_bind_eq_ok h
    exact leave_effect hop (resolve_eq_ok hv) h
  · rename_i hop; cases h; exact .skip (.inl hop)
  · rename_i word hop; cases h; exact .skip (.inr ⟨word, hop⟩)

/-! ### One instruction of each sort -/

theorem resolve_of {a : Operand} {v : Value} (h : m.memory.resolve a = .ok v) : m.resolve a = .ok v := by
  unfold resolve; rw [h]

section
variable {a b v : Value} {op : Operator}

theorem step_assign (hop : q.op = .assign) (hv : m.memory.resolve q.arg1 = .ok v) :
    m.step code labels q = (do return (← m.write m.pc q.result v).next) := by
  simp only [step, hop, resolve_of hv]; rfl

theorem step_operator (hop : q.op = .operator op) (ha : m.memory.resolve q.arg1 = .ok a)
    (hb : m.memory.resolve q.arg2 = .ok b) (hv : op.eval a b = .ok v) :
    m.step code labels q = (do return (← m.write m.pc q.result v).next) := by
  simp only [step, hop, resolve_of ha, resolve_of hb, bind, Except.bind, hv]

theorem step_operator_error {fault : Fault} (hop : q.op = .operator op) (ha : m.memory.resolve q.arg1 = .ok a)
    (hb : m.memory.resolve q.arg2 = .ok b) (hv : op.eval a b = .error fault) :
    m.step code labels q = m.fail fault := by
  simp only [step, hop, resolve_of ha, resolve_of hb, bind, Except.bind, hv]

theorem step_goto (hop : q.op = .goto) : m.step code labels q = m.jump labels q.result := by
  simp only [step, hop]

theorem step_jumpIfFalse (hop : q.op = .jumpIfFalse) (hv : m.memory.resolve q.arg1 = .ok v) :
    m.step code labels q = if v.truthy then .ok m.next else m.jump labels q.result := by
  simp only [step, hop, resolve_of hv]; rfl

theorem step_param (hop : q.op = .param) (hv : m.memory.resolve q.arg1 = .ok v) :
    m.step code labels q = .ok ({ m with params := m.params ++ [v] }).next := by
  simp only [step, hop, resolve_of hv]; rfl

theorem step_receive (hop : q.op = .receive) :
    m.step code labels q = (do
      return (← ({ m with params := m.params.tail }).write m.pc q.result (m.params.head?.getD .undefined)).next) := by
  simp only [step, hop]

theorem step_call (hop : q.op = .call) : m.step code labels q = m.call labels q := by
  simp only [step, hop]

theorem step_ret (hop : q.op = .ret) (hv : m.memory.resolve q.arg1 = .ok v) :
    m.step code labels q = m.leave code v := by
  simp only [step, hop, resolve_of hv]; rfl

theorem step_label (hop : q.op = .label ∨ ∃ word, q.op = .unknown word) : m.step code labels q = .ok m.next := by
  rcases hop with hop | ⟨word, hop⟩ <;> simp only [step, hop]

end

/-! ### Where control goes -/

/-- Where control goes after an instruction. -/
inductive Moves (code : Code) (m : Machine) (q : Quad) : Nat → Prop
  | next (hgoto : q.op ≠ .goto) (hret : q.op ≠ .ret)
      (hpass : q.op = .jumpIfFalse → ∃ v, m.memory.resolve q.arg1 = .ok v ∧ v.truthy = true) :
      Moves code m q (m.pc + 1)
  | jump {k : Key} {p : Nat} (hop : q.op = .goto ∨
      q.op = .jumpIfFalse ∧ ∃ v, m.memory.resolve q.arg1 = .ok v ∧ v.truthy = false)
      (hk : q.result.key m.pc = .ok k) (hp : code.labels.getKey? k = some p) : Moves code m q p
  | enter {k : Key} {p : Nat} (hop : q.op = .call) (hk : Key.ofTree m.pc q.arg1.toTree = .ok k)
      (hp : code.labels.getKey? k = some p) : Moves code m q p
  | finish (hop : q.op = .ret) : Moves code m q code.length
  | leave {frame : Frame} (hop : q.op = .ret) (hframe : frame ∈ m.stack) : Moves code m q frame.returnIndex

theorem Effect.moves (h : Effect code code.labels m q m') : Moves code m q m'.pc := by
  cases h with
  | assign hop => exact .next (by simp [hop]) (by simp [hop]) (by simp [hop])
  | operator hop => exact .next (by simp [hop]) (by simp [hop]) (by simp [hop])
  | goto hop hk hp => exact .jump (.inl hop) hk hp
  | pass hop hv ht => exact .next (by simp [hop]) (by simp [hop]) fun _ => ⟨_, hv, ht⟩
  | branch hop hv ht hk hp => exact .jump (.inr ⟨hop, _, hv, ht⟩) hk hp
  | param hop => exact .next (by simp [hop]) (by simp [hop]) (by simp [hop])
  | receive hop => exact .next (by simp [hop]) (by simp [hop]) (by simp [hop])
  | print hop => exact .next (by simp [hop]) (by simp [hop]) (by simp [hop])
  | enter hop hk hp => exact .enter hop hk hp
  | intrinsic hop => exact .next (by simp [hop]) (by simp [hop]) (by simp [hop])
  | finish hop => exact .finish hop
  | leave hop _ hstack => exact .leave hop (hstack ▸ List.mem_cons_self)
  | skip hop => rcases hop with hop | ⟨word, hop⟩ <;> exact .next (by simp [hop]) (by simp [hop]) (by simp [hop])

theorem Effect.frames (h : Effect code code.labels m q m') :
    ∀ f ∈ m'.stack, f ∈ m.stack ∨ q.op = .call ∧ f.returnIndex = m.pc + 1 := by
  cases h with
  | enter hop => exact List.forall_mem_cons.2 ⟨.inr ⟨hop, rfl⟩, fun f hf => .inl hf⟩
  | leave _ _ hstack => exact fun f hf => .inl (hstack ▸ List.mem_cons_of_mem _ hf)
  | _ => exact fun f hf => .inl hf

end Machine

end QuadScript
