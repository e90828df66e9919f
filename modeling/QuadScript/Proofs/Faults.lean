import QuadScript.Proofs.Declarations
import QuadScript.Proofs.Exact
import QuadScript.Proofs.Jumps
import QuadScript.Proofs.Tables

/-!
# How runs fail

A machine is sound for a class of numbers if the numbers in its memory, in its queue and among the answers to come are
of that class (`Machine.Sound`). On a sound machine an instruction of emitted code succeeds and leaves the machine
sound, or calls a function that is not there (`Machine.Sound.step`), unless it reads an integer from a text: that
integer is of any size. So a run fails in another way, or holds a number of another class, exactly if such an integer
is not of the class (`Machine.Progress.runsWithin_iff`).
-/

namespace QuadScript

/-! ### Tables and texts -/

namespace Table

variable {κ α : Type} [DecidableEq κ]

theorem mem_of_find? {k : κ} {a : α} {es : List (κ × α)} (h : find? k es = some a) : (k, a) ∈ es := by
  induction es with
  | nil => cases h
  | cons e rest ih =>
    unfold find? at h
    split at h
    · rename_i hk
      cases h
      rw [← hk]
      exact List.mem_cons_self
    · exact List.mem_cons_of_mem _ (ih h)

theorem mem_values_of_get? {t : Table κ α} {k : κ} {a : α} (h : t.get? k = some a) : a ∈ t.values :=
  List.mem_map.2 ⟨(k, a), mem_of_find? h, rfl⟩

theorem mem_values_set {t : Table κ α} {k : κ} {a b : α} (h : b ∈ (t.set k a).values) : b = a ∨ b ∈ t.values := by
  obtain ⟨e, he, rfl⟩ := List.mem_map.1 h
  rcases mem_put he with rfl | he
  · exact .inl rfl
  · exact .inr (List.mem_map_of_mem he)

end Table

namespace Intrinsic

/-- The integer that a text starts with, if there is one, has no more digits than are read and is exact. -/
def ReadsExact (text : String) : Prop := ∀ i ∈ Numeral.leadingInteger? text.toList,
  i.digits.length ≤ Numeral.digitLimit ∧ i.value.natAbs ≤ Number.exactLimit

instance (text : String) : Decidable (ReadsExact text) :=
  inferInstanceAs (Decidable (∀ i ∈ Numeral.leadingInteger? text.toList,
    i.digits.length ≤ Numeral.digitLimit ∧ i.value.natAbs ≤ Number.exactLimit))

theorem readsExact_iff {text : String} : ReadsExact text ↔ ∃ n, readInt text = .ok n ∧ n.Exact := by
  unfold ReadsExact readInt
  cases hi : Numeral.leadingInteger? text.toList with
  | none => exact ⟨fun _ => ⟨.int 0, rfl, Nat.zero_le _⟩, fun _ _ h => by cases h⟩
  | some i =>
    by_cases hdigits : Numeral.digitLimit < i.digits.length
    · simp only [if_pos hdigits]
      refine ⟨fun h => absurd (h i rfl).1 (Nat.not_le.2 hdigits), fun ⟨_, h, _⟩ => by cases h⟩
    · simp only [if_neg hdigits]
      constructor
      · exact fun h => ⟨_, rfl, (h i rfl).2⟩
      · rintro ⟨_, ⟨⟩, hexact⟩ _ ⟨⟩
        exact ⟨Nat.not_lt.1 hdigits, hexact⟩

theorem readInt_eq_error {text : String} {fault : Fault} (h : readInt text = .error fault) :
    ∃ count, fault = .tooManyDigits count := by
  unfold readInt at h
  split at h
  · cases h
  · split at h
    · cases h
      exact ⟨_, rfl⟩
    · cases h

theorem exact_readFloat (text : String) : (readFloat text).Exact := by
  unfold readFloat
  dsimp only
  split
  · trivial
  · split
    · trivial
    · trivial

theorem ofTarget?_eq_parseInt {s : String} (h : ofTarget? s = some .parseInt) : s = functionMark ++ "parseInt" := by
  unfold ofTarget? at h
  split at h <;> cases h
  rfl

end Intrinsic

/-! ### Sound machines -/

/-- The answers to come are of a class. -/
def Answers.Within (N : Number → Prop) : Answers → Prop
  | .scripted vs => ∀ v ∈ vs, v.Within N
  | .asking vs _ => ∀ v ∈ vs, v.Within N
  | .nobody => True

theorem Answers.Within.next {N : Number → Prop} {answers : Answers} (h : answers.Within N) (message : String) :
    (answers.next message).1.Within N ∧ (answers.next message).2.Within N := by
  cases answers with
  | scripted vs =>
    cases vs with
    | nil => exact ⟨trivial, h⟩
    | cons v vs => exact List.forall_mem_cons.1 h
  | asking vs asked =>
    cases vs with
    | nil => exact ⟨trivial, h⟩
    | cons v vs => exact List.forall_mem_cons.1 h
  | nobody => exact ⟨trivial, h⟩

namespace Machine

/-- The numbers in the memory and in the queue are of a class. -/
structure Within (N : Number → Prop) (m : Machine) : Prop where
  memory : ∀ v ∈ m.memory.values, v.Within N
  params : ∀ v ∈ m.params, v.Within N

/-- What keeps a machine within a class: the answers are too, and the results of calls can be stored. -/
structure Sound (N : Number → Prop) (m : Machine) : Prop extends Within N m where
  answers : m.answers.Within N
  frames : ∀ f ∈ m.stack, f.target.Keyed

/-- The text that an instruction reads an integer from, if it calls the intrinsic that does. A function of that name
comes first. -/
def parsed? (m : Machine) (labels : Labels) (q : Quad) : Option String :=
  match q.op, q.arg1 with
  | .call, .name s =>
    if s = functionMark ++ "parseInt" ∧ labels.get? (.text s) = none then
      match argumentCount m.params.length q.arg2 with
      | .ok count => (m.params.take count).head?.map Value.toText
      | .error _ => none
    else none
  | _, _ => none

variable {N : Number → Prop} {m m' : Machine} {code : Code} {labels : Labels} {q : Quad} {v : Value}

theorem parsed?_call {k : Nat} {x : Target} (hlabel : labels.get? (.text (functionMark ++ "parseInt")) = none) :
    m.parsed? labels (Quad.call (functionMark ++ "parseInt") k x) =
      (m.params.take (min k m.params.length)).head?.map Value.toText := by
  unfold parsed?
  exact if_pos ⟨rfl, hlabel⟩

theorem read_within (hN : Number.Closed N) {memory : Memory} (h : ∀ v ∈ memory.values, v.Within N) (s : String) :
    (memory.read s).Within N := by
  unfold Memory.read
  cases hs : memory.get? (.text s) with
  | some v => exact h v (Table.mem_values_of_get? hs)
  | none =>
    change ((namedConstant? s).getD .undefined).Within N
    unfold namedConstant?
    split
    · trivial
    · trivial
    · trivial
    · trivial
    · exact hN.exact trivial
    · exact hN.exact trivial
    · trivial

theorem resolve_within (hN : Number.Closed N) {memory : Memory} (h : ∀ v ∈ memory.values, v.Within N) {a : Operand}
    (ha : a.Scalar N) : ∃ v, memory.resolve a = .ok v ∧ v.Within N := by
  cases a with
  | none => exact ⟨_, rfl, trivial⟩
  | bool b => exact ⟨_, rfl, trivial⟩
  | num n => exact ⟨_, rfl, ha⟩
  | text s => exact ⟨_, rfl, trivial⟩
  | name s => exact ⟨_, rfl, read_within hN h s⟩
  | raw data => cases ha

theorem callIntrinsic_of_ok {f : Intrinsic} {count : Nat} {answers : Answers}
    (hcount : argumentCount m.params.length q.arg2 = .ok count)
    (heval : f.eval (m.params.take count) m.answers = .ok (v, answers)) :
    m.callIntrinsic f q = (do
      return (← ({ m with params := m.params.drop count, answers := answers }).store m.pc q.result v).next) := by
  unfold callIntrinsic
  rw [hcount]
  dsimp only
  rw [heval]

theorem callIntrinsic_of_error {f : Intrinsic} {count : Nat} {fault : Fault}
    (hcount : argumentCount m.params.length q.arg2 = .ok count)
    (heval : f.eval (m.params.take count) m.answers = .error fault) :
    ∃ m', m.callIntrinsic f q = .error ⟨fault, m'⟩ := by
  unfold callIntrinsic
  rw [hcount]
  dsimp only
  rw [heval]
  exact ⟨_, rfl⟩

/-- A step that leaves the machine sound, or calls a function that is not there. -/
def Goes (N : Number → Prop) (r : Except Failure Machine) : Prop :=
  (∃ m', r = .ok m' ∧ m'.Sound N) ∨ ∃ f m', r = .error ⟨.undefinedFunction f, m'⟩

namespace Sound

theorem start {answers : Answers} (h : answers.Within N) : (start answers).Sound N where
  memory := nofun
  params := nofun
  answers := h
  frames := nofun

theorem next (h : m.Sound N) : m.next.Sound N := ⟨⟨h.memory, h.params⟩, h.answers, h.frames⟩

theorem goTo (h : m.Sound N) (p : Nat) : ({ m with pc := p } : Machine).Sound N :=
  ⟨⟨h.memory, h.params⟩, h.answers, h.frames⟩

theorem setParams (h : m.Sound N) {vs : List Value} (hvs : ∀ v ∈ vs, v.Within N) :
    ({ m with params := vs } : Machine).Sound N := ⟨⟨h.memory, hvs⟩, h.answers, h.frames⟩

theorem setAnswers (h : m.Sound N) {answers : Answers} (hanswers : answers.Within N) :
    ({ m with answers := answers } : Machine).Sound N := ⟨⟨h.memory, h.params⟩, hanswers, h.frames⟩

theorem setKey (h : m.Sound N) (k : Key) (hv : v.Within N) :
    ({ m with memory := m.memory.setKey k v } : Machine).Sound N := by
  refine ⟨⟨fun w hw => ?_, h.params⟩, h.answers, h.frames⟩
  rcases Table.mem_values_set hw with rfl | hw
  · exact hv
  · exact h.memory w hw

theorem write (h : m.Sound N) (place : Nat) {x : Target} (hx : x.Keyed) (hv : v.Within N) :
    ∃ m', m.write place x v = .ok m' ∧ m'.Sound N := by
  obtain ⟨k, hk⟩ := hx.exists_key place
  unfold Machine.write
  rw [hk]
  exact ⟨_, rfl, h.setKey k hv⟩

theorem write_next (h : m.Sound N) (place : Nat) {x : Target} (hx : x.Keyed) (hv : v.Within N) :
    ∃ m', (do return (← m.write place x v).next : Except Failure Machine) = .ok m' ∧ m'.Sound N := by
  obtain ⟨m₁, hm₁, h₁⟩ := h.write place hx hv
  rw [hm₁]
  exact ⟨_, rfl, h₁.next⟩

theorem store (h : m.Sound N) (place : Nat) {x : Target} (hx : x.Keyed) (hv : v.Within N) :
    ∃ m', m.store place x v = .ok m' ∧ m'.Sound N := by
  unfold Machine.store
  split
  · exact h.write place hx hv
  · exact ⟨m, rfl, h⟩

theorem enter (h : m.Sound N) (hx : q.result.Keyed) (position : Nat) : (m.enter q position).Sound N :=
  ⟨⟨h.memory, h.params⟩, h.answers, List.forall_mem_cons.2 ⟨hx, h.frames⟩⟩

theorem printLine (h : m.Sound N) (lead : String) : (m.printLine lead).Sound N :=
  ⟨⟨h.memory, nofun⟩, h.answers, h.frames⟩

theorem leave (h : m.Sound N) (hv : v.Within N) : ∃ m', m.leave code v = .ok m' ∧ m'.Sound N := by
  have hempty : ({ m with params := [] } : Machine).Sound N := h.setParams nofun
  unfold Machine.leave
  dsimp only
  split
  · exact ⟨_, rfl, hempty.goTo _⟩
  · rename_i frame rest hstack
    have hframes : ∀ f ∈ frame :: rest, f.target.Keyed := hstack ▸ h.frames
    obtain ⟨hframe, hrest⟩ := List.forall_mem_cons.1 hframes
    refine store (m := { m with params := [], stack := rest, pc := frame.returnIndex }) ?_ _ hframe hv
    exact ⟨⟨h.memory, nofun⟩, h.answers, hrest⟩

theorem jump {s : String} (h : m.Sound N) (hs : (labels.get? (.text s)).isSome) :
    ∃ m', m.jump labels (.name s) = .ok m' ∧ m'.Sound N := by
  obtain ⟨p, hp⟩ := Option.isSome_iff_exists.1 hs
  exact ⟨_, jump_of_get? hp, h.goTo p⟩

/-! ### Calls -/

theorem eval (h : m.Sound N) (hN : Number.Closed N) (f : Intrinsic) (args : List Value)
    (hread : f = .parseInt → ∀ v ∈ args.head?, ∃ n, Intrinsic.readInt v.toText = .ok n ∧ N n) :
    ∃ v answers, f.eval args m.answers = .ok (v, answers) ∧ v.Within N ∧ answers.Within N := by
  cases f with
  | prompt =>
    have hnext : ∀ r, (∃ message, m.answers.next message = r) → r.1.Within N ∧ r.2.Within N := by
      rintro _ ⟨message, rfl⟩
      exact h.answers.next message
    unfold Intrinsic.eval
    dsimp only
    split
    · rename_i answers heq
      exact ⟨_, _, rfl, trivial, (hnext _ ⟨_, heq⟩).2⟩
    · rename_i v answers _ heq
      exact ⟨_, _, rfl, hnext _ ⟨_, heq⟩⟩
  | parseInt =>
    cases args with
    | nil => exact ⟨_, _, rfl, hN.exact (Nat.zero_le _), h.answers⟩
    | cons v args =>
      obtain ⟨n, hn, hnN⟩ := hread rfl v rfl
      refine ⟨.num n, m.answers, ?_, hnN, h.answers⟩
      change (Intrinsic.readInt v.toText >>= fun n => _) = _
      rw [hn]
      rfl
  | parseFloat =>
    cases args with
    | nil => exact ⟨_, _, rfl, hN.exact trivial, h.answers⟩
    | cons v args => exact ⟨_, _, rfl, hN.exact (Intrinsic.exact_readFloat _), h.answers⟩

theorem callIntrinsic (h : m.Sound N) (hN : Number.Closed N) {f : Intrinsic} {count : Nat}
    (hcount : argumentCount m.params.length q.arg2 = .ok count) (hx : q.result.Keyed)
    (hread : f = .parseInt → ∀ v ∈ (m.params.take count).head?, ∃ n, Intrinsic.readInt v.toText = .ok n ∧ N n) :
    ∃ m', m.callIntrinsic f q = .ok m' ∧ m'.Sound N := by
  obtain ⟨v, answers, heval, hv, hanswers⟩ := h.eval hN f (m.params.take count) hread
  have hrest : ({ m with params := m.params.drop count } : Machine).Sound N :=
    h.setParams fun w hw => h.params w (List.mem_of_mem_drop hw)
  obtain ⟨m₁, hm₁, h₁⟩ := (hrest.setAnswers hanswers).store m.pc hx hv
  refine ⟨m₁.next, ?_, h₁.next⟩
  rw [callIntrinsic_of_ok hcount heval, hm₁]
  rfl

theorem call (h : m.Sound N) (hN : Number.Closed N) {s : String} {k : Nat} {x : Target} (hx : x.Keyed)
    (hread : ∀ text ∈ m.parsed? labels (Quad.call s k x), ∃ n, Intrinsic.readInt text = .ok n ∧ N n) :
    Goes N (m.call labels (Quad.call s k x)) := by
  change Goes N (m.callNamed labels (Quad.call s k x) s)
  unfold callNamed
  cases hlead : consoleLead? s with
  | some lead => exact .inl ⟨_, rfl, (h.printLine lead).next⟩
  | none =>
    dsimp only
    cases hlabel : labels.get? (.text s) with
    | some position => exact .inl ⟨_, rfl, h.enter hx position⟩
    | none =>
      dsimp only
      cases hf : Intrinsic.ofTarget? s with
      | none => exact .inr ⟨_, _, rfl⟩
      | some f =>
        refine .inl (h.callIntrinsic hN rfl hx ?_)
        rintro rfl v hv
        obtain rfl := Intrinsic.ofTarget?_eq_parseInt hf
        exact hread v.toText (parsed?_call hlabel ▸ Option.mem_map_of_mem Value.toText hv)

/-! ### Steps and runs -/

variable {P : Operand → Prop} {Q : Target → Prop}

/-- An instruction of emitted code leaves a sound machine sound, or calls a function that is not there. -/
theorem step (h : m.Sound N) (hN : Number.Closed N) (hP : ∀ a, P a → a.Scalar N) (hQ : ∀ x, Q x → x.Scalar)
    (hq : q.Emitted P Q)
    (hjump : q.op = .goto ∨ q.op = .jumpIfFalse → ∃ s, q.result = .name s ∧ (labels.get? (.text s)).isSome)
    (hread : ∀ text ∈ m.parsed? labels q, ∃ n, Intrinsic.readInt text = .ok n ∧ N n) :
    Goes N (m.step code labels q) := by
  have hresolve : ∀ {a : Operand}, P a → ∃ v, m.memory.resolve a = .ok v ∧ v.Within N :=
    fun ha => resolve_within hN h.memory (hP _ ha)
  -- by what is emitted: operands are scalars of the class, jumps find their labels, and a call may read an integer
  cases hq with
  | assign ha _ hx =>
    obtain ⟨v, hv, hw⟩ := hresolve ha
    rw [step_assign rfl hv]
    exact .inl (h.write_next m.pc (hQ _ hx).keyed hw)
  | @operator op a b t ha hb =>
    obtain ⟨v, hv, hvN⟩ := hresolve ha
    obtain ⟨w, hw, hwN⟩ := hresolve hb
    obtain ⟨u, hu, huN⟩ := op.eval_within hN hvN hwN
    rw [step_operator rfl hv hw hu]
    exact .inl (h.write_next m.pc trivial huN)
  | param ha =>
    obtain ⟨v, hv, hw⟩ := hresolve ha
    rw [step_param rfl hv]
    refine .inl ⟨_, rfl, (h.setParams ?_).next⟩
    exact List.forall_mem_append.2 ⟨h.params, List.forall_mem_singleton.2 hw⟩
  | print =>
    rw [step_call rfl]
    exact h.call hN trivial hread
  | call =>
    rw [step_call rfl]
    exact h.call hN trivial hread
  | jumpIfFalse ha =>
    obtain ⟨v, hv, -⟩ := hresolve ha
    obtain ⟨_, ⟨⟩, hs⟩ := hjump (.inr rfl)
    rw [step_jumpIfFalse rfl hv]
    split
    · exact .inl ⟨_, rfl, h.next⟩
    · exact .inl (h.jump hs)
  | goto =>
    obtain ⟨_, ⟨⟩, hs⟩ := hjump (.inl rfl)
    exact .inl (h.jump hs)
  | «over» =>
    obtain ⟨_, ⟨⟩, hs⟩ := hjump (.inl rfl)
    exact .inl (h.jump hs)
  | label => exact .inl ⟨_, rfl, h.next⟩
  | enter => exact .inl ⟨_, rfl, h.next⟩
  | leave => exact .inl ⟨_, rfl, h.next⟩
  | receive _ hx =>
    rw [step_receive rfl]
    have hhead : (m.params.head?.getD .undefined).Within N := by
      cases hparams : m.params with
      | nil => trivial
      | cons v vs => exact h.params v (by rw [hparams]; exact List.mem_cons_self)
    refine .inl ((h.setParams fun v hv => ?_).write_next m.pc (hQ _ hx).keyed hhead)
    exact h.params v (List.mem_of_mem_tail hv)
  | ret ha =>
    obtain ⟨v, hv, hw⟩ := hresolve ha
    rw [step_ret rfl hv]
    exact .inl (h.leave hw)

end Sound

/-- The integer that an instruction reads from a text, if it does, is of a class. -/
def ReadsWithin (N : Number → Prop) (labels : Labels) (m : Machine) (q : Quad) : Prop :=
  ∀ text ∈ m.parsed? labels q, ∃ n, Intrinsic.readInt text = .ok n ∧ N n

/-- A run under a ceiling that stays within a class of numbers and fails only at the ceiling, or with a call of a
function that is not there. -/
structure RunsWithin (N : Number → Prop) (code : Code) (maxSteps : Int) (answers : Answers) : Prop where
  fault : ∀ fault ∈ (execute code maxSteps answers).fault,
    fault = .stepLimit maxSteps ∨ ∃ f, fault = .undefinedFunction f
  states : ∀ k ≤ maxSteps.toNat, ∀ m, Steps code k (Machine.start answers) m → m.Within N

/-- Each instruction of the code goes on from a sound machine. -/
def Progress (N : Number → Prop) (code : Code) : Prop := ∀ (m : Machine) (q : Quad), m.Sound N → code[m.pc]? = some q →
  m.ReadsWithin N code.labels q → Goes N (m.step code code.labels q)

theorem Sound.steps {k : Nat} (hcode : Progress N code) (h : m.Sound N) (hs : Steps code k m m')
    (hread : ∀ j < k, ∀ m₁ q, Steps code j m m₁ → code[m₁.pc]? = some q → m₁.ReadsWithin N code.labels q) :
    m'.Sound N := by
  induction hs with
  | refl => exact h
  | @head n m m₁ m₂ hadv _ ih =>
    obtain ⟨q, hq, hstep⟩ := advance_eq_some hadv
    rcases hcode m q h hq (hread 0 (Nat.succ_pos _) m q (.refl m) hq) with ⟨m₂, hm₂, h₂⟩ | ⟨f, m₂, hm₂⟩
    · cases hm₂.symm.trans hstep
      exact ih h₂ fun j hj m₃ q₃ hm₃ => hread (j + 1) (Nat.succ_lt_succ hj) m₃ q₃ (.head hadv hm₃)
    · cases hm₂.symm.trans hstep

theorem Sound.runFor_fault (ceiling : Int) {fuel : Nat} (hcode : Progress N code) (h : m.Sound N)
    (hread : ∀ j < fuel, ∀ m₁ q, Steps code j m m₁ → code[m₁.pc]? = some q → m₁.ReadsWithin N code.labels q) :
    ∀ fault ∈ (runFor code code.labels ceiling fuel m).fault,
      fault = .stepLimit ceiling ∨ ∃ f, fault = .undefinedFunction f := by
  induction fuel generalizing m with
  | zero =>
    intro fault hfault
    cases hq : code[m.pc]? with
    | none =>
      rw [runFor_of_end ceiling 0 (by simp [advance, hq])] at hfault
      cases hfault
    | some q =>
      unfold runFor at hfault
      rw [advance_of_getElem? hq] at hfault
      cases hfault
      exact .inl rfl
  | succ fuel ih =>
    cases hq : code[m.pc]? with
    | none =>
      rw [runFor_of_end ceiling _ (by simp [advance, hq])]
      exact fun fault hfault => by cases hfault
    | some q =>
      rw [runFor_succ ceiling fuel hq]
      rcases hcode m q h hq (hread 0 (Nat.succ_pos _) m q (.refl m) hq) with ⟨m₁, hm₁, h₁⟩ | ⟨f, m₁, hm₁⟩
      · have hadv : m.advance code code.labels = some (.ok m₁) := by rw [advance_of_getElem? hq, hm₁]
        rw [hm₁]
        exact ih h₁ fun j hj m₂ q₂ hm₂ => hread (j + 1) (Nat.succ_lt_succ hj) m₂ q₂ (.head hadv hm₂)
      · rw [hm₁]
        rintro fault ⟨⟩
        exact .inr ⟨f, rfl⟩

theorem parsed?_eq_some {s text : String} {k : Nat} {x : Target} (h : m.parsed? labels (Quad.call s k x) = some text) :
    s = functionMark ++ "parseInt" ∧ labels.get? (.text s) = none ∧
      ∃ v vs, m.params.take (min k m.params.length) = v :: vs ∧ v.toText = text := by
  by_cases hs : s = functionMark ++ "parseInt" ∧ labels.get? (.text s) = none
  · obtain ⟨rfl, hlabel⟩ := hs
    rw [parsed?_call hlabel] at h
    obtain ⟨v, hv, rfl⟩ := Option.map_eq_some_iff.1 h
    obtain ⟨vs, hvs⟩ := List.head?_eq_some_iff.1 hv
    exact ⟨rfl, hlabel, v, vs, hvs, rfl⟩
  · cases (if_neg hs).symm.trans h

theorem store_temp (m : Machine) (place t : Nat) (v : Value) : m.store place (.name (tempName t)) v =
    .ok { m with memory := m.memory.set (.text (tempName t)) v } := by
  have hne : tempName t ≠ "" := by
    intro hempty
    cases hempty ▸ isTempName_tempName t
  have htruthy : (Target.name (tempName t)).truthy = true := by simp [Target.truthy, Target.toTree, Tree.truthy, hne]
  rw [store, if_pos htruthy]
  rfl

theorem step_parsed (code : Code) {s text : String} {k t : Nat}
    (h : m.parsed? labels (Quad.call s k (.name (tempName t))) = some text) :
    (∃ fault m', Intrinsic.readInt text = .error fault ∧
      m.step code labels (Quad.call s k (.name (tempName t))) = .error ⟨fault, m'⟩) ∨
      ∃ n m', Intrinsic.readInt text = .ok n ∧ m.step code labels (Quad.call s k (.name (tempName t))) = .ok m' ∧
        m'.pc = m.pc + 1 ∧ m'.memory = m.memory.set (.text (tempName t)) (.num n) := by
  obtain ⟨rfl, hlabel, v, vs, hargs, rfl⟩ := parsed?_eq_some h
  have hcall : m.step code labels (Quad.call (functionMark ++ "parseInt") k (.name (tempName t))) =
      m.callIntrinsic .parseInt (Quad.call (functionMark ++ "parseInt") k (.name (tempName t))) := by
    rw [step_call rfl]
    change m.callNamed labels _ (functionMark ++ "parseInt") = _
    unfold callNamed
    rw [consoleLead?_functionMark]
    dsimp only
    rw [hlabel]
    rfl
  have heval : Intrinsic.parseInt.eval (m.params.take (min k m.params.length)) m.answers =
      (do return (.num (← Intrinsic.readInt v.toText), m.answers)) := by
    rw [hargs]
    rfl
  have hcount : argumentCount m.params.length (Quad.call (functionMark ++ "parseInt") k (.name (tempName t))).arg2 =
      .ok (min k m.params.length) := rfl
  rw [hcall]
  cases hread : Intrinsic.readInt v.toText with
  | error fault =>
    rw [hread] at heval
    obtain ⟨m', hm'⟩ := callIntrinsic_of_error hcount heval
    exact .inl ⟨fault, m', rfl, hm'⟩
  | ok n =>
    rw [hread] at heval
    have hstep := (callIntrinsic_of_ok hcount heval).trans
      (congrArg (· >>= fun m' => pure m'.next) (store_temp _ m.pc t (.num n)))
    exact .inr ⟨n, _, rfl, hstep, rfl, rfl⟩

theorem eq_call_of_parsed {P : Operand → Prop} {Q : Target → Prop} {text : String} (hq : q.Emitted P Q)
    (h : m.parsed? labels q = some text) : ∃ s k t, q = Quad.call s k (.name (tempName t)) := by
  cases hq with
  | call => exact ⟨_, _, _, rfl⟩
  | @print f =>
    obtain ⟨hs, -⟩ := parsed?_eq_some h
    exact absurd hs (ne_of_head (head_consoleMark f) (head_functionMark "parseInt") (by decide))
  | _ => cases h

end Machine

/-! ### Code and programs -/

open Machine

section
variable {N : Number → Prop} {P : Operand → Prop} {Q : Target → Prop} {code : Code} {labels : Nat}
  {functions : List String} {answers : Answers} {maxSteps : Int}

theorem Code.Resolves.progress (hcode : code.Resolves labels functions) (hN : Number.Closed N)
    (hP : ∀ a, P a → a.Scalar N) (hQ : ∀ x, Q x → x.Scalar) (hemit : ∀ q ∈ code, q.Emitted P Q) :
    Progress N code := by
  intro m q hm hq hread
  have hmem := List.mem_of_getElem? hq
  refine hm.step hN hP hQ (hemit q hmem) (fun hj => ?_) hread
  obtain ⟨s, hs, ⟨p, hp⟩, -⟩ := hcode.jumps q hmem hj
  exact ⟨s, hs, Code.labels_get?_isSome hcode.named hp.exists_mem⟩

/-- A run of code that goes on stays within a class exactly if the integers that it reads from texts are of it. -/
theorem Machine.Progress.runsWithin_iff (hcode : Progress N code) (hlink : code.linkFault? = none)
    (hemit : ∀ q ∈ code, q.Emitted P Q) (hanswers : answers.Within N) :
    RunsWithin N code maxSteps answers ↔
      ∀ m q, Machine.Performs code maxSteps answers m q → m.ReadsWithin N code.labels q := by
  constructor
  · rintro ⟨hfault, hstates⟩ m q ⟨-, hq, k, hk, hsteps⟩ text htext
    have hadv : m.advance code code.labels = some (m.step code code.labels q) := advance_of_getElem? hq
    obtain ⟨s, j, t, rfl⟩ := eq_call_of_parsed (hemit q (List.mem_of_getElem? hq)) htext
    rcases step_parsed code htext with ⟨fault, m', hread, hm'⟩ | ⟨n, m', hn, hm', -, hmem⟩
    · obtain ⟨count, rfl⟩ := Intrinsic.readInt_eq_error hread
      rw [hm'] at hadv
      rw [execute_of_linked hlink] at hfault
      rcases hfault _ (hsteps.runFor_fault hadv maxSteps hk) with hf | ⟨f, hf⟩ <;> cases hf
    · rw [hm'] at hadv
      have hget : m'.memory.get? (.text (tempName t)) = some (.num n) := by simp [hmem]
      exact ⟨n, hn, (hstates (k + 1) hk m' (hsteps.tail hadv)).memory _ (Table.mem_values_of_get? hget)⟩
  · intro hread
    have hstart := Sound.start hanswers
    have hread' : ∀ j < maxSteps.toNat, ∀ m₁ q, Steps code j (start answers) m₁ → code[m₁.pc]? = some q →
        m₁.ReadsWithin N code.labels q := fun j hj m₁ q hs hq => hread m₁ q ⟨hlink, hq, j, hj, hs⟩
    refine ⟨?_, fun k hk m hm => ?_⟩
    · rw [execute_of_linked hlink]
      exact hstart.runFor_fault maxSteps hcode hread'
    · exact (hstart.steps hcode hm fun j hj => hread' j (Nat.lt_of_lt_of_le hj hk)).toWithin

theorem Machine.runsWithin_renumber :
    RunsWithin N code.renumber maxSteps answers ↔ RunsWithin N code maxSteps answers := by
  constructor
  · rintro ⟨hfault, hstates⟩
    exact ⟨execute_renumber maxSteps ▸ hfault, fun k hk m hm => hstates k hk m (steps_renumber.2 hm)⟩
  · rintro ⟨hfault, hstates⟩
    exact ⟨(execute_renumber maxSteps).symm ▸ hfault, fun k hk m hm => hstates k hk m (steps_renumber.1 hm)⟩

theorem Machine.Performs.renumber {m : Machine} {q : Quad} (h : Machine.Performs code maxSteps answers m q) :
    Machine.Performs code.renumber maxSteps answers m { q with index := m.pc } := by
  obtain ⟨hlink, hq, k, hk, hs⟩ := h
  refine ⟨?_, ?_, k, hk, steps_renumber.2 hs⟩
  · rw [Code.linkFault?_congr Code.control_renumber, hlink]
  · rw [Code.getElem?_renumber, hq]
    rfl

end

namespace Node

variable {N : Number → Prop} {n : Node} {l : Lowered Unit}

/-- The run of a program with numbers of a closed class stays within it exactly if the integers that it reads from
texts are of the class. -/
theorem runsWithin_iff (hN : Number.Closed N) (hplain : n.Plain N) (hl : n.lower = .ok l) (maxSteps : Int)
    {answers : Answers} (hanswers : answers.Within N) :
    RunsWithin N l.code maxSteps answers ↔
      ∀ m q, Machine.Performs l.code maxSteps answers m q → m.ReadsWithin N l.code.labels q := by
  have hone : N (.int 1) := hN.exact (by unfold Number.Exact; decide)
  obtain ⟨c, hc, hemits⟩ := lower_emits (p := True) (fun _ => hone) (fun _ => hplain) hl
  have hemitted := hemits.emitted (fun _ _ => trivial) (fun _ => trivial) Loop.drawn_none
  have hresolves := hemits.resolves (fun _ _ => trivial) (fun _ => trivial)
  have hprogress := hresolves.progress hN (fun _ ha => ha trivial) (fun _ hx => hx trivial) hemitted
  rw [hc, runsWithin_renumber, hprogress.runsWithin_iff hresolves.linkFault?_eq_none hemitted hanswers,
    Code.labels_congr Code.control_renumber]
  constructor
  · rintro h m q ⟨hlink, hq, k, hk, hs⟩
    rw [Code.getElem?_renumber] at hq
    obtain ⟨q', hq', rfl⟩ := Option.map_eq_some_iff.1 hq
    exact h m q' ⟨hresolves.linkFault?_eq_none, hq', k, hk, steps_renumber.1 hs⟩
  · intro h m q hq
    have hread := h m _ hq.renumber
    exact hread

/-- A program with exact integers keeps to exact values, and fails only at the ceiling or with a call of a function
that is not there, exactly if every integer that it reads from a text is exact and not too long to be read. -/
theorem runsWithin_exact_iff (hplain : n.Plain Number.Exact) (hl : n.lower = .ok l) (maxSteps : Int)
    (inputs : List String) :
    RunsWithin Number.Exact l.code maxSteps (.scripted (inputs.map .str)) ↔
      ∀ m q, Machine.Performs l.code maxSteps (.scripted (inputs.map .str)) m q →
        ∀ text ∈ m.parsed? l.code.labels q, Intrinsic.ReadsExact text := by
  have hanswers : (Answers.scripted (inputs.map .str)).Within Number.Exact := List.forall_mem_map.2 fun _ _ => trivial
  simp only [runsWithin_iff Number.closed_exact hplain hl maxSteps hanswers, ReadsWithin, Intrinsic.readsExact_iff]

/-- The double of an integer that is read from an answer. -/
def doubleProgram : Node := .bare (.program [
  .bare (.expression (.print [.binary "*"
    (.bare (.call (.named "parseInt") [.bare (.call (.named "prompt") [])])) (.int 2)]))])

def doubleCode : Code := Code.renumber [
  Quad.call "FUNC_prompt" 0 (.name "t0"), Quad.param (.name "t0"), Quad.call "FUNC_parseInt" 1 (.name "t1"),
  Quad.operator (.binary .mul) (.name "t1") (.num (.int 2)) "t2",
  Quad.param (.name "t2"), Quad.call "console_log" 1 .none]

theorem doubleProgram_lower : doubleProgram.lower = .ok ⟨(), doubleCode, { temps := 3 }⟩ := by
  cbv

theorem doubleProgram_plain : doubleProgram.Plain Number.Exact := by
  simp [doubleProgram, Node.bare, Node.named, Node.int, Node.binary, Node.print, Node.Plain, Form.Plain,
    Node.PlainList, Mark.Plain, Tree.Scalar, Number.Exact]
  decide

theorem runsWithin_exact_iff_double : RunsWithin Number.Exact doubleCode 100 (.scripted [.str " 21px"]) ∧
    (run doubleCode 100 (.scripted [.str " 21px"])).output = ["42"] := by
  refine ⟨(runsWithin_exact_iff doubleProgram_plain doubleProgram_lower 100 [" 21px"]).2 ?_, by decide +kernel⟩
  exact Machine.Performs.of_after (by decide +kernel)

/-- An integer that is read from a text, times a double. -/
def readingProgram (text : String) (x : Float) : Node := .bare (.program [
  .bare (.expression (.print [.binary "*"
    (.bare (.call (.named "parseInt") [.bare (.literal false (.str text))]))
    (.bare (.literal false (.num (.float x))))]))])

def readingCode (text : String) (x : Float) : Code := Code.renumber [
  Quad.param (.text text), Quad.call "FUNC_parseInt" 1 (.name "t0"),
  Quad.operator (.binary .mul) (.name "t0") (.num (.float x)) "t1",
  Quad.param (.name "t1"), Quad.call "console_log" 1 .none]

theorem readingProgram_lower (text : String) (x : Float) :
    (readingProgram text x).lower = .ok ⟨(), readingCode text x, { temps := 2 }⟩ := by
  cbv

theorem readingProgram_plain (text : String) (x : Float) : (readingProgram text x).Plain Number.Exact := by
  simp [readingProgram, Node.bare, Node.named, Node.binary, Node.print, Node.Plain, Form.Plain,
    Node.PlainList, Mark.Plain, Tree.Scalar, Number.Exact]

theorem fault_reading {text : String} {i : Int} (hread : Intrinsic.readInt text = .ok (.int i))
    (hi : ¬(Number.int i).Fits) (x : Float) {maxSteps : Int} (hsteps : 3 ≤ maxSteps) (answers : Answers) :
    (execute (readingCode text x) maxSteps answers).fault = some .integerTooLarge := by
  have hparam : (start answers).advance (readingCode text x) (readingCode text x).labels =
      some (.ok { start answers with pc := 1, params := [.str text] }) := rfl
  have hparsed : ({ start answers with pc := 1, params := [.str text] } : Machine).parsed? (readingCode text x).labels
      (Quad.call "FUNC_parseInt" 1 (.name (tempName 0))) = some text := rfl
  rcases step_parsed (readingCode text x) hparsed with ⟨fault, m', hfault, -⟩ | ⟨n, m', hn, hm', hpc, hmem⟩
  · cases hread.symm.trans hfault
  · cases hread.symm.trans hn
    have hcall : ({ start answers with pc := 1, params := [.str text] } : Machine).advance (readingCode text x)
        (readingCode text x).labels = some (.ok m') := by
      rw [← hm']
      rfl
    have hmul : m'.advance (readingCode text x) (readingCode text x).labels = some (m'.fail .integerTooLarge) := by
      have hq : (readingCode text x)[m'.pc]? =
          some { Quad.operator (.binary .mul) (.name "t0") (.num (.float x)) "t1" with index := 2 } := by
        rw [hpc]
        rfl
      have ht : m'.memory.resolve (.name "t0") = .ok (.num (.int i)) := by
        rw [hmem]
        rfl
      have heval : (Operator.binary .mul).eval (.num (.int i)) (.num (.float x)) = .error .integerTooLarge :=
        BinaryOp.mul_of_not_fits hi x
      rw [advance_of_getElem? hq, step_operator_error rfl ht (b := .num (.float x)) rfl heval]
    rw [execute_of_linked rfl]
    exact (Steps.head hparam (.head hcall (.refl m'))).runFor_fault hmul maxSteps (by omega)

/-! ### Long integers -/

/-- A one and some zeros. -/
def powerText (n : Nat) : String := String.ofList ('1' :: List.replicate n '0')

theorem ofDigits_power (n : Nat) : Text.ofDigits 10 (1 :: List.replicate n 0) = 10 ^ n := by
  have hfold : ∀ m k, (List.replicate k 0).foldl (fun n d => n * 10 + d) m = m * 10 ^ k := by
    intro m k
    induction k generalizing m with
    | zero => simp
    | succ k ih => rw [List.replicate_succ, List.foldl_cons, ih, Nat.add_zero, Nat.mul_assoc, Nat.pow_succ']
  rw [Text.ofDigits, List.foldl_cons, hfold, Nat.zero_mul, Nat.zero_add, Nat.one_mul]

theorem leadingInteger?_power (n : Nat) :
    Numeral.leadingInteger? ('1' :: List.replicate n '0') = some ⟨false, 1 :: List.replicate n 0⟩ := by
  have hone : Text.decimal? '1' = some 1 := by decide
  have hzero : Text.decimal? '0' = some 0 := by decide
  have hblank : Text.isBlank '1' = false := by decide
  simp [Numeral.leadingInteger?, Numeral.leadingDigits, Numeral.sign, Text.stripLeft, Text.isDecimal, hone, hzero,
    hblank]

theorem readInt_power {n : Nat} (hn : n < Numeral.digitLimit) :
    Intrinsic.readInt (powerText n) = .ok (.int (10 ^ n : Nat)) := by
  have hlength : ¬Numeral.digitLimit < n + 1 := by omega
  simp [Intrinsic.readInt, powerText, leadingInteger?_power, Numeral.Integer.value, ofDigits_power, hlength]

theorem not_runsWithin_exact : (readingProgram (powerText 400) 0.5).Plain Number.Exact ∧
    (readingProgram (powerText 400) 0.5).lower = .ok ⟨(), readingCode (powerText 400) 0.5, { temps := 2 }⟩ ∧
    (execute (readingCode (powerText 400) 0.5) 100 (.scripted [])).fault = some .integerTooLarge := by
  have hread := readInt_power (n := 400) (by decide)
  have hlarge : ¬(Number.int (10 ^ 400 : Nat)).Fits := Nat.not_lt.2 (by decide +kernel)
  exact ⟨readingProgram_plain _ _, readingProgram_lower _ _, fault_reading hread hlarge 0.5 (by decide) _⟩

end Node

end QuadScript
