import QuadScript.Proofs.Lowering
import QuadScript.Proofs.Endings
import QuadScript.Proofs.Tables
import Mathlib.Data.List.Forall2

/-!
# A variable that is not live

Two codes that differ in the constants that they give to one variable print the same, if none of these constants is
ever read. `Code.Parallel c φ b code code' b'` is the check of such a pair, from the front to the back: `b` and `b'` say
whether the two runs have to agree in the variable `c` before and after the code, and `φ` says at which labels they
have to. After a call they need not, since the function may have given the variable a constant.

The two codes are run side by side. The machines differ in that variable at most, and where they have to agree in it
they do (`Machine.Twins`), so every run of the one code prints what the run of the other prints
(`Code.Parallel.output_run`).
-/

namespace QuadScript

/-- Whether an operand has the value of a variable. -/
def Operand.Reads (c : String) (a : Operand) : Prop := a = .name c ∨ a = .raw (.str c)

/-- An operand that has a value in every memory. -/
def Operand.Total (a : Operand) : Prop := ∀ memory : Memory, ∃ v, memory.resolve a = .ok v

/-- The keys other than that of a variable. -/
def Key.isOther (c : String) (k : Key) : Bool := k ≠ .text c

theorem Key.isOther_number (c : String) (k : Key) (hk : k.number? ≠ Option.none) : k.isOther c = true := by
  refine decide_eq_true ?_
  rintro rfl
  exact hk rfl

/-! ### Machines that differ in one variable -/

namespace Machine

/-- Machines that differ in a variable at most, and do not under the condition. -/
structure Twins (c : String) (b : Prop) (m m' : Machine) : Prop where
  pc : m'.pc = m.pc
  memory : Table.Agree (Key.isOther c) id m.memory m'.memory
  held : b → m'.memory.get? (.text c) = m.memory.get? (.text c)
  stack : List.Forall₂ (fun f f' => f'.returnIndex = f.returnIndex ∧ f'.target = f.target) m.stack m'.stack
  params : m'.params = m.params
  output : m'.output = m.output
  answers : m'.answers = m.answers

/-- Two instructions lead to related machines, or fail alike. -/
def Together (R : Machine → Machine → Prop) : Except Failure Machine → Except Failure Machine → Prop
  | .ok m, .ok m' => R m m'
  | .error f, .error f' => f'.fault = f.fault ∧ f'.machine.output = f.machine.output
  | _, _ => False

theorem Together.imp {R R' : Machine → Machine → Prop} {r r' : Except Failure Machine} (h : Together R r r')
    (hR : ∀ m m', r = .ok m → R m m' → R' m m') : Together R' r r' := by
  cases r <;> cases r' <;> first | exact h | exact hR _ _ rfl h

variable {c : String} {b b' : Prop} {m m' : Machine} {code code' : Code} {labels : Labels} {q : Quad}

namespace Twins

theorem start (answers : Answers) : Twins c b (start answers) (start answers) where
  pc := rfl
  memory := .refl _
  held _ := rfl
  stack := .nil
  params := rfl
  output := rfl
  answers := rfl

theorem mono (h : Twins c b m m') (hb : b' → b) : Twins c b' m m' := { h with held := fun hb' => h.held (hb hb') }

theorem getKey? (h : Twins c b m m') {k : Key} (hk : k = .text c → b) :
    m'.memory.getKey? k = m.memory.getKey? k := by
  by_cases hc : k = .text c
  · subst hc
    exact h.held (hk rfl)
  · have hget := h.memory.getKey? (Key.isOther_number c) (k := k) (decide_eq_true hc)
    rwa [Option.map_id] at hget

theorem resolve (h : Twins c b m m') {a : Operand} (ha : a.Reads c → b) :
    m'.memory.resolve a = m.memory.resolve a := by
  cases a with
  | name s =>
    have hget : m'.memory.get? (.text s) = m.memory.get? (.text s) := h.getKey? (k := .text s) fun hs => by
      cases hs
      exact ha (.inl rfl)
    simp only [Memory.resolve, Memory.read, hget]
  | raw t =>
    simp only [Memory.resolve]
    cases ht : Key.ofTree 0 t with
    | error fault => rfl
    | ok k =>
      have hget := h.getKey? (k := k) fun hk => by
        subst hk
        have hstr : t = .str c := Target.key_eq_text (x := .raw t) ht
        exact ha (.inr (congrArg Operand.raw hstr))
      exact congrArg (fun v => Except.ok (v.getD .undefined)) hget
  | _ => rfl

theorem bind_resolve (h : Twins c b m m') {a : Operand} (ha : a.Reads c → b) {R : Machine → Machine → Prop}
    {k k' : Value → Except Failure Machine} (hk : ∀ v, Together R (k v) (k' v)) :
    Together R (m.resolve a >>= k) (m'.resolve a >>= k') := by
  unfold Machine.resolve
  rw [h.resolve ha]
  cases m.memory.resolve a with
  | error fault => exact ⟨rfl, h.output⟩
  | ok v => exact hk v

theorem next (h : Twins c b m m') : Twins c b m.next m'.next := { h with pc := congrArg (· + 1) h.pc }

theorem setParams (h : Twins c b m m') (vs : List Value) :
    Twins c b { m with params := vs } { m' with params := vs } :=
  { h with params := rfl }

theorem write (h : Twins c b m m') (place : Nat) (x : Target) (v : Value) :
    Together (Twins c (b ∨ x = .name c)) (m.write place x v) (m'.write place x v) := by
  unfold Machine.write
  cases hk : x.key place with
  | error fault => exact ⟨rfl, h.output⟩
  | ok k =>
    refine { h with memory := h.memory.setKey (Key.isOther_number c) k v, held := fun hb => ?_ }
    simp only [Table.get?_setKey_text]
    split
    · rfl
    · rename_i hne
      refine h.held (hb.resolve_right ?_)
      rintro rfl
      exact hne (Except.ok.inj hk).symm

theorem store (h : Twins c b m m') (place : Nat) (x : Target) (v : Value) :
    Together (Twins c b) (m.store place x v) (m'.store place x v) := by
  unfold Machine.store
  split
  · exact (h.write place x v).imp fun _ _ _ h => h.mono .inl
  · exact h

end Twins

theorem Together.next {r r' : Except Failure Machine} (h : Together (Twins c b) r r') :
    Together (Twins c b) (do return (← r).next) (do return (← r').next) := by
  cases r with
  | error f => cases r' <;> exact h
  | ok m =>
    cases r' with
    | error f' => exact h
    | ok m' => exact Twins.next h

namespace Twins

theorem jump (h : Twins c b m m') (x : Target) : Together (Twins c b) (m.jump labels x) (m'.jump labels x) := by
  unfold Machine.jump
  rw [h.pc]
  cases x.key m.pc with
  | error fault => exact ⟨rfl, h.output⟩
  | ok k =>
    dsimp only
    cases labels.getKey? k with
    | none => exact ⟨rfl, h.output⟩
    | some p => exact { h with pc := rfl }

theorem callIntrinsic (h : Twins c b m m') (f : Intrinsic) :
    Together (Twins c b) (m.callIntrinsic f q) (m'.callIntrinsic f q) := by
  unfold Machine.callIntrinsic
  rw [h.params]
  cases argumentCount m.params.length q.arg2 with
  | error fault => exact ⟨rfl, h.output⟩
  | ok count =>
    simp only [h.answers, h.pc]
    cases f.eval (m.params.take count) m.answers with
    | error fault => exact ⟨rfl, h.output⟩
    | ok r =>
      obtain ⟨v, answers⟩ := r
      have h' : Twins c b { m with params := m.params.drop count, answers := answers }
          { m' with params := m.params.drop count, answers := answers, pc := m.pc } :=
        { h with params := rfl, answers := rfl, pc := rfl }
      exact (h'.store m.pc q.result v).next

theorem enter (h : Twins c b m m') (p : Nat) : Twins c b (m.enter q p) (m'.enter q p) :=
  { h with pc := rfl, stack := .cons ⟨congrArg (· + 1) h.pc, rfl⟩ h.stack }

theorem callNamed (h : Twins c b m m') (s : String) :
    Together (Twins c b) (m.callNamed labels q s) (m'.callNamed labels q s) := by
  unfold Machine.callNamed
  cases consoleLead? s with
  | some lead =>
    have h' : Twins c b (m.printLine lead) (m'.printLine lead) :=
      { h with params := rfl, output := by unfold printLine; rw [h.params, h.output] }
    exact h'.next
  | none =>
    dsimp only
    cases labels.get? (.text s) with
    | some p => exact h.enter p
    | none =>
      dsimp only
      cases Intrinsic.ofTarget? s with
      | some f => exact h.callIntrinsic f
      | none => exact ⟨rfl, h.output⟩

theorem call (h : Twins c b m m') : Together (Twins c b) (m.call labels q) (m'.call labels q) := by
  unfold Machine.call
  split
  · exact h.callNamed _
  · exact h.callNamed _
  · rw [h.pc]
    cases Key.ofTree m.pc q.arg1.toTree with
    | error fault => exact ⟨rfl, h.output⟩
    | ok k =>
      dsimp only
      cases labels.getKey? k with
      | some p => exact h.enter p
      | none => exact ⟨rfl, h.output⟩

theorem leave (h : Twins c b m m') (hlen : code'.length = code.length) (v : Value) :
    Together (Twins c b) (m.leave code v) (m'.leave code' v) := by
  unfold Machine.leave
  dsimp only
  cases hs : m.stack with
  | nil =>
    have hs' : m'.stack = [] := List.forall₂_nil_left_iff.1 (hs ▸ h.stack)
    rw [hs', hlen]
    exact { h with params := rfl, pc := rfl, stack := .nil }
  | cons f rest =>
    obtain ⟨f', rest', ⟨hret, htarget⟩, hrest, hs'⟩ := List.forall₂_cons_left_iff.1 (hs ▸ h.stack)
    rw [hs']
    dsimp only
    rw [htarget, hret]
    have h' : Twins c b { m with params := [], stack := rest, pc := f.returnIndex }
        { m' with params := [], stack := rest', pc := f.returnIndex } :=
      { h with params := rfl, stack := hrest, pc := rfl }
    exact h'.store _ f.target v

/-- An instruction that reads the variable only where the machines agree in it does the same to both. -/
theorem step (h : Twins c b m m') (hreads : ∀ a ∈ q.reads, a.Reads c → b) (hlen : code'.length = code.length) :
    Together (Twins c (b ∨ q.op = .assign ∧ q.result = .name c)) (m.step code labels q) (m'.step code' labels q) := by
  unfold Quad.reads at hreads
  unfold Machine.step
  have hwrite : ∀ {m m' : Machine} (place : Nat) (v : Value), Twins c b m m' →
      Together (Twins c b) (m.write place q.result v) (m'.write place q.result v) :=
    fun place v h => (h.write place q.result v).imp fun _ _ _ h => h.mono .inl
  -- `b` may become true only where the variable itself is assigned
  cases hop : q.op with
  | assign =>
    simp only [hop] at hreads ⊢
    rw [h.pc]
    refine h.bind_resolve (hreads _ List.mem_cons_self) fun v => Together.next ?_
    exact (h.write m.pc q.result v).imp fun _ _ _ h => h.mono (Or.imp_right And.right)
  | operator op =>
    simp only [hop, reduceCtorEq, false_and, or_false] at hreads ⊢
    rw [h.pc]
    refine h.bind_resolve (hreads _ List.mem_cons_self) fun u =>
      h.bind_resolve (hreads _ (List.mem_cons_of_mem _ List.mem_cons_self)) fun v => ?_
    cases op.eval u v with
    | error fault => exact ⟨rfl, h.output⟩
    | ok w => exact (hwrite m.pc w h).next
  | goto =>
    simp only [reduceCtorEq, false_and, or_false]
    exact h.jump q.result
  | jumpIfFalse =>
    simp only [hop, reduceCtorEq, false_and, or_false] at hreads ⊢
    refine h.bind_resolve (hreads _ List.mem_cons_self) fun v => ?_
    split
    · exact h.next
    · exact h.jump q.result
  | param =>
    simp only [hop, reduceCtorEq, false_and, or_false] at hreads ⊢
    rw [h.params]
    exact h.bind_resolve (hreads _ List.mem_cons_self) fun v => (h.setParams _).next
  | receive =>
    simp only [reduceCtorEq, false_and, or_false]
    rw [h.params, h.pc]
    have h' : Twins c b { m with params := m.params.tail } { m' with params := m.params.tail, pc := m.pc } :=
      { h with params := rfl, pc := rfl }
    exact (hwrite m.pc _ h').next
  | call =>
    simp only [reduceCtorEq, false_and, or_false]
    exact h.call
  | ret =>
    simp only [hop, reduceCtorEq, false_and, or_false] at hreads ⊢
    exact h.bind_resolve (hreads _ List.mem_cons_self) fun v => h.leave hlen v
  | label | unknown word =>
    simp only [reduceCtorEq, false_and, or_false]
    exact h.next

theorem step_constants (h : Twins c b m m') {a a' : Operand} (ha : a.Total) (ha' : a'.Total) :
    Together (Twins c False) (m.step code labels (.assign a (.name c)))
      (m'.step code' labels (.assign a' (.name c))) := by
  obtain ⟨v, hv⟩ := ha m.memory
  obtain ⟨v', hv'⟩ := ha' m'.memory
  have hother : Key.isOther c (.text c) = false := by simp [Key.isOther]
  have hmemory := (h.memory.setKey_left (Key.isOther_number c) hother v).setKey_right (Key.isOther_number c) hother v'
  rw [step_assign rfl hv, step_assign rfl hv']
  exact { h.next with memory := hmemory, held := False.elim }

end Twins

end Machine

/-! ### The check -/

/-- The runs have to agree in the variable at a name: not unless it is that of a label where they have to. -/
def At (φ : Nat → Prop) (x : Target) : Prop := ∃ k, x = .name (labelName k) ∧ φ k

theorem at_labelName {φ : Nat → Prop} {k : Nat} : At φ (.name (labelName k)) ↔ φ k := by
  constructor
  · rintro ⟨j, hj, hφ⟩
    have hjk : labelName k = labelName j := by simpa using hj
    rwa [numbered_injective _ hjk]
  · exact fun h => ⟨k, rfl, h⟩

theorem not_at {φ : Nat → Prop} {s : String} (h : s.toList.head? ≠ some 'L') : ¬At φ (.name s) := by
  rintro ⟨k, hk, -⟩
  cases hk
  exact h (head_labelName k)

namespace Quad

/-- A call of the console. -/
def IsPrint (q : Quad) : Prop := ∃ f, q.arg1 = .name (consoleMark ++ f)

/-- An instruction that both runs can execute: it reads the variable only where they agree in it, and goes only where
they need not agree more. -/
structure Spares (c : String) (φ : Nat → Prop) (b : Prop) (q : Quad) : Prop where
  reads : ∀ a ∈ q.reads, a.Reads c → b
  goes : q.control ≠ .other → ∃ s, q.result = .name s ∧ s.toList.head? ≠ some 'c' ∧ (At φ (.name s) → b)
  calls : q.op = .call → ∃ s, q.arg1 = .name s ∧ ¬At φ (.name s)

/-- Whether the runs agree in the variable when control comes from an instruction to the next one. -/
def agreed (c : String) (φ : Nat → Prop) (b : Prop) (q : Quad) : Prop :=
  match q.op with
  | .goto => True
  | .ret => True
  | .label => At φ q.result
  | .call => b ∧ q.IsPrint
  | .assign => b ∨ q.result = .name c
  | _ => b

variable {c : String} {φ : Nat → Prop} {b d : Prop} {q : Quad}

theorem Spares.mono (h : q.Spares c φ b) (hb : b → d) : q.Spares c φ d where
  reads a ha hr := hb (h.reads a ha hr)
  goes hc :=
    let ⟨s, hs, hhead, hat⟩ := h.goes hc
    ⟨s, hs, hhead, fun hφ => hb (hat hφ)⟩
  calls := h.calls

theorem agreed_mono (hb : b → d) : q.agreed c φ b → q.agreed c φ d := by
  unfold agreed
  split <;> first | exact id | exact hb | exact And.imp_left hb | exact Or.imp_left hb

end Quad

namespace Code

/-- The two codes are the same but for constants that are given to the variable. -/
inductive Parallel (c : String) (φ : Nat → Prop) : Prop → Code → Code → Prop → Prop
  | nil {b b' : Prop} (h : b' → b) : Parallel c φ b [] [] b'
  | same {b b' : Prop} {q : Quad} {code code' : Code} (hq : q.Spares c φ b)
      (h : Parallel c φ (q.agreed c φ b) code code' b') : Parallel c φ b (q :: code) (q :: code') b'
  | constants {b b' : Prop} {a a' : Operand} {code code' : Code} (ha : a.Total) (ha' : a'.Total)
      (h : Parallel c φ False code code' b') :
      Parallel c φ b (Quad.assign a (.name c) :: code) (Quad.assign a' (.name c) :: code') b'

namespace Parallel

variable {c : String} {φ : Nat → Prop} {b b₁ b' d : Prop} {code code' rest rest' : Code} {q : Quad}

theorem mono (h : Parallel c φ b code code' b') (hb : b → d) : Parallel c φ d code code' b' := by
  induction h generalizing d with
  | nil h => exact .nil fun hb' => hb (h hb')
  | same hq _ ih => exact .same (hq.mono hb) (ih (Quad.agreed_mono hb))
  | constants ha ha' h => exact .constants ha ha' h

theorem append (h : Parallel c φ b code code' b₁) (h' : Parallel c φ b₁ rest rest' b') :
    Parallel c φ b (code ++ rest) (code' ++ rest') b' := by
  induction h with
  | nil hb => exact h'.mono hb
  | same hq _ ih => exact .same hq (ih h')
  | constants ha ha' _ ih => exact .constants ha ha' (ih h')

theorem forget (h : Parallel c φ b code code' b') (hd : d → b') : Parallel c φ b code code' d := by
  simpa using h.append (.nil hd)

theorem drop (h : Parallel c φ b code code' b') (i : Nat) : ∃ b₁, Parallel c φ b₁ (code.drop i) (code'.drop i) b' := by
  induction h generalizing i with
  | @nil b _ h => exact ⟨b, by simpa using .nil h⟩
  | @same b _ _ _ _ hq h ih =>
    cases i with
    | zero => exact ⟨b, .same hq h⟩
    | succ i => exact ih i
  | @constants b _ _ _ _ _ ha ha' h ih =>
    cases i with
    | zero => exact ⟨b, .constants ha ha' h⟩
    | succ i => exact ih i

theorem control (h : Parallel c φ b code code' b') : code'.map Quad.control = code.map Quad.control := by
  induction h with
  | nil => rfl
  | same _ _ ih => rw [List.map_cons, List.map_cons, ih]
  | constants _ _ _ ih => rw [List.map_cons, List.map_cons, ih]; rfl

theorem length (h : Parallel c φ b code code' b') : code'.length = code.length := by
  simpa using congrArg List.length h.control

/-- Where a label stands, the runs have to agree only if they have to at that label. It is no name of the console. -/
theorem at_label (h : Parallel c φ b code code' b') {i : Nat} {s : String} (hi : code.labels.get? (.text s) = some i) :
    s.toList.head? ≠ some 'c' ∧
      ∀ {d : Prop}, (At φ (.name s) → d) → Parallel c φ d (code.drop i) (code'.drop i) b' := by
  obtain ⟨q, hq, hop, hres⟩ := labels_get?_eq_some hi
  obtain ⟨b₁, hdrop⟩ := h.drop i
  obtain ⟨hlt, rfl⟩ := List.getElem?_eq_some_iff.1 hq
  rw [List.drop_eq_getElem_cons hlt] at hdrop ⊢
  generalize code[i] = q at *
  generalize code'.drop i = rest' at *
  cases hdrop with
  | constants => cases hop
  | same hspares hparallel =>
    obtain ⟨s', hs', hhead, -⟩ := hspares.goes (by simp [Quad.control, hop])
    have hss : s' = s := by simpa [hs', Target.toTree] using hres s rfl
    subst hss
    have hagreed : ∀ b, q.agreed c φ b = At φ (.name s') := fun b => by simp [Quad.agreed, hop, hs']
    rw [hagreed] at hparallel
    refine ⟨hhead, fun hs => .same ⟨?_, fun _ => ⟨s', hs', hhead, hs⟩, fun hc => by rw [hop] at hc; cases hc⟩ ?_⟩
    · simp [Quad.reads, hop]
    · rwa [hagreed]

end Parallel

end Code

/-! ### Runs side by side -/

namespace Machine

variable {c : String} {φ : Nat → Prop} {b b' : Prop} {m m' : Machine} {code code' : Code} {q : Quad} {answers : Answers}

/-- The codes are parallel from where the machines stand, and from where their calls return to. -/
structure Paired (c : String) (φ : Nat → Prop) (code code' : Code) (m m' : Machine) : Prop where
  here : ∃ b b', Twins c b m m' ∧ Code.Parallel c φ b (code.drop m.pc) (code'.drop m.pc) b'
  frames : ∀ f ∈ m.stack, ∃ b', Code.Parallel c φ False (code.drop f.returnIndex) (code'.drop f.returnIndex) b'

theorem Effect.stack_of_isPrint (hcode : Code.Parallel c φ b code code' b') {m₁ : Machine}
    (h : Effect code code.labels m q m₁) (hop : q.op = .call) (hprint : q.IsPrint) : m₁.stack = m.stack := by
  obtain ⟨f, hf⟩ := hprint
  cases h with
  | print | intrinsic => rfl
  | enter _ hk hp =>
    rw [hf] at hk
    cases hk
    exact absurd (head_consoleMark f) (hcode.at_label hp).1
  | assign hop' | operator hop' | goto hop' | pass hop' | branch hop' | param hop' | receive hop' | finish hop'
  | leave hop' => cases hop.symm.trans hop'
  | skip hop' => rcases hop' with hop' | ⟨word, hop'⟩ <;> cases hop.symm.trans hop'

/-- Where control goes after an instruction that both codes have, the rest of them is parallel. -/
theorem Paired.of_effect (hcode : Code.Parallel c φ b code code' b') {d d' : Prop} {m₁ m₁' : Machine}
    (hq : q.Spares c φ d) (hnext : Code.Parallel c φ (q.agreed c φ d) (code.drop (m.pc + 1)) (code'.drop (m.pc + 1)) d')
    (hframes : ∀ f ∈ m.stack, ∃ b', Code.Parallel c φ False (code.drop f.returnIndex) (code'.drop f.returnIndex) b')
    (heffect : Effect code code.labels m q m₁) (htwins : Twins c (d ∨ q.op = .assign ∧ q.result = .name c) m₁ m₁') :
    Paired c φ code code' m₁ m₁' := by
  refine ⟨?_, fun f hf => ?_⟩
  · generalize hpc : m₁.pc = p
    have hmoves := heffect.moves
    rw [hpc] at hmoves
    cases hmoves with
    | next hgoto hret =>
      refine ⟨_, _, htwins.mono ?_, hnext⟩
      unfold Quad.agreed
      cases hop : q.op with
      | goto => exact absurd hop hgoto
      | ret => exact absurd hop hret
      | label =>
        obtain ⟨s, hs, -, hat⟩ := hq.goes (by simp [Quad.control, hop])
        exact fun h => .inl (hat (hs ▸ h))
      | call => exact fun h => .inl h.1
      | assign => exact fun h => h.imp_right fun h => ⟨rfl, h⟩
      | _ => exact .inl
    | jump hop hk hp =>
      have hc : q.control ≠ .other := by rcases hop with hop | ⟨hop, -⟩ <;> simp [Quad.control, hop]
      obtain ⟨s, hs, -, hat⟩ := hq.goes hc
      rw [hs] at hk
      cases hk
      exact ⟨d, b', htwins.mono .inl, (hcode.at_label hp).2 hat⟩
    | enter hop hk hp =>
      obtain ⟨s, hs, hat⟩ := hq.calls hop
      rw [hs] at hk
      cases hk
      exact ⟨False, b', htwins.mono False.elim, (hcode.at_label hp).2 hat⟩
    | finish =>
      refine ⟨False, False, htwins.mono False.elim, ?_⟩
      rw [List.drop_length, ← hcode.length, List.drop_length]
      exact .nil id
    -- behind a call nothing is agreed, so that a return need not tell what the function did
    | leave _ hframe =>
      obtain ⟨b'', h⟩ := hframes _ hframe
      exact ⟨False, b'', htwins.mono False.elim, h⟩
  · rcases heffect.frames f hf with hf | ⟨hop, hret⟩
    · exact hframes f hf
    · by_cases hprint : q.IsPrint
      · exact hframes f (heffect.stack_of_isPrint hcode hop hprint ▸ hf)
      · refine ⟨d', hret ▸ hnext.mono fun hagreed => ?_⟩
        simp only [Quad.agreed, hop] at hagreed
        exact hprint hagreed.2

theorem Paired.step (hcode : Code.Parallel c φ b code code' b') (h : Paired c φ code code' m m')
    (hq : code[m.pc]? = some q) : ∃ q', code'[m'.pc]? = some q' ∧
      Together (Paired c φ code code') (m.step code code.labels q) (m'.step code' code'.labels q') := by
  obtain ⟨d, d', htwins, hparallel⟩ := h.here
  obtain ⟨hlt, rfl⟩ := List.getElem?_eq_some_iff.1 hq
  have hlt' : m.pc < code'.length := hcode.length ▸ hlt
  have hdrop' : code'.drop m.pc = code'[m.pc] :: code'.drop (m.pc + 1) := List.drop_eq_getElem_cons hlt'
  rw [List.drop_eq_getElem_cons hlt, hdrop'] at hparallel
  refine ⟨code'[m.pc], by rw [htwins.pc, List.getElem?_eq_getElem hlt'], ?_⟩
  rw [Code.labels_congr hcode.control]
  generalize code[m.pc] = q at *
  generalize code'[m.pc] = q' at *
  cases hparallel with
  | same hspares hnext =>
    refine (htwins.step hspares.reads hcode.length).imp fun m₁ m₁' hm₁ htwins₁ => ?_
    exact .of_effect hcode hspares hnext h.frames (step_effect hm₁) htwins₁
  | constants ha ha' hnext =>
    refine (htwins.step_constants ha ha').imp fun m₁ m₁' hm₁ htwins₁ => ?_
    cases step_effect hm₁ with
    | assign => exact ⟨⟨False, d', htwins₁, hnext⟩, h.frames⟩
    | operator hop | goto hop | pass hop | branch hop | param hop | receive hop | print hop | enter hop
    | intrinsic hop | finish hop | leave hop => cases hop
    | skip hop => rcases hop with hop | ⟨word, hop⟩ <;> cases hop

theorem advance_of_end {labels : Labels} (h : code[m.pc]? = none) : m.advance code labels = none := by
  rw [advance, h]
  rfl

theorem Paired.getElem?_eq_none (hcode : Code.Parallel c φ b code code' b') (h : Paired c φ code code' m m')
    (hq : code[m.pc]? = none) : code'[m'.pc]? = none := by
  obtain ⟨_, _, htwins, -⟩ := h.here
  rw [List.getElem?_eq_none_iff] at hq ⊢
  rwa [htwins.pc, hcode.length]

theorem Paired.runFor (hcode : Code.Parallel c φ b code code' b') (ceiling : Int) (fuel : Nat)
    (h : Paired c φ code code' m m') :
    (runFor code' code'.labels ceiling fuel m').fault = (runFor code code.labels ceiling fuel m).fault ∧
    (runFor code' code'.labels ceiling fuel m').machine.output =
      (runFor code code.labels ceiling fuel m).machine.output := by
  induction fuel generalizing m m' with
  | zero =>
    obtain ⟨_, _, htwins, -⟩ := h.here
    unfold Machine.runFor
    cases hq : code[m.pc]? with
    | none =>
      rw [advance_of_end hq, advance_of_end (h.getElem?_eq_none hcode hq)]
      exact ⟨rfl, htwins.output⟩
    | some q =>
      obtain ⟨q', hq', -⟩ := h.step hcode hq
      rw [advance_of_getElem? hq, advance_of_getElem? hq']
      exact ⟨rfl, htwins.output⟩
  | succ fuel ih =>
    obtain ⟨_, _, htwins, -⟩ := h.here
    cases hq : code[m.pc]? with
    | none =>
      rw [runFor_of_end _ _ (advance_of_end hq), runFor_of_end _ _ (advance_of_end (h.getElem?_eq_none hcode hq))]
      exact ⟨rfl, htwins.output⟩
    | some q =>
      obtain ⟨q', hq', htogether⟩ := h.step hcode hq
      rw [runFor_succ ceiling fuel hq, runFor_succ ceiling fuel hq']
      revert htogether
      cases m.step code code.labels q <;> cases m'.step code' code'.labels q' <;> intro htogether
      · exact ⟨congrArg some htogether.1, htogether.2⟩
      · exact htogether.elim
      · exact htogether.elim
      · exact ih htogether

end Machine

/-- Codes that differ in constants that are never read print the same. -/
theorem Code.Parallel.output_run {c : String} {φ : Nat → Prop} {code code' : Code} {b' : Prop}
    (h : Parallel c φ False code code' b') (maxSteps : Int) (answers : Answers) :
    (Machine.run code' maxSteps answers).output = (Machine.run code maxSteps answers).output := by
  have hstart : Machine.Paired c φ code code' (Machine.start answers) (Machine.start answers) :=
    ⟨⟨False, b', .start answers, h⟩, fun f hf => by cases hf⟩
  have houtcome : (Machine.execute code' maxSteps answers).fault = (Machine.execute code maxSteps answers).fault ∧
      (Machine.execute code' maxSteps answers).machine.output =
        (Machine.execute code maxSteps answers).machine.output := by
    unfold Machine.execute
    rw [linkFault?_congr h.control]
    cases code.linkFault? with
    | some fault => exact ⟨rfl, rfl⟩
    | none => exact hstart.runFor h maxSteps maxSteps.toNat
  rw [Machine.run, Machine.run, Machine.report_output, Machine.report_output, houtcome.1, houtcome.2]

end QuadScript
