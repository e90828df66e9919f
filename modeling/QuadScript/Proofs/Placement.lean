import QuadScript.Proofs.Emitted
import QuadScript.Proofs.Endings

/-!
# Running a part of the code

`Code.At code p c`: the instructions `c` stand in the code from position `p` on. In linked code
(`Code.Linked`) every jump finds the one label of its name. `Machine.Comes code m x Q`: from `m` the run of the
code gets to where the computation `x` is done, in a state that `Q` allows for its value, or fails with the fault
of `x`. The rules of `Comes` follow the two ways to build a computation, so that a piece of code is run along the
function that says what it computes.
-/

namespace QuadScript

namespace Code

def At (code : Code) (p : Nat) (c : Code) : Prop := ∃ pre post, code = pre ++ (c ++ post) ∧ pre.length = p

variable {code c c' : Code} {p : Nat} {q : Quad} {l : String}

namespace At

theorem self : At code 0 code := ⟨[], [], by simp, rfl⟩

theorem head (h : At code p (q :: c)) : code[p]? = some q := by
  obtain ⟨pre, post, rfl, rfl⟩ := h
  simp

theorem left (h : At code p (c ++ c')) : At code p c := by
  obtain ⟨pre, post, rfl, rfl⟩ := h
  exact ⟨pre, c' ++ post, by simp, rfl⟩

theorem right (h : At code p (c ++ c')) : At code (p + c.length) c' := by
  obtain ⟨pre, post, rfl, rfl⟩ := h
  exact ⟨pre ++ c, post, by simp, by simp⟩

theorem tail (h : At code p (q :: c)) : At code (p + 1) c := right (c := [q]) h

end At

/-! ### Linked code -/

/-- Every label is found at the place where it stands. -/
def Linked (code : Code) : Prop := ∀ p l, code[p]? = some (Quad.label l) → code.labels.get? (.text l) = some p

theorem Linked.unique {r : Nat} (hl : code.Linked) (hp : code[p]? = some (Quad.label l))
    (hr : code[r]? = some (Quad.label l)) : p = r :=
  Option.some.inj ((hl p l hp).symm.trans (hl r l hr))

theorem LabelsNamed.of_append (h : (c ++ c').LabelsNamed) : c.LabelsNamed :=
  fun q hq => h q (List.mem_append_left c' hq)

theorem linked_of_nodup (hnamed : code.LabelsNamed) (h : (code.filterMap Quad.label?).Nodup) : code.Linked := by
  intro p l hp
  obtain ⟨hlt, hp⟩ := List.getElem?_eq_some_iff.1 hp
  have hcode : code = code.take p ++ Quad.label l :: code.drop (p + 1) := by
    rw [← hp, List.getElem_cons_drop, List.take_append_drop]
  have hlen : (code.take p).length = p := by rw [List.length_take]; omega
  rw [hcode] at hnamed h
  rw [List.filterMap_append, List.filterMap_cons_some (Quad.label?_label l)] at h
  have hpost : ∀ q ∈ code.drop (p + 1), q.op = .label → q.result.toTree ≠ .str l := by
    intro q hq hop heq
    obtain ⟨s, hs⟩ := hnamed q (by simp [hq]) hop
    rw [hs] at heq
    cases heq
    exact (List.nodup_cons.1 h.of_append_right).1
      (List.mem_filterMap.2 ⟨q, hq, Quad.label?_eq_some.2 ⟨hop, hs⟩⟩)
  rw [labels_get?_of_last hcode hnamed.of_append rfl rfl hpost, hlen]

theorem linked_of_places {P : Operand → Prop} {Q : Target → Prop} {n n' : Nat} {fs : List String} (hfs : fs.Nodup)
    (hemit : ∀ q ∈ code, q.Emitted P Q) (h : Places n code fs n') : code.Linked :=
  linked_of_nodup (fun q hq hop => (hemit q hq).label_named hop) (h.nodup hfs)

end Code

/-! ### Getting somewhere -/

namespace Machine

variable {α β : Type} {code c : Code} {m m₁ m' : Machine}

/-- The run gets to where the computation is done, or fails as it does. -/
def Comes (code : Code) (m : Machine) (x : Except Fault α) (Q : α → Machine → Prop) : Prop :=
  match x with
  | .ok a => ∃ n m', Steps code n m m' ∧ Q a m'
  | .error f => ∃ n m' m'', Steps code n m m' ∧ m'.advance code code.labels = some (.error ⟨f, m''⟩)

namespace Comes

variable {x : Except Fault α} {Q Q' : α → Machine → Prop}

theorem ok {a : α} (h : Q a m) : Comes code m (.ok a) Q := ⟨0, m, .refl m, h⟩

theorem trans {n : Nat} (hs : Steps code n m m₁) (h : Comes code m₁ x Q) : Comes code m x Q := by
  cases x with
  | ok a =>
    obtain ⟨k, m', hk, h⟩ := h
    exact ⟨n + k, m', hs.trans hk, h⟩
  | error f =>
    obtain ⟨k, m', m'', hk, h⟩ := h
    exact ⟨n + k, m', m'', hs.trans hk, h⟩

theorem step (hs : m.advance code code.labels = some (.ok m₁)) (h : Comes code m₁ x Q) : Comes code m x Q :=
  trans (.single hs) h

theorem bind {g : α → Except Fault β} {R : β → Machine → Prop} (h : Comes code m x Q)
    (hg : ∀ a m', Q a m' → Comes code m' (g a) R) : Comes code m (x >>= g) R := by
  cases x with
  | ok a =>
    obtain ⟨n, m', hn, h⟩ := h
    exact trans hn (hg a m' h)
  | error f => exact h

end Comes

/-! ### Runs with a ceiling -/

theorem Steps.runFor_eq {k : Nat} (h : Steps code k m m') (hend : code[m'.pc]? = none) (ceiling : Int) {fuel : Nat}
    (hk : k ≤ fuel) : runFor code code.labels ceiling fuel m = { machine := m' } := by
  obtain ⟨d, rfl⟩ := Nat.exists_eq_add_of_le hk
  rw [runFor_of_steps ceiling d h, runFor_of_end ceiling d (by simp [advance, hend])]

theorem Steps.runFor_fault {k : Nat} {f : Fault} {m'' : Machine} (h : Steps code k m m')
    (hf : m'.advance code code.labels = some (.error ⟨f, m''⟩)) (ceiling : Int) {fuel : Nat} (hk : k + 1 ≤ fuel) :
    (runFor code code.labels ceiling fuel m).fault = some f := by
  obtain ⟨d, rfl⟩ := Nat.exists_eq_add_of_le hk
  rw [Nat.add_assoc, Nat.add_comm 1 d, runFor_of_steps ceiling _ h, runFor, hf]

/-! ### The instructions -/

/-- The machine after a value was written to a name. -/
def put (m : Machine) (x : String) (v : Value) : Machine :=
  { m with pc := m.pc + 1, memory := m.memory.set (.text x) v }

variable {a b : Operand} {v w : Value} {x l : String} {op : Operator} {labels : Labels}

theorem write_name : (do return (← m.write m.pc (.name x) v).next : Except Failure Machine) = .ok (m.put x v) := rfl

theorem advance_assign (hq : code[m.pc]? = some (Quad.assign a (.name x))) (hv : m.memory.resolve a = .ok v) :
    m.advance code labels = some (.ok (m.put x v)) := by
  rw [advance_of_getElem? hq, step_assign rfl hv]
  exact congrArg some write_name

theorem advance_label (hq : code[m.pc]? = some (Quad.label l)) : m.advance code labels = some (.ok m.next) := by
  rw [advance_of_getElem? hq, step_label (.inl rfl)]

theorem jump_of_get? {p : Nat} (hp : labels.get? (.text l) = some p) :
    m.jump labels (.name l) = .ok { m with pc := p } := by
  simp only [jump, Target.key_name, Table.getKey?_text, hp]

theorem jump_label {p : Nat} (hl : code.Linked) (hp : code[p]? = some (Quad.label l)) :
    m.jump code.labels (.name l) = .ok { m with pc := p } :=
  jump_of_get? (hl p l hp)

theorem advance_goto {p : Nat} (hl : code.Linked) (hq : code[m.pc]? = some (Quad.goto l))
    (hp : code[p]? = some (Quad.label l)) : m.advance code code.labels = some (.ok { m with pc := p }) := by
  rw [advance_of_getElem? hq, step_goto rfl]
  exact congrArg some (jump_label hl hp)

theorem advance_pass (hq : code[m.pc]? = some (Quad.jumpIfFalse a l)) (hv : m.memory.resolve a = .ok v)
    (ht : v.truthy = true) : m.advance code labels = some (.ok m.next) := by
  rw [advance_of_getElem? hq, step_jumpIfFalse rfl hv, if_pos ht]

theorem advance_branch {p : Nat} (hl : code.Linked) (hq : code[m.pc]? = some (Quad.jumpIfFalse a l))
    (hp : code[p]? = some (Quad.label l)) (hv : m.memory.resolve a = .ok v) (ht : v.truthy = false) :
    m.advance code code.labels = some (.ok { m with pc := p }) := by
  rw [advance_of_getElem? hq, step_jumpIfFalse rfl hv, ht, if_neg Bool.false_ne_true]
  exact congrArg some (jump_label hl hp)

theorem comes_operator (hq : code[m.pc]? = some (Quad.operator op a b x)) (ha : m.memory.resolve a = .ok v)
    (hb : m.memory.resolve b = .ok w) : Comes code m (op.eval v w) fun u m' => m' = m.put x u := by
  cases hu : op.eval v w with
  | ok u =>
    refine .step ?_ (.ok rfl)
    rw [advance_of_getElem? hq, step_operator rfl ha hb hu]
    exact congrArg some write_name
  | error f =>
    refine ⟨0, m, m, .refl m, ?_⟩
    rw [advance_of_getElem? hq, step_operator_error rfl ha hb hu]
    rfl

theorem steps_params {as : List Operand} {vs : List Value} (m : Machine)
    (h : List.Forall₂ (fun a v => m.memory.resolve a = .ok v) as vs) (hat : code.At m.pc (as.map Quad.param)) :
    Steps code as.length m { m with pc := m.pc + as.length, params := m.params ++ vs } := by
  induction as generalizing m vs with
  | nil => cases h; simpa using Steps.refl m
  | cons a as ih =>
    obtain ⟨v, vs, ha, has, rfl⟩ := List.forall₂_cons_left_iff.1 h
    have hstep : m.advance code code.labels = some (.ok ({ m with params := m.params ++ [v] }).next) := by
      rw [advance_of_getElem? hat.head, step_param rfl ha]
    have hrest := ih ({ m with params := m.params ++ [v] }).next has hat.tail
    refine .head hstep ?_
    simpa [Machine.next, Nat.add_assoc, Nat.add_comm 1, List.append_assoc] using hrest

theorem advance_console {f lead : String} {k : Nat} {y : Target} (hq : code[m.pc]? = some (Quad.call f k y))
    (hlead : consoleLead? f = some lead) : m.advance code code.labels = some (.ok (m.printLine lead).next) := by
  rw [advance_of_getElem? hq, step_call rfl]
  simp only [call, Quad.call_arg1, callNamed, hlead]

end Machine

end QuadScript
