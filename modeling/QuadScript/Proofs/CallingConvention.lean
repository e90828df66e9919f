import QuadScript.Proofs.Balance
import QuadScript.Proofs.Declarations
import QuadScript.Proofs.Occurrences
import QuadScript.Proofs.Optimizer.Propagate

/-!
# The calling convention

Arguments wait in one queue, whoever takes them. `Machine.Waiting` says what is in the queue wherever a machine
stands: between the arguments of a call the values of those that were pushed so far, at the head of a function what
its parameters are about to receive, and nothing anywhere else. Every step keeps it (`Waiting.step`) if no call
passes more arguments than the function receives (`Code.ArgumentsFit`). So each call finds its own arguments and no
others. Whose they are is told by the layout of the code: every `CALL` is that of a call expression, and the operands
of the `PARAM`s before it hold the values of the arguments of the expression (`Part.Calls`).
-/

namespace QuadScript

/-! ### Instructions without their positions -/

def Quad.unnumbered (q : Quad) : Quad := { q with index := 0 }

theorem Quad.call_inj {f g : String} {j k : Nat} {x y : Target} (h : Quad.call f j x = Quad.call g k y) :
    f = g ∧ j = k ∧ x = y := by
  have hcount : Operand.num (.int j) = .num (.int k) := congrArg Quad.arg2 h
  exact ⟨Operand.name.inj (congrArg Quad.arg1 h), Int.ofNat.inj (Number.int.inj (Operand.num.inj hcount)),
    congrArg Quad.result h⟩

namespace Code

/-- The code without its positions. -/
def unnumber (code : Code) : Code := code.map Quad.unnumbered

@[simp] theorem unnumber_cons (q : Quad) (code : Code) : unnumber (q :: code) = q.unnumbered :: code.unnumber := rfl

theorem unnumber_renumber (code : Code) : code.renumber.unnumber = code.unnumber := map_renumber fun _ _ => rfl

theorem renumber_unnumber (code : Code) : code.unnumber.renumber = code.renumber := by
  refine List.ext_getElem? fun i => ?_
  rw [getElem?_renumber, getElem?_renumber, unnumber, List.getElem?_map, Option.map_map]
  rfl

/-- These instructions stand in the code from a position on, whatever they know of their positions. -/
def Has (code : Code) (p : Nat) (c : Code) : Prop := At (code.map Quad.unnumbered) p c

/-- No call passes more arguments than the parameters that are received where it goes to. -/
def ArgumentsFit (code : Code) : Prop :=
  ∀ i f k x p, code.Has i [Quad.call f k x] → code.labels.get? (.text f) = some p →
    ∃ xs : List Target, k ≤ xs.length ∧ code.Has (p + 1) (xs.map Quad.receive)

variable {code c d : Code} {p : Nat}

theorem has_renumber : code.renumber.Has p c ↔ code.Has p c := by
  rw [Has, Has, map_renumber fun _ _ => rfl]

theorem has_iff {P : Operand → Prop} {Q : Target → Prop} (hemit : ∀ q ∈ code, q.Emitted P Q) :
    code.Has p c ↔ code.At p c := by
  have hsame : ∀ q ∈ code, q.unnumbered = q := by
    intro q hq
    cases hemit q hq <;> rfl
  rw [Has, List.map_congr_left hsame, List.map_id']

theorem At.drop_eq (h : code.At p c) : ∃ d, code.drop p = c ++ d := by
  obtain ⟨pre, post, rfl, rfl⟩ := h
  exact ⟨post, by simp⟩

theorem at_of_drop (hp : p ≤ code.length) (h : code.drop p = c ++ d) : code.At p c := by
  refine ⟨code.take p, d, ?_, ?_⟩
  · rw [← h, List.take_append_drop]
  · rw [List.length_take]; omega

theorem At.unique {c' : Code} (h : code.At p c) (h' : code.At p c') (hlength : c.length = c'.length) : c = c' := by
  obtain ⟨d, hd⟩ := h.drop_eq
  obtain ⟨d', hd'⟩ := h'.drop_eq
  exact (List.append_inj (hd.symm.trans hd') hlength).1

theorem eq_call_of_getElem? {as : List Operand} {f : String} {k j : Nat} {x : Target} {q : Quad}
    (h : (as.map Quad.param ++ [Quad.call f k x])[j]? = some q) (hop : q.op = .call) :
    j = as.length ∧ q = Quad.call f k x := by
  rw [List.getElem?_append] at h
  split at h
  · obtain ⟨a, -, rfl⟩ := List.mem_map.1 (List.mem_of_getElem? h)
    cases hop
  · rename_i hge
    obtain ⟨hlt, rfl⟩ := List.getElem?_eq_some_iff.1 h
    rw [List.length_map] at hge hlt
    rw [List.length_singleton] at hlt
    exact ⟨by omega, by simp⟩

theorem Receiving.length_le {k : Nat} {xs : List Target} (h : Receiving k c) (hc : c = xs.map Quad.receive ++ d) :
    xs.length ≤ k := by
  induction h generalizing xs with
  | body hbal =>
    cases xs with
    | nil => exact Nat.le_refl 0
    | cons x xs => rw [hc] at hbal; exact absurd rfl hbal.not_receive
  | receive _ ih =>
    cases xs with
    | nil => exact Nat.zero_le _
    | cons x xs => exact Nat.succ_le_succ (ih (List.cons.inj hc).2)

theorem ArgumentsFit.of_renumber (h : code.renumber.ArgumentsFit) : code.ArgumentsFit := by
  simpa only [ArgumentsFit, has_renumber, labels_congr control_renumber] using h

/-- What is known of emitted code without surplus arguments. -/
structure Regular (P : Operand → Prop) (Q : Target → Prop) (code : Code) : Prop where
  emitted : ∀ q ∈ code, q.Emitted P Q
  balanced : Balanced 0 code
  fits : code.ArgumentsFit

end Code

/-! ### What emitted jumps and calls refer to -/

namespace Quad.Emitted

variable {P : Operand → Prop} {Q : Target → Prop} {q : Quad} {s : String}

theorem jump_head (h : q.Emitted P Q) (hop : q.op = .goto ∨ q.op = .jumpIfFalse) :
    ∃ s, q.result = .name s ∧ s.toList.head? ≠ some 'F' := by
  cases h with
  | jumpIfFalse => exact ⟨_, rfl, by rw [head_labelName]; decide⟩
  | goto => exact ⟨_, rfl, by rw [head_labelName]; decide⟩
  | «over» => exact ⟨_, rfl, by rw [head_endMark]; decide⟩
  | _ => rcases hop with hop | hop <;> cases hop

theorem label_head (h : q.Emitted P Q) (hop : q.op = .label) (hs : q.result = .name s) : s.toList.head? ≠ some 'c' := by
  cases h with
  | label => cases hs; rw [head_labelName]; decide
  | enter => cases hs; rw [head_functionMark]; decide
  | leave => cases hs; rw [head_endMark]; decide
  | _ => cases hop

theorem call_head (h : q.Emitted P Q) (hop : q.op = .call) (hs : q.arg1 = .name s) :
    s.toList.head? = some 'c' ∨ ∃ f, s = functionMark ++ f := by
  cases h with
  | print => cases hs; exact .inl (head_consoleMark _)
  | call => cases hs; exact .inr ⟨_, rfl⟩
  | _ => cases hop

end Quad.Emitted

namespace Machine

variable {code : Code} {answers : Answers} {m m₀ m' : Machine} {q : Quad} {P : Operand → Prop} {Q : Target → Prop}

theorem Reachable.fromCall (h : Reachable code answers m) : ∀ f ∈ m.stack, f.FromCall code := by
  refine h.induct (P := fun m => ∀ f ∈ m.stack, f.FromCall code) (fun _ hf => by cases hf) fun m m' _ ih hadv => ?_
  obtain ⟨q, hq, hs⟩ := advance_eq_some hadv
  cases step_effect hs with
  | enter hop => exact List.forall_mem_cons.2 ⟨⟨m.pc, q, rfl, hq, hop, rfl⟩, ih⟩
  | leave _ _ hstack => exact fun f hf => ih f (by rw [hstack]; exact List.mem_cons_of_mem _ hf)
  | _ => exact ih

/-! ### The queue -/

/-- From `m₀` on the values of the operands `as` were pushed, and nothing else was done. -/
structure Pushed (code : Code) (m₀ m : Machine) (as : List Operand) : Prop where
  code_eq : code.drop m₀.pc = as.map Quad.param ++ code.drop m.pc
  empty : m₀.params = []
  values : List.Forall₂ (fun a v => m₀.memory.resolve a = .ok v) as m.params
  machine_eq : m = { m₀ with pc := m₀.pc + as.length, params := m.params }

theorem Pushed.refl (h : m.params = []) : Pushed code m m [] :=
  ⟨rfl, h, by rw [h]; exact .nil, rfl⟩

theorem Pushed.param {as : List Operand} {a : Operand} {v : Value} (h : Pushed code m₀ m as)
    (hq : code[m.pc]? = some (Quad.param a)) (hv : m.memory.resolve a = .ok v) :
    Pushed code m₀ ({ m with params := m.params ++ [v] }).next (as ++ [a]) := by
  obtain ⟨hcode, hempty, hvalues, hm⟩ := h
  refine ⟨?_, hempty, ?_, ?_⟩
  · rw [hcode, Code.drop_of_getElem? hq]
    simp [Machine.next]
  · have hv₀ : m₀.memory.resolve a = .ok v := by rw [hm] at hv; exact hv
    exact List.rel_append hvalues (.cons hv₀ .nil)
  · rw [hm]
    simp [Machine.next, Nat.add_assoc]

/-- The arguments that wait where a machine stands. -/
inductive Waiting (code : Code) (answers : Answers) (m : Machine) : Prop
  /-- Those of the next call, as far as they were pushed. -/
  | pushing {m₀ : Machine} {as : List Operand} (hreach : Reachable code answers m₀) (hpushed : Pushed code m₀ m as)
      (hbal : Code.Balanced as.length (code.drop m.pc))
  /-- Those that a function is about to receive. -/
  | entering {k : Nat} {f : String} {c : Code} (hcode : code.drop m.pc = Quad.label (functionMark ++ f) :: c)
      (hrec : Code.Receiving k c) (hle : m.params.length ≤ k)
  | receiving {k : Nat} (hrec : Code.Receiving (k + 1) (code.drop m.pc)) (hle : m.params.length ≤ k + 1)

namespace Waiting

theorem of_empty (hm : Reachable code answers m) (h : m.params = []) (hbal : Code.Balanced 0 (code.drop m.pc)) :
    Waiting code answers m :=
  .pushing hm (.refl h) hbal

theorem of_receiving {k : Nat} (hm : Reachable code answers m) (hrec : Code.Receiving k (code.drop m.pc))
    (hle : m.params.length ≤ k) : Waiting code answers m := by
  cases k with
  | zero =>
    cases hrec with
    | body hbal => exact .of_empty hm (List.eq_nil_of_length_eq_zero (Nat.le_zero.1 hle)) hbal
  | succ k => exact .receiving hrec hle

theorem eq_nil (h : Waiting code answers m) (hbal : Code.Balanced 0 (code.drop m.pc)) : m.params = [] := by
  cases h with
  | pushing _ hpushed hbal' =>
    have hlength := hpushed.values.length_eq
    rw [← hbal.unique hbal'] at hlength
    exact List.eq_nil_of_length_eq_zero hlength.symm
  | entering hcode _ _ =>
    rw [hcode] at hbal
    exact absurd rfl hbal.not_label
  | receiving hrec _ =>
    generalize code.drop m.pc = c at hrec hbal
    cases hrec with
    | receive => exact absurd rfl hbal.not_receive

end Waiting

/-! ### Steps -/

section
variable (hcode : Code.Regular P Q code)
include hcode

theorem balanced_of_jump {k : Key} {p : Nat} (hq : code[m.pc]? = some q) (hop : q.op = .goto ∨ q.op = .jumpIfFalse)
    (hk : q.result.key m.pc = .ok k) (hp : code.labels.getKey? k = some p) : Code.Balanced 0 (code.drop p) := by
  obtain ⟨s, hs, hhead⟩ := (hcode.emitted q (List.mem_of_getElem? hq)).jump_head hop
  rw [hs, Target.key_name] at hk
  cases hk
  rw [Table.getKey?_text] at hp
  rcases hcode.balanced.of_label (Code.getElem?_of_labels hcode.emitted hp) with hbal | ⟨f, k, rfl, -⟩
  · exact hbal
  · exact absurd (head_functionMark f) hhead

theorem entry_of_call {f : String} {k p : Nat} {x : Target} (hq : code[m.pc]? = some (Quad.call f k x))
    (hp : code.labels.get? (.text f) = some p) : ∃ g j, f = functionMark ++ g ∧
      code[p]? = some (Quad.label f) ∧ Code.Receiving j (code.drop (p + 1)) ∧ k ≤ j := by
  have hlabel := Code.getElem?_of_labels hcode.emitted hp
  have hhead := (hcode.emitted _ (List.mem_of_getElem? hlabel)).label_head rfl rfl
  obtain ⟨g, rfl⟩ := ((hcode.emitted _ (List.mem_of_getElem? hq)).call_head rfl rfl).resolve_left hhead
  rcases hcode.balanced.of_label hlabel with hbal | ⟨g', j, -, hrec⟩
  · rw [Code.drop_of_getElem? hlabel] at hbal
    exact absurd rfl hbal.not_label
  · have hhas : code.Has m.pc [Quad.call (functionMark ++ g) k x] := by
      rw [Code.has_iff hcode.emitted]
      have hlt := (List.getElem?_eq_some_iff.1 hq).1
      exact Code.at_of_drop hlt.le (Code.drop_of_getElem? hq)
    obtain ⟨xs, hk, hxs⟩ := hcode.fits _ _ _ _ _ hhas hp
    obtain ⟨d, hd⟩ := ((Code.has_iff hcode.emitted).1 hxs).drop_eq
    exact ⟨g, j, rfl, hlabel, hrec, hk.trans (hrec.length_le hd)⟩

/-- A step of the machine moves the arguments on. -/
theorem Waiting.step (hm : Reachable code answers m) (h : Waiting code answers m)
    (hadv : m.advance code code.labels = some (.ok m')) : Waiting code answers m' := by
  have hm' := hm.step hadv
  obtain ⟨q, hq, hs⟩ := advance_eq_some hadv
  have hdrop := Code.drop_of_getElem? hq
  cases h with
  | entering hhead hrec hle =>
    rw [hdrop] at hhead
    obtain ⟨rfl, rfl⟩ := List.cons.inj hhead
    rw [step_label (.inl rfl)] at hs
    cases hs
    exact .of_receiving hm' hrec hle
  | receiving hrec hle =>
    rw [hdrop] at hrec
    cases hrec with
    | receive hrec =>
      rw [step_receive rfl] at hs
      obtain ⟨m₁, hm₁, hs⟩ := except_bind_eq_ok hs
      obtain ⟨k, hk, rfl⟩ := write_eq_ok hm₁
      cases hs
      refine .of_receiving hm' hrec ?_
      rw [← Nat.sub_le_iff_le_add] at hle
      simpa [Machine.next] using hle
  | pushing hreach hpushed hbal =>
    rw [hdrop] at hbal
    -- only between the arguments of a call is anything pushed
    have hempty : q.op ≠ .param → q.op ≠ .call → m.params = [] := fun hparam hcall =>
      List.eq_nil_of_length_eq_zero (hpushed.values.length_eq.symm.trans (hbal.eq_zero hparam hcall))
    cases step_effect hs with
    | assign hop => exact .of_empty hm' (hempty (by simp [hop]) (by simp [hop])) (hbal.of_idle (by simp [hop]))
    | operator hop => exact .of_empty hm' (hempty (by simp [hop]) (by simp [hop])) (hbal.of_idle (by simp [hop]))
    | pass hop => exact .of_empty hm' (hempty (by simp [hop]) (by simp [hop])) (hbal.of_idle (by simp [hop]))
    | skip hop =>
      have hskip : q.op ∉ [.param, .call, .goto] := by rcases hop with hop | ⟨word, hop⟩ <;> simp [hop]
      simp only [List.mem_cons, List.not_mem_nil, or_false, not_or] at hskip
      exact .of_empty hm' (hempty hskip.1 hskip.2.1) (hbal.of_idle (by simpa using hskip))
    | goto hop hk hp =>
      exact .of_empty hm' (hempty (by simp [hop]) (by simp [hop])) (balanced_of_jump hcode hq (.inl hop) hk hp)
    | branch hop _ _ hk hp =>
      exact .of_empty hm' (hempty (by simp [hop]) (by simp [hop])) (balanced_of_jump hcode hq (.inr hop) hk hp)
    | param hop hv =>
      obtain ⟨a, rfl⟩ : ∃ a, q = Quad.param a := by
        cases hcode.emitted q (List.mem_of_getElem? hq) <;> first | exact ⟨_, rfl⟩ | cases hop
      refine .pushing hreach (hpushed.param hq hv) ?_
      rw [List.length_append]
      exact hbal.of_param rfl
    | receive hop => exact absurd hop hbal.not_receive
    | print hop => exact .of_empty hm' rfl (hbal.of_call hop).2
    | intrinsic hop _ hcount =>
      obtain ⟨⟨f, x, rfl⟩, hrest⟩ := hbal.of_call hop
      refine .of_empty hm' ?_ hrest
      simp only [argumentCount, Quad.call_arg2, Except.ok.injEq, ← hpushed.values.length_eq] at hcount
      simp [Machine.next, ← hcount, ← hpushed.values.length_eq]
    | enter hop hk hp =>
      obtain ⟨⟨f, x, rfl⟩, hrest⟩ := hbal.of_call hop
      cases hk
      obtain ⟨g, j, rfl, hlabel, hrec, hle⟩ := entry_of_call hcode hq hp
      exact .entering (Code.drop_of_getElem? hlabel) hrec (hpushed.values.length_eq ▸ hle)
    | finish hop => exact .of_empty hm' rfl (by simpa using Code.Balanced.nil)
    | leave hop _ hstack =>
      obtain ⟨i, q', hi, hq', hcall, -⟩ := hm.fromCall _ (hstack ▸ List.mem_cons_self)
      refine .of_empty hm' rfl ?_
      rw [hi]
      exact hcode.balanced.after_call hq' hcall

theorem waiting_of_reachable (hm : Reachable code answers m) : Waiting code answers m :=
  hm.induct (.of_empty .start rfl hcode.balanced) fun _ _ hm h hadv => h.step hcode hm hadv

end

/-! ### Calls -/

/-- The queue holds the arguments of the call that the machine stands at, each of them pushed by one of the
instructions right before the call and nothing before them. -/
def Supplied (code : Code) (answers : Answers) (m : Machine) (f : String) (as : List Operand) (x : Target) : Prop :=
  ∃ m₀, Reachable code answers m₀ ∧ m₀.params = [] ∧ Steps code as.length m₀ m ∧ m.pc = m₀.pc + as.length ∧
    code.Has m₀.pc (as.map Quad.param ++ [Quad.call f as.length x]) ∧
    List.Forall₂ (fun a v => m₀.memory.resolve a = .ok v) as m.params

theorem Waiting.supplied (hcode : Code.Regular P Q code) (h : Waiting code answers m) (hq : code[m.pc]? = some q)
    (hop : q.op = .call) : ∃ f as x, q = Quad.call f as.length x ∧ Supplied code answers m f as x := by
  have hdrop := Code.drop_of_getElem? hq
  cases h with
  | entering hhead =>
    rw [hdrop] at hhead
    obtain ⟨rfl, -⟩ := List.cons.inj hhead
    cases hop
  | receiving hrec =>
    rw [hdrop] at hrec
    cases hrec with
    | receive => cases hop
  | @pushing m₀ as hreach hpushed hbal =>
    rw [hdrop] at hbal
    obtain ⟨⟨f, x, rfl⟩, -⟩ := hbal.of_call hop
    have hpc : m.pc = m₀.pc + as.length := congrArg Machine.pc hpushed.machine_eq
    have hlt := (List.getElem?_eq_some_iff.1 hq).1
    have hat : code.At m₀.pc (as.map Quad.param ++ [Quad.call f as.length x]) := by
      refine Code.at_of_drop (d := code.drop (m.pc + 1)) (by omega) ?_
      rw [hpushed.code_eq, hdrop, List.append_assoc]
      rfl
    have hsteps := steps_params m₀ hpushed.values hat.left
    rw [hpushed.empty, List.nil_append, ← hpushed.machine_eq] at hsteps
    exact ⟨f, as, x, rfl, m₀, hreach, hpushed.empty, hsteps, hpc, (Code.has_iff hcode.emitted).2 hat, hpushed.values⟩

theorem Supplied.renumber {f : String} {as : List Operand} {x : Target} (h : Supplied code answers m f as x) :
    Supplied code.renumber answers m f as x := by
  obtain ⟨m₀, hreach, hempty, hsteps, hpc, hhas, hvalues⟩ := h
  exact ⟨m₀, reachable_renumber.2 hreach, hempty, steps_renumber.2 hsteps, hpc, Code.has_renumber.2 hhas, hvalues⟩

theorem Supplied.length_eq {f : String} {as : List Operand} {x : Target} (h : Supplied code answers m f as x) :
    m.params.length = as.length := by
  obtain ⟨m₀, -, -, -, -, -, hvalues⟩ := h
  exact hvalues.length_eq.symm

theorem step_output (hs : m.step code code.labels q = .ok m') : m'.output = m.output ∨
    ∃ s lead, q.op = .call ∧ q.arg1.toTree = .str s ∧ consoleLead? s = some lead ∧
      m'.output = m.output ++ [lead ++ " ".intercalate (m.params.map Value.toText)] := by
  cases step_effect hs with
  | print hop harg hlead => exact .inr ⟨_, _, hop, harg, hlead, rfl⟩
  | _ => exact .inl rfl

/-- The machine after the first waiting argument was received under a key. -/
def receive (m : Machine) (k : Key) : Machine :=
  { m with
    pc := m.pc + 1
    params := m.params.tail
    memory := m.memory.setKey k (m.params.head?.getD .undefined) }

theorem advance_receive {x : Target} {k : Key} (hq : code[m.pc]? = some (Quad.receive x)) (hk : x.key m.pc = .ok k) :
    m.advance code code.labels = some (.ok (m.receive k)) := by
  rw [advance_of_getElem? hq, step_receive rfl]
  simp only [write, Quad.receive_result, hk]
  rfl

/-- The machine after parameters have received what they could. -/
structure Received (m m' : Machine) (xs : List Target) : Prop where
  params : m'.params = m.params.drop xs.length
  bound : ∀ (i : Nat) (x : String), xs[i]? = some (.name x) → (∀ j > i, xs[j]? ≠ some (.name x)) →
    m'.memory.get? (.text x) = some (m.params[i]?.getD .undefined)
  others : ∀ x, .name x ∉ xs → m'.memory.get? (.text x) = m.memory.get? (.text x)

theorem Received.cons {x : Target} {xs : List Target} {k : Key} (hx : x.Keyed) (hk : x.key m.pc = .ok k)
    (h : Received (m.receive k) m' xs) : Received m m' (x :: xs) := by
  refine ⟨?_, fun i s hs hlast => ?_, fun s hs => ?_⟩
  · rw [h.params]
    simp [receive]
  · cases i with
    | zero =>
      have hnot : .name s ∉ xs := fun hmem => by
        obtain ⟨j, hj⟩ := List.mem_iff_getElem?.1 hmem
        exact hlast (j + 1) (Nat.succ_pos j) hj
      cases hs
      cases hk
      rw [h.others s hnot]
      simp [receive, List.head?_eq_getElem?]
    | succ i =>
      rw [h.bound i s hs fun j hj hj' => hlast (j + 1) (Nat.succ_lt_succ hj) hj']
      simp [receive]
  · rw [List.mem_cons, not_or] at hs
    have hne : k ≠ .text s := fun hks => hs.1 (hx.eq_name (hks ▸ hk)).symm
    rw [h.others s hs.2]
    simp [receive, hne]

/-- Parameters receive the waiting arguments in order; those for which none is left are undefined. -/
theorem exists_received {xs : List Target} (hkeyed : ∀ x ∈ xs, x.Keyed) (m : Machine)
    (hat : code.At m.pc (xs.map Quad.receive)) :
    ∃ m', Steps code xs.length m m' ∧ m'.pc = m.pc + xs.length ∧ Received m m' xs := by
  -- parameter by parameter; a later one of the same name overwrites an earlier one, which `bound` leaves out
  induction xs generalizing m with
  | nil => exact ⟨m, .refl m, rfl, ⟨rfl, by simp, fun _ _ => rfl⟩⟩
  | cons x xs ih =>
    have hx := hkeyed x List.mem_cons_self
    obtain ⟨k, hk⟩ := hx.exists_key m.pc
    obtain ⟨m', hsteps, hpc, hreceived⟩ :=
      ih (fun y hy => hkeyed y (List.mem_cons_of_mem x hy)) (m.receive k) hat.tail
    refine ⟨m', .head (advance_receive hat.head hk) hsteps, ?_, hreceived.cons hx hk⟩
    simp only [hpc, receive, List.length_cons]
    omega

theorem received_of_call {f : String} {k p : Nat} {x : Target} {xs : List Target} (hcode : Code.Regular P Q code)
    (hq : code[m.pc]? = some (Quad.call f k x)) (hp : code.labels.get? (.text f) = some p)
    (hat : code.At (p + 1) (xs.map Quad.receive)) (hkeyed : ∀ y ∈ xs, y.Keyed) :
    ∃ m', Steps code (xs.length + 2) m m' ∧ m'.pc = p + 1 + xs.length ∧ Received m m' xs := by
  obtain ⟨g, _, rfl, hlabel, -⟩ := entry_of_call hcode hq hp
  have hcall : m.advance code code.labels = some (.ok (m.enter (Quad.call (functionMark ++ g) k x) p)) := by
    rw [advance_of_getElem? hq, step_call_of_get? rfl rfl hp]
  have henter : (m.enter (Quad.call (functionMark ++ g) k x) p).advance code code.labels =
      some (.ok (m.enter (Quad.call (functionMark ++ g) k x) p).next) := advance_label hlabel
  obtain ⟨m', hsteps, hpc, hreceived⟩ :=
    exists_received hkeyed (m.enter (Quad.call (functionMark ++ g) k x) p).next hat
  exact ⟨m', .head hcall (.head henter hsteps), hpc, hreceived.params, hreceived.bound, hreceived.others⟩

end Machine

/-! ### Call expressions -/

namespace Part

/-- The instruction at position `k` of the code of `w` is the call of a call expression: `f` names what is called, and
each of the operands `as` holds the value of the argument in its place, whose code stands before the call. -/
def Calls (w : Part) (s : Supply) (k : Nat) (f : String) (as : List Operand) : Prop :=
  ∃ es p mark called arguments s' c, Occurs w s es p (.expr (.mk mark (.call called arguments))) s' ∧
    Lower.callee called = .ok c ∧ f = c.name ∧ k = p + ((Part.exprs arguments).code s').length + as.length ∧
    List.Forall₂ (fun n a => ∃ es' p' s₁, Occurs (.exprs arguments) s' es' p' (.expr n) s₁ ∧ a = n.operand s₁)
      arguments as

variable {w : Part} {s : Supply} {r : Lowered Unit} {k : Nat} {q : Quad}

theorem isCall_eq_true (h : w.isCall = true) :
    ∃ mark called arguments, w = .expr (.mk mark (.call called arguments)) := by
  unfold isCall at h
  split at h
  · exact ⟨_, _, _, rfl⟩
  · cases h

theorem occurs_operands {ns : List Node} {as : Lowered (List Operand)} (h : Lower.exprs ns s = .ok as) :
    List.Forall₂ (fun n a => ∃ es p s', Occurs (.exprs ns) s es p (.expr n) s' ∧ a = n.operand s') ns as.value := by
  induction ns generalizing s as with
  | nil => rw [Lower.exprs_nil.1 h]; exact .nil
  | cons n rest ih =>
    obtain ⟨a, ha, bs, hbs, rfl⟩ := Lower.exprs_cons.1 h
    refine .cons ⟨_, _, s, Occurs.of_piece (i := 0) rfl, (Node.operand_eq ha).symm⟩ ?_
    have hrest : ((Part.exprs (n :: rest)).pieces s)[1]? = some (.part false n.events (.exprs rest) a.supply) := by
      rw [pieces, after_eq (lower_expr ha)]
      rfl
    refine (ih hbs).imp fun m b hb => ?_
    obtain ⟨es, p, s', hoccurs, hvalue⟩ := hb
    exact ⟨_, _, s', (Occurs.of_piece hrest).trans hoccurs, hvalue⟩

theorem own_of_call {mark : Mark} {called : Node} {arguments : List Node} {i : Nat} {c : Code}
    (h : (Part.expr (.mk mark (.call called arguments))).lower s = .ok r)
    (hi : ((Part.expr (.mk mark (.call called arguments))).pieces s)[i]? = some (.code c)) :
    ∃ callee as x, Lower.callee called = .ok callee ∧ Lower.exprs arguments s = .ok as ∧
      c = as.value.map Quad.param ++ [Quad.call callee.name as.value.length x] ∧
      (Part.expr (.mk mark (.call called arguments))).placeOf s i = ((Part.exprs arguments).code s).length := by
  obtain ⟨callee, es, x, hcallee, hpieces⟩ : ∃ callee es x, Lower.callee called = .ok callee ∧
      (Part.expr (.mk mark (.call called arguments))).pieces s =
        [.part false es (.exprs arguments) s, .code ((Node.operands arguments s).map Quad.param ++
          [Quad.call callee.name (Node.operands arguments s).length x])] := by
    simp only [pieces, Node.exprPieces] at hi ⊢
    split at hi
    · rename_i method hc
      exact ⟨.console method, _, _, hc, rfl⟩
    · rename_i f hc
      exact ⟨.function f, _, _, hc, rfl⟩
    · cases hi
  have hfirst : .part false es (.exprs arguments) s ∈ (Part.expr (.mk mark (.call called arguments))).pieces s := by
    rw [hpieces]
    exact List.mem_cons_self
  obtain ⟨r', hr'⟩ := (laid h).lowers hfirst
  obtain ⟨as, has, -⟩ := map_forget_eq_ok hr'
  rw [Node.operands_eq has] at hpieces
  refine ⟨callee, as, x, hcallee, has, ?_⟩
  rw [placeOf]
  rw [hpieces] at hi ⊢
  obtain _ | _ | i := i
  · cases hi
  · cases hi
    simp [Piece.emitted]
  · cases hi

/-- Every `CALL` is that of a call expression, behind a `PARAM` for each of its arguments. -/
theorem exists_calls (h : w.lower s = .ok r) (hq : r.code[k]? = some q) (hop : q.op = .call) :
    ∃ f as x p, q = Quad.call f as.length x ∧ w.Calls s k f as ∧ k = p + as.length ∧
      r.code.At p (as.map Quad.param ++ [q]) := by
  obtain ⟨es, p, w', s', i, c, j, hoccurs, hi, hj, hk⟩ := exists_occurs_at h hq
  have hcall := (seated w' s' _ (List.mem_of_getElem? hi) q (List.mem_of_getElem? hj)).2.2 hop
  obtain ⟨mark, called, arguments, rfl⟩ := isCall_eq_true hcall
  obtain ⟨r', hr'⟩ := hoccurs.lowers h
  have hat := at_piece hr' hi (hoccurs.placed h)
  obtain ⟨callee, as, x, hcallee, has, rfl, hplace⟩ := own_of_call hr' hi
  obtain ⟨rfl, rfl⟩ := Code.eq_call_of_getElem? hj hop
  rw [hplace] at hat hk
  exact ⟨_, as.value, x, _, rfl,
    ⟨es, p, mark, called, arguments, s', callee, hoccurs, hcallee, rfl, hk, occurs_operands has⟩, hk, hat⟩

end Part

/-! ### Programs -/

open Machine

theorem Machine.Supplied.calls {w : Part} {s : Supply} {r : Lowered Unit} {P : Operand → Prop} {Q : Target → Prop}
    {answers : Answers} {m : Machine} {f : String} {as : List Operand} {x : Target}
    (h : Supplied r.code answers m f as x) (hcode : Code.Regular P Q r.code) (hr : w.lower s = .ok r)
    (hq : r.code[m.pc]? = some (Quad.call f as.length x)) : w.Calls s m.pc f as := by
  obtain ⟨m₀, -, -, -, hpc, hhas, -⟩ := h
  have hat := (Code.has_iff hcode.emitted).1 hhas
  obtain ⟨g, bs, y, p, hcall, hcalls, hp, hat'⟩ := Part.exists_calls hr hq rfl
  obtain ⟨rfl, hlength, rfl⟩ := Quad.call_inj hcall
  -- as many arguments stand before one call, so they are the same
  have hstart : p = m₀.pc := by omega
  rw [hstart] at hat'
  have hsame := (List.append_inj' (hat.unique hat' (by simp [hlength])) rfl).1
  rw [List.map_injective_iff.2 (fun _ _ h => congrArg Quad.arg1 h) hsame]
  exact hcalls

/-- In a program that passes no surplus arguments, every call is that of a call expression, and finds as many waiting
arguments as it takes: the values of the arguments of the expression, in their order, pushed right before it. So a
line of the console holds the arguments of its call, parameters are bound to the arguments in their places or else
undefined, and no argument waits where a statement begins or ends. -/
theorem Node.calling_convention {n : Node} {l : Lowered Unit} (hl : n.lower = .ok l) (hfit : l.code.ArgumentsFit)
    {answers : Answers} {m : Machine} (hm : Reachable l.code answers m) :
    (∀ q, l.code[m.pc]? = some q → q.op = .call → ∃ f as x, q.arg1 = .name f ∧ q.arg2 = .num (.int as.length) ∧
      m.params.length = as.length ∧ Supplied l.code answers m f as x ∧ (Part.stmt none n).Calls {} m.pc f as ∧
      (∀ lead, consoleLead? f = some lead → ∃ m', m.advance l.code l.code.labels = some (.ok m') ∧
        m'.output = m.output ++ [lead ++ " ".intercalate (m.params.map Value.toText)]) ∧
      ∀ p xs, l.code.labels.get? (.text f) = some p → l.code.Has (p + 1) (xs.map Quad.receive) →
        (∀ y ∈ xs, y.Keyed) →
        ∃ m', Steps l.code (xs.length + 2) m m' ∧ m'.pc = p + 1 + xs.length ∧ Received m m' xs) ∧
    (∀ m', m.advance l.code l.code.labels = some (.ok m') → m'.output = m.output ∨
      ∃ f as x lead, Supplied l.code answers m f as x ∧ (Part.stmt none n).Calls {} m.pc f as ∧
        consoleLead? f = some lead ∧ m'.output = m.output ++ [lead ++ " ".intercalate (m.params.map Value.toText)]) ∧
    ∀ c, Lower.Boundary none [n] {} c → m.pc = c.length → m.params = [] := by
  obtain ⟨r, hr, hl⟩ := except_bind_eq_ok hl
  cases hl
  have hemits := Lower.stmt_emits (N := fun _ => True) (p := False) nofun n nofun hr
  have hemitted := hemits.emitted (fun _ => nofun) nofun Loop.drawn_none
  have hcode : Code.Regular _ _ r.code := ⟨hemitted, hemits.balanced, hfit.of_renumber⟩
  have hm₀ := reachable_renumber.1 hm
  have hwaiting := waiting_of_reachable hcode hm₀
  simp only [advance_renumber, steps_renumber, Code.has_renumber, Code.has_iff hemitted]
  refine ⟨fun q hq hop => ?_, fun m' hadv => ?_, fun c hc hpc => ?_⟩
  · rw [Code.getElem?_renumber] at hq
    obtain ⟨q, hq₀, rfl⟩ := Option.map_eq_some_iff.1 hq
    obtain ⟨f, as, x, rfl, hsupplied⟩ := hwaiting.supplied hcode hq₀ hop
    refine ⟨f, as, x, rfl, rfl, hsupplied.length_eq, hsupplied.renumber, hsupplied.calls hcode hr hq₀,
      fun lead hlead => ?_, fun p xs hp hxs hkeyed => ?_⟩
    · exact ⟨_, advance_console hq₀ hlead, rfl⟩
    · rw [Code.labels_congr Code.control_renumber] at hp
      exact received_of_call hcode hq₀ hp hxs hkeyed
  · obtain ⟨q, hq, hs⟩ := advance_eq_some hadv
    rcases step_output hs with hsame | ⟨s, lead, hop, harg, hlead, hline⟩
    · exact .inl hsame
    · obtain ⟨f, as, x, rfl, hsupplied⟩ := hwaiting.supplied hcode hq hop
      cases harg
      exact .inr ⟨s, as, x, lead, hsupplied.renumber, hsupplied.calls hcode hr hq, hlead, hline⟩
  · obtain ⟨d, hd, hbal⟩ := hc.exists_rest (Lower.stmts_single.2 hr)
    refine hwaiting.eq_nil ?_
    rw [hd, hpc, List.drop_left]
    exact hbal

/-- Two nested calls of one function, of which the outer one leaves a parameter out. -/
def pairProgram : Node := .bare (.program [
  .bare (.function (.named "pair")
    [.mk (.ok .none) (.ok (.str "a")) .absent, .mk (.ok .none) (.ok (.str "b")) .absent] (.bare (.block [
      .bare (.expression (.print [.named "a", .named "b"])),
      .bare (.return (.named "a"))]))),
  .bare (.expression (.print [
    .bare (.call (.named "pair") [.bare (.call (.named "pair") [.int 1, .int 2])]),
    .bare (.literal false (.str "x"))]))])

def pairCode : Code := Code.renumber [
  Quad.goto "END_FUNC_pair", Quad.label "FUNC_pair", Quad.receive (.name "a"), Quad.receive (.name "b"),
  Quad.param (.name "a"), Quad.param (.name "b"), Quad.call "console_log" 2 .none, Quad.ret (.name "a"),
  Quad.ret void, Quad.label "END_FUNC_pair",
  Quad.param (.num (.int 1)), Quad.param (.num (.int 2)), Quad.call "FUNC_pair" 2 (.name "t0"),
  Quad.param (.name "t0"), Quad.call "FUNC_pair" 1 (.name "t1"),
  Quad.param (.name "t1"), Quad.param (.text "x"), Quad.call "console_log" 2 .none]

theorem pairProgram_lower :
    pairProgram.lower = .ok ⟨(), pairCode, { temps := 2, functions := ["pair"] }⟩ := by
  cbv

theorem pairCode_has_receives : pairCode.Has 2 ([.name "a", .name "b"].map Quad.receive) :=
  ⟨pairCode.take 2 |>.map Quad.unnumbered, pairCode.drop 4 |>.map Quad.unnumbered, rfl, rfl⟩

theorem pairCode_argumentsFit : pairCode.ArgumentsFit := by
  intro i f k x p hcall hp
  have hmem := List.mem_of_getElem? hcall.head
  simp [pairCode, Code.renumber, Quad.unnumbered, Quad.call, Quad.goto, Quad.label, Quad.receive, Quad.param,
    Quad.ret] at hmem
  have hconsole : pairCode.labels.get? (.text "console_log") = none := rfl
  have hpair : pairCode.labels.get? (.text "FUNC_pair") = some 1 := rfl
  rcases hmem with ⟨rfl, -⟩ | ⟨rfl, hk, -⟩ | ⟨rfl, hk, -⟩ | ⟨rfl, -⟩
  · simp [hconsole] at hp
  · cases hpair.symm.trans hp
    exact ⟨_, by simp; omega, pairCode_has_receives⟩
  · cases hpair.symm.trans hp
    exact ⟨_, by simp; omega, pairCode_has_receives⟩
  · simp [hconsole] at hp

/-- The outer call finds the result of the inner one, and its second parameter is undefined. -/
theorem Node.calling_convention_pair : pairCode.ArgumentsFit ∧
    ∃ m, Reachable pairCode .nobody m ∧ m.pc = 14 ∧ ∃ f as x m', Supplied pairCode .nobody m f as x ∧
      (Part.stmt none pairProgram).Calls {} 14 f as ∧ as.length = 1 ∧ Steps pairCode 4 m m' ∧ m'.params = [] ∧
      m'.memory.get? (.text "b") = some .undefined := by
  obtain ⟨m, hm, hpc, hone⟩ : ∃ m, after pairCode 13 (start .nobody) = some m ∧ m.pc = 14 ∧
      m.params = [.num (.int 1)] := ⟨_, rfl, rfl, rfl⟩
  have hreach : Reachable pairCode .nobody m := ⟨13, steps_of_after hm⟩
  have hq : pairCode[m.pc]? = some { Quad.call "FUNC_pair" 1 (.name "t1") with index := 14 } := hpc ▸ rfl
  obtain ⟨hcall, -, -⟩ := calling_convention pairProgram_lower pairCode_argumentsFit hreach
  obtain ⟨f, as, x, hf, -, hlength, hsupplied, hcalls, -, hbound⟩ := hcall _ hq rfl
  cases hf
  obtain ⟨m', hsteps, -, hparams, hb, -⟩ :=
    hbound 1 [.name "a", .name "b"] rfl pairCode_has_receives (by simp [Target.Keyed])
  rw [hone] at hlength hparams hb
  refine ⟨pairCode_argumentsFit, m, hreach, hpc, _, as, x, m', hsupplied, hpc ▸ hcalls, hlength.symm, hsteps,
    hparams, ?_⟩
  refine hb 1 "b" rfl fun j hj => ?_
  rw [List.getElem?_eq_none hj]
  simp

end QuadScript
