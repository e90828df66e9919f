import QuadScript.Optimizer.Propagate
import QuadScript.Proofs.Optimizer.Conditions

/-!
# Constant propagation keeps every step

A scan with the facts `F i` before the instruction at place `i` (`Scan`) replaces operands only by
what they are known to hold. `Holds` says that the facts at the current place are true of a machine:

* a temporary that is known to be a constant holds it, if it holds anything;
* a variable that is known to be a constant holds it, unless control stands at a label, where it may
  have come from elsewhere and where the facts are about to be forgotten;
* every frame returns to the place after a call with the call's target.

Every step keeps it (`Holds.step`), since a temporary is the target of one instruction only, and while
no absent temporary is read the two codes do the same in each step (`Scan.step_eq`).
-/

namespace QuadScript

/-! ### Facts -/

namespace Facts

variable {facts facts' : Facts} {place : Nat} {q : Quad}

theorem replace_name (s : String) : (facts.replace (.name s)).1 = (facts.known? s).getD (.name s) := by
  simp only [replace]; cases facts.known? s <;> rfl

theorem known?_eq_some {s : String} {a : Operand} (h : facts.known? s = some a) :
    facts.temps.get? s = some a ∨ facts.names.get? (.text s) = some a := by
  unfold known? at h; split at h
  · rename_i ht; cases h; exact .inl ht
  · exact .inr h

theorem surviving_temps : (facts.surviving q).temps = facts.temps := by
  unfold surviving; split <;> rfl

theorem names_surviving {k : Key} {a : Operand} (h : (facts.surviving q).names.get? k = some a) :
    facts.names.get? k = some a ∧ q.op.isBarrier = false := by
  unfold surviving at h; split at h
  · cases h
  · rename_i hb; exact ⟨h, by simpa using hb⟩

/-- A known variable after an instruction was assigned just now, or was known before and kept. -/
theorem names_after {x : String} {a : Operand} (h : facts.after place q = .ok facts')
    (hx : facts'.names.get? (.text x) = some a) :
    (q.op = .assign ∧ q.arg1 = a ∧ a.isLiteral = true ∧ q.result.temp? = none ∧
        q.result.key place = .ok (.text x)) ∨
      (facts.names.get? (.text x) = some a ∧ q.op.isBarrier = false ∧
        (q.op.writes = true → q.result.temp? = none → q.result.key place ≠ .ok (.text x))) := by
  -- an assignment of a constant, another instruction that writes, and one that does not
  unfold after at h; dsimp only at h; split at h
  · rename_i hq
    simp only [Bool.and_eq_true, decide_eq_true_eq] at hq
    unfold learn at h; split at h
    · rename_i ht; cases h
      obtain ⟨hx, hb⟩ := names_surviving hx
      exact .inr ⟨hx, hb, fun _ hn => by rw [ht] at hn; cases hn⟩
    · rename_i ht
      obtain ⟨k, hk, h⟩ := except_bind_eq_ok h
      cases h
      rw [Table.get?_setKey_text] at hx; split at hx
      · rename_i hkx; cases hx
        exact .inl ⟨hq.1, rfl, hq.2, ht, hkx ▸ hk⟩
      · rename_i hkx
        obtain ⟨hx, hb⟩ := names_surviving hx
        refine .inr ⟨hx, hb, fun _ _ hk' => hkx ?_⟩
        rw [hk] at hk'; exact Except.ok.inj hk'
  · split at h
    · unfold forget at h; split at h
      · rename_i hn; cases h
        have hempty : (facts.surviving q).names.entries.isEmpty = false := by
          cases he : (facts.surviving q).names.entries with
          | nil => simp [Table.get?, he, Table.find?] at hx
          | cons => rfl
        obtain ⟨hx, hb⟩ := names_surviving hx
        refine .inr ⟨hx, hb, fun _ _ hk => ?_⟩
        simp only [hempty, Bool.or_false] at hn
        cases hr : q.result with
        | none => rw [hr] at hk; cases hk
        | name s => rw [hr] at hn; cases hn
        | raw data => rw [hr] at hn; cases hn
      · obtain ⟨k, hk, h⟩ := except_bind_eq_ok h
        cases h
        rw [Table.get?_eraseKey_text] at hx; split at hx
        · cases hx
        · rename_i hkx
          obtain ⟨hx, hb⟩ := names_surviving hx
          refine .inr ⟨hx, hb, fun _ _ hk' => hkx ?_⟩
          rw [hk] at hk'; exact Except.ok.inj hk'
    · rename_i hw; cases h
      obtain ⟨hx, hb⟩ := names_surviving hx
      exact .inr ⟨hx, hb, fun hw' => absurd hw' hw⟩

theorem temps_after {t : String} {a : Operand} (h : facts.after place q = .ok facts')
    (ht : facts'.temps.get? t = some a) :
    (q.op = .assign ∧ q.arg1 = a ∧ a.isLiteral = true ∧ q.result.temp? = some t) ∨
      facts.temps.get? t = some a := by
  unfold after at h; dsimp only at h; split at h
  · rename_i hq
    simp only [Bool.and_eq_true, decide_eq_true_eq] at hq
    unfold learn at h; split at h
    · rename_i s hs; cases h
      rw [Table.get?_set, surviving_temps] at ht; split at ht
      · rename_i hst; cases ht
        exact .inl ⟨hq.1, rfl, hq.2, hst ▸ hs⟩
      · exact .inr ht
    · obtain ⟨k, hk, h⟩ := except_bind_eq_ok h
      cases h
      exact .inr (surviving_temps ▸ ht)
  · split at h
    · unfold forget at h; split at h
      · cases h; exact .inr (surviving_temps ▸ ht)
      · obtain ⟨k, hk, h⟩ := except_bind_eq_ok h
        cases h
        exact .inr (surviving_temps ▸ ht)
    · cases h; exact .inr (surviving_temps ▸ ht)

end Facts

/-! ### The scan -/

namespace Quad

variable (facts : Facts) (q : Quad)

@[simp] theorem propagate_op : (q.propagate facts).1.op = q.op := by
  unfold propagate; split <;> rfl

@[simp] theorem propagate_result : (q.propagate facts).1.result = q.result := by
  unfold propagate; split <;> rfl

theorem propagate_control : (q.propagate facts).1.control = q.control := by
  unfold control; rw [propagate_op, propagate_result]

theorem propagate_reads : (q.propagate facts).1.reads = q.reads.map fun a => (facts.replace a).1 := by
  unfold reads; rw [propagate_op]
  cases h : q.op <;> simp [propagate, h]

end Quad

/-- The facts before each place of a scan, and what it makes of the code. -/
structure Scan (code code' : Code) (F : Nat → Facts) : Prop where
  start : F 0 = {}
  lockstep : Code.Lockstep (fun i q q' => q' = (q.propagate (F i)).1) code code'
  after : ∀ {i : Nat} {q : Quad}, code[i]? = some q →
    ∃ place, (F i).after place (q.propagate (F i)).1 = .ok (F (i + 1))

namespace Code

variable {code code' : Code} {facts : Facts}

theorem propagateFrom_cons {q : Quad} : propagateFrom facts (q :: code) =
    (facts.after code.length (q.propagate facts).1 >>= fun facts' => propagateFrom facts' code >>= fun r =>
      .ok ((q.propagate facts).1 :: r.1, (q.propagate facts).2 || r.2)) := rfl

theorem propagateFrom_eq_ok {changed : Bool} (h : propagateFrom facts code = .ok (code', changed)) :
    ∃ F : Nat → Facts, F 0 = facts ∧ Lockstep (fun i q q' => q' = (q.propagate (F i)).1) code code' ∧
      ∀ {i : Nat} {q : Quad}, code[i]? = some q →
        ∃ place, (F i).after place (q.propagate (F i)).1 = .ok (F (i + 1)) := by
  induction code generalizing facts code' changed with
  | nil =>
    cases h
    exact ⟨fun _ => facts, rfl, ⟨rfl, by simp⟩, by simp⟩
  | cons q rest ih =>
    rw [propagateFrom_cons] at h
    obtain ⟨facts', hafter, h⟩ := except_bind_eq_ok h
    obtain ⟨⟨rest', changed'⟩, hrest, h⟩ := except_bind_eq_ok h
    cases h
    obtain ⟨F, rfl, hlock, hF'⟩ := ih hrest
    refine ⟨fun i => Nat.casesOn i facts F, rfl, ⟨by simp [hlock.length], ?_⟩, ?_⟩
    · rintro (_ | i) q' hq'
      · cases hq'; exact ⟨_, rfl, rfl⟩
      · exact hlock.instr hq'
    · rintro (_ | i) q' hq'
      · cases hq'; exact ⟨rest.length, hafter⟩
      · exact hF' hq'

theorem exists_after (place : Nat) {q : Quad} (hq : q.result.Keyed) : ∃ facts', facts.after place q = .ok facts' := by
  obtain ⟨k, hk⟩ := hq.exists_key place
  unfold Facts.after Facts.learn Facts.forget
  rw [hk]
  dsimp only
  split
  · split
    · exact ⟨_, rfl⟩
    · exact ⟨_, rfl⟩
  · split
    · split
      · exact ⟨_, rfl⟩
      · exact ⟨_, rfl⟩
    · exact ⟨_, rfl⟩

theorem exists_propagateFrom (hkeyed : code.TargetsKeyed) : ∃ r, propagateFrom facts code = .ok r := by
  induction code generalizing facts with
  | nil => exact ⟨_, rfl⟩
  | cons q rest ih =>
    have hres : (q.propagate facts).1.result.Keyed := by
      rw [Quad.propagate_result]; exact hkeyed q (by simp)
    obtain ⟨facts', hafter⟩ : ∃ facts', facts.after rest.length (q.propagate facts).1 = .ok facts' :=
      exists_after rest.length hres
    obtain ⟨r, hr⟩ : ∃ r, propagateFrom facts' rest = .ok r := ih fun q' hq' => hkeyed q' (by simp [hq'])
    refine ⟨((q.propagate facts).1 :: r.1, (q.propagate facts).2 || r.2), ?_⟩
    rw [propagateFrom_cons, hafter]
    change (propagateFrom facts' rest >>= _) = _
    rw [hr]
    rfl

theorem exists_scan {changed : Bool} (h : code.propagate = .ok (code', changed)) : ∃ F, Scan code code' F :=
  let ⟨F, hF, hlock, hafter⟩ := propagateFrom_eq_ok h
  ⟨F, hF, hlock, hafter⟩

end Code

/-! ### Facts that are true of a machine -/

/-- A temporary that a scan takes for a constant. -/
def Scan.Known (code : Code) (F : Nat → Facts) (t : String) (a : Operand) : Prop :=
  ∃ i q, code[i]? = some q ∧ q.op = .assign ∧ q.result.temp? = some t ∧ ((F i).replace q.arg1).1 = a ∧
    a.isLiteral = true

/-- A frame that returns to the place after a call, with the call's target. -/
def Frame.FromCall (code : Code) (f : Frame) : Prop :=
  ∃ i q, f.returnIndex = i + 1 ∧ code[i]? = some q ∧ q.op = .call ∧ q.result = f.target

/-- What a scan knows where a machine stands is true of the machine. -/
structure Scan.Holds (code : Code) (F : Nat → Facts) (m : Machine) : Prop where
  temps : ∀ {t : String} {a : Operand} {v : Value}, Known code F t a → m.memory.get? (.text t) = some v →
    a.literal? = some v
  names : ∀ {q : Quad} {x : String} {a : Operand}, code[m.pc]? = some q → q.op ≠ .label →
    (F m.pc).names.get? (.text x) = some a → ∃ v, a.literal? = some v ∧ m.memory.get? (.text x) = some v
  frames : ∀ f ∈ m.stack, f.FromCall code

namespace Scan

variable {code code' : Code} {F : Nat → Facts} {m m' : Machine} {q : Quad}

theorem known_of_temps (h : Scan code code' F) {i : Nat} (hi : i ≤ code.length) {t : String} {a : Operand}
    (ht : (F i).temps.get? t = some a) : Known code F t a := by
  induction i with
  | zero => rw [h.start] at ht; cases ht
  | succ i ih =>
    have hq := List.getElem?_eq_getElem (l := code) (i := i) (by omega)
    obtain ⟨place, hafter⟩ := h.after hq
    rcases Facts.temps_after hafter ht with ⟨hop, harg, hlit, hres⟩ | ht
    · rw [Quad.propagate_op] at hop
      rw [Quad.propagate_result] at hres
      refine ⟨i, _, hq, hop, hres, ?_, hlit⟩
      rw [← harg]
      simp [Quad.propagate, hop]
    · exact ih (by omega) ht

theorem isTempName_of_names (h : Scan code code' F) (hkeyed : code.TargetsKeyed) {i : Nat}
    (hi : i ≤ code.length) {x : String} {a : Operand} (hx : (F i).names.get? (.text x) = some a) :
    isTempName x = false := by
  induction i with
  | zero => rw [h.start] at hx; cases hx
  | succ i ih =>
    have hq := List.getElem?_eq_getElem (l := code) (i := i) (by omega)
    obtain ⟨place, hafter⟩ := h.after hq
    rcases Facts.names_after hafter hx with ⟨-, -, -, ht, hk⟩ | ⟨hx, -⟩
    · rw [Quad.propagate_result] at ht hk
      rw [(hkeyed _ (List.mem_of_getElem? hq)).eq_name hk, Target.temp?_name] at ht
      simpa using ht
    · exact ih (by omega) hx

/-- What a read name is known to be, it is. -/
theorem known_read (h : Scan code code' F) (hm : Holds code F m) (hq : code[m.pc]? = some q)
    (hpresent : m.ReadsPresent q) {s : String} {a : Operand} (hs : .name s ∈ q.reads)
    (hk : (F m.pc).known? s = some a) : ∃ v, a.literal? = some v ∧ m.memory.get? (.text s) = some v := by
  have hlt : m.pc < code.length := (List.getElem?_eq_some_iff.1 hq).1
  rcases Facts.known?_eq_some hk with ht | hx
  · have hknown := h.known_of_temps (Nat.le_of_lt hlt) ht
    obtain ⟨-, q', -, -, hres, -, -⟩ := hknown
    obtain ⟨v, hv⟩ := hpresent s hs (Target.temp?_eq_some hres).2
    exact ⟨v, hm.temps (h.known_of_temps (Nat.le_of_lt hlt) ht) hv, hv⟩
  · refine hm.names hq (fun hop => ?_) hx
    simp [Quad.reads, hop] at hs

theorem resolve_replace (h : Scan code code' F) (hm : Holds code F m) (hq : code[m.pc]? = some q)
    (hpresent : m.ReadsPresent q) {a : Operand} (ha : a ∈ q.reads) :
    m.memory.resolve ((F m.pc).replace a).1 = m.memory.resolve a := by
  cases a with
  | name s =>
    rw [Facts.replace_name]
    cases hk : (F m.pc).known? s with
    | none => rfl
    | some b =>
      obtain ⟨v, hb, hv⟩ := h.known_read hm hq hpresent ha hk
      rw [Option.getD_some, Operand.resolve_literal hb]
      simp [Memory.resolve, Memory.read, hv]
  | _ => rfl

theorem control_eq (h : Scan code code' F) : code'.map Quad.control = code.map Quad.control :=
  h.lockstep.map_eq fun i q q' hq' => by rw [hq', Quad.propagate_control]

/-- A step of the propagated code is the step of the code. -/
theorem step_eq (h : Scan code code' F) (hm : Holds code F m) (hq : code[m.pc]? = some q)
    (hpresent : m.ReadsPresent q) :
    m.step code' code'.labels (q.propagate (F m.pc)).1 = m.step code code.labels q := by
  rw [Code.labels_congr h.control_eq]
  refine Machine.step_congr (Quad.propagate_op ..) (Quad.propagate_result ..) ?_ ?_ h.lockstep.length
  · rw [Quad.propagate_reads, List.map_map]
    exact List.map_congr_left fun a ha => h.resolve_replace hm hq hpresent ha
  · intro hop
    simp [Quad.propagate, hop]

/-! ### One step -/

theorem literal_of_assign (h : Scan code code' F) (hm : Holds code F m) (hq : code[m.pc]? = some q)
    (hpresent : m.ReadsPresent q) (hop : q.op = .assign) {v : Value} (hv : m.memory.resolve q.arg1 = .ok v)
    (hlit : ((F m.pc).replace q.arg1).1.isLiteral = true) :
    ((F m.pc).replace q.arg1).1.literal? = some v := by
  obtain ⟨w, hw⟩ := Operand.exists_literal hlit
  have hr := h.resolve_replace hm hq hpresent (a := q.arg1) (by simp [Quad.reads, hop])
  rw [Operand.resolve_literal hw, hv] at hr
  rw [hw, Except.ok.inj hr]

/-- Writing the target of an instruction keeps what is known of temporaries, if a constant that the
instruction assigns is what is written. -/
theorem Holds.temps_setKey (hm : Holds code F m) (honce : code.TempsOnce) (hkeyed : code.TargetsKeyed)
    {i place : Nat} {k : Key} {v : Value} (hq : code[i]? = some q) (hk : q.result.key place = .ok k)
    (hv : q.op = .assign → ((F i).replace q.arg1).1.isLiteral = true →
      ((F i).replace q.arg1).1.literal? = some v)
    {t : String} {a : Operand} {w : Value} (hknown : Known code F t a)
    (hw : (m.memory.setKey k v).get? (.text t) = some w) : a.literal? = some w := by
  rw [Table.get?_setKey_text] at hw
  split at hw
  · rename_i hkt
    cases hw
    obtain ⟨j, q', hj, hop, hres, ha, hlit⟩ := hknown
    have hqt : q.result = .name t := (hkeyed q (List.mem_of_getElem? hq)).eq_name (hkt ▸ hk)
    have hres' : q.result.temp? = some t := by
      rw [hqt, Target.temp?_name, if_pos (Target.temp?_eq_some hres).2]
    obtain rfl := honce.eq hq hj hres' hres
    rw [hq] at hj; cases hj
    rw [← ha]
    exact hv hop (ha ▸ hlit)
  · exact hm.temps hknown hw

/-- What is known of variables at the next place is true of a memory that differs in the target of the
instruction only. -/
theorem Holds.names_next (h : Scan code code' F) (hm : Holds code F m) (hkeyed : code.TargetsKeyed)
    (hq : code[m.pc]? = some q) {memory : Memory}
    (hkeep : ∀ x, (q.op.writes = true → q.result ≠ .name x) →
      memory.get? (.text x) = m.memory.get? (.text x))
    (hassign : ∀ x, q.op = .assign → q.result = .name x → ((F m.pc).replace q.arg1).1.isLiteral = true →
      ∃ v, ((F m.pc).replace q.arg1).1.literal? = some v ∧ memory.get? (.text x) = some v)
    {x : String} {a : Operand} (hx : (F (m.pc + 1)).names.get? (.text x) = some a) :
    ∃ v, a.literal? = some v ∧ memory.get? (.text x) = some v := by
  have hlt : m.pc < code.length := (List.getElem?_eq_some_iff.1 hq).1
  obtain ⟨place, hafter⟩ := h.after hq
  rcases Facts.names_after hafter hx with ⟨hop, harg, hlit, -, hk⟩ | ⟨hx', hb, hw⟩
  · rw [Quad.propagate_op] at hop
    rw [Quad.propagate_result] at hk
    have ha : ((F m.pc).replace q.arg1).1 = a := by
      rw [← harg]; simp [Quad.propagate, hop]
    have hqx := (hkeyed q (List.mem_of_getElem? hq)).eq_name hk
    exact ha ▸ hassign x hop hqx (ha ▸ hlit)
  · rw [Quad.propagate_op] at hb hw
    rw [Quad.propagate_result] at hw
    have hne : q.op ≠ .label := by rintro hop; rw [hop] at hb; cases hb
    rw [hkeep x]
    · exact hm.names hq hne hx'
    · rintro hwrites hqx
      have htemp := h.isTempName_of_names hkeyed (Nat.le_of_lt hlt) hx'
      refine hw hwrites ?_ ?_
      · rw [hqx, Target.temp?_name, htemp]; rfl
      · rw [hqx]; rfl

theorem names_of_barrier (h : Scan code code' F) {i : Nat} (hq : code[i]? = some q)
    (hb : q.op.isBarrier = true) (x : String) (a : Operand) : (F (i + 1)).names.get? (.text x) ≠ some a := by
  intro hx
  obtain ⟨place, hafter⟩ := h.after hq
  rcases Facts.names_after hafter hx with ⟨hop, -⟩ | ⟨-, hb', -⟩
  · rw [Quad.propagate_op] at hop
    rw [hop] at hb; cases hb
  · rw [Quad.propagate_op, hb] at hb'; cases hb'

theorem get?_setKey_of_ne {memory : Memory} {x : Target} {place : Nat} {k : Key} {v : Value} {s : String}
    (hkeyed : x.Keyed) (hk : x.key place = .ok k) (hne : x ≠ .name s) :
    (memory.setKey k v).get? (.text s) = memory.get? (.text s) := by
  rw [Table.get?_setKey_text, if_neg]
  rintro rfl
  exact hne (hkeyed.eq_name hk)

/-- A step that jumps to a label keeps what is known. -/
theorem Holds.jump (hm : Holds code F m) {k : Key} {p : Nat} (hp : code.labels.getKey? k = some p)
    (hmemory : m'.memory = m.memory) (hpc : m'.pc = p) (hframes : ∀ f ∈ m'.stack, f.FromCall code) :
    Holds code F m' where
  temps hknown hv := hm.temps hknown (hmemory ▸ hv)
  names hq hop _ := by
    obtain ⟨q', hq', hop'⟩ := Code.labels_getKey?_eq_some hp
    rw [hpc, hq'] at hq
    cases hq
    exact absurd hop' hop
  frames := hframes

theorem Holds.next (h : Scan code code' F) (hm : Holds code F m) (hkeyed : code.TargetsKeyed)
    (hq : code[m.pc]? = some q) (hop : q.op ≠ .assign) (hmemory : m'.memory = m.memory)
    (hpc : m'.pc = m.pc + 1) (hstack : m'.stack = m.stack) : Holds code F m' where
  temps hknown hv := hm.temps hknown (hmemory ▸ hv)
  names _ _ hx := by
    rw [hpc] at hx
    exact hm.names_next h hkeyed hq (fun x _ => by rw [hmemory]) (fun x hop' => absurd hop' hop) hx
  frames := hstack ▸ hm.frames

theorem Holds.write_next (h : Scan code code' F) (hm : Holds code F m) (honce : code.TempsOnce)
    (hkeyed : code.TargetsKeyed) (hq : code[m.pc]? = some q) {k : Key} {v : Value}
    (hk : q.result.key m.pc = .ok k)
    (hv : q.op = .assign → ((F m.pc).replace q.arg1).1.isLiteral = true →
      ((F m.pc).replace q.arg1).1.literal? = some v)
    (hw : q.op.writes = true) (hmemory : m'.memory = m.memory.setKey k v)
    (hpc : m'.pc = m.pc + 1) (hstack : m'.stack = m.stack) : Holds code F m' where
  temps hknown hw := hm.temps_setKey honce hkeyed hq hk hv hknown (hmemory ▸ hw)
  names _ _ hx := by
    rw [hpc] at hx
    refine hm.names_next h hkeyed hq (fun x hx => ?_) (fun x hop hqx hlit => ?_) hx
    · rw [hmemory]
      exact get?_setKey_of_ne (hkeyed q (List.mem_of_getElem? hq)) hk (hx hw)
    · rw [hqx] at hk
      cases hk
      exact ⟨v, hv hop hlit, by rw [hmemory, Table.get?_setKey_text, if_pos rfl]⟩
  frames := hstack ▸ hm.frames

theorem Holds.step (h : Scan code code' F) (honce : code.TempsOnce) (hkeyed : code.TargetsKeyed)
    (hm : Holds code F m) (hq : code[m.pc]? = some q) (hpresent : m.ReadsPresent q)
    (hs : m.step code code.labels q = .ok m') : Holds code F m' := by
  cases Machine.step_effect hs with
  | assign hop hv hk =>
    exact hm.write_next h honce hkeyed hq hk (fun _ => h.literal_of_assign hm hq hpresent hop hv)
      (by rw [hop]; rfl) rfl rfl rfl
  | operator hop _ _ _ hk =>
    exact hm.write_next h honce hkeyed hq hk (fun hop' => by rw [hop] at hop'; cases hop')
      (by rw [hop]; rfl) rfl rfl rfl
  | receive hop hk =>
    exact hm.write_next h honce hkeyed hq hk (fun hop' => by rw [hop] at hop'; cases hop')
      (by rw [hop]; rfl) rfl rfl rfl
  | goto _ _ hp => exact hm.jump hp rfl rfl hm.frames
  | branch _ _ _ _ hp => exact hm.jump hp rfl rfl hm.frames
  | pass hop _ _ => exact hm.next h hkeyed hq (by rw [hop]; nofun) rfl rfl rfl
  | param hop _ => exact hm.next h hkeyed hq (by rw [hop]; nofun) rfl rfl rfl
  | print hop _ _ => exact hm.next h hkeyed hq (by rw [hop]; nofun) rfl rfl rfl
  | skip hop =>
    refine hm.next h hkeyed hq ?_ rfl rfl rfl
    rcases hop with hop | ⟨word, hop⟩ <;> rw [hop] <;> nofun
  | enter hop _ hp =>
    refine hm.jump hp rfl rfl ?_
    intro f hf
    rcases List.mem_cons.1 hf with rfl | hf
    · exact ⟨m.pc, q, rfl, hq, hop, rfl⟩
    · exact hm.frames f hf
  | intrinsic hop hmem =>
    rcases hmem with ⟨rfl, -⟩ | ⟨k, hk, rfl⟩
    · exact hm.next h hkeyed hq (by rw [hop]; nofun) rfl rfl rfl
    · exact hm.write_next h honce hkeyed hq hk (fun hop' => by rw [hop] at hop'; cases hop')
        (by rw [hop]; rfl) rfl rfl rfl
  | finish _ _ =>
    refine ⟨hm.temps, fun hq' => ?_, hm.frames⟩
    simp at hq'
  -- a return goes behind a call, which is a barrier: nothing is known of variables there
  | leave hop hv hstack hmem =>
    rename_i v frame rest memory
    obtain ⟨i, q', hret, hq', hop', hres⟩ := hm.frames frame (by rw [hstack]; simp)
    refine ⟨?_, ?_, fun f hf => hm.frames f (by rw [hstack]; exact List.mem_cons_of_mem _ hf)⟩
    · rcases hmem with ⟨rfl, -⟩ | ⟨k, hk, rfl⟩
      · exact hm.temps
      · intro t a w hknown hw
        exact hm.temps_setKey honce hkeyed hq' (hres ▸ hk) (fun hop'' => by rw [hop'] at hop''; cases hop'')
          hknown hw
    · intro q'' x a _ _ hx
      have hx' : (F (i + 1)).names.get? (.text x) = some a := hret ▸ hx
      exact absurd hx' (h.names_of_barrier hq' (by rw [hop']; rfl) x a)

theorem Holds.start (h : Scan code code' F) (answers : Answers) : Holds code F (Machine.start answers) where
  temps _ hv := by cases hv
  names _ _ hx := by
    have hx' : (F 0).names.get? _ = some _ := hx
    rw [h.start] at hx'; cases hx'
  frames _ hf := by cases hf

/-! ### The scanned code -/

theorem scalar_replace {facts : Facts} {N : Number → Prop} {a : Operand}
    (htemps : ∀ s a, facts.temps.get? s = some a → a.Scalar N)
    (hnames : ∀ s a, facts.names.get? (.text s) = some a → a.Scalar N) (ha : a.Scalar N) :
    (facts.replace a).1.Scalar N := by
  cases a with
  | name s =>
    rw [Facts.replace_name]
    cases hk : facts.known? s with
    | none => trivial
    | some b => exact (Facts.known?_eq_some hk).elim (htemps s b) (hnames s b)
  | _ => exact ha

theorem scalar_facts (h : Scan code code' F) {N : Number → Prop}
    (hN : ∀ q ∈ code, ∀ a ∈ q.reads, a.Scalar N) {i : Nat} (hi : i ≤ code.length) :
    (∀ s a, (F i).temps.get? s = some a → a.Scalar N) ∧
      ∀ s a, (F i).names.get? (.text s) = some a → a.Scalar N := by
  induction i with
  | zero => rw [h.start]; exact ⟨fun s a hk => (by cases hk), fun s a hk => (by cases hk)⟩
  | succ i ih =>
    obtain ⟨htemps, hnames⟩ := ih (by omega)
    have hq := List.getElem?_eq_getElem (l := code) (i := i) (by omega)
    obtain ⟨place, hafter⟩ := h.after hq
    have harg : (code[i].propagate (F i)).1.op = .assign →
        (code[i].propagate (F i)).1.arg1.Scalar N := by
      intro hop
      rw [Quad.propagate_op] at hop
      have h₁ : (code[i].propagate (F i)).1.arg1 = ((F i).replace code[i].arg1).1 := by
        simp [Quad.propagate, hop]
      rw [h₁]
      exact scalar_replace htemps hnames (hN _ (List.mem_of_getElem? hq) _ (by simp [Quad.reads, hop]))
    refine ⟨fun s a hk => ?_, fun s a hk => ?_⟩
    · rcases Facts.temps_after hafter hk with ⟨hop, rfl, -⟩ | hk
      · exact harg hop
      · exact htemps s a hk
    · rcases Facts.names_after hafter hk with ⟨hop, rfl, -⟩ | ⟨hk, -⟩
      · exact harg hop
      · exact hnames s a hk

theorem tame (h : Scan code code' F) {N : Number → Prop} (ht : code.Tame N) : code'.Tame N where
  operands := by
    refine h.lockstep.forall_mem ht.operands fun i q q' hq hq' hN => ?_
    have hlt : i < code.length := (List.getElem?_eq_some_iff.1 hq).1
    obtain ⟨htemps, hnames⟩ := h.scalar_facts ht.operands (Nat.le_of_lt hlt)
    rw [hq', Quad.propagate_reads, List.forall_mem_map]
    exact fun a ha => scalar_replace htemps hnames (hN a ha)
  targets := h.lockstep.forall_mem ht.targets fun i q q' _ hq' hx => by rwa [hq', Quad.propagate_result]
  once := h.lockstep.tempsOnce (fun i q q' hq' => by rw [hq', Quad.propagate_result]) ht.once
  writers := h.lockstep.forall_mem ht.writers fun i q q' _ hq' hw => by
    rwa [hq', Quad.propagate_result, Quad.propagate_op]

/-! ### Runs -/

theorem safe (h : Scan code code' F) (hm : Holds code F m) (hq : code[m.pc]? = some q) (hsafe : m.Safe q) :
    m.Safe (q.propagate (F m.pc)).1 := by
  refine ⟨fun s hs ht => ?_, fun op a b hop ha hb => ?_⟩
  · rw [Quad.propagate_reads] at hs
    obtain ⟨a, ha, hs⟩ := List.mem_map.1 hs
    cases a with
    | name s' =>
      rw [Facts.replace_name] at hs
      cases hk : (F m.pc).known? s' with
      | none => rw [hk] at hs; cases hs; exact hsafe.1 _ ha ht
      | some b =>
        obtain ⟨v, hb, -⟩ := h.known_read hm hq hsafe.1 ha hk
        rw [hk, Option.getD_some] at hs
        rw [hs] at hb; cases hb
    | _ => cases hs
  · rw [Quad.propagate_op] at hop
    have hreads : q.reads = [q.arg1, q.arg2] := by simp [Quad.reads, hop]
    have hargs : (q.propagate (F m.pc)).1.arg1 = ((F m.pc).replace q.arg1).1 ∧
        (q.propagate (F m.pc)).1.arg2 = ((F m.pc).replace q.arg2).1 := by
      simp [Quad.propagate, hop]
    rw [hargs.1, h.resolve_replace hm hq hsafe.1 (by simp [hreads])] at ha
    rw [hargs.2, h.resolve_replace hm hq hsafe.1 (by simp [hreads])] at hb
    exact hsafe.2 op a b hop ha hb

theorem ends (h : Scan code code' F) {N : Number → Prop} (ht : code.Tame N) (hm : Holds code F m) {n : Nat}
    {o : Machine.Outcome} (he : Machine.Ends Machine.Safe code n m o) :
    Machine.Ends Machine.Safe code' n m o := by
  refine h.lockstep.ends ?_ ?_ he hm
  · rintro m q q' hm hq rfl hS
    exact ⟨h.safe hm hq hS, h.step_eq hm hq hS.1⟩
  · intro m q m' hm hq hS hs
    exact hm.step h ht.once ht.targets hq hS.1 hs

theorem Holds.steps (h : Scan code code' F) (honce : code.TempsOnce) (hkeyed : code.TargetsKeyed)
    (hm : Holds code F m) {k : Nat} (hs : Machine.Steps code k m m')
    (hpresent : ∀ j < k, ∀ m₁ q, Machine.Steps code j m m₁ → code[m₁.pc]? = some q → m₁.ReadsPresent q) :
    Holds code F m' := by
  induction hs with
  | refl => exact hm
  | @head k m m₁ m₂ hs _ ih =>
    obtain ⟨q, hq, hstep⟩ := Machine.advance_eq_some hs
    have hnext := hm.step h honce hkeyed hq (hpresent 0 (by omega) m q (.refl m) hq) hstep
    exact ih hnext fun j hj m₃ q₃ hm₃ => hpresent (j + 1) (by omega) m₃ q₃ (.head hs hm₃)

end Scan

open Machine

/-- Constant propagation gives code that runs in step with its source, in every run that reads no absent
temporary. -/
theorem Code.propagate_inStep {code : Code} (hkeyed : code.TargetsKeyed) (honce : code.TempsOnce) :
    ∃ r, code.propagate = .ok r ∧ ∀ (maxSteps : Int) (answers : Answers),
      (∀ m q, Machine.Performs code maxSteps answers m q → m.ReadsPresent q) → InStep code r.1 maxSteps answers := by
  obtain ⟨⟨code', changed⟩, hr⟩ : ∃ r, code.propagate = .ok r := exists_propagateFrom hkeyed
  obtain ⟨F, hF⟩ := exists_scan hr
  refine ⟨_, hr, fun maxSteps answers hpresent => ?_⟩
  refine inStep_of_advance (linkFault?_congr hF.control_eq) hF.lockstep.length fun hlink k hk m hs => ?_
  have hm : Scan.Holds code F m := (Scan.Holds.start hF answers).steps hF honce hkeyed hs
    fun j hj m₁ q hm₁ hq => hpresent m₁ q ⟨hlink, hq, j, by omega, hm₁⟩
  cases hq : code[m.pc]? with
  | none =>
    have hq' := hF.lockstep.getElem?_eq_none hq
    simp [advance, hq, hq']
  | some q =>
    obtain ⟨q', hq', rfl⟩ := hF.lockstep.instr hq
    rw [advance_of_getElem? hq, advance_of_getElem? hq']
    exact congrArg some (hF.step_eq hm hq (hpresent m q ⟨hlink, hq, k, hk, hs⟩))

/-- A loop that calls a function, both of which read a temporary that is assigned before them. -/
def tripleCode : Code := [
  Quad.assign (.num (.int 3)) (.name "t0"), Quad.assign (.num (.int 0)) (.name "i"), Quad.label "L0",
  Quad.operator (.binary .lt) (.name "i") (.name "t0") "t1", Quad.jumpIfFalse (.name "t1") "L1",
  Quad.param (.name "i"), Quad.call "FUNC_triple" 1 (.name "t2"), Quad.param (.name "t2"),
  Quad.call "console_log" 1 .none, Quad.operator (.binary .add) (.name "i") (.num (.int 1)) "t3",
  Quad.assign (.name "t3") (.name "i"), Quad.goto "L0", Quad.label "FUNC_triple", Quad.receive (.name "n"),
  Quad.operator (.binary .mul) (.name "n") (.name "t0") "t4", Quad.ret (.name "t4"), Quad.label "L1"]

/-- The multiplication by the temporary does the same as that by its constant. -/
theorem Code.propagate_inStep_triple : ∃ r, tripleCode.propagate = .ok r ∧ r.2 = true ∧
    InStep tripleCode r.1 60 (.scripted []) ∧
    (∃ m ∈ after tripleCode 9 (start (.scripted [])), m.pc = 14 ∧
      m.advance r.1 r.1.labels = m.advance tripleCode tripleCode.labels) ∧
    (run r.1 60 (.scripted [])).output = ["0", "3", "6"] := by
  have hkeyed : tripleCode.TargetsKeyed := by simp [TargetsKeyed, tripleCode, Target.Keyed]
  obtain ⟨r, hr, h⟩ := propagate_inStep hkeyed (by unfold TempsOnce; decide)
  have hstep := h 60 (.scripted []) (Machine.Performs.of_after (by decide +kernel))
  refine ⟨r, hr, ?_, hstep, ?_, ?_⟩
  · have hchanged : tripleCode.propagate.map (·.2) = .ok true := by rfl
    rw [hr] at hchanged
    exact Except.ok.inj hchanged
  · obtain ⟨m, hm, hpc⟩ : ∃ m, after tripleCode 9 (start (.scripted [])) = some m ∧ m.pc = 14 := ⟨_, rfl, rfl⟩
    exact ⟨m, hm, hpc, hstep.next rfl 9 (by decide) m hm⟩
  · unfold run
    rw [hstep.outcome]
    decide +kernel

end QuadScript
