import QuadScript.Proofs.Emission
import QuadScript.Proofs.Endings

/-!
# What the optimizer relies on

`Code.Tame` is what the passes need of code: what it reads are scalars, its targets are no lists and no
records, no temporary is written by two instructions, and only assignments, operators and calls write one.
`Machine.Safe` is what they need of a run before each instruction: no absent temporary is read,
operators succeed, and where an operand is neutral both operands are exact integers.
-/

namespace QuadScript

/-! ### Operands and targets -/

theorem Operand.resolve_literal {a : Operand} {v : Value} (h : a.literal? = some v) (memory : Memory) :
    memory.resolve a = .ok v := by
  cases a <;> cases h <;> rfl

theorem Operand.exists_literal {a : Operand} (h : a.isLiteral = true) : ∃ v, a.literal? = some v := by
  cases a with
  | bool b => exact ⟨_, rfl⟩
  | num n => exact ⟨_, rfl⟩
  | text s => exact ⟨_, rfl⟩
  | _ => cases h

theorem Operand.Scalar.exists_resolve {N : Number → Prop} {a : Operand} (h : a.Scalar N) (memory : Memory) :
    ∃ v, memory.resolve a = .ok v := by
  cases a with
  | raw data => cases h
  | _ => exact ⟨_, rfl⟩

/-- A target that is a key: no list and no record. A text that is a target is a name. -/
def Target.Keyed : Target → Prop
  | .raw (.str _) | .raw (.list _) | .raw (.record _) => False
  | _ => True

theorem Target.Scalar.keyed {x : Target} (hx : x.Scalar) : x.Keyed := by
  cases x with
  | raw data => cases hx
  | _ => trivial

theorem Target.Keyed.exists_key {x : Target} (hx : x.Keyed) (place : Nat) : ∃ k, x.key place = .ok k := by
  rcases x with _ | s | data
  · exact ⟨_, rfl⟩
  · exact ⟨_, rfl⟩
  · cases data with
    | str | list | record => cases hx
    | _ => exact ⟨_, rfl⟩

theorem Target.Keyed.eq_name {x : Target} {place : Nat} {s : String} (hx : x.Keyed)
    (hk : x.key place = .ok (.text s)) : x = .name s := by
  have ht := Target.key_eq_text hk
  cases x with
  | none => cases ht
  | name s' => cases ht; rfl
  | raw data => cases (show data = .str s from ht); cases hx

theorem Target.temp?_eq_some {x : Target} {t : String} (h : x.temp? = some t) :
    x = .name t ∧ isTempName t = true := by
  cases x with
  | name s =>
    unfold temp? at h; dsimp only at h; split at h
    · rename_i hs; cases h; exact ⟨rfl, hs⟩
    · cases h
  | _ => cases h

theorem Target.temp?_name {t : String} : (Target.name t).temp? = if isTempName t then some t else Option.none := rfl

/-! ### Code -/

/-- No temporary is the target of two instructions. -/
def Code.TempsOnce (code : Code) : Prop := (code.filterMap fun q => q.result.temp?).Nodup

def Code.TargetsKeyed (code : Code) : Prop := ∀ q ∈ code, q.result.Keyed

theorem Code.TempsOnce.eq {code : Code} (h : code.TempsOnce) {i j : Nat} {q q' : Quad} {t : String}
    (hi : code[i]? = some q) (hj : code[j]? = some q') (hq : q.result.temp? = some t)
    (hq' : q'.result.temp? = some t) : i = j := by
  unfold TempsOnce at h
  rw [List.Nodup, List.pairwise_filterMap, List.pairwise_iff_getElem] at h
  obtain ⟨hi', rfl⟩ := List.getElem?_eq_some_iff.1 hi
  obtain ⟨hj', rfl⟩ := List.getElem?_eq_some_iff.1 hj
  rcases Nat.lt_trichotomy i j with hlt | heq | hgt
  · exact absurd rfl (h i j hi' hj' hlt t hq t hq')
  · exact heq
  · exact absurd rfl (h j i hj' hi' hgt t hq' t hq)

/-- Code that the passes keep the meaning of. -/
structure Code.Tame (N : Number → Prop) (code : Code) : Prop where
  operands : ∀ q ∈ code, ∀ a ∈ q.reads, a.Scalar N
  targets : code.TargetsKeyed
  once : code.TempsOnce
  writers : ∀ q ∈ code, q.result.temp? ≠ none → q.op = .assign ∨ (∃ op, q.op = .operator op) ∨ q.op = .call

/-! ### Runs -/

/-- A number equal to this one. -/
def Value.Equals (v : Value) (n : Int) : Prop := ∃ m, v = .num m ∧ m.eq (.int n) = true

/-- An integer that is exact as a double. -/
def Value.IsExactInt (v : Value) : Prop := ∃ n : Int, v = .num (.int n) ∧ n.natAbs ≤ Number.exactLimit

/-- Where a second operand is neutral or absorbing, both are exact integers: adding a zero, and
multiplying by a zero or a one. -/
def Operator.NeutralExact (op : Operator) (a b : Value) : Prop :=
  op = .binary .add ∧ b.Equals 0 ∨ op = .binary .mul ∧ (b.Equals 0 ∨ b.Equals 1) →
    a.IsExactInt ∧ b.IsExactInt

instance (v : Value) (n : Int) : Decidable (v.Equals n) :=
  match v with
  | .num m => decidable_of_iff (m.eq (.int n) = true) ⟨fun h => ⟨m, rfl, h⟩, fun ⟨_, hm, h⟩ => by cases hm; exact h⟩
  | .undefined | .null | .bool _ | .str _ | .object _ _ => isFalse (by rintro ⟨_, h, -⟩; cases h)

instance (v : Value) : Decidable v.IsExactInt :=
  match v with
  | .num (.int n) =>
    decidable_of_iff (n.natAbs ≤ Number.exactLimit) ⟨fun h => ⟨n, rfl, h⟩, fun ⟨_, hn, h⟩ => by cases hn; exact h⟩
  | .num (.float _) | .undefined | .null | .bool _ | .str _ | .object _ _ => isFalse (by rintro ⟨_, h, -⟩; cases h)

instance (op : Operator) (a b : Value) : Decidable (op.NeutralExact a b) :=
  inferInstanceAs (Decidable (_ → _))

namespace Machine

/-- No temporary that an instruction reads is absent. -/
def ReadsPresent (m : Machine) (q : Quad) : Prop :=
  ∀ s, .name s ∈ q.reads → isTempName s = true → ∃ v, m.memory.get? (.text s) = some v

theorem readsPresent_iff {m : Machine} {q : Quad} :
    (q.reads.all fun a => a.temp?.all fun s => (m.memory.get? (.text s)).isSome) = true ↔ m.ReadsPresent q := by
  rw [List.all_eq_true]
  constructor
  · intro h s hs ht
    have hs := h _ hs
    rw [Operand.temp?, if_pos ht] at hs
    exact Option.isSome_iff_exists.1 hs
  · intro h a ha
    cases a with
    | name s =>
      by_cases ht : isTempName s = true
      · simpa [Operand.temp?, ht] using Option.isSome_iff_exists.2 (h s ha ht)
      · simp [Operand.temp?, ht]
    | _ => rfl

instance (m : Machine) (q : Quad) : Decidable (m.ReadsPresent q) := decidable_of_iff _ readsPresent_iff

/-- What an operator instruction takes it can be applied to, and neutral operands are exact. -/
def OperatesSafely (m : Machine) (q : Quad) : Prop :=
  ∀ op a b, q.op = .operator op → m.memory.resolve q.arg1 = .ok a → m.memory.resolve q.arg2 = .ok b →
    (∃ v, op.eval a b = .ok v) ∧ op.NeutralExact a b

theorem operatesSafely_iff {m : Machine} {q : Quad} {op : Operator} {a b : Value} (hop : q.op = .operator op)
    (ha : m.memory.resolve q.arg1 = .ok a) (hb : m.memory.resolve q.arg2 = .ok b) :
    ((op.eval a b).isOk = true ∧ op.NeutralExact a b) ↔ m.OperatesSafely q := by
  constructor
  · rintro ⟨hok, hn⟩ op' a' b' hop' ha' hb'
    cases hop.symm.trans hop'
    cases ha.symm.trans ha'
    cases hb.symm.trans hb'
    refine ⟨?_, hn⟩
    cases hv : op.eval a b with
    | ok v => exact ⟨v, rfl⟩
    | error fault => rw [hv] at hok; cases hok
  · intro h
    obtain ⟨⟨v, hv⟩, hn⟩ := h op a b hop ha hb
    exact ⟨by rw [hv]; rfl, hn⟩

instance (m : Machine) (q : Quad) : Decidable (m.OperatesSafely q) :=
  match hop : q.op with
  | .operator _ =>
    match ha : m.memory.resolve q.arg1, hb : m.memory.resolve q.arg2 with
    | .ok _, .ok _ => decidable_of_iff _ (operatesSafely_iff hop ha hb)
    | .error _, _ => isTrue fun _ _ _ _ ha' => by rw [ha] at ha'; cases ha'
    | _, .error _ => isTrue fun _ _ _ _ _ hb' => by rw [hb] at hb'; cases hb'
  | .assign | .label | .goto | .jumpIfFalse | .param | .receive | .call | .ret | .unknown _ =>
    isTrue fun _ _ _ hop' => by rw [hop] at hop'; cases hop'

/-- What the passes rely on before an instruction is executed. -/
def Safe (m : Machine) (q : Quad) : Prop := m.ReadsPresent q ∧ m.OperatesSafely q

end Machine

/-! ### Passes that keep the places of instructions -/

/-- Two codes of one length whose instructions are related place by place. -/
structure Code.Lockstep (R : Nat → Quad → Quad → Prop) (code code' : Code) : Prop where
  length : code'.length = code.length
  instr : ∀ {i : Nat} {q : Quad}, code[i]? = some q → ∃ q', code'[i]? = some q' ∧ R i q q'

namespace Code.Lockstep

variable {R : Nat → Quad → Quad → Prop} {code code' : Code}

theorem getElem?_eq_none (h : Lockstep R code code') {i : Nat} (hi : code[i]? = none) : code'[i]? = none := by
  rw [List.getElem?_eq_none_iff] at hi ⊢
  rw [h.length]; exact hi

theorem exists_of_getElem? (h : Lockstep R code code') {i : Nat} {q' : Quad} (hq' : code'[i]? = some q') :
    ∃ q, code[i]? = some q ∧ R i q q' := by
  have hi : i < code.length := by
    rw [← h.length]; exact (List.getElem?_eq_some_iff.1 hq').1
  have hq := List.getElem?_eq_getElem hi
  obtain ⟨q'', hq'', hR⟩ := h.instr hq
  rw [hq'] at hq''
  cases hq''
  exact ⟨_, hq, hR⟩

/-- What holds of all instructions of the one code holds of those of the other, if related
instructions agree in it. -/
theorem forall_mem (h : Lockstep R code code') {P P' : Quad → Prop} (hP : ∀ q ∈ code, P q)
    (hR : ∀ i q q', code[i]? = some q → R i q q' → P q → P' q') : ∀ q' ∈ code', P' q' := by
  intro q' hq'
  obtain ⟨i, hi⟩ := List.mem_iff_getElem?.1 hq'
  obtain ⟨q, hq, hr⟩ := h.exists_of_getElem? hi
  exact hR i q q' hq hr (hP q (List.mem_of_getElem? hq))

theorem map_eq (h : Lockstep R code code') {β : Type} {f : Quad → β} (hf : ∀ i q q', R i q q' → f q' = f q) :
    code'.map f = code.map f := by
  apply List.ext_getElem?
  intro i
  rw [List.getElem?_map, List.getElem?_map]
  cases hq : code[i]? with
  | none => rw [h.getElem?_eq_none hq]
  | some q =>
    obtain ⟨q', hq', hR⟩ := h.instr hq
    rw [hq']; simp [hf i q q' hR]

theorem tempsOnce (h : Lockstep R code code') (hres : ∀ i q q', R i q q' → q'.result = q.result)
    (honce : code.TempsOnce) : code'.TempsOnce := by
  have hcomp : ∀ c : Code, (c.filterMap fun q => q.result.temp?) = (c.map Quad.result).filterMap Target.temp? := by
    intro c; rw [List.filterMap_map]; rfl
  unfold TempsOnce at honce ⊢
  rw [hcomp] at honce ⊢
  rwa [h.map_eq hres]

/-- Where related instructions do the same in every machine that an invariant allows, a run that ends
is a run of both codes. -/
theorem ends (h : Lockstep R code code') {S : Machine → Quad → Prop} {I : Machine → Prop}
    (hR : ∀ m q q', I m → code[m.pc]? = some q → R m.pc q q' → S m q →
      S m q' ∧ m.step code' code'.labels q' = m.step code code.labels q)
    (hI : ∀ m q m', I m → code[m.pc]? = some q → S m q → m.step code code.labels q = .ok m' → I m')
    {n : Nat} {m : Machine} {o : Machine.Outcome} (he : Machine.Ends S code n m o) (hm : I m) :
    Machine.Ends S code' n m o := by
  induction he with
  | done hq => exact .done (h.getElem?_eq_none hq)
  | fail hq hS hf =>
    obtain ⟨q', hq', hr⟩ := h.instr hq
    obtain ⟨hS', hstep⟩ := hR _ _ _ hm hq hr hS
    exact .fail hq' hS' (hstep.trans hf)
  | step hq hS hs _ ih =>
    obtain ⟨q', hq', hr⟩ := h.instr hq
    obtain ⟨hS', hstep⟩ := hR _ _ _ hm hq hr hS
    exact .step hq' hS' (hstep.trans hs) (ih (hI _ _ _ hm hq hS hs))

end Code.Lockstep

theorem Code.lockstep_renumber {code : Code} :
    Lockstep (fun i q q' => q' = { q with index := i }) code code.renumber where
  length := by simp [renumber]
  instr hq := ⟨_, by rw [getElem?_renumber, hq]; rfl, rfl⟩

end QuadScript
