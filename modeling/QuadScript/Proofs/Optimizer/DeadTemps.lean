import QuadScript.Optimizer.DeadTemps
import QuadScript.Proofs.Optimizer.Conditions
import QuadScript.Proofs.Tables
import Mathlib.Data.List.Forall2

/-!
# Dropping dead temporaries keeps the output

The code that stays is run by a machine that stands at the same instruction (`Code.kept` counts the
instructions that stay before a place) and whose memory agrees in everything but the temporaries that
dropped instructions write (`Related`). An instruction that stays does the same to both machines
(`Related.step`), and one that is dropped changes nothing but such a temporary (`Related.dropped`).

A target or a label may be any key. Only a NaN is told from others by its place, which shifts; but no jump
and no call finds one (`Code.labels_getKey?_nan`), so what becomes of it in the tables does not matter.
-/

namespace QuadScript

/-! ### Places -/

namespace Code

variable {code : Code} {p : Quad → Bool}

/-- The number of instructions before a place that stay. -/
def kept (p : Quad → Bool) (code : Code) (i : Nat) : Nat := ((code.take i).filter p).length

theorem kept_succ {i : Nat} {q : Quad} (hq : code[i]? = some q) :
    kept p code (i + 1) = kept p code i + if p q then 1 else 0 := by
  unfold kept
  rw [List.take_add_one, hq, List.filter_append, List.length_append]
  cases h : p q <;> simp [h]

theorem kept_of_length_le {i : Nat} (hi : code.length ≤ i) : kept p code i = (code.filter p).length := by
  unfold kept
  rw [List.take_of_length_le hi]

theorem kept_mono {i j : Nat} (h : i ≤ j) : kept p code i ≤ kept p code j :=
  ((List.take_sublist_take_left h).filter p).length_le

theorem getElem?_kept {i : Nat} {q : Quad} (hq : code[i]? = some q) (hp : p q = true) :
    (code.filter p)[kept p code i]? = some q := by
  obtain ⟨hi, rfl⟩ := List.getElem?_eq_some_iff.1 hq
  have hsplit : code.filter p = (code.take i).filter p ++ (code.drop i).filter p := by
    rw [← List.filter_append, List.take_append_drop]
  rw [hsplit, List.getElem?_append_right (by unfold kept; exact Nat.le_refl _), List.drop_eq_getElem_cons hi,
    List.filter_cons_of_pos hp]
  simp [kept]

end Code

/-! ### Keys -/

def Key.isNaN : Key → Bool
  | .nan _ => true
  | _ => false

theorem Key.isNaN_of_number? {k : Key} (hk : k.number? ≠ Option.none) : k.isNaN = false := by
  cases k with
  | nan place => exact absurd rfl hk
  | _ => rfl

/-- A tree is no key, or the same key wherever it stands, or the NaN that stands there. -/
theorem Key.ofTree_cases (t : Tree) : (∃ fault, ∀ place, ofTree place t = .error fault) ∨
    (∃ k : Key, k.isNaN = false ∧ ∀ place, ofTree place t = .ok k) ∨ ∀ place, ofTree place t = .ok (.nan place) := by
  cases t with
  | list ts => exact .inl ⟨_, fun _ => rfl⟩
  | record fields => exact .inl ⟨_, fun _ => rfl⟩
  | num n =>
    by_cases hn : n.isNaN
    · exact .inr (.inr fun _ => by simp [ofTree, hn])
    · exact .inr (.inl ⟨.number n, rfl, fun _ => by simp [ofTree, hn]⟩)
  | _ => exact .inr (.inl ⟨_, rfl, fun _ => rfl⟩)

theorem Target.key_eq_nan {x : Target} {place i : Nat} (h : x.key place = .ok (.nan i)) : place = i := by
  rcases Key.ofTree_cases x.toTree with ⟨fault, hx⟩ | ⟨k, hk, hx⟩ | hx
  · cases (hx place).symm.trans h
  · cases (hx place).symm.trans h
    cases hk
  · cases (hx place).symm.trans h
    rfl

theorem Table.spelling_eq_nan {α : Type} {t : Table Key α} {k : Key} {i : Nat} (h : t.spelling k = .nan i) :
    k = .nan i := by
  by_cases hk : k.number? = none
  · rwa [Table.spelling_of_number?_eq_none hk] at h
  · exact absurd (congrArg Key.number? h) (Table.number?_spelling hk)

/-! ### Labels -/

namespace Code

variable {code rest : Code} {p : Quad → Bool} {q : Quad} {i : Nat}

theorem labelsFrom_get?_nan {position r : Nat} {L : Labels}
    (h : (labelsFrom position L code).1.get? (.nan i) = some r) : L.get? (.nan i) = some r ∨ r = i := by
  induction code generalizing position L with
  | nil => exact .inl h
  | cons q rest ih =>
    unfold labelsFrom at h
    split at h
    · split at h
      · rename_i k hk
        rcases ih h with h' | h'
        · rw [Table.setKey, Table.get?_set] at h'
          split at h'
          · rename_i hspelled
            cases h'
            rw [Table.spelling_eq_nan hspelled] at hk
            exact .inr (Target.key_eq_nan hk)
          · exact .inl h'
        · exact .inr h'
      · exact .inl h
    · exact ih h

theorem labels_getKey?_nan (hq : code[i]? = some q) (hop : q.op ≠ .label) : code.labels.getKey? (.nan i) = none := by
  cases h : code.labels.getKey? (.nan i) with
  | none => rfl
  | some r =>
    rcases labelsFrom_get?_nan h with h' | rfl
    · cases h'
    · obtain ⟨q', hq', hop'⟩ := labels_getKey?_eq_some h
      rw [hq] at hq'
      cases hq'
      exact absurd hop' hop

/-- What is dropped is neither a label nor a jump. -/
def Keeps (p : Quad → Bool) (code : Code) : Prop := ∀ q ∈ code, p q = false → q.control = .other

/-- Label tables that agree but for where NaNs stand. -/
abbrev SameLabels (f : Nat → Nat) (L L' : Labels) : Prop := Table.Agree (fun k => !k.isNaN) f L L'

theorem sameLabels_allows (k : Key) (hk : k.number? ≠ none) : (!k.isNaN) = true := by
  rw [Key.isNaN_of_number? hk]; rfl

theorem labelsFrom_filter (hkeeps : rest.Keeps p) {f : Nat → Nat} {L L' : Labels} (hL : SameLabels f L L')
    (hf : ∀ j q, rest[j]? = some q → f (i + j + 1) = f (i + j) + if p q then 1 else 0) :
    SameLabels f (labelsFrom i L rest).1 (labelsFrom (f i) L' (rest.filter p)).1 ∧
      (labelsFrom (f i) L' (rest.filter p)).2 = (labelsFrom i L rest).2 := by
  induction rest generalizing i L L' with
  | nil => exact ⟨hL, rfl⟩
  | cons q rest ih =>
    have hf₀ : f (i + 1) = f i + if p q then 1 else 0 := hf 0 q rfl
    have ih' := fun L L' => @ih (i + 1) (fun q' hq' => hkeeps q' (by simp [hq'])) L L'
    have hf' : ∀ j q, rest[j]? = some q → f (i + 1 + j + 1) = f (i + 1 + j) + if p q then 1 else 0 := by
      intro j q' hq'
      rw [show i + 1 + j = i + (j + 1) by omega]
      exact hf (j + 1) q' hq'
    rw [hf₀] at ih'
    cases hp : p q with
    | false =>
      rw [List.filter_cons_of_neg (by simp [hp]), labelsFrom_cons, hkeeps q (by simp) hp]
      simpa [hp] using ih' L L' hL hf'
    | true =>
      rw [hp, if_pos rfl] at ih'
      rw [List.filter_cons_of_pos hp, labelsFrom_cons, labelsFrom_cons]
      cases q.control with
      | label x =>
        rcases Key.ofTree_cases x.toTree with ⟨fault, hx⟩ | ⟨k, -, hx⟩ | hx
        · simp only [Target.key, hx]
          exact ⟨hL, trivial⟩
        · simp only [Target.key, hx]
          exact ih' _ _ (hL.setKey sameLabels_allows k i) hf'
        · simp only [Target.key, hx]
          -- the NaNs are two keys if the label moves, and the tables need not agree on either
          refine ih' _ _ ?_ hf'
          exact (hL.setKey_left sameLabels_allows rfl i).setKey_right sameLabels_allows rfl (f i)
      | jump x => exact ih' L L' hL hf'
      | other => exact ih' L L' hL hf'

/-- Labels move with the instructions. -/
theorem labels_filter (hkeeps : code.Keeps p) :
    SameLabels (kept p code) code.labels (Code.labels (code.filter p)) ∧
      (labelsFrom 0 ∅ (code.filter p)).2 = (labelsFrom 0 ∅ code).2 :=
  labelsFrom_filter (f := kept p code) (i := 0) hkeeps rfl fun j q hq => by
    rw [Nat.zero_add]; exact kept_succ hq

theorem labels_lookup (hkeeps : code.Keeps p) (hq : code[i]? = some q) (hp : p q = true) (hop : q.op ≠ .label)
    (t : Tree) : (∃ fault, ∀ place, Key.ofTree place t = .error fault) ∨
      ∃ k k', Key.ofTree i t = .ok k ∧ Key.ofTree (kept p code i) t = .ok k' ∧
        (Code.labels (code.filter p)).getKey? k' = (code.labels.getKey? k).map (kept p code) := by
  rcases Key.ofTree_cases t with ht | ⟨k, hk, ht⟩ | ht
  · exact .inl ht
  · refine .inr ⟨k, k, ht i, ht _, ?_⟩
    exact (labels_filter hkeeps).1.getKey? sameLabels_allows (by rw [hk]; rfl)
  · refine .inr ⟨_, _, ht i, ht _, ?_⟩
    rw [labels_getKey?_nan hq hop, labels_getKey?_nan (getElem?_kept hq hp) hop]
    rfl

theorem jumpFault?_filter (hkeeps : code.Keeps p) (hq : code[i]? = some q) (hp : p q = true) :
    jumpFault? (Code.labels (code.filter p)) q (kept p code i) = jumpFault? code.labels q i := by
  rw [jumpFault?_eq, jumpFault?_eq]
  cases hc : q.control with
  | label x => rfl
  | other => rfl
  | jump x =>
    have hop : q.op ≠ .label := by
      intro hop
      simp [Quad.control, hop] at hc
    rcases labels_lookup hkeeps hq hp hop x.toTree with ⟨fault, hx⟩ | ⟨k, k', hk, hk', hlabels⟩
    · simp only [Target.key, hx]
    · simp only [Target.key, hk, hk', hlabels, Option.isSome_map]

theorem findSome?_zipIdx_filter {β : Type} (g g' : Quad → Nat → Option β) (f : Nat → Nat)
    (hf : ∀ j q, rest[j]? = some q → f (i + j + 1) = f (i + j) + if p q then 1 else 0)
    (hg : ∀ j q, rest[j]? = some q → p q = true → g' q (f (i + j)) = g q (i + j))
    (hnone : ∀ j q, rest[j]? = some q → p q = false → g q (i + j) = none) :
    ((rest.filter p).zipIdx (f i)).findSome? (fun (q, place) => g' q place) =
      (rest.zipIdx i).findSome? (fun (q, place) => g q place) := by
  induction rest generalizing i with
  | nil => rfl
  | cons q rest ih =>
    have hf₀ : f (i + 1) = f i + if p q then 1 else 0 := hf 0 q rfl
    have hplace : ∀ j, i + 1 + j = i + (j + 1) := by omega
    have ih' := @ih (i + 1) (fun j q' hq' => by rw [hplace]; exact hf (j + 1) q' hq')
      (fun j q' hq' => by rw [hplace]; exact hg (j + 1) q' hq')
      (fun j q' hq' => by rw [hplace]; exact hnone (j + 1) q' hq')
    rw [hf₀] at ih'
    cases hp : p q with
    | false =>
      have hq : g q i = none := hnone 0 q rfl hp
      rw [hp] at ih'
      simpa [List.filter_cons, hp, List.zipIdx_cons, hq] using ih'
    | true =>
      have hq : g' q (f i) = g q i := hg 0 q rfl hp
      rw [hp, if_pos rfl] at ih'
      simp only [List.filter_cons, hp, if_true, List.zipIdx_cons, List.findSome?_cons, hq, ih']

theorem linkFault?_filter (hkeeps : code.Keeps p) : linkFault? (code.filter p) = code.linkFault? := by
  have hjumps : ((code.filter p).zipIdx 0).findSome?
        (fun (q, place) => jumpFault? (Code.labels (code.filter p)) q place) =
      (code.zipIdx 0).findSome? fun (q, place) => jumpFault? code.labels q place := by
    refine findSome?_zipIdx_filter (i := 0) _ _ (kept p code) (fun j q hq => ?_) (fun j q hq hp => ?_)
      fun j q hq hp => ?_
    · rw [Nat.zero_add]
      exact kept_succ hq
    · rw [Nat.zero_add]
      exact jumpFault?_filter hkeeps hq hp
    · rw [jumpFault?_eq, hkeeps q (List.mem_of_getElem? hq) hp]
  unfold linkFault?
  dsimp only
  rw [(labels_filter hkeeps).2]
  exact congrArg _ hjumps

end Code

/-! ### Related machines -/

/-- The code that stays. -/
abbrev Code.live (code : Code) : Code := code.filter (Quad.isLive code.usedTemps)

/-- Where the instruction at a place goes, or the next that stays. -/
abbrev Code.liveAt (code : Code) (i : Nat) : Nat := code.kept (Quad.isLive code.usedTemps) i

theorem Code.liveAt_succ {code : Code} {i : Nat} {q : Quad} (hq : code[i]? = some q) :
    code.liveAt (i + 1) = code.liveAt i + if q.isLive code.usedTemps then 1 else 0 :=
  Code.kept_succ hq

/-- Code whose unused temporaries can be dropped: what it reads are scalars, and only assignments, operators and
calls write temporaries. -/
structure Code.Droppable (code : Code) : Prop where
  operands : ∀ q ∈ code, ∀ a ∈ q.reads, a.Scalar fun _ => True
  writers : ∀ q ∈ code, q.result.temp? ≠ none → q.op = .assign ∨ (∃ op, q.op = .operator op) ∨ q.op = .call

theorem Code.Tame.droppable {code : Code} {N : Number → Prop} (h : code.Tame N) : code.Droppable where
  operands q hq a ha := by
    have hscalar := h.operands q hq a ha
    cases a with
    | raw data => exact hscalar
    | _ => trivial
  writers := h.writers

theorem Code.Droppable.keeps {code : Code} (h : code.Droppable) : code.Keeps (Quad.isLive code.usedTemps) := by
  intro q hq hdead
  have hne : q.result.temp? ≠ none := by
    intro hnone
    simp [Quad.isLive, hnone] at hdead
  unfold Quad.control
  rcases h.writers q hq hne with hop | ⟨op, hop⟩ | hop <;> rw [hop]

/-- The keys under which the code that stays has what the code has: those of no dropped instruction. -/
def Code.keepsKey (code : Code) : Key → Bool
  | .nan _ => false
  | .text s => !code.any fun q => !q.isLive code.usedTemps && q.result.temp? = some s
  | _ => true

theorem Code.keepsKey_number (code : Code) (k : Key) (hk : k.number? ≠ none) : code.keepsKey k = true := by
  cases k with
  | nan place => exact absurd rfl hk
  | text s => exact absurd rfl hk
  | _ => rfl

theorem Code.keepsKey_text {code : Code} {s : String} (h : ∀ q ∈ code, q.isLive code.usedTemps = false →
    q.result ≠ .name s) : code.keepsKey (.text s) = true := by
  simp only [keepsKey, Bool.not_eq_true', List.any_eq_false, Bool.and_eq_true, decide_eq_true_eq, not_and]
  intro q hq hdead hs
  exact h q hq (by simpa using hdead) (Target.temp?_eq_some hs).1

namespace Machine

structure Related (code : Code) (m m' : Machine) : Prop where
  pc : m'.pc = code.liveAt m.pc
  memory : Table.Agree code.keepsKey id m.memory m'.memory
  stack : List.Forall₂ (fun f f' => f'.returnIndex = code.liveAt f.returnIndex ∧ f'.target = f.target)
    m.stack m'.stack
  params : m'.params = m.params
  output : m'.output = m.output
  answers : m'.answers = m.answers

/-- What comes of two instructions is related: machines, or equal faults in related machines. -/
def Matches (code : Code) : Except Failure Machine → Except Failure Machine → Prop
  | .ok m, .ok m' => Related code m m'
  | .error f, .error f' => f'.fault = f.fault ∧ Related code f.machine f'.machine
  | _, _ => False

variable {code : Code} {m m' m₁ : Machine} {q : Quad}

theorem keepsKey_of_read (hq : q ∈ code) {s : String} (hs : .name s ∈ q.reads) : code.keepsKey (.text s) = true := by
  refine Code.keepsKey_text fun q' _ hdead hres => ?_
  have htemp : q'.result.temp? = if isTempName s then some s else none := by rw [hres, Target.temp?_name]
  by_cases ht : isTempName s = true
  · have hused : s ∈ code.usedTemps := by
      refine List.mem_flatMap.2 ⟨q, hq, ?_⟩
      unfold Quad.usedTemps
      rcases Quad.eq_arg_of_mem_reads hs with h | h <;> simp [← h, Operand.temp?, ht]
    simp [Quad.isLive, htemp, ht, hused] at hdead
  · simp [Quad.isLive, htemp, ht] at hdead

namespace Related

theorem get? (h : Related code m m') {s : String} (hs : code.keepsKey (.text s) = true) :
    m'.memory.get? (.text s) = m.memory.get? (.text s) := by
  have hget := h.memory.getKey? code.keepsKey_number hs
  rwa [Option.map_id] at hget

theorem resolve (h : Related code m m') (hc : code.Droppable) (hq : q ∈ code) {a : Operand} (ha : a ∈ q.reads) :
    m'.memory.resolve a = m.memory.resolve a := by
  have hscalar := hc.operands q hq a ha
  cases a with
  | name s => simp only [Memory.resolve, Memory.read, h.get? (keepsKey_of_read hq ha)]
  | raw data => cases hscalar
  | _ => rfl

theorem exists_resolve (h : Related code m m') (hc : code.Droppable) (hq : q ∈ code) {a : Operand} (ha : a ∈ q.reads) :
    ∃ v, m.memory.resolve a = .ok v ∧ m'.memory.resolve a = .ok v := by
  obtain ⟨v, hv⟩ := (hc.operands q hq a ha).exists_resolve m.memory
  exact ⟨v, hv, (h.resolve hc hq ha).trans hv⟩

theorem next (h : Related code m m') (hq : code[m.pc]? = some q) (hlive : q.isLive code.usedTemps = true) :
    Related code m.next m'.next :=
  { h with
    pc := by
      change m'.pc + 1 = code.liveAt (m.pc + 1)
      rw [h.pc, Code.liveAt_succ hq, hlive, if_pos rfl] }

theorem setParams (h : Related code m m') (vs : List Value) :
    Related code { m with params := vs } { m' with params := vs } :=
  { h with params := rfl }

theorem write (h : Related code m m') (x : Target) (v : Value) (i i' : Nat) :
    Matches code (m.write i x v) (m'.write i' x v) := by
  unfold Machine.write Target.key
  rcases Key.ofTree_cases x.toTree with ⟨fault, hx⟩ | ⟨k, -, hx⟩ | hx
  · rw [hx, hx]
    exact ⟨rfl, h⟩
  · rw [hx, hx]
    exact { h with memory := h.memory.setKey code.keepsKey_number k v }
  · rw [hx, hx]
    have hmemory := (h.memory.setKey_left code.keepsKey_number (k := .nan i) rfl v).setKey_right
      code.keepsKey_number (k := .nan i') rfl v
    exact { h with memory := hmemory }

theorem store (h : Related code m m') (x : Target) (v : Value) (i i' : Nat) :
    Matches code (m.store i x v) (m'.store i' x v) := by
  unfold Machine.store
  split
  · exact h.write x v i i'
  · exact h

end Related

theorem Matches.next {r r' : Except Failure Machine} (h : Matches code r r') (hq : code[m.pc]? = some q)
    (hlive : q.isLive code.usedTemps = true) (hr : ∀ m₁, r = .ok m₁ → m₁.pc = m.pc) :
    Matches code (do return (← r).next) (do return (← r').next) := by
  cases r with
  | error f =>
    cases r' with
    | error f' => exact h
    | ok m₁' => exact h
  | ok m₁ =>
    cases r' with
    | error f' => exact h
    | ok m₁' => exact Related.next h (by rw [hr m₁ rfl]; exact hq) hlive

theorem write_pc {i : Nat} {x : Target} {v : Value} (h : m.write i x v = .ok m₁) : m₁.pc = m.pc := by
  obtain ⟨k, -, rfl⟩ := write_eq_ok h
  rfl

theorem store_pc {i : Nat} {x : Target} {v : Value} (h : m.store i x v = .ok m₁) : m₁.pc = m.pc := by
  obtain ⟨memory, rfl, -⟩ := store_eq_ok h
  rfl

/-! ### Instructions that stay -/

namespace Related

theorem jumpTo (h : Related code m m') (hc : code.Droppable) (hq : code[m.pc]? = some q)
    (hlive : q.isLive code.usedTemps = true) (hop : q.op ≠ .label) (x : Target) :
    Matches code (m.jump code.labels x) (m'.jump code.live.labels x) := by
  unfold Machine.jump Target.key
  rcases Code.labels_lookup hc.keeps hq hlive hop x.toTree with ⟨fault, hx⟩ | ⟨k, k', hk, hk', hlabels⟩
  · rw [hx, hx]
    exact ⟨rfl, h⟩
  · rw [hk, h.pc, hk']
    simp only [hlabels]
    cases code.labels.getKey? k with
    | none => exact ⟨rfl, h⟩
    | some i => exact { h with pc := rfl }

theorem callIntrinsic (h : Related code m m') (f : Intrinsic) (hq : code[m.pc]? = some q)
    (hlive : q.isLive code.usedTemps = true) : Matches code (m.callIntrinsic f q) (m'.callIntrinsic f q) := by
  unfold Machine.callIntrinsic
  rw [h.params]
  cases argumentCount m.params.length q.arg2 with
  | error fault => exact ⟨rfl, h⟩
  | ok count =>
    simp only [h.answers]
    have h' : Related code { m with params := m.params.drop count }
        { m' with params := m.params.drop count, answers := m.answers } := { h.setParams _ with answers := rfl }
    cases f.eval (m.params.take count) m.answers with
    | error fault => exact ⟨rfl, h'⟩
    | ok r =>
      have h'' : Related code { m with params := m.params.drop count, answers := r.2 }
          { m' with params := m.params.drop count, answers := r.2 } := { h' with answers := rfl }
      exact (h''.store q.result r.1 _ _).next hq hlive fun m₁ hm₁ => (store_pc hm₁ :)

theorem enter (h : Related code m m') (hq : code[m.pc]? = some q) (hlive : q.isLive code.usedTemps = true)
    (i : Nat) : Related code (m.enter q i) (m'.enter q (code.liveAt i)) := by
  refine { h with pc := rfl, stack := .cons ⟨?_, rfl⟩ h.stack }
  change m'.pc + 1 = code.liveAt (m.pc + 1)
  rw [h.pc, Code.liveAt_succ hq, hlive, if_pos rfl]

theorem callNamed (h : Related code m m') (hc : code.Droppable) (hq : code[m.pc]? = some q)
    (hlive : q.isLive code.usedTemps = true) (s : String) :
    Matches code (m.callNamed code.labels q s) (m'.callNamed code.live.labels q s) := by
  unfold Machine.callNamed
  cases consoleLead? s with
  | some lead =>
    have h' : Related code (m.printLine lead) (m'.printLine lead) :=
      { h with params := rfl, output := by unfold printLine; rw [h.params, h.output] }
    exact h'.next hq hlive
  | none =>
    have hlabels : code.live.labels.get? (.text s) = (code.labels.get? (.text s)).map code.liveAt :=
      (Code.labels_filter hc.keeps).1.getKey? Code.sameLabels_allows (k := .text s) rfl
    rw [hlabels]
    cases code.labels.get? (.text s) with
    | some i => exact h.enter hq hlive i
    | none =>
      cases Intrinsic.ofTarget? s with
      | some f => exact h.callIntrinsic f hq hlive
      | none => exact ⟨rfl, h⟩

theorem call (h : Related code m m') (hc : code.Droppable) (hop : q.op = .call) (hq : code[m.pc]? = some q)
    (hlive : q.isLive code.usedTemps = true) :
    Matches code (m.call code.labels q) (m'.call code.live.labels q) := by
  have hlookup := Code.labels_lookup hc.keeps hq hlive (by rw [hop]; nofun) q.arg1.toTree
  unfold Machine.call
  split
  · exact h.callNamed hc hq hlive _
  · exact h.callNamed hc hq hlive _
  · rcases hlookup with ⟨fault, ht⟩ | ⟨k, k', hk, hk', hlabels⟩
    · rw [ht, ht]
      exact ⟨rfl, h⟩
    · rw [hk, h.pc, hk']
      simp only [hlabels]
      cases code.labels.getKey? k with
      | none => exact ⟨rfl, h⟩
      | some i => exact h.enter hq hlive i

theorem leave (h : Related code m m') (v : Value) : Matches code (m.leave code v) (m'.leave code.live v) := by
  unfold Machine.leave
  dsimp only
  cases hs : m.stack with
  | nil =>
    have hs' : m'.stack = [] := List.forall₂_nil_left_iff.1 (hs ▸ h.stack)
    rw [hs']
    exact { h with params := rfl, pc := (Code.kept_of_length_le (Nat.le_refl _)).symm, stack := .nil }
  | cons f rest =>
    obtain ⟨f', rest', ⟨hret, htarget⟩, hrest, hs'⟩ := List.forall₂_cons_left_iff.1 (hs ▸ h.stack)
    rw [hs']
    dsimp only
    rw [htarget]
    have h' : Related code { m with params := [], stack := rest, pc := f.returnIndex }
        { m' with params := [], stack := rest', pc := f'.returnIndex } :=
      { h with params := rfl, stack := hrest, pc := hret }
    exact h'.store f.target v _ _

end Related

/-- An instruction that stays does the same to both machines. -/
theorem Related.step (h : Related code m m') (hc : code.Droppable) (hq : code[m.pc]? = some q)
    (hlive : q.isLive code.usedTemps = true) :
    Matches code (m.step code code.labels q) (m'.step code.live code.live.labels q) := by
  have hmem := List.mem_of_getElem? hq
  cases hop : q.op with
  | assign =>
    obtain ⟨a, ha, ha'⟩ := h.exists_resolve hc hmem (a := q.arg1) (by simp [Quad.reads, hop])
    rw [step_assign hop ha, step_assign hop ha']
    exact (h.write q.result a _ _).next hq hlive fun _ => write_pc
  | operator op =>
    obtain ⟨a, ha, ha'⟩ := h.exists_resolve hc hmem (a := q.arg1) (by simp [Quad.reads, hop])
    obtain ⟨b, hb, hb'⟩ := h.exists_resolve hc hmem (a := q.arg2) (by simp [Quad.reads, hop])
    cases hv : op.eval a b with
    | ok v =>
      rw [step_operator hop ha hb hv, step_operator hop ha' hb' hv]
      exact (h.write q.result v _ _).next hq hlive fun _ => write_pc
    | error fault =>
      rw [step_operator_error hop ha hb hv, step_operator_error hop ha' hb' hv]
      exact ⟨rfl, h⟩
  | goto =>
    rw [step_goto hop, step_goto hop]
    exact h.jumpTo hc hq hlive (by rw [hop]; nofun) q.result
  | jumpIfFalse =>
    obtain ⟨a, ha, ha'⟩ := h.exists_resolve hc hmem (a := q.arg1) (by simp [Quad.reads, hop])
    rw [step_jumpIfFalse hop ha, step_jumpIfFalse hop ha']
    split
    · exact h.next hq hlive
    · exact h.jumpTo hc hq hlive (by rw [hop]; nofun) q.result
  | param =>
    obtain ⟨a, ha, ha'⟩ := h.exists_resolve hc hmem (a := q.arg1) (by simp [Quad.reads, hop])
    rw [step_param hop ha, step_param hop ha', h.params]
    exact (h.setParams _).next hq hlive
  | receive =>
    rw [step_receive hop, step_receive hop, h.params]
    exact ((h.setParams m.params.tail).write q.result _ _ _).next hq hlive fun _ hm₁ => (write_pc hm₁ :)
  | call =>
    rw [step_call hop, step_call hop]
    exact h.call hc hop hq hlive
  | ret =>
    obtain ⟨a, ha, ha'⟩ := h.exists_resolve hc hmem (a := q.arg1) (by simp [Quad.reads, hop])
    rw [step_ret hop ha, step_ret hop ha']
    exact h.leave a
  | label =>
    rw [step_label (.inl hop), step_label (.inl hop)]
    exact h.next hq hlive
  | unknown word =>
    rw [step_label (.inr ⟨word, hop⟩), step_label (.inr ⟨word, hop⟩)]
    exact h.next hq hlive

/-! ### Instructions that are dropped -/

theorem exists_temp_of_dead (hdead : q.isLive code.usedTemps = false) :
    ∃ s, q.result.temp? = some s ∧ q.op ≠ .call := by
  unfold Quad.isLive at hdead
  rw [Bool.or_eq_false_iff] at hdead
  cases hx : q.result.temp? with
  | none => rw [hx] at hdead; cases hdead.2
  | some s => exact ⟨s, rfl, by simpa using hdead.1⟩

theorem Related.dropped (h : Related code m m') (hc : code.Droppable) (hq : code[m.pc]? = some q)
    (hdead : q.isLive code.usedTemps = false) (hs : m.step code code.labels q = .ok m₁) : Related code m₁ m' := by
  have hmem := List.mem_of_getElem? hq
  obtain ⟨s, htemp, hcall⟩ := exists_temp_of_dead hdead
  obtain ⟨k, v, hk, rfl⟩ : ∃ k v, q.result.key m.pc = .ok k ∧
      m₁ = ({ m with memory := m.memory.setKey k v }).next := by
    have hop := hc.writers q hmem (by rw [htemp]; nofun)
    cases step_effect hs with
    | assign _ _ hk => exact ⟨_, _, hk, rfl⟩
    | operator _ _ _ _ hk => exact ⟨_, _, hk, rfl⟩
    | skip hop' => rcases hop' with hop' | ⟨word, hop'⟩ <;> simp_all
    | _ => simp_all
  have hkey : code.keepsKey k = false := by
    rw [(Target.temp?_eq_some htemp).1] at hk
    cases hk
    simp only [Code.keepsKey, Bool.not_eq_false', List.any_eq_true]
    exact ⟨q, hmem, by simp [hdead, htemp]⟩
  refine { h with pc := ?_, memory := h.memory.setKey_left code.keepsKey_number hkey v }
  change m'.pc = code.liveAt (m.pc + 1)
  rw [h.pc, Code.liveAt_succ hq, hdead]
  rfl

/-! ### Runs -/

theorem Related.start (answers : Answers) : Related code (start answers) (start answers) where
  pc := rfl
  memory := .refl _
  stack := .nil
  params := rfl
  output := rfl
  answers := rfl

/-- A run that ends, and in which what is dropped succeeds, is one of the code that stays: it is not longer, ends
with the same fault and in a related machine. -/
theorem Related.ends (hc : code.Droppable) {S : Machine → Quad → Prop} {n : Nat} {o : Outcome}
    (hS : ∀ m q, S m q → q ∈ code → q.isLive code.usedTemps = false → ∃ m₁, m.step code code.labels q = .ok m₁)
    (he : Ends S code n m o) (h : Related code m m') :
    ∃ n' ≤ n, ∃ o', Ends (fun m' q => q ∈ code ∧ ∃ m, S m q ∧ Related code m m') code.live n' m' o' ∧
      o'.fault = o.fault ∧ Related code o.machine o'.machine := by
  -- on the run of the code, along which the code that stays makes a step or waits while something dropped is executed
  induction he generalizing m' with
  | @done m hq =>
    refine ⟨0, Nat.le_refl 0, { machine := m' }, .done ?_, rfl, h⟩
    rw [List.getElem?_eq_none_iff] at hq ⊢
    rw [h.pc]
    exact Nat.le_of_eq (Code.kept_of_length_le hq).symm
  | @fail m q f hq hSq hf =>
    have hmem := List.mem_of_getElem? hq
    cases hlive : q.isLive code.usedTemps with
    | false =>
      obtain ⟨m₁, hm₁⟩ := hS m q hSq hmem hlive
      rw [hf] at hm₁
      cases hm₁
    | true =>
      have hq' : code.live[m'.pc]? = some q := by rw [h.pc]; exact Code.getElem?_kept hq hlive
      have hstep := h.step hc hq hlive
      rw [hf] at hstep
      cases hf' : m'.step code.live code.live.labels q with
      | ok m₁ => rw [hf'] at hstep; cases hstep
      | error f' =>
        rw [hf'] at hstep
        exact ⟨1, Nat.le_refl 1, _, .fail hq' ⟨hmem, m, hSq, h⟩ hf', congrArg some hstep.1, hstep.2⟩
  | @step m m₁ q n o hq hSq hm _ ih =>
    have hmem := List.mem_of_getElem? hq
    cases hlive : q.isLive code.usedTemps with
    | false =>
      obtain ⟨n', hn', o', he', ho⟩ := ih (h.dropped hc hq hlive hm)
      exact ⟨n', by omega, o', he', ho⟩
    | true =>
      have hq' : code.live[m'.pc]? = some q := by rw [h.pc]; exact Code.getElem?_kept hq hlive
      have hstep := h.step hc hq hlive
      rw [hm] at hstep
      cases hm' : m'.step code.live code.live.labels q with
      | error f' => rw [hm'] at hstep; cases hstep
      | ok m₁' =>
        rw [hm'] at hstep
        obtain ⟨n', hn', o', he', ho⟩ := ih hstep
        exact ⟨n' + 1, by omega, o', .step hq' ⟨hmem, m, hSq, h⟩ hm' he', ho⟩

/-! ### Safe runs -/

theorem Related.safe (h : Related code m m') (hc : code.Droppable) (hq : q ∈ code) (hsafe : m.Safe q) : m'.Safe q := by
  refine ⟨fun s hs htemp => ?_, fun op a b hop ha hb => ?_⟩
  · obtain ⟨v, hv⟩ := hsafe.1 s hs htemp
    exact ⟨v, (h.get? (keepsKey_of_read hq hs)).trans hv⟩
  · rw [h.resolve hc hq (by simp [Quad.reads, hop])] at ha
    rw [h.resolve hc hq (by simp [Quad.reads, hop])] at hb
    exact hsafe.2 op a b hop ha hb

/-- What is dropped succeeds where operators do. -/
theorem exists_step_of_safe (hc : code.Droppable) (hsafe : m.Safe q) (hq : q ∈ code)
    (hdead : q.isLive code.usedTemps = false) : ∃ m₁, m.step code code.labels q = .ok m₁ := by
  obtain ⟨s, htemp, hcall⟩ := exists_temp_of_dead hdead
  have hwrite : ∀ v, ∃ m₁, (do return (← m.write m.pc q.result v).next : Except Failure Machine) = .ok m₁ := by
    intro v
    rw [(Target.temp?_eq_some htemp).1]
    exact ⟨_, rfl⟩
  have hscalar := fun a ha => (hc.operands q hq a ha).exists_resolve m.memory
  rcases hc.writers q hq (by rw [htemp]; nofun) with hop | ⟨op, hop⟩ | hop
  · obtain ⟨a, ha⟩ := hscalar q.arg1 (by simp [Quad.reads, hop])
    rw [step_assign hop ha]
    exact hwrite a
  · obtain ⟨a, ha⟩ := hscalar q.arg1 (by simp [Quad.reads, hop])
    obtain ⟨b, hb⟩ := hscalar q.arg2 (by simp [Quad.reads, hop])
    obtain ⟨v, hv⟩ := (hsafe.2 op a b hop ha hb).1
    rw [step_operator hop ha hb hv]
    exact hwrite v
  · exact absurd hop hcall

theorem Related.ends_safe (hc : code.Droppable) {n : Nat} {o : Outcome} (he : Ends Safe code n m o)
    (h : Related code m m') :
    ∃ n' ≤ n, ∃ o', Ends Safe code.live n' m' o' ∧ o'.fault = o.fault ∧ o'.machine.output = o.machine.output := by
  obtain ⟨n', hn', o', he', hfault, hmachine⟩ := h.ends hc (fun m q hsafe => exists_step_of_safe hc hsafe) he
  refine ⟨n', hn', o', he'.mono fun m' q hq => ?_, hfault, hmachine.output⟩
  obtain ⟨hmem, m, hsafe, hrelated⟩ := hq
  exact hrelated.safe hc hmem hsafe

end Machine

theorem Code.Tame.live {code : Code} {N : Number → Prop} (h : code.Tame N) : code.live.Tame N where
  operands q hq := h.operands q (List.mem_of_mem_filter hq)
  targets q hq := h.targets q (List.mem_of_mem_filter hq)
  once := h.once.sublist (List.filter_sublist.filterMap _)
  writers q hq := h.writers q (List.mem_of_mem_filter hq)

/-! ### Whole runs -/

open Machine

/-- Without its dead temporaries code prints the same and ends with the same fault, executes no more instructions,
and leaves the same under every name that no dropped instruction writes. -/
theorem Code.dropDead_keeps_run {code : Code} (hc : code.Droppable) {maxSteps : Int} {answers : Answers}
    (hlimit : (execute code maxSteps answers).fault ≠ some (.stepLimit maxSteps))
    (hdead : ∀ m q, Machine.Performs code maxSteps answers m q → q.isLive code.usedTemps = false →
      ∃ m₁, m.step code code.labels q = .ok m₁) :
    (run code.dropDead.1 maxSteps answers).output = (run code maxSteps answers).output ∧
      (execute code.dropDead.1 maxSteps answers).fault = (execute code maxSteps answers).fault ∧
      stepCount code.dropDead.1 maxSteps answers ≤ stepCount code maxSteps answers ∧
      ∀ s, (∀ q ∈ code, q.isLive code.usedTemps = false → q.result ≠ .name s) →
        (execute code.dropDead.1 maxSteps answers).machine.memory.get? (.text s) =
          (execute code maxSteps answers).machine.memory.get? (.text s) := by
  have hlive : code.dropDead.1 = code.live := rfl
  have hlink : code.live.linkFault? = code.linkFault? := linkFault?_filter hc.keeps
  unfold run stepCount
  rw [hlive, hlink]
  cases hfault : code.linkFault? with
  | some fault => simp [execute, hlink, hfault]
  | none =>
    rw [execute_of_linked hfault] at hlimit ⊢
    rw [execute_of_linked (hlink.trans hfault)]
    obtain ⟨n, hn, he⟩ := ends_of_runFor (fun k hk m q hs hq => hdead m q ⟨hfault, hq, k, hk, hs⟩) hlimit
    obtain ⟨n', hn', o', he', hf, hm⟩ := (Related.start answers).ends hc (fun m q hSq _ => hSq) he
    rw [he'.runFor maxSteps (Nat.le_trans hn' hn), report_output, report_output, hf, hm.output]
    refine ⟨rfl, rfl, ?_, fun s hs => hm.get? (keepsKey_text hs)⟩
    dsimp only
    rwa [he.stepsFor_eq hn, he'.stepsFor_eq (Nat.le_trans hn' hn)]

/-- A loop that calls a function, with a dead temporary in each, before a call of a function that does not exist. -/
def showCode : Code := [
  Quad.assign (.num (.int 0)) (.name "i"), Quad.label "L0",
  Quad.operator (.binary .lt) (.name "i") (.num (.int 2)) "t0", Quad.jumpIfFalse (.name "t0") "L1",
  Quad.operator (.binary .mul) (.name "i") (.name "i") "t1",
  Quad.param (.name "i"), Quad.call "FUNC_show" 1 (.name "t2"),
  Quad.operator (.binary .add) (.name "i") (.num (.int 1)) "t3", Quad.assign (.name "t3") (.name "i"), Quad.goto "L0",
  Quad.label "FUNC_show", Quad.receive (.name "n"), Quad.assign (.name "n") (.name "t4"),
  Quad.param (.name "n"), Quad.call "console_log" 1 .none, Quad.ret (.name "n"),
  Quad.label "L1", Quad.call "FUNC_missing" 0 .none]

instance decidableSucceeds {ε α : Type} (x : Except ε α) : Decidable (∃ a, x = .ok a) :=
  match x with
  | .ok a => isTrue ⟨a, rfl⟩
  | .error _ => isFalse nofun

theorem showCode_droppable : showCode.Droppable where
  operands := by simp [showCode, Quad.reads, Operand.Scalar]
  writers := by
    simp only [showCode, List.forall_mem_cons]
    simp
    decide

theorem Code.dropDead_keeps_run_show :
    (run showCode.dropDead.1 60 (.scripted [])).output = ["0", "1", "Execution error: undefined function 'missing'"] ∧
      stepCount showCode.dropDead.1 60 (.scripted []) ≤ stepCount showCode 60 (.scripted []) ∧
      (execute showCode.dropDead.1 60 (.scripted [])).machine.memory.get? (.text "t2") = some (.num (.int 1)) := by
  have hlimit : (execute showCode 60 (.scripted [])).fault = some (.undefinedFunction "missing") := by rfl
  obtain ⟨houtput, -, hcount, hmemory⟩ := dropDead_keeps_run showCode_droppable (by rw [hlimit]; nofun)
    (Machine.Performs.of_after (by decide +kernel))
  refine ⟨houtput.trans (by decide +kernel), hcount, (hmemory "t2" ?_).trans (by rfl)⟩
  simp [showCode, Quad.isLive]

end QuadScript
