import QuadScript.Proofs.CallingConvention
import QuadScript.Proofs.Optimizer.DeadTemps

/-!
# Surplus arguments

Arguments that a function does not receive stay in the queue while it runs, in front of all that is pushed
meanwhile, until a return drops them. Whoever takes an argument before that takes them first: a line of the console
begins with them, and they become the arguments of the next call.

`Code.trim` is the code in which one call passes its first arguments only. The two codes are run side by side: the
trimmed one waits at the call while the other pushes the surplus (`Machine.Follows.skip`), and from there on the two
queues begin with the same arguments (`Machine.Alike`), for as long as nobody takes more than these
(`Machine.Spares`). Under that condition the two print the same.
-/

namespace QuadScript

/-- A call with another number of arguments. -/
def Quad.passing (r : Nat) (q : Quad) : Quad := { q with arg2 := .num (.int r) }

/-- An instruction that does not stand at a position from `b` on and before `i`. -/
def Quad.outside (b i : Nat) (q : Quad) : Bool := q.index < b || i ≤ q.index

namespace Code

/-- The code in which the call at a position passes the first `r` of its `k` arguments: what pushes the others is
deleted. -/
def trim (code : Code) (i k r : Nat) : Code :=
  let recounted := code.modify i (Quad.passing r)
  recounted.take (i - (k - r)) ++ recounted.drop i

/-- The code without what stands from `b` on and before the call at `i`. -/
abbrev trimmed (code : Code) (b i r : Nat) : Code := (code.modify i (Quad.passing r)).filter (Quad.outside b i)

/-- Where the instruction at a place goes, or the next that stays. -/
abbrev trimmedAt (code : Code) (b i r j : Nat) : Nat := kept (Quad.outside b i) (code.modify i (Quad.passing r)) j

/-! ### What pushes the arguments of a call -/

/-- The arguments of every call are pushed by the instructions right before it, but for those that wait already. -/
def Pushes (n : Nat) (code : Code) : Prop :=
  ∀ (i k : Nat) (q : Quad), code[i]? = some q → q.op = .call → q.arg2 = .num (.int k) → k ≤ n + i ∧
    ∀ (j : Nat) (q' : Quad), j < i → i ≤ j + k → code[j]? = some q' → q'.op = .param

theorem Pushes.behind {n : Nat} {c d : Code} (h : Pushes 0 c) (hd : ∀ q ∈ d, q.op ≠ .call) : Pushes n (d ++ c) := by
  intro i k q hq hop hk
  have hi : d.length ≤ i := by
    by_contra hlt
    rw [List.getElem?_append_left (by omega)] at hq
    exact hd q (List.mem_of_getElem? hq) hop
  rw [List.getElem?_append_right hi] at hq
  obtain ⟨hle, hpushes⟩ := h _ k q hq hop hk
  refine ⟨by omega, fun j q' hj hjk hq' => ?_⟩
  rw [List.getElem?_append_right (by omega)] at hq'
  exact hpushes _ q' (by omega) (by omega) hq'

theorem Balanced.pushes {n : Nat} {c : Code} (h : Balanced n c) : Pushes n c := by
  -- along balanced code: between the first argument of a call and the call there is nothing but `PARAM`s
  induction h with
  | nil => exact fun i k q hq => by cases hq
  | @idle q c hidle _ ih => exact ih.behind (d := [q]) (by simpa using hidle.call)
  | @function f s xs c _ ih =>
    refine ih.behind (d := Quad.goto s :: Quad.label (functionMark ++ f) :: xs.map Quad.receive) ?_
    simp
  | @param n a c _ ih =>
    intro i k q hq hop hk
    cases i with
    | zero => cases hq; cases hop
    | succ i =>
      obtain ⟨hle, hpushes⟩ := ih i k q hq hop hk
      refine ⟨by omega, fun j q' hj hjk hq' => ?_⟩
      cases j with
      | zero => cases hq'; rfl
      | succ j => exact hpushes j q' (by omega) (by omega) hq'
  | @call n f x c _ ih =>
    intro i k q hq hop hk
    cases i with
    | zero =>
      cases hq
      cases hk
      exact ⟨Nat.le_refl n, fun j _ hj => absurd hj (Nat.not_lt_zero j)⟩
    | succ i =>
      obtain ⟨hle, hpushes⟩ := ih i k q hq hop hk
      refine ⟨by omega, fun j q' hj hjk hq' => ?_⟩
      cases j with
      | zero => omega
      | succ j => exact hpushes j q' (by omega) (by omega) hq'

/-- Numbered code with a call of one of its functions at `i`, from `b` on preceded by nothing but arguments. -/
structure Surplus (code : Code) (b i : Nat) : Prop where
  le : b ≤ i
  index : ∀ (j : Nat) (q : Quad), code[j]? = some q → q.index = j
  pushes : ∀ (j : Nat) (q : Quad), b ≤ j → j < i → code[j]? = some q → q.op = .param
  call : ∃ q f p, code[i]? = some q ∧ q.op = .call ∧ q.arg1 = .name (functionMark ++ f) ∧
    code.labels.get? (.text (functionMark ++ f)) = some p
  calls : ∀ q ∈ code, q.op = .call → (∃ s, q.arg1 = .name s) ∧ (∃ k : Nat, q.arg2 = .num (.int k)) ∧
    (q.result = .none ∨ ∃ s, q.result = .name s)

theorem surplus_of_emitted {P : Operand → Prop} {Q : Target → Prop} {code : Code}
    (hemit : ∀ q ∈ code, q.Emitted P Q) (hbal : Balanced 0 code) {i k p r : Nat} {f : String} {x : Target}
    (hcall : code.Has i [Quad.call f k x]) (hp : code.labels.get? (.text f) = some p) :
    code.renumber.Surplus (i - (k - r)) i ∧ k ≤ i := by
  have hq := ((has_iff hemit).1 hcall).head
  have hlabel := getElem?_of_labels hemit hp
  have hhead := (hemit _ (List.mem_of_getElem? hlabel)).label_head rfl rfl
  obtain ⟨g, rfl⟩ := ((hemit _ (List.mem_of_getElem? hq)).call_head rfl rfl).resolve_left hhead
  -- an instruction of the numbered code is one of the code, with its position
  have hnumbered : ∀ {j : Nat} {q : Quad}, code.renumber[j]? = some q →
      ∃ q₀ : Quad, code[j]? = some q₀ ∧ q = { q₀ with index := j } := by
    intro j q hj
    rw [getElem?_renumber] at hj
    obtain ⟨q₀, hq₀, rfl⟩ := Option.map_eq_some_iff.1 hj
    exact ⟨q₀, hq₀, rfl⟩
  obtain ⟨hk, hpushes⟩ := hbal.pushes i k _ hq rfl rfl
  refine ⟨⟨Nat.sub_le i _, fun j q hj => ?_, fun j q hle hlt hj => ?_, ?_, fun q hmem hop => ?_⟩, by omega⟩
  · obtain ⟨q, -, rfl⟩ := hnumbered hj
    rfl
  · obtain ⟨q, hq', rfl⟩ := hnumbered hj
    exact hpushes j q hlt (by omega) hq'
  · refine ⟨{ Quad.call (functionMark ++ g) k x with index := i }, g, p, ?_, rfl, rfl, ?_⟩
    · rw [getElem?_renumber, hq]
      rfl
    · rw [labels_congr control_renumber]
      exact hp
  · obtain ⟨j, hj⟩ := List.mem_iff_getElem?.1 hmem
    obtain ⟨q, hq', rfl⟩ := hnumbered hj
    cases hemit q (List.mem_of_getElem? hq') with
    | print => exact ⟨⟨_, rfl⟩, ⟨_, rfl⟩, .inl rfl⟩
    | call => exact ⟨⟨_, rfl⟩, ⟨_, rfl⟩, .inr ⟨_, rfl⟩⟩
    | _ => cases hop

namespace Surplus

variable {code : Code} {b i r : Nat}

section
variable (h : code.Surplus b i)
include h

theorem exists_getElem? {j : Nat} {q₁ : Quad} (hq : (code.modify i (Quad.passing r))[j]? = some q₁) :
    ∃ q, code[j]? = some q ∧ q₁.op = q.op ∧ q₁.index = j := by
  rw [List.getElem?_modify] at hq
  obtain ⟨q, hq', rfl⟩ := Option.map_eq_some_iff.1 hq
  refine ⟨q, hq', ?_⟩
  split
  · exact ⟨rfl, h.index j q hq'⟩
  · exact ⟨rfl, h.index j q hq'⟩

theorem outside_iff {j : Nat} {q₁ : Quad} (hq : (code.modify i (Quad.passing r))[j]? = some q₁) :
    q₁.outside b i = true ↔ j < b ∨ i ≤ j := by
  obtain ⟨-, -, -, hindex⟩ := h.exists_getElem? hq
  simp [Quad.outside, hindex]

theorem trim_eq {k : Nat} (hb : b = i - (k - r)) : code.trim i k r = code.trimmed b i r := by
  unfold trim trimmed
  dsimp only
  rw [← hb]
  have houtside : ∀ {j : Nat} {q₁ : Quad}, (code.modify i (Quad.passing r))[j]? = some q₁ →
      (q₁.outside b i = true ↔ j < b ∨ i ≤ j) := h.outside_iff
  generalize code.modify i (Quad.passing r) = c at houtside
  have hsplit : c = c.take b ++ ((c.drop b).take (i - b) ++ c.drop i) := by
    have hi : c.drop i = (c.drop b).drop (i - b) := by rw [List.drop_drop, Nat.add_sub_cancel' h.le]
    rw [hi, List.take_append_drop, List.take_append_drop]
  have hleft : (c.take b).filter (Quad.outside b i) = c.take b := by
    refine List.filter_eq_self.2 fun q hq => ?_
    obtain ⟨j, hj⟩ := List.mem_iff_getElem?.1 hq
    rw [List.getElem?_take] at hj
    split at hj
    · rename_i hlt; exact (houtside hj).2 (.inl hlt)
    · cases hj
  have hmiddle : ((c.drop b).take (i - b)).filter (Quad.outside b i) = [] := by
    refine List.filter_eq_nil_iff.2 fun q hq => ?_
    obtain ⟨j, hj⟩ := List.mem_iff_getElem?.1 hq
    rw [List.getElem?_take] at hj
    split at hj
    · rw [List.getElem?_drop] at hj
      rw [houtside hj]
      omega
    · cases hj
  have hright : (c.drop i).filter (Quad.outside b i) = c.drop i := by
    refine List.filter_eq_self.2 fun q hq => ?_
    obtain ⟨j, hj⟩ := List.mem_iff_getElem?.1 hq
    rw [List.getElem?_drop] at hj
    exact (houtside hj).2 (.inr (Nat.le_add_right i j))
  conv_rhs => rw [hsplit, List.filter_append, List.filter_append, hleft, hmiddle, hright, List.nil_append]

theorem keeps : Keeps (Quad.outside b i) (code.modify i (Quad.passing r)) := by
  intro q₁ hmem hout
  obtain ⟨j, hj⟩ := List.mem_iff_getElem?.1 hmem
  obtain ⟨q, hq, hop, -⟩ := h.exists_getElem? hj
  have hnot : ¬ (j < b ∨ i ≤ j) := by rw [← h.outside_iff hj, hout]; simp
  have hparam := h.pushes j q (by omega) (by omega) hq
  simp [Quad.control, hop, hparam]

end

theorem control_modify (code : Code) (i r : Nat) :
    (code.modify i (Quad.passing r)).map Quad.control = code.map Quad.control := by
  apply List.ext_getElem?
  intro j
  rw [List.getElem?_map, List.getElem?_map, List.getElem?_modify]
  cases code[j]? with
  | none => rfl
  | some q =>
    refine congrArg some ?_
    split <;> rfl

section
variable (h : code.Surplus b i) {j : Nat} {q : Quad} (hq : code[j]? = some q)
include h hq

theorem trimmedAt_succ : code.trimmedAt b i r (j + 1) = code.trimmedAt b i r j + if j < b ∨ i ≤ j then 1 else 0 := by
  have hlen : j < (code.modify i (Quad.passing r)).length := by
    rw [List.length_modify]; exact (List.getElem?_eq_some_iff.1 hq).1
  have hq₁ := List.getElem?_eq_getElem hlen
  rw [trimmedAt, kept_succ hq₁]
  simp only [h.outside_iff hq₁]

theorem stays (hj : j < b ∨ i < j) : (code.modify i (Quad.passing r))[j]? = some q ∧ q.outside b i = true := by
  have hle := h.le
  have hq₁ : (code.modify i (Quad.passing r))[j]? = some q := by
    rw [List.getElem?_modify, hq]
    simp [show i ≠ j by omega]
  exact ⟨hq₁, (h.outside_iff hq₁).2 (by omega)⟩

theorem getElem?_trimmed (hj : j < b ∨ i < j) : (code.trimmed b i r)[code.trimmedAt b i r j]? = some q :=
  getElem?_kept (h.stays hq hj).1 (h.stays hq (r := r) hj).2

theorem not_between (hop : q.op ≠ .param) : j < b ∨ i ≤ j := by
  by_contra hnot
  exact hop (h.pushes j q (by omega) (by omega) hq)

/-- Only the first instruction comes to the first place, unless it is the call. -/
theorem trimmedAt_eq_zero (hj : j < b ∨ i < j) : code.trimmedAt b i r j = 0 ↔ j = 0 := by
  refine ⟨fun hzero => ?_, fun hzero => by rw [hzero]; rfl⟩
  by_contra hne
  have hlt := (List.getElem?_eq_some_iff.1 hq).1
  -- nothing stays before a place that becomes the first
  have hstays : ∀ j' < j, ¬ (j' < b ∨ i ≤ j') := by
    intro j' hj' hout
    have hmono : code.trimmedAt b i r (j' + 1) ≤ 0 := hzero ▸ kept_mono hj'
    rw [h.trimmedAt_succ (List.getElem?_eq_getElem (hj'.trans hlt)), if_pos hout] at hmono
    exact Nat.not_succ_le_zero _ hmono
  rcases hj with hj | hj
  · exact hstays 0 (by omega) (by omega)
  · exact hstays i hj (by omega)

theorem lookup (hj : j < b ∨ i < j) (hop : q.op ≠ .label) {t : Tree} {k : Key} {p : Nat}
    (hk : Key.ofTree j t = .ok k) (hp : code.labels.getKey? k = some p) :
    ∃ k', Key.ofTree (code.trimmedAt b i r j) t = .ok k' ∧
      (code.trimmed b i r).labels.getKey? k' = some (code.trimmedAt b i r p) := by
  obtain ⟨hq₁, hstays⟩ := h.stays hq (r := r) hj
  rcases labels_lookup h.keeps hq₁ hstays hop t with ⟨fault, ht⟩ | ⟨k₁, k', hk₁, hk', hget⟩
  · rw [ht] at hk; cases hk
  · rw [hk] at hk₁
    cases hk₁
    rw [labels_congr (control_modify code i r), hp] at hget
    exact ⟨k', hk', hget⟩

end

theorem getElem?_trimmed_call {q : Quad} (h : code.Surplus b i) (hq : code[i]? = some q) :
    (code.trimmed b i r)[code.trimmedAt b i r i]? = some (q.passing r) := by
  have hq₁ : (code.modify i (Quad.passing r))[i]? = some (q.passing r) := by
    rw [List.getElem?_modify, hq]
    simp
  exact getElem?_kept hq₁ ((h.outside_iff hq₁).2 (.inr (Nat.le_refl i)))

theorem labels_trimmed (h : code.Surplus b i) (s : String) :
    (code.trimmed b i r).labels.get? (.text s) = (code.labels.get? (.text s)).map (code.trimmedAt b i r) := by
  rw [← labels_congr (control_modify code i r)]
  exact (labels_filter h.keeps).1.getKey? sameLabels_allows (k := .text s) rfl

end Surplus

end Code

/-! ### Keys that can be read -/

/-- A key under which an operand may be looked up: of the NaNs only that of the first place. -/
def Key.readable : Key → Bool
  | .nan place => place == 0
  | _ => true

theorem Key.readable_number (k : Key) (hk : k.number? ≠ Option.none) : k.readable = true := by
  cases k with
  | nan place => exact absurd rfl hk
  | _ => rfl

theorem Key.readable_of_isNaN {k : Key} (hk : k.isNaN = false) : k.readable = true := by
  cases k with
  | nan place => cases hk
  | _ => rfl

/-- Memories with the same under every key that can be read. -/
abbrev Memory.Same (μ μ' : Memory) : Prop := Table.Agree Key.readable id μ μ'

namespace Memory.Same

variable {μ μ' : Memory}

theorem getKey? (h : Same μ μ') {k : Key} (hk : k.readable = true) : μ'.getKey? k = μ.getKey? k := by
  have hget := Table.Agree.getKey? Key.readable_number h hk
  rwa [Option.map_id] at hget

theorem resolve (h : Same μ μ') (a : Operand) : μ'.resolve a = μ.resolve a := by
  cases a with
  | name s =>
    have hget : μ'.get? (.text s) = μ.get? (.text s) := h.getKey? (k := .text s) rfl
    simp only [Memory.resolve, Memory.read, hget]
  | raw t =>
    simp only [Memory.resolve]
    rcases Key.ofTree_cases t with ⟨fault, ht⟩ | ⟨k, hk, ht⟩ | ht
    · rw [ht]; rfl
    · rw [ht]
      exact congrArg (fun v => Except.ok (v.getD .undefined)) (h.getKey? (Key.readable_of_isNaN hk))
    · rw [ht]
      exact congrArg (fun v => Except.ok (v.getD .undefined)) (h.getKey? (k := .nan 0) rfl)
  | _ => rfl

theorem write (h : Same μ μ') {x : Target} {j j' : Nat} {k : Key} (hk : x.key j = .ok k) (hj : j' = 0 ↔ j = 0)
    (v : Value) : ∃ k', x.key j' = .ok k' ∧ Same (μ.setKey k v) (μ'.setKey k' v) := by
  unfold Target.key at *
  rcases Key.ofTree_cases x.toTree with ⟨fault, hx⟩ | ⟨k', -, hx⟩ | hx
  · rw [hx] at hk; cases hk
  · rw [hx] at hk
    cases hk
    exact ⟨k, hx j', Table.Agree.setKey Key.readable_number h k v⟩
  · rw [hx] at hk
    cases hk
    refine ⟨_, hx j', ?_⟩
    by_cases hzero : j = 0
    · rw [hzero, hj.2 hzero]
      exact Table.Agree.setKey Key.readable_number h _ v
    · have hleft : (Key.nan j).readable = false := by simp [Key.readable, hzero]
      have hright : (Key.nan j').readable = false := by simp [Key.readable, mt hj.1 hzero]
      exact (Table.Agree.setKey_left Key.readable_number h hleft v).setKey_right Key.readable_number hright v

end Memory.Same

namespace Machine

/-! ### Queues that begin alike -/

/-- The queues begin with the same `n` arguments, and the second is not longer. -/
structure Alike (n : Nat) (vs vs' : List Value) : Prop where
  take_eq : vs'.take n = vs.take n
  le : n ≤ vs'.length
  length_le : vs'.length ≤ vs.length

theorem Alike.push {n : Nat} {vs vs' : List Value} (h : Alike n vs vs') (v : Value) :
    Alike n (vs ++ [v]) (vs' ++ [v]) := by
  obtain ⟨htake, hle, hlen⟩ := h
  refine ⟨?_, by simp; omega, by simp; omega⟩
  rw [List.take_append_of_le_length hle, List.take_append_of_le_length (hle.trans hlen), htake]

theorem Alike.push_left {n : Nat} {vs vs' : List Value} (h : Alike n vs vs') (v : Value) : Alike n (vs ++ [v]) vs' := by
  obtain ⟨htake, hle, hlen⟩ := h
  refine ⟨?_, hle, by simp; omega⟩
  rw [List.take_append_of_le_length (hle.trans hlen), htake]

theorem Alike.drop {n c : Nat} {vs vs' : List Value} (h : Alike n vs vs') :
    Alike (n - c) (vs.drop c) (vs'.drop c) := by
  obtain ⟨htake, hle, hlen⟩ := h
  refine ⟨?_, by simp; omega, by simp; omega⟩
  have hdrop := congrArg (List.drop c) htake
  rwa [List.drop_take, List.drop_take] at hdrop

/-- The queues are equal, or alike as far as may be taken from them. -/
def Shared (S : Nat → Prop) (vs vs' : List Value) : Prop := vs' = vs ∨ ∃ n, S n ∧ Alike n vs vs'

namespace Shared

variable {S T : Nat → Prop} {vs vs' : List Value}

theorem keep (h : Shared S vs vs') (hs : ∀ n, S n → T n) : Shared T vs vs' := by
  rcases h with rfl | ⟨n, hn, halike⟩
  · exact .inl rfl
  · exact .inr ⟨n, hs n hn, halike⟩

theorem push (h : Shared S vs vs') (hs : ∀ n, S n → T n) (v : Value) :
    Shared T (vs ++ [v]) (vs' ++ [v]) := by
  rcases h with rfl | ⟨n, hn, halike⟩
  · exact .inl rfl
  · exact .inr ⟨n, hs n hn, halike.push v⟩

/-- What is taken from the two queues is the same, and all of it is there. -/
theorem take {c : Nat} (h : Shared S vs vs') (hc : c ≤ vs.length)
    (hs : ∀ n, S n → c ≤ n ∧ T (n - c)) :
    c ≤ vs'.length ∧ vs'.length ≤ vs.length ∧ vs'.take c = vs.take c ∧ Shared T (vs.drop c) (vs'.drop c) := by
  rcases h with rfl | ⟨n, hn, halike⟩
  · exact ⟨hc, Nat.le_refl _, rfl, .inl rfl⟩
  · obtain ⟨hcn, hn₁⟩ := hs n hn
    refine ⟨hcn.trans halike.le, halike.length_le, ?_, .inr ⟨_, hn₁, halike.drop⟩⟩
    have htake := congrArg (List.take c) halike.take_eq
    rwa [List.take_take, List.take_take, Nat.min_eq_left hcn] at htake

theorem eq_of_all (h : Shared S vs vs') (hs : ∀ n, S n → vs.length ≤ n) : vs' = vs := by
  obtain ⟨hle, hge, htake, -⟩ := h.take (T := fun _ => True) (Nat.le_refl _) fun n hn => ⟨hs n hn, trivial⟩
  rwa [List.take_length, List.take_of_length_le hge] at htake

theorem tail (h : Shared S vs vs')
    (hs : ∀ n c, c ≤ vs.length → vs.tail = vs.drop c → S n → c ≤ n ∧ T (n - c)) :
    vs'.head? = vs.head? ∧ Shared T vs.tail vs'.tail := by
  cases vs with
  | nil =>
    obtain ⟨-, hle, -, hshared⟩ := h.take (Nat.zero_le _) fun n hn => hs n 0 (Nat.zero_le _) rfl hn
    cases List.eq_nil_of_length_eq_zero (Nat.le_zero.1 hle)
    exact ⟨rfl, hshared⟩
  | cons v vs =>
    obtain ⟨hle, -, htake, hshared⟩ := h.take (c := 1) (by simp) fun n hn => hs n 1 (by simp) rfl hn
    cases vs' with
    | nil => cases hle
    | cons v' vs' =>
      cases htake
      exact ⟨rfl, hshared⟩

end Shared

/-- From here on only the first `n` of the waiting arguments are taken, until a return drops the others or the code
ends. -/
inductive Spares (code : Code) : Nat → Machine → Prop
  | done {n : Nat} {m : Machine} (hq : code[m.pc]? = none) : Spares code n m
  | drop {n : Nat} {m : Machine} {q : Quad} (hq : code[m.pc]? = some q) (hop : q.op = .ret) : Spares code n m
  | step {n : Nat} {m m₁ : Machine} (hadv : m.advance code code.labels = some (.ok m₁))
      (hle : m.params.length ≤ m₁.params.length + n)
      (h : Spares code (n - (m.params.length - m₁.params.length)) m₁) : Spares code n m

variable {code : Code} {m m₁ : Machine} {q : Quad} {n : Nat}

theorem Spares.next (h : Spares code n m) (hq : code[m.pc]? = some q) (hop : q.op ≠ .ret)
    (hs : m.step code code.labels q = .ok m₁) :
    m.params.length ≤ m₁.params.length + n ∧ Spares code (n - (m.params.length - m₁.params.length)) m₁ := by
  cases h with
  | done hnone => rw [hq] at hnone; cases hnone
  | drop hq' hop' =>
    rw [hq] at hq'
    cases hq'
    exact absurd hop' hop
  | step hadv hle h =>
    rw [advance_of_getElem? hq, hs] at hadv
    cases hadv
    exact ⟨hle, h⟩

theorem Spares.of_le (h : Spares code n m) (hq : code[m.pc]? = some q) (hop : q.op ≠ .ret)
    (hs : m.step code code.labels q = .ok m₁) (hle : m.params.length ≤ m₁.params.length) : Spares code n m₁ := by
  have hnext := (h.next hq hop hs).2
  rwa [Nat.sub_eq_zero_of_le hle] at hnext

theorem Spares.of_drop {c : Nat} (h : Spares code n m) (hq : code[m.pc]? = some q) (hop : q.op ≠ .ret)
    (hs : m.step code code.labels q = .ok m₁) (hc : c ≤ m.params.length) (hparams : m₁.params = m.params.drop c) :
    c ≤ n ∧ Spares code (n - c) m₁ := by
  obtain ⟨hle, hnext⟩ := h.next hq hop hs
  rw [hparams, List.length_drop] at hle hnext
  rw [Nat.sub_sub_self hc] at hnext
  exact ⟨by omega, hnext⟩

/-- Whether the others are dropped or left within a number of steps, and spared until then. -/
def sparesFor (code : Code) : Nat → Nat → Machine → Bool
  | 0, _, _ => false
  | fuel + 1, n, m =>
    match code[m.pc]? with
    | none => true
    | some q => q.op = .ret || match m.step code code.labels q with
      | .ok m₁ => m.params.length ≤ m₁.params.length + n &&
          sparesFor code fuel (n - (m.params.length - m₁.params.length)) m₁
      | .error _ => false

theorem spares_of_sparesFor {fuel : Nat} (h : sparesFor code fuel n m = true) : Spares code n m := by
  induction fuel generalizing n m with
  | zero => cases h
  | succ fuel ih =>
    unfold sparesFor at h
    split at h
    · rename_i hq; exact .done hq
    · rename_i q hq
      rcases Bool.or_eq_true_iff.1 h with hop | h
      · exact .drop hq (by simpa using hop)
      · split at h
        · rename_i m₁ hs
          obtain ⟨hle, h⟩ := Bool.and_eq_true_iff.1 h
          exact .step (by rw [advance_of_getElem? hq, hs]) (by simpa using hle) (ih h)
        · cases h

/-! ### The two runs -/

/-- The second machine stands in the trimmed code where the first stands in the code, and differs from it in the
queue only. -/
structure Beside (code : Code) (b i r : Nat) (m m' : Machine) : Prop where
  pc : m'.pc = code.trimmedAt b i r m.pc
  memory : Memory.Same m.memory m'.memory
  stack : List.Forall₂ (fun f f' => f'.returnIndex = code.trimmedAt b i r f.returnIndex ∧ f'.target = f.target)
    m.stack m'.stack
  output : m'.output = m.output
  answers : m'.answers = m.answers

/-- The trimmed code makes a step that leaves the machines beside each other, with queues that are shared. -/
def Joined (code : Code) (b i r : Nat) (m₁ : Machine) (result : Except Failure Machine) : Prop :=
  ∃ m₁', result = .ok m₁' ∧ Beside code b i r m₁ m₁' ∧ Shared (Spares code · m₁) m₁.params m₁'.params

variable {b i r : Nat} {m' : Machine} {answers : Answers}

namespace Beside

theorem pc_succ (h : Beside code b i r m m') (hc : code.Surplus b i) (hq : code[m.pc]? = some q)
    (hpc : m.pc < b ∨ i ≤ m.pc) : m'.pc + 1 = code.trimmedAt b i r (m.pc + 1) := by
  rw [h.pc, hc.trimmedAt_succ hq, if_pos hpc]

theorem next (h : Beside code b i r m m') (hc : code.Surplus b i) (hq : code[m.pc]? = some q)
    (hpc : m.pc < b ∨ i ≤ m.pc) : Beside code b i r m.next m'.next :=
  { h with pc := h.pc_succ hc hq hpc }

theorem enter (h : Beside code b i r m m') (hc : code.Surplus b i) (hq : code[m.pc]? = some q)
    (hpc : m.pc < b ∨ i ≤ m.pc) {q' : Quad} (hresult : q'.result = q.result) (p : Nat) :
    Beside code b i r (m.enter q p) (m'.enter q' (code.trimmedAt b i r p)) :=
  { h with pc := rfl, stack := .cons ⟨h.pc_succ hc hq hpc, hresult⟩ h.stack }

theorem setParams (h : Beside code b i r m m') (vs vs' : List Value) :
    Beside code b i r { m with params := vs } { m' with params := vs' } :=
  { h with }

theorem write (h : Beside code b i r m m') (hc : code.Surplus b i) (hq : code[m.pc]? = some q)
    (hpc : m.pc < b ∨ i < m.pc) {k : Key} (hk : q.result.key m.pc = .ok k) (v : Value) :
    ∃ k', q.result.key m'.pc = .ok k' ∧
      Beside code b i r ({ m with memory := m.memory.setKey k v }).next
        ({ m' with memory := m'.memory.setKey k' v }).next := by
  have hplace : m'.pc = 0 ↔ m.pc = 0 := by rw [h.pc]; exact hc.trimmedAt_eq_zero hq hpc
  obtain ⟨k', hk', hmemory⟩ := h.memory.write hk hplace v
  have hbeside : Beside code b i r { m with memory := m.memory.setKey k v }
      { m' with memory := m'.memory.setKey k' v } := { h with memory := hmemory }
  exact ⟨k', hk', hbeside.next hc hq (hpc.imp_right Nat.le_of_lt)⟩

theorem store (h : Beside code b i r m m') {x : Target} (hx : x = .none ∨ ∃ s, x = .name s) {j : Nat} (j' : Nat)
    {v : Value} (hs : m.store j x v = .ok m₁) : ∃ m₁', m'.store j' x v = .ok m₁' ∧ Beside code b i r m₁ m₁' ∧
      m₁.params = m.params ∧ m₁'.params = m'.params := by
  unfold Machine.store at hs ⊢
  split at hs
  · rename_i htruthy
    rw [if_pos htruthy]
    obtain ⟨k, hk, rfl⟩ := write_eq_ok hs
    have hk' : x.key j' = .ok k := by
      rcases hx with rfl | ⟨s, rfl⟩
      · exact hk
      · exact hk
    refine ⟨{ m' with memory := m'.memory.setKey k v }, by rw [Machine.write, hk'], ?_, rfl, rfl⟩
    exact { h with memory := Table.Agree.setKey Key.readable_number h.memory k v }
  · rename_i htruthy
    rw [if_neg htruthy]
    cases hs
    exact ⟨m', rfl, h, rfl, rfl⟩

theorem joined_ret (h : Beside code b i r m m') (hc : code.Surplus b i) (hm : Reachable code answers m)
    (hop : q.op = .ret) (hs : m.step code code.labels q = .ok m₁) :
    Joined code b i r m₁ (m'.step (code.trimmed b i r) (code.trimmed b i r).labels q) := by
  simp only [Machine.step, hop] at hs
  obtain ⟨v, hv, hleave⟩ := except_bind_eq_ok hs
  rw [step_ret hop ((h.memory.resolve _).trans (resolve_eq_ok hv))]
  unfold Machine.leave at hleave ⊢
  dsimp only at hleave ⊢
  cases hstack : m.stack with
  | nil =>
    have hstack' : m'.stack = [] := List.forall₂_nil_left_iff.1 (hstack ▸ h.stack)
    simp only [hstack] at hleave
    cases hleave
    simp only [hstack']
    refine ⟨_, rfl, { h with pc := ?_, stack := .nil }, .inl rfl⟩
    exact (Code.kept_of_length_le (by simp)).symm
  | cons f rest =>
    obtain ⟨f', rest', ⟨hreturn, htarget⟩, hrest, hstack'⟩ := List.forall₂_cons_left_iff.1 (hstack ▸ h.stack)
    simp only [hstack] at hleave
    simp only [hstack', htarget]
    obtain ⟨j, q', -, hq', hcall, hresult⟩ := hm.fromCall f (hstack ▸ List.mem_cons_self)
    have hbeside : Beside code b i r { m with params := [], stack := rest, pc := f.returnIndex }
        { m' with params := [], stack := rest', pc := f'.returnIndex } := { h with pc := hreturn, stack := hrest }
    have hname := (hc.calls q' (List.mem_of_getElem? hq') hcall).2.2
    rw [hresult] at hname
    obtain ⟨m₁', hm₁', hbeside₁, hparams, hparams'⟩ := hbeside.store hname (f'.returnIndex - 1) hleave
    exact ⟨m₁', hm₁', hbeside₁, .inl (hparams'.trans hparams.symm)⟩

section
variable (h : Beside code b i r m m') (hc : code.Surplus b i) (hq : code[m.pc]? = some q)
  (hpc : m.pc < b ∨ i < m.pc) (hqueue : Shared (Spares code · m) m.params m'.params)
  (hs : m.step code code.labels q = .ok m₁)
include h hc hq hpc hqueue hs

theorem joined_jump (hop : q.op = .goto ∨ q.op = .jumpIfFalse) {k : Key} {p : Nat} (hk : q.result.key m.pc = .ok k)
    (hp : code.labels.getKey? k = some p) (hm₁ : m₁ = { m with pc := p }) :
    Joined code b i r m₁ (m'.jump (code.trimmed b i r).labels q.result) := by
  have hlabel : q.op ≠ .label := by rcases hop with hop | hop <;> simp [hop]
  have hret : q.op ≠ .ret := by rcases hop with hop | hop <;> simp [hop]
  obtain ⟨k', hk', hp'⟩ := hc.lookup hq (r := r) hpc hlabel hk hp
  subst hm₁
  refine ⟨{ m' with pc := code.trimmedAt b i r p }, ?_, { h with pc := rfl }, ?_⟩
  · rw [← h.pc] at hk'
    simp only [Machine.jump, Target.key, hk', hp']
  · exact hqueue.keep fun n hn => hn.of_le hq hret hs (Nat.le_refl _)

theorem joined_intrinsic {f : Intrinsic} (hop : q.op = .call) (hcall : m.callIntrinsic f q = .ok m₁) :
    Joined code b i r m₁ (m'.callIntrinsic f q) := by
  obtain ⟨-, ⟨k, hk⟩, hresult⟩ := hc.calls q (List.mem_of_getElem? hq) hop
  unfold callIntrinsic at hcall ⊢
  simp only [hk, argumentCount, Int.toNat_natCast] at hcall ⊢
  split at hcall
  · cases hcall
  · rename_i v answers heval
    obtain ⟨m₂, hm₂, hnext⟩ := except_bind_eq_ok hcall
    cases hnext
    obtain ⟨memory, hstored, -⟩ := store_eq_ok hm₂
    have hpc₂ : m₂.pc = m.pc := by rw [hstored]
    have hparams : m₂.next.params = m.params.drop (min k m.params.length) := by rw [hstored]; rfl
    obtain ⟨hle, hge, htake, hshared⟩ := hqueue.take (T := (Spares code · m₂.next)) (Nat.min_le_right k _) fun n hn =>
      hn.of_drop hq (by simp [hop]) hs (Nat.min_le_right k _) hparams
    -- what is taken is there in the shorter queue too, so it is not cut short
    have hcount : min k m'.params.length = min k m.params.length := by omega
    have hbeside : Beside code b i r { m with params := m.params.drop (min k m.params.length), answers := answers }
        { m' with params := m'.params.drop (min k m'.params.length), answers := answers } := { h with answers := rfl }
    obtain ⟨m₂', hm₂', hbeside₂, -, hparams'⟩ := hbeside.store hresult m'.pc hm₂
    refine ⟨m₂'.next, ?_, ?_, ?_⟩
    · rw [hcount, htake, h.answers, heval, ← hcount]
      dsimp only
      rw [hm₂']
      rfl
    · exact hbeside₂.next hc (q := q) (by rwa [hpc₂]) (by omega)
    · rw [hparams]
      change Shared _ _ m₂'.params
      rw [hparams', hcount]
      exact hshared

theorem joined_call (hop : q.op = .call) :
    Joined code b i r m₁ (m'.step (code.trimmed b i r) (code.trimmed b i r).labels q) := by
  obtain ⟨⟨s, harg⟩, -, -⟩ := hc.calls q (List.mem_of_getElem? hq) hop
  have hret : q.op ≠ .ret := by simp [hop]
  have hpc' := hpc.imp_right Nat.le_of_lt
  have hs' := hs
  rw [step_call hop, call, harg] at hs' ⊢
  dsimp only at hs' ⊢
  unfold callNamed at hs' ⊢
  rw [hc.labels_trimmed s]
  -- the console takes all that waits, so there the two queues have to be equal; a function takes nothing yet
  cases hlead : consoleLead? s with
  | some lead =>
    simp only [hlead] at hs' ⊢
    cases hs'
    have hall : (m.printLine lead).next.params = m.params.drop m.params.length := by rw [List.drop_length]; rfl
    have hsame : m'.params = m.params := hqueue.eq_of_all fun n hn =>
      (hn.of_drop hq hret hs (Nat.le_refl _) hall).1
    have hbeside : Beside code b i r (m.printLine lead) (m'.printLine lead) :=
      { h with output := by unfold printLine; rw [hsame, h.output] }
    exact ⟨_, rfl, hbeside.next hc hq hpc', .inl rfl⟩
  | none =>
    simp only [hlead] at hs' ⊢
    cases hp : code.labels.get? (.text s) with
    | some p =>
      simp only [hp, Option.map_some] at hs' ⊢
      cases hs'
      refine ⟨_, rfl, h.enter hc hq hpc' rfl p, hqueue.keep fun n hn => ?_⟩
      exact hn.of_le hq hret hs (Nat.le_refl _)
    | none =>
      simp only [hp, Option.map_none] at hs' ⊢
      cases hf : Intrinsic.ofTarget? s with
      | none => simp only [hf] at hs'; cases hs'
      | some f =>
        simp only [hf] at hs' ⊢
        exact h.joined_intrinsic hc hq hpc hqueue hs hop hs'

/-- An instruction that stays, other than the call itself, does the same to both machines. -/
theorem joined_step (hm : Reachable code answers m) :
    Joined code b i r m₁ (m'.step (code.trimmed b i r) (code.trimmed b i r).labels q) := by
  have hpc' : m.pc < b ∨ i ≤ m.pc := hpc.imp_right Nat.le_of_lt
  have hkeep : q.op ≠ .ret → m₁.params = m.params → Shared (Spares code · m₁) m₁.params m'.params := by
    intro hop hparams
    rw [hparams]
    exact hqueue.keep fun n hn => hn.of_le hq hop hs (by rw [hparams])
  have htail : q.op ≠ .ret → m₁.params = m.params.tail → m'.params.head? = m.params.head? ∧
      Shared (Spares code · m₁) m₁.params m'.params.tail := by
    intro hop hparams
    rw [hparams]
    exact hqueue.tail fun n c hle hdrop hn => hn.of_drop hq hop hs hle (hparams.trans hdrop)
  cases step_effect hs with
  | assign hop hv hk =>
    obtain ⟨k', hk', hbeside⟩ := h.write hc hq hpc hk _
    rw [step_assign hop ((h.memory.resolve _).trans hv), Machine.write, hk']
    exact ⟨_, rfl, hbeside, hkeep (by simp [hop]) rfl⟩
  | operator hop ha hb hv hk =>
    obtain ⟨k', hk', hbeside⟩ := h.write hc hq hpc hk _
    rw [step_operator hop ((h.memory.resolve _).trans ha) ((h.memory.resolve _).trans hb) hv, Machine.write, hk']
    exact ⟨_, rfl, hbeside, hkeep (by simp [hop]) rfl⟩
  | goto hop hk hp =>
    rw [step_goto hop]
    exact h.joined_jump hc hq hpc hqueue hs (.inl hop) hk hp rfl
  | pass hop hv ht =>
    rw [step_jumpIfFalse hop ((h.memory.resolve _).trans hv), if_pos ht]
    exact ⟨_, rfl, h.next hc hq hpc', hkeep (by simp [hop]) rfl⟩
  | branch hop hv ht hk hp =>
    rw [step_jumpIfFalse hop ((h.memory.resolve _).trans hv), if_neg (by simp [ht])]
    exact h.joined_jump hc hq hpc hqueue hs (.inr hop) hk hp rfl
  | @param v hop hv =>
    rw [step_param hop ((h.memory.resolve _).trans hv)]
    refine ⟨_, rfl, (h.setParams _ _).next hc hq hpc', hqueue.push (fun n hn => ?_) v⟩
    exact hn.of_le hq (by simp [hop]) hs (by simp [Machine.next])
  | receive hop hk =>
    obtain ⟨hhead, hshared⟩ := htail (by simp [hop]) rfl
    obtain ⟨k', hk', hbeside⟩ := (h.setParams m.params.tail m'.params.tail).write hc hq hpc hk
      (m.params.head?.getD .undefined)
    rw [step_receive hop, Machine.write, hk', hhead]
    exact ⟨_, rfl, hbeside, hshared⟩
  | skip hop =>
    rw [step_label hop]
    exact ⟨_, rfl, h.next hc hq hpc', hkeep (by rcases hop with hop | ⟨word, hop⟩ <;> simp [hop]) rfl⟩
  | print hop => exact h.joined_call hc hq hpc hqueue hs hop
  | enter hop => exact h.joined_call hc hq hpc hqueue hs hop
  | intrinsic hop => exact h.joined_call hc hq hpc hqueue hs hop
  | finish hop => exact h.joined_ret hc hm hop hs
  | leave hop => exact h.joined_ret hc hm hop hs

end

end Beside

theorem clear_of_step (hc : code.Surplus b i) (hm : Reachable code answers m) (hpc : m.pc < b ∨ i ≤ m.pc)
    (hs : m.step code code.labels q = .ok m₁) : m₁.pc ≤ b ∨ i < m₁.pc := by
  obtain ⟨qᵢ, f, p, hqᵢ, hopᵢ, -⟩ := hc.call
  have hnext : m.pc + 1 ≤ b ∨ i < m.pc + 1 := by omega
  have hlabel : ∀ {k : Key} {p : Nat}, code.labels.getKey? k = some p → p ≤ b ∨ i < p := by
    intro k p hp
    obtain ⟨q', hq', hop'⟩ := Code.labels_getKey?_eq_some hp
    have hne : p ≠ i := by
      rintro rfl
      rw [hqᵢ] at hq'
      cases hq'
      rw [hopᵢ] at hop'
      cases hop'
    have hout := hc.not_between hq' (by simp [hop'])
    omega
  -- between the surplus and its call there is neither a label nor a place to return to
  cases step_effect hs with
  | goto _ _ hp => exact hlabel hp
  | branch _ _ _ _ hp => exact hlabel hp
  | enter _ _ hp => exact hlabel hp
  | finish => exact .inr (List.getElem?_eq_some_iff.1 hqᵢ).1
  | @leave v frame rest memory _ _ hstack =>
    obtain ⟨j, q', hj, hq', hop', -⟩ := hm.fromCall frame (hstack ▸ List.mem_cons_self)
    have hout := hc.not_between hq' (by simp [hop'])
    change frame.returnIndex ≤ b ∨ i < frame.returnIndex
    omega
  | _ => exact hnext

/-- How much of the surplus has been pushed where a machine stands. -/
def surplusAt (b i j : Nat) : Nat := if j ≤ i then j - b else 0

theorem surplusAt_eq_zero {j : Nat} (h : j ≤ b ∨ i < j) : surplusAt b i j = 0 := by
  unfold surplusAt
  split <;> omega

theorem surplusAt_succ {j : Nat} (hb : b ≤ j) (hi : j < i) : surplusAt b i (j + 1) = surplusAt b i j + 1 := by
  unfold surplusAt
  rw [if_pos (by omega), if_pos hi.le]
  omega

/-- The machines beside each other. The trimmed one is behind by the surplus that the other has pushed; once that was
passed on, it is as far as nobody has taken any of it. -/
structure Follows (code : Code) (b i r : Nat) (m m' : Machine) : Prop extends Beside code b i r m m' where
  queue : (∃ vs, m.params = m'.params ++ vs ∧ vs.length = surplusAt b i m.pc) ∨
    ∃ n, Spares code n m ∧ Alike n m.params m'.params

namespace Follows

theorem start (code : Code) (b i r : Nat) (answers : Answers) :
    Follows code b i r (start answers) (start answers) where
  pc := rfl
  memory := .refl _
  stack := .nil
  output := rfl
  answers := rfl
  queue := .inl ⟨[], rfl, (surplusAt_eq_zero (.inl (Nat.zero_le b))).symm⟩

theorem of_shared (h : Beside code b i r m m') (hqueue : Shared (Spares code · m) m.params m'.params)
    (hpc : m.pc ≤ b ∨ i < m.pc) : Follows code b i r m m' := by
  exact { h with queue := hqueue.imp_left fun heq => ⟨[], by simp [heq], (surplusAt_eq_zero hpc).symm⟩ }

theorem shared (h : Follows code b i r m m') (hpc : m.pc ≤ b ∨ i < m.pc) :
    Shared (Spares code · m) m.params m'.params := by
  refine h.queue.imp_left fun ⟨vs, hparams, hlength⟩ => ?_
  rw [surplusAt_eq_zero hpc] at hlength
  rw [hparams, List.eq_nil_of_length_eq_zero hlength, List.append_nil]

variable (hc : code.Surplus b i) (hq : code[m.pc]? = some q) (hs : m.step code code.labels q = .ok m₁)
include hc hq hs

/-- While the surplus is pushed, the machine of the trimmed code waits at the call. -/
theorem skip (h : Follows code b i r m m') (hb : b ≤ m.pc) (hi : m.pc < i) : Follows code b i r m₁ m' := by
  have hop := hc.pushes m.pc q hb hi hq
  have hstay : code.trimmedAt b i r (m.pc + 1) = code.trimmedAt b i r m.pc := by
    rw [hc.trimmedAt_succ hq, if_neg (by omega), Nat.add_zero]
  cases step_effect hs with
  | @param v _ _ =>
    refine { h with pc := h.pc.trans hstay.symm, queue := ?_ }
    rcases h.queue with ⟨vs, hparams, hlength⟩ | ⟨n, hn, halike⟩
    · refine .inl ⟨vs ++ [v], ?_, ?_⟩
      · simp [Machine.next, hparams]
      · rw [List.length_append, hlength]
        exact (surplusAt_succ hb hi).symm
    · exact .inr ⟨n, hn.of_le hq (by simp [hop]) hs (by simp [Machine.next]), halike.push_left v⟩
  | skip hop' => rcases hop' with hop' | ⟨word, hop'⟩ <;> simp [hop] at hop'
  | _ => simp_all

theorem call (h : Follows code b i r m m') (hi : m.pc = i) (hspares : Spares code (m.params.length - (i - b)) m) :
    Joined code b i r m₁ (m'.step (code.trimmed b i r) (code.trimmed b i r).labels (q.passing r)) := by
  obtain ⟨q', f, p, hq', hop, harg, hp⟩ := hc.call
  rw [← hi, hq] at hq'
  cases hq'
  have hp' : (code.trimmed b i r).labels.get? (.text (functionMark ++ f)) = some (code.trimmedAt b i r p) := by
    rw [hc.labels_trimmed, hp]; rfl
  have hshared : Shared (Spares code · m) m.params m'.params := by
    rcases h.queue with ⟨vs, hparams, hlength⟩ | hspared
    · rw [hi, surplusAt, if_pos (Nat.le_refl i)] at hlength
      have hn : m.params.length - (i - b) = m'.params.length := by
        rw [hparams, List.length_append, hlength, Nat.add_sub_cancel]
      refine .inr ⟨_, hspares, ?_⟩
      rw [hn]
      exact ⟨by simp [hparams], Nat.le_refl _, by simp [hparams]⟩
    · exact .inr hspared
  have henter : m₁ = m.enter q p := by
    rw [step_call_of_get? hop harg hp] at hs
    exact (Except.ok.inj hs).symm
  refine ⟨m'.enter (q.passing r) (code.trimmedAt b i r p), step_call_of_get? hop harg hp', ?_, ?_⟩
  · rw [henter]
    exact h.enter hc hq (.inr hi.ge) rfl p
  · rw [henter] at hs ⊢
    exact hshared.keep fun n hn => hn.of_le hq (by simp [hop]) hs (Nat.le_refl _)

/-- A step of the code is skipped by the trimmed code, or one of it too. -/
theorem step (h : Follows code b i r m m') (hm : Reachable code answers m)
    (hspares : m.pc = i → Spares code (m.params.length - (i - b)) m) : Follows code b i r m₁ m' ∨
      ∃ q' m₁', (code.trimmed b i r)[m'.pc]? = some q' ∧
        m'.step (code.trimmed b i r) (code.trimmed b i r).labels q' = .ok m₁' ∧ Follows code b i r m₁ m₁' := by
  by_cases hbetween : b ≤ m.pc ∧ m.pc < i
  · exact .inl (h.skip hc hq hs hbetween.1 hbetween.2)
  · have hclear := clear_of_step hc hm (by omega) hs
    by_cases hi : m.pc = i
    · obtain ⟨m₁', hm₁', hbeside, hshared⟩ := h.call hc hq hs hi (hspares hi)
      refine .inr ⟨q.passing r, m₁', ?_, hm₁', .of_shared hbeside hshared hclear⟩
      rw [h.pc, hi]
      exact hc.getElem?_trimmed_call (hi ▸ hq)
    · have hpc : m.pc < b ∨ i < m.pc := by omega
      obtain ⟨m₁', hm₁', hbeside, hshared⟩ := h.joined_step hc hq hpc (h.shared (by omega)) hs hm
      refine .inr ⟨q, m₁', ?_, hm₁', .of_shared hbeside hshared hclear⟩
      rw [h.pc]
      exact hc.getElem?_trimmed hq hpc

end Follows

/-- A run that ends without a fault and spares the surplus is one of the trimmed code: it is not longer and prints
the same. -/
theorem Follows.ends (hc : code.Surplus b i) {o : Outcome}
    (he : Ends (fun m _ => Reachable code answers m ∧ (m.pc = i → Spares code (m.params.length - (i - b)) m)) code n m o)
    (hfault : o.fault = none) (h : Follows code b i r m m') :
    ∃ n' ≤ n, ∃ o', Ends (fun _ _ => True) (code.trimmed b i r) n' m' o' ∧ o'.fault = none ∧
      o'.machine.output = o.machine.output := by
  induction he generalizing m' with
  | @done m hq =>
    refine ⟨0, Nat.le_refl 0, { machine := m' }, .done ?_, rfl, h.output⟩
    rw [List.getElem?_eq_none_iff] at hq ⊢
    rw [h.pc]
    exact Nat.le_of_eq (Code.kept_of_length_le (by simpa using hq)).symm
  | fail => cases hfault
  | @step m m₁ q n o hq hS hs _ ih =>
    rcases h.step hc hq hs hS.1 hS.2 with hskip | ⟨q', m₁', hq', hm₁', hfollows⟩
    · obtain ⟨n', hn', o', he', ho⟩ := ih hfault hskip
      exact ⟨n', by omega, o', he', ho⟩
    · obtain ⟨n', hn', o', he', ho⟩ := ih hfault hfollows
      exact ⟨n' + 1, by omega, o', .step hq' trivial hm₁' he', ho⟩

end Machine

/-! ### Programs -/

open Machine

theorem Code.Surplus.keeps_output {code : Code} {b i r : Nat} (hc : code.Surplus b i) {maxSteps : Int} {answers : Answers}
    (hfault : (execute code maxSteps answers).fault = none)
    (hspares : ∀ m q, Machine.Performs code maxSteps answers m q → m.pc = i →
      Spares code (m.params.length - (i - b)) m) :
    (execute (code.trimmed b i r) maxSteps answers).fault = none ∧
      (run (code.trimmed b i r) maxSteps answers).output = (run code maxSteps answers).output := by
  have hlink : (code.trimmed b i r).linkFault? = code.linkFault? := by
    rw [linkFault?_filter hc.keeps, linkFault?_congr (control_modify code i r)]
  have hlinked : code.linkFault? = none := by
    unfold execute at hfault
    split at hfault
    · cases hfault
    · assumption
  unfold run
  rw [execute_of_linked hlinked] at hfault ⊢
  rw [execute_of_linked (hlink.trans hlinked)]
  obtain ⟨n, hn, he⟩ := ends_of_runFor
    (S := fun m _ => Reachable code answers m ∧ (m.pc = i → Spares code (m.params.length - (i - b)) m))
    (fun k hk m q hm hq => ⟨⟨k, hm⟩, hspares m q ⟨hlinked, hq, k, hk, hm⟩⟩) (by rw [hfault]; nofun)
  obtain ⟨n', hn', o', he', hfault', houtput⟩ := (Follows.start code b i r answers).ends hc he hfault
  rw [he'.runFor maxSteps (hn'.trans hn), report_output, report_output, hfault, hfault', houtput]
  exact ⟨rfl, rfl⟩

/-- A call of a function passes only the first of its arguments, and nothing else changes. If the run ends without a
fault and the others are never taken, but dropped by a return or left when the code ends, the same is printed. -/
theorem Node.trim_keeps_output {n : Node} {l : Lowered Unit} (hl : n.lower = .ok l) {i k p r : Nat} {f : String}
    {x : Target} (hcall : l.code.Has i [Quad.call f k x]) (hp : l.code.labels.get? (.text f) = some p)
    {maxSteps : Int} {answers : Answers} (hfault : (execute l.code maxSteps answers).fault = none)
    (hspares : ∀ m q, Machine.Performs l.code maxSteps answers m q → m.pc = i →
      Spares l.code (m.params.length - (k - r)) m) :
    (execute (l.code.trim i k r) maxSteps answers).fault = none ∧
      (run (l.code.trim i k r) maxSteps answers).output = (run l.code maxSteps answers).output := by
  obtain ⟨s, hs, hl⟩ := except_bind_eq_ok hl
  cases hl
  have hemits := Lower.stmt_emits (N := fun _ => True) (p := False) nofun n nofun hs
  have hemitted := hemits.emitted (fun _ => nofun) nofun Loop.drawn_none
  rw [Code.has_renumber] at hcall
  rw [Code.labels_congr Code.control_renumber] at hp
  obtain ⟨hc, hk⟩ := Code.surplus_of_emitted (r := r) hemitted hemits.balanced hcall hp
  have hsurplus : i - (i - (k - r)) = k - r := by omega
  rw [hc.trim_eq rfl]
  refine hc.keeps_output hfault fun m q hm hpc => ?_
  rw [hsurplus]
  exact hspares m q hm hpc

/-- A function with one parameter is called with two arguments, after which it calls a function that returns, and
prints. -/
def sparedProgram : Node := .bare (.program [
  .bare (.function (.named "g") [] (.bare (.block []))),
  .bare (.function (.named "f") [.mk (.ok .none) (.ok (.str "a")) .absent] (.bare (.block [
    .bare (.expression (.bare (.call (.named "g") []))),
    .bare (.expression (.print [.named "a"]))]))),
  .bare (.expression (.bare (.call (.named "f") [.int 1, .int 2])))])

def sparedCode : Code := Code.renumber [
  Quad.goto "END_FUNC_g", Quad.label "FUNC_g", Quad.ret void, Quad.label "END_FUNC_g",
  Quad.goto "END_FUNC_f", Quad.label "FUNC_f", Quad.receive (.name "a"), Quad.call "FUNC_g" 0 (.name "t0"),
  Quad.param (.name "a"), Quad.call "console_log" 1 .none, Quad.ret void, Quad.label "END_FUNC_f",
  Quad.param (.num (.int 1)), Quad.param (.num (.int 2)), Quad.call "FUNC_f" 2 (.name "t1")]

theorem sparedProgram_lower :
    sparedProgram.lower = .ok ⟨(), sparedCode, { temps := 2, functions := ["g", "f"] }⟩ := by
  cbv

/-- The surplus is dropped when the inner call returns, before the line is printed. -/
theorem Node.trim_keeps_output_spared : (execute sparedCode 30 .nobody).fault = none ∧
    (∀ m q, Machine.Performs sparedCode 30 .nobody m q → m.pc = 14 → Spares sparedCode (m.params.length - 1) m) ∧
    (run (sparedCode.trim 14 2 1) 30 .nobody).output = ["1"] := by
  have hcall : sparedCode.Has 14 [Quad.call "FUNC_f" 2 (.name "t1")] :=
    ⟨sparedCode.take 14 |>.map Quad.unnumbered, [], rfl, rfl⟩
  have hp : sparedCode.labels.get? (.text "FUNC_f") = some 5 := by rfl
  have hfault : (execute sparedCode 30 .nobody).fault = none := by rfl
  have hfor : ∀ m q, Machine.Performs sparedCode 30 .nobody m q → m.pc = 14 →
      m.sparesFor sparedCode 30 (m.params.length - 1) = true := Machine.Performs.of_after (by decide +kernel)
  have hspares := fun m q hm hpc => spares_of_sparesFor (hfor m q hm hpc)
  obtain ⟨-, houtput⟩ := trim_keeps_output (r := 1) sparedProgram_lower hcall hp hfault hspares
  exact ⟨hfault, hspares, houtput.trans (by decide +kernel)⟩

/-- A function with one parameter is called with two arguments, and prints a text. -/
def surplusProgram : Node := .bare (.program [
  .bare (.function (.named "f") [.mk (.ok .none) (.ok (.str "a")) .absent] (.bare (.block [
    .bare (.expression (.print [.bare (.literal false (.str "x"))]))]))),
  .bare (.expression (.bare (.call (.named "f") [.int 1, .int 2])))])

def surplusCode : Code := Code.renumber [
  Quad.goto "END_FUNC_f", Quad.label "FUNC_f", Quad.receive (.name "a"),
  Quad.param (.text "x"), Quad.call "console_log" 1 .none, Quad.ret void, Quad.label "END_FUNC_f",
  Quad.param (.num (.int 1)), Quad.param (.num (.int 2)), Quad.call "FUNC_f" 2 (.name "t0")]

theorem surplusProgram_lower :
    surplusProgram.lower = .ok ⟨(), surplusCode, { temps := 1, functions := ["f"] }⟩ := by
  cbv

/-- The argument that the function does not receive is printed in front of its text. -/
theorem Node.surplus_printed :
    surplusProgram.lower = .ok ⟨(), surplusCode, { temps := 1, functions := ["f"] }⟩ ∧
    surplusCode.Has 9 [Quad.call "FUNC_f" 2 (.name "t0")] ∧
    surplusCode.labels.get? (.text "FUNC_f") = some 1 ∧ surplusCode.Has 2 ([.name "a"].map Quad.receive) ∧
    (execute surplusCode 20 .nobody).fault = none ∧ (run surplusCode 20 .nobody).output = ["2 x"] ∧
    (run (surplusCode.trim 9 2 1) 20 .nobody).output = ["x"] := by
  refine ⟨surplusProgram_lower, ⟨surplusCode.take 9 |>.map Quad.unnumbered, [], rfl, rfl⟩, by rfl,
    ⟨surplusCode.take 2 |>.map Quad.unnumbered, surplusCode.drop 3 |>.map Quad.unnumbered, rfl, rfl⟩, ?_, ?_, ?_⟩
  · rfl
  · decide +kernel
  · decide +kernel

end QuadScript
