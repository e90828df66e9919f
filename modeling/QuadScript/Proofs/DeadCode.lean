import QuadScript.Proofs.Occurrences
import QuadScript.Proofs.CallingConvention
import QuadScript.Proofs.Jumps
import QuadScript.Proofs.Symbols

/-!
# Code that never runs

A stretch of code is sealed (`Code.Sealed`) if control does not run into it from the instruction before it and no jump
or call from outside goes to a label in it. The machine never stands in a sealed stretch. The parts of a program that
come after a jump or behind a test that always fails are sealed, so that they never run (`Node.dead_never_runs`). Of
those behind a test the analysis warns, at the node that the test decides about and in the words for the part that it
bars (`Node.Bars`).
-/

namespace QuadScript

/-! ### Where control comes from -/

namespace Machine

variable {code : Code} {answers : Answers} {m m' : Machine} {q q' : Quad} {i : Nat}

theorem Reachable.last (h : Reachable code answers m') : m' = Machine.start answers ∨
    ∃ m q, Reachable code answers m ∧ code[m.pc]? = some q ∧ m.step code code.labels q = .ok m' := by
  refine h.induct (P := fun m' => m' = Machine.start answers ∨
    ∃ m q, Reachable code answers m ∧ code[m.pc]? = some q ∧ m.step code code.labels q = .ok m') (.inl rfl) ?_
  intro m m' hm _ hadv
  obtain ⟨q, hq, hs⟩ := advance_eq_some hadv
  exact .inr ⟨m, q, hm, hq, hs⟩

/-- An instruction that is no label is reached from the one before it, unless that is a call. -/
theorem Reachable.exists_before (h : Reachable code answers m') (hpc : m'.pc = i + 1) (hq' : code[i + 1]? = some q')
    (hlabel : q'.op ≠ .label) (hq : code[i]? = some q) (hcall : q.op ≠ .call) :
    ∃ m, Reachable code answers m ∧ m.pc = i ∧ Effect code code.labels m q m' := by
  have hnone : ∀ {k p}, code.labels.getKey? k = some p → p ≠ i + 1 := by
    rintro k p hp rfl
    obtain ⟨q₁, hq₁, hop⟩ := Code.labels_getKey?_eq_some hp
    cases hq'.symm.trans hq₁
    exact hlabel hop
  -- no label stands here to jump to and no call stands before it to return to, so the last step went on from there
  rcases h.last with rfl | ⟨m, q₀, hm, hq₀, hs⟩
  · cases hpc
  · have heffect := step_effect hs
    have hmoves := heffect.moves
    rw [hpc] at hmoves
    generalize hto : i + 1 = j at hmoves
    cases hmoves with
    | next =>
      obtain rfl : i = m.pc := by omega
      cases hq.symm.trans hq₀
      exact ⟨m, hm, rfl, heffect⟩
    | jump _ _ hp => exact absurd hto.symm (hnone hp)
    | enter _ _ hp => exact absurd hto.symm (hnone hp)
    | finish =>
      have hlt := (List.getElem?_eq_some_iff.1 hq').1
      omega
    | leave _ hframe =>
      obtain ⟨j, q₁, hj, hq₁, hop, -⟩ := hm.fromCall _ hframe
      obtain rfl : i = j := by omega
      cases hq.symm.trans hq₁
      exact absurd hop hcall

end Machine

/-! ### Sealed code -/

/-- Control does not go on behind the code. -/
def Code.Stops (code : Code) (answers : Answers) (pre : Code) : Prop :=
  ∃ q, pre.getLast? = some q ∧ (q.op = .goto ∨ q.op = .ret ∨ q.op = .jumpIfFalse ∧
    ∀ m v, Machine.Reachable code answers m → m.pc + 1 = pre.length → m.memory.resolve q.arg1 = .ok v →
      v.truthy = false)

/-- A test that never fails in a run of the code. -/
def Code.Passes (code : Code) (answers : Answers) (q : Quad) : Prop :=
  q.op = .jumpIfFalse ∧
    ∀ m v, Machine.Reachable code answers m → m.memory.resolve q.arg1 = .ok v → v.truthy = true

/-- A stretch of code that control does not enter. -/
structure Code.Sealed (code : Code) (answers : Answers) (pre c post : Code) : Prop where
  eq : code = pre ++ (c ++ post)
  stops : code.Stops answers pre
  jumps : ∀ q ∈ pre ++ post, q.op = .goto ∨ q.op = .jumpIfFalse →
    (∃ x, q.result = .name x ∧ Quad.label x ∉ c) ∨ code.Passes answers q
  calls : ∀ q ∈ pre ++ post, q.op = .call → ∃ x, q.arg1 = .name x ∧ Quad.label x ∉ c
  labels : ∀ q ∈ c, q.op = .label → ∃ x, q = Quad.label x

namespace Code.Sealed

variable {code pre c post : Code} {answers : Answers}

theorem outside_of_label (h : code.Sealed answers pre c post) {x : String} (hx : Quad.label x ∉ c) {p : Nat}
    (hp : code.labels.getKey? (.text x) = some p) : p < pre.length ∨ pre.length + c.length ≤ p := by
  obtain ⟨q, hq, hop, hname⟩ := Code.labels_get?_eq_some hp
  by_contra hin
  have hmem : q ∈ c := by
    rw [h.eq, List.getElem?_append_right (by omega), List.getElem?_append_left (by omega)] at hq
    exact List.mem_of_getElem? hq
  obtain ⟨y, rfl⟩ := h.labels q hmem hop
  cases hname x rfl
  exact hx hmem

theorem mem_outside (h : code.Sealed answers pre c post) {p : Nat} {q : Quad} (hq : code[p]? = some q)
    (hp : p < pre.length ∨ pre.length + c.length ≤ p) : q ∈ pre ++ post := by
  rw [h.eq] at hq
  rcases hp with hp | hp
  · rw [List.getElem?_append_left hp] at hq
    exact List.mem_append_left _ (List.mem_of_getElem? hq)
  · rw [List.getElem?_append_right (by omega), List.getElem?_append_right (by omega)] at hq
    exact List.mem_append_right _ (List.mem_of_getElem? hq)

theorem outside_next (h : code.Sealed answers pre c post) {m : Machine} {q : Quad}
    (hm : Machine.Reachable code answers m) (hq : code[m.pc]? = some q)
    (hpc : m.pc < pre.length ∨ pre.length + c.length ≤ m.pc) (hgoto : q.op ≠ .goto) (hret : q.op ≠ .ret)
    (hpass : q.op = .jumpIfFalse → ∃ v, m.memory.resolve q.arg1 = .ok v ∧ v.truthy = true) :
    m.pc + 1 < pre.length ∨ pre.length + c.length ≤ m.pc + 1 := by
  by_contra hin
  have hlast : m.pc + 1 = pre.length := by omega
  obtain ⟨q', hq', hstop⟩ := h.stops
  obtain rfl : q' = q := by
    rw [h.eq, List.getElem?_append_left (by omega)] at hq
    rw [List.getLast?_eq_getElem?, ← hlast, Nat.add_sub_cancel, hq] at hq'
    exact (Option.some.inj hq').symm
  rcases hstop with hop | hop | ⟨hop, hfails⟩
  · exact hgoto hop
  · exact hret hop
  · obtain ⟨v, hv, ht⟩ := hpass hop
    rw [hfails m v hm hlast hv] at ht
    cases ht

/-- The machine never stands in a sealed stretch, nor does it return to one. -/
theorem outside (h : code.Sealed answers pre c post) {m : Machine} (hm : Machine.Reachable code answers m) :
    (m.pc < pre.length ∨ pre.length + c.length ≤ m.pc) ∧
      ∀ f ∈ m.stack, f.returnIndex < pre.length ∨ pre.length + c.length ≤ f.returnIndex := by
  have hpre : 0 < pre.length := by
    obtain ⟨q, hq, -⟩ := h.stops
    cases pre with
    | nil => cases hq
    | cons => exact Nat.succ_pos _
  -- the frames are part of the invariant, as a return goes wherever a frame says
  refine hm.induct (P := fun m => (m.pc < pre.length ∨ pre.length + c.length ≤ m.pc) ∧
    ∀ f ∈ m.stack, f.returnIndex < pre.length ∨ pre.length + c.length ≤ f.returnIndex) ?_ ?_
  · exact ⟨.inl hpre, fun f hf => by cases hf⟩
  · rintro m m' hm ⟨hpc, hframes⟩ hadv
    obtain ⟨q, hq, hs⟩ := Machine.advance_eq_some hadv
    have heffect := Machine.step_effect hs
    have hq' := h.mem_outside hq hpc
    refine ⟨?_, fun f hf => ?_⟩
    · have hmoves := heffect.moves
      generalize m'.pc = j at hmoves
      cases hmoves with
      | next hgoto hret hpass => exact h.outside_next hm hq hpc hgoto hret hpass
      | jump hop hk hp =>
        rcases h.jumps q hq' (hop.imp_right And.left) with ⟨x, hx, hout⟩ | ⟨hop', hpasses⟩
        · rw [hx] at hk
          cases hk
          exact h.outside_of_label hout hp
        · rcases hop with hop | ⟨-, v, hv, ht⟩
          · rw [hop] at hop'
            cases hop'
          · rw [hpasses m v hm hv] at ht
            cases ht
      | enter hop hk hp =>
        obtain ⟨x, hx, hout⟩ := h.calls q hq' hop
        rw [hx] at hk
        cases hk
        exact h.outside_of_label hout hp
      | finish =>
        rw [h.eq]
        simp only [List.length_append]
        omega
      | leave _ hframe => exact hframes _ hframe
    · rcases heffect.frames f hf with hf | ⟨hop, hf⟩
      · exact hframes f hf
      · rw [hf]
        exact h.outside_next hm hq hpc (by simp [hop]) (by simp [hop]) (by simp [hop])

end Code.Sealed

/-! ### Literals as tests -/

namespace Machine

variable {code : Code} {answers : Answers} {m m' : Machine} {x : String}

theorem get?_setKey_of_key {memory : Memory} {target : Target} {place : Nat} {k : Key} {v : Value}
    (hk : target.key place = .ok k) (hx : target.toTree ≠ .str x) :
    (memory.setKey k v).get? (.text x) = memory.get? (.text x) := by
  rw [Table.get?_setKey_text, if_neg]
  rintro rfl
  exact hx (Target.key_eq_text hk)

theorem Reachable.get?_eq_none (hm : Reachable code answers m)
    (hx : ∀ q ∈ code, q.op.writes = true → q.result.toTree ≠ .str x) : m.memory.get? (.text x) = none := by
  refine hm.induct (P := fun m => m.memory.get? (.text x) = none) rfl fun m m' hm ih hadv => ?_
  obtain ⟨q, hq, hs⟩ := advance_eq_some hadv
  have hq' := hx q (List.mem_of_getElem? hq)
  cases step_effect hs with
  | assign hop _ hk => exact (get?_setKey_of_key hk (hq' (by rw [hop]; rfl))).trans ih
  | operator hop _ _ _ hk => exact (get?_setKey_of_key hk (hq' (by rw [hop]; rfl))).trans ih
  | receive hop hk => exact (get?_setKey_of_key hk (hq' (by rw [hop]; rfl))).trans ih
  | intrinsic hop hmem =>
    rcases hmem with ⟨rfl, -⟩ | ⟨k, hk, rfl⟩
    · exact ih
    · exact (get?_setKey_of_key hk (hq' (by rw [hop]; rfl))).trans ih
  | leave _ _ hstack hmem =>
    rcases hmem with ⟨rfl, -⟩ | ⟨k, hk, rfl⟩
    · exact ih
    · -- the target is that of a call of the code
      obtain ⟨i, q', -, hi, hop, hres⟩ := hm.fromCall _ (hstack ▸ List.mem_cons_self)
      rw [← hres] at hk
      exact (get?_setKey_of_key hk (hx q' (List.mem_of_getElem? hi) (by rw [hop]; rfl))).trans ih
  | _ => exact ih

theorem Reachable.assigned {i : Nat} {a : Operand} {q' : Quad} (hm : Reachable code answers m) (hpc : m.pc = i + 1)
    (hq : code[i]? = some (Quad.assign a (.name x))) (hq' : code[i + 1]? = some q') (hlabel : q'.op ≠ .label) :
    ∃ m₀ v, Reachable code answers m₀ ∧ m₀.memory.resolve a = .ok v ∧ m.memory.resolve (.name x) = .ok v := by
  obtain ⟨m₀, hm₀, -, heffect⟩ := hm.exists_before hpc hq' hlabel hq (by simp [Quad.assign])
  cases heffect with
  | assign _ hv hk =>
    cases hk
    exact ⟨m₀, _, hm₀, hv, by simp [Memory.resolve, Memory.read, next]⟩
  | skip hop => simp [Quad.assign] at hop
  | _ hop => cases hop

theorem Reachable.computed {i : Nat} {op : Operator} {a b : Operand} {q' : Quad} (hm : Reachable code answers m)
    (hpc : m.pc = i + 1) (hq : code[i]? = some (Quad.operator op a b x)) (hq' : code[i + 1]? = some q')
    (hlabel : q'.op ≠ .label) :
    ∃ m₀ v v' u, Reachable code answers m₀ ∧ m₀.pc = i ∧ m₀.memory.resolve a = .ok v ∧ op.eval v v' = .ok u ∧
      m.memory.resolve (.name x) = .ok u := by
  obtain ⟨m₀, hm₀, hpc₀, heffect⟩ := hm.exists_before hpc hq' hlabel hq (by simp [Quad.operator])
  cases heffect with
  | operator hop hv _ hu hk =>
    cases hop
    cases hk
    exact ⟨m₀, _, _, _, hm₀, hpc₀, hv, hu, by simp [Memory.resolve, Memory.read, next]⟩
  | skip hop => simp [Quad.operator] at hop
  | _ hop => cases hop

end Machine

namespace Node

variable {n : Node} {s : Supply}

theorem lower_scalar (h : n.isScalar = true) : ∃ a, Lower.expr n s = .ok ⟨a, [], s⟩ ∧
    ∀ memory : Memory, memory.get? (.text "null") = none → ∃ v, memory.resolve a = .ok v ∧
      v.truthy = n.isAlwaysTrue ∧ v.truthy = !n.isAlwaysFalse := by
  unfold isScalar at h
  split at h
  · rename_i mark value
    refine ⟨_, Lower.expr_literal.2 rfl, fun memory hnull => ?_⟩
    cases value with
    | null => exact ⟨.null, by simp [Lower.literalOperand, Memory.resolve, Memory.read, hnull, namedConstant?], rfl, rfl⟩
    | bool b =>
      exact ⟨.bool b, rfl, by simp [Value.truthy, isAlwaysTrue, Tree.truthy],
        by simp [Value.truthy, isAlwaysFalse, Tree.truthy]⟩
    | str x =>
      exact ⟨.str x, rfl, by simp [Value.truthy, isAlwaysTrue, Tree.truthy],
        by simp [Value.truthy, isAlwaysFalse, Tree.truthy]⟩
    | num k =>
      have hk : k.isNaN = false := by simpa using h
      exact ⟨.num k, rfl, by simp [Value.truthy, isAlwaysTrue, Tree.truthy, hk],
        by simp [Value.truthy, isAlwaysFalse, Tree.truthy, hk]⟩
    | _ => cases h
  · cases h

theorem isAbsent_of_never (hn : n.isNever = true) : n.isAbsent = false := by
  cases n with
  | absent => cases hn
  | _ => rfl

end Node

/-! ### Parts that are sealed -/

/-- Code in which each drawn label stands once, whose calls go to no drawn label, and in whose runs `null` is what it
is. -/
structure Code.Orderly (code : Code) (answers : Answers) : Prop where
  once : ∀ k, (code.filterMap Quad.label?).count (labelName k) ≤ 1
  calls : ∀ q ∈ code, q.op = .call → ∃ x, q.arg1 = .name x ∧ ∀ k, x ≠ labelName k
  null : ∀ m, Machine.Reachable code answers m → m.memory.get? (.text "null") = none

namespace Code.Orderly

variable {code pre c post : Code} {answers : Answers} {k : Nat}

theorem not_mem (h : code.Orderly answers) (hcode : code = pre ++ (c ++ post)) (hc : Quad.label (labelName k) ∈ c) :
    Quad.label (labelName k) ∉ pre ++ post := by
  intro hout
  have hone := h.once k
  have hin : 0 < (c.filterMap Quad.label?).count (labelName k) :=
    List.count_pos_iff.2 (List.mem_filterMap.2 ⟨_, hc, Quad.label?_label _⟩)
  have hout' : 0 < ((pre ++ post).filterMap Quad.label?).count (labelName k) :=
    List.count_pos_iff.2 (List.mem_filterMap.2 ⟨_, hout, Quad.label?_label _⟩)
  rw [hcode] at hone
  simp only [List.filterMap_append, List.count_append] at hone hout'
  omega

/-- Code that control does not run into is sealed, if the jumps outside of it go to labels outside of it. -/
theorem sealed (h : code.Orderly answers) (hcode : code = pre ++ (c ++ post)) (hstops : code.Stops answers pre)
    (hlabels : ∀ q ∈ c, q.op = .label → ∃ k, q = Quad.label (labelName k))
    (hjumps : ∀ q ∈ pre ++ post, q.op = .goto ∨ q.op = .jumpIfFalse →
      (∃ x, q.result = .name x ∧ Quad.label x ∈ pre ++ post) ∨ code.Passes answers q) :
    code.Sealed answers pre c post where
  eq := hcode
  stops := hstops
  jumps q hq hj := by
    refine (hjumps q hq hj).imp_left ?_
    rintro ⟨x, hx, hout⟩
    refine ⟨x, hx, fun hin => ?_⟩
    obtain ⟨k, hk⟩ := hlabels _ hin rfl
    rw [hk] at hin hout
    exact h.not_mem hcode hin hout
  calls q hq hop := by
    have hmem : q ∈ code := by
      rw [hcode]
      simp only [List.mem_append] at hq ⊢
      tauto
    obtain ⟨x, hx, hne⟩ := h.calls q hmem hop
    refine ⟨x, hx, fun hin => ?_⟩
    obtain ⟨k, hk⟩ := hlabels _ hin rfl
    exact hne k (Target.name.inj (congrArg Quad.result hk))
  labels q hq hop := by
    obtain ⟨k, rfl⟩ := hlabels q hq hop
    exact ⟨_, rfl⟩

end Code.Orderly

namespace Code

variable {code pre rest : Code} {answers : Answers} {q : Quad} {n : Node} {s s' : Supply} {x y z : String}

theorem Orderly.truthy_scalar (h : code.Orderly answers) (hn : n.isScalar = true) {m : Machine} {v : Value}
    (hm : Machine.Reachable code answers m) (hv : m.memory.resolve (n.operand s) = .ok v) :
    v.truthy = n.isAlwaysTrue ∧ v.truthy = !n.isAlwaysFalse := by
  obtain ⟨a, ha, hvalue⟩ := Node.lower_scalar (s := s) hn
  obtain ⟨v', hv', ht⟩ := hvalue m.memory (h.null m hm)
  rw [Node.operand_eq ha] at hv
  cases hv.symm.trans hv'
  exact ht

theorem Orderly.truthy_never (h : code.Orderly answers) (hn : n.isNever = true) {m : Machine} {v : Value}
    (hm : Machine.Reachable code answers m) (hv : m.memory.resolve (n.operand s) = .ok v) : v.truthy = false := by
  obtain ⟨hscalar, hfalse⟩ := Bool.and_eq_true_iff.1 hn
  rw [(h.truthy_scalar hscalar hm hv).2, hfalse]
  rfl

theorem Orderly.truthy_ever (h : code.Orderly answers) (hn : n.isEver = true) {m : Machine} {v : Value}
    (hm : Machine.Reachable code answers m) (hv : m.memory.resolve (n.operand s) = .ok v) : v.truthy = true := by
  obtain ⟨hscalar, htrue⟩ := Bool.and_eq_true_iff.1 hn
  rw [(h.truthy_scalar hscalar hm hv).1, htrue]

theorem stops_of_op (hop : q.op = .goto ∨ q.op = .ret) : code.Stops answers (pre ++ [q]) :=
  ⟨q, by simp, hop.imp_right .inl⟩

theorem stops_of_fails {a : Operand} (hfails : ∀ m v, Machine.Reachable code answers m → m.pc = pre.length →
    m.memory.resolve a = .ok v → v.truthy = false) : code.Stops answers (pre ++ [Quad.jumpIfFalse a x]) := by
  refine ⟨Quad.jumpIfFalse a x, by simp, .inr (.inr ⟨rfl, fun m v hm hpc => hfails m v hm ?_⟩)⟩
  simpa using hpc

theorem stops_of_never (h : code.Orderly answers) (hn : n.isNever = true) :
    code.Stops answers (pre ++ [Quad.jumpIfFalse (n.operand s) x]) :=
  stops_of_fails fun _ _ hm _ hv => h.truthy_never hn hm hv

theorem passes_of_ever (h : code.Orderly answers) (hn : n.isEver = true) :
    code.Passes answers (Quad.jumpIfFalse (n.operand s) x) :=
  ⟨rfl, fun _ _ hm hv => h.truthy_ever (s := s) hn hm hv⟩

theorem stops_of_and (h : code.Orderly answers) (hn : n.isNever = true)
    (hcode : code = pre ++ Quad.assign (n.operand s) (.name x) :: Quad.jumpIfFalse (.name x) y :: rest) :
    code.Stops answers ((pre ++ [Quad.assign (n.operand s) (.name x)]) ++ [Quad.jumpIfFalse (.name x) y]) := by
  refine stops_of_fails fun m v hm hpc hv => ?_
  have h₀ : code[pre.length]? = some (Quad.assign (n.operand s) (.name x)) := by
    rw [hcode]
    simp
  have h₁ : code[pre.length + 1]? = some (Quad.jumpIfFalse (.name x) y) := by
    rw [hcode, List.getElem?_append_right (by omega)]
    simp
  obtain ⟨m₀, u, hm₀, hu, hu'⟩ := hm.assigned (by simpa using hpc) h₀ h₁ (by simp [Quad.jumpIfFalse])
  cases hu'.symm.trans hv
  exact h.truthy_never hn hm₀ hu

/-- The right side of `||` is not reached if the left side counts as true, which is negated before it is tested. -/
theorem stops_of_or (h : code.Orderly answers) (hn : n.isEver = true)
    (hcode : code = pre ++ Quad.assign (n.operand s) (.name x) ::
      Quad.operator (.unary .not) (.name x) .none y :: Quad.jumpIfFalse (.name y) z :: rest) :
    code.Stops answers ((pre ++ [Quad.assign (n.operand s) (.name x),
      Quad.operator (.unary .not) (.name x) .none y]) ++ [Quad.jumpIfFalse (.name y) z]) := by
  refine stops_of_fails fun m v hm hpc hv => ?_
  have h₀ : code[pre.length]? = some (Quad.assign (n.operand s) (.name x)) := by
    rw [hcode]
    simp
  have h₁ : code[pre.length + 1]? = some (Quad.operator (.unary .not) (.name x) .none y) := by
    rw [hcode, List.getElem?_append_right (by omega)]
    simp
  have h₂ : code[pre.length + 1 + 1]? = some (Quad.jumpIfFalse (.name y) z) := by
    rw [hcode, List.getElem?_append_right (by omega)]
    simp [Nat.add_assoc]
  obtain ⟨m₁, u, u', r, hm₁, hpc₁, hu, hr, hr'⟩ :=
    hm.computed (by simpa using hpc) h₁ h₂ (by simp [Quad.jumpIfFalse])
  obtain ⟨m₀, v₀, hm₀, hv₀, hv₁⟩ := hm₁.assigned hpc₁ h₀ h₁ (by simp [Quad.operator])
  cases hu.symm.trans hv₁
  cases hr
  cases hr'.symm.trans hv
  rw [Value.truthy, h.truthy_ever hn hm₀ hv₀]
  rfl

theorem stops_of_logical {operator : Tree} {t : Lowered Operand} (h : code.Orderly answers)
    (ht : Lower.logicalTest operator x s' = .ok t)
    (hdead : (operator.isText "&&" && n.isNever || operator.isText "||" && n.isEver) = true)
    (hcode : code = pre ++ Quad.assign (n.operand s) (.name x) :: (t.code ++ Quad.jumpIfFalse t.value y :: rest)) :
    code.Stops answers (pre ++ Quad.assign (n.operand s) (.name x) :: (t.code ++ [Quad.jumpIfFalse t.value y])) := by
  unfold Lower.logicalTest at ht
  rcases Bool.or_eq_true_iff.1 hdead with hand | hor
  · obtain ⟨hop, hnever⟩ := Bool.and_eq_true_iff.1 hand
    rw [if_pos hop, Lower.pure_eq_ok] at ht
    subst ht
    simpa using stops_of_and h hnever hcode
  · obtain ⟨hop, hever⟩ := Bool.and_eq_true_iff.1 hor
    have hnot : ¬ operator.isText "&&" = true := by
      cases operator with
      | str o => simp_all [Tree.isText]
      | _ => cases hop
    rw [if_neg hnot, if_pos hop, Lower.operator_eq_ok] at ht
    subst ht
    simpa using stops_of_or h hever hcode

end Code

namespace Part

variable {w w' : Part} {s s' : Supply} {r : Lowered Unit} {es : List Event} {i : Nat} {dead : Bool} {code pre post : Code}
  {answers : Answers}

theorem labels_of_functions_nil (hr : w.lower s = .ok r) (hloop : Loop.Drawn w.loop) (hfs : w.functions = []) :
    ∀ q ∈ w.code s, q.op = .label → ∃ k, q = Quad.label (labelName k) := by
  intro q hq hop
  rw [code_eq hr] at hq
  rcases marks_of_lower hr hloop hq hop with h | ⟨f, hf, -⟩
  · exact h
  · rw [hfs] at hf
    cases hf

/-- A stretch of code that is never run and covers a piece. -/
def Covered (code : Code) (answers : Answers) (start : Nat) (c : Code) : Prop :=
  ∃ pre c' post, code.Sealed answers pre c' post ∧ pre.length ≤ start ∧ start + c.length ≤ pre.length + c'.length

/-- A part that stands between two stretches of orderly code. -/
structure Stands (w : Part) (s : Supply) (code : Code) (answers : Answers) (pre post : Code) : Prop where
  orderly : code.Orderly answers
  eq : code = pre ++ (w.code s ++ post)
  around : w.Around pre post
  lowers : ∃ r, w.lower s = .ok r

/-- A part is sealed if control does not run into it. -/
theorem Stands.covered (h : w.Stands s code answers pre post) (hi : (w.pieces s)[i]? = some (.part dead es w' s'))
    (hfs : w'.functions = [])
    (hstops : code.Stops answers (pre ++ ((w.pieces s).take i).flatMap Piece.emitted)) :
    Covered code answers (pre.length + w.placeOf s i) (w'.code s') := by
  obtain ⟨r, hr⟩ := h.lowers
  have haround := h.around.part hr hi
  obtain ⟨r', hr'⟩ := lowers_of_getElem? hr hi
  refine ⟨_, _, _, h.orderly.sealed (c := w'.code s') ?_ hstops (labels_of_functions_nil hr' haround.drawn hfs)
    fun q hq hj => .inl (haround.jumps q hq hj), ?_, ?_⟩
  · rw [h.eq, code_eq hr, code_eq_pieces hr hi]
    simp only [Piece.emitted, List.append_assoc]
  · rw [List.length_append, placeOf]
  · rw [List.length_append, placeOf]

/-- The code behind a test that never fails is sealed together with the label in front of it: only the test jumps to
that label. -/
theorem Stands.covered_behind {a : Operand} {k : Nat} {b c : Code} (h : w.Stands s code answers pre post)
    (hi : (w.pieces s)[i]? = some (.part dead es w' s')) (hfs : w'.functions = [])
    (htake : ((w.pieces s).take i).flatMap Piece.emitted = Quad.jumpIfFalse a (labelName k) :: (b ++ (c ++
      [Quad.goto (labelName (k + 1)), Quad.label (labelName k)])))
    (hpasses : code.Passes answers (Quad.jumpIfFalse a (labelName k)))
    (hb : ∀ q ∈ b, q.op = .goto ∨ q.op = .jumpIfFalse → ∃ x, q.result = .name x ∧ (Quad.label x ∈ b ∨ w.Leaves x))
    (hc : ∀ q ∈ c ++ ((w.pieces s).drop (i + 1)).flatMap Piece.emitted, q.op ≠ .goto ∧ q.op ≠ .jumpIfFalse)
    (hdrop : Quad.label (labelName (k + 1)) ∈ ((w.pieces s).drop (i + 1)).flatMap Piece.emitted) :
    Covered code answers (pre.length + w.placeOf s i) (w'.code s') := by
  obtain ⟨r, hr⟩ := h.lowers
  obtain ⟨r', hr'⟩ := lowers_of_getElem? hr hi
  have hlabels := labels_of_functions_nil hr' (h.around.part hr hi).drawn hfs
  have hcode := h.eq
  rw [code_eq hr, code_eq_pieces hr hi, htake] at hcode
  rw [placeOf, htake]
  generalize ((w.pieces s).drop (i + 1)).flatMap Piece.emitted = e at hcode hc hdrop
  generalize hx : Quad.jumpIfFalse a (labelName k) :: (b ++ (c ++ [Quad.goto (labelName (k + 1))])) = before
  -- the stretch begins with the label before the part: only the test jumps there, and it passes
  refine ⟨pre ++ before, Quad.label (labelName k) :: w'.code s', e ++ post, h.orderly.sealed ?_ ?_ ?_ ?_, ?_, ?_⟩
  · rw [hcode, ← hx]
    simp [Piece.emitted]
  · have hgoto : code.Stops answers ((pre ++ (Quad.jumpIfFalse a (labelName k) :: (b ++ c))) ++
        [Quad.goto (labelName (k + 1))]) := Code.stops_of_op (.inl rfl)
    rw [← hx]
    simpa using hgoto
  · exact List.forall_mem_cons.2 ⟨fun _ => ⟨k, rfl⟩, hlabels⟩
  · have hout : ∀ {x}, Quad.label x ∈ pre ++ post ∨ Quad.label x ∈ b ∨ Quad.label x ∈ e →
        Quad.label x ∈ (pre ++ before) ++ (e ++ post) := by
      intro x hmem
      rw [← hx]
      simp only [List.mem_append, List.mem_cons] at hmem ⊢
      tauto
    intro q hq hj
    have hnone : q ∉ c ++ e := fun hmem => hj.elim (hc q hmem).1 (hc q hmem).2
    have hcases : q ∈ pre ++ post ∨ q = Quad.jumpIfFalse a (labelName k) ∨ q ∈ b ∨
        q = Quad.goto (labelName (k + 1)) := by
      rw [← hx] at hq
      simp only [List.mem_append, List.mem_cons, List.not_mem_nil, or_false] at hq hnone ⊢
      tauto
    rcases hcases with hq | rfl | hq | rfl
    · obtain ⟨x, hx, hmem⟩ := h.around.jumps q hq hj
      exact .inl ⟨x, hx, hout (.inl hmem)⟩
    · exact .inr hpasses
    · obtain ⟨x, hx, hmem | hleaves⟩ := hb q hq hj
      · exact .inl ⟨x, hx, hout (.inr (.inl hmem))⟩
      · exact .inl ⟨x, hx, hout (.inl (h.around.leaves x hleaves))⟩
    · exact .inl ⟨_, rfl, hout (.inr (.inr hdrop))⟩
  · rw [← hx]
    simp
  · rw [← hx]
    simp
    omega

theorem code_scalar {n : Node} (hn : n.isScalar = true) : (Part.expr n).code s = [] := by
  obtain ⟨a, ha, -⟩ := Node.lower_scalar (s := s) hn
  exact code_eq (lower_expr ha)

theorem code_never {n : Node} (hn : n.isNever = true) : (Part.expr n).code s = [] :=
  code_scalar (Bool.and_eq_true_iff.1 hn).1

theorem code_ever {n : Node} (hn : n.isEver = true) : (Part.expr n).code s = [] :=
  code_scalar (Bool.and_eq_true_iff.1 hn).1

theorem stops_of_leaves {loop : Option Loop} {n : Node} (hr : Lower.stmt loop n s = .ok r)
    (hleaves : n.leaves loop = true) : code.Stops answers (pre ++ r.code) := by
  unfold Node.leaves at hleaves
  split at hleaves
  · obtain ⟨a, ha, rfl⟩ := Lower.stmt_return.1 hr
    have hret : code.Stops answers ((pre ++ a.code) ++ [Quad.ret a.value]) := Code.stops_of_op (.inr rfl)
    simpa using hret
  · rename_i mark labelled
    obtain ⟨hloop, hlabelled⟩ := Bool.and_eq_true_iff.1 hleaves
    obtain ⟨l, rfl⟩ := Option.isSome_iff_exists.1 hloop
    cases labelled with
    | true => cases hlabelled
    | false =>
      rw [Lower.goto_eq_ok.1 hr]
      exact Code.stops_of_op (.inl rfl)
  · rename_i mark labelled
    obtain ⟨hloop, hlabelled⟩ := Bool.and_eq_true_iff.1 hleaves
    obtain ⟨l, rfl⟩ := Option.isSome_iff_exists.1 hloop
    cases labelled with
    | true => cases hlabelled
    | false =>
      rw [Lower.goto_eq_ok.1 hr]
      exact Code.stops_of_op (.inl rfl)
  · cases hleaves

section

variable {loop : Option Loop} {mark : Mark} {test consequent alternate : Node}

theorem covered_if (h : (Part.stmt loop (.mk mark (.if test consequent alternate))).Stands s code answers pre post)
    (hi : (Part.pieces (.stmt loop (.mk mark (.if test consequent alternate))) s)[i]? = some (.part true es w' s'))
    (hfs : w'.functions = []) :
    Covered code answers (pre.length + placeOf (.stmt loop (.mk mark (.if test consequent alternate))) s i)
      (w'.code s') := by
  have hi' := hi
  rcases i with _ | _ | _ | _ | _ | _ | i
  all_goals simp [pieces, Node.stmtPieces] at hi'
  · obtain ⟨hnever, -, -, -⟩ := hi'
    refine h.covered hi hfs ?_
    simpa [pieces, Node.stmtPieces, Piece.emitted, code_never hnever] using Code.stops_of_never h.orderly hnever
  · obtain ⟨hever, -, rfl, rfl⟩ := hi'
    obtain ⟨r, hr⟩ := h.lowers
    obtain ⟨b, hb⟩ := lowers_of_getElem? hr (i := 2) rfl
    refine h.covered_behind (a := test.operand (s.drawLabels 2)) (k := s.labels) (b := b.code) (c := []) hi hfs ?_
      (Code.passes_of_ever h.orderly hever) (fun q hq hj => jumps_of_lower hb hq hj) ?_ ?_
    · simp [pieces, Node.stmtPieces, Piece.emitted, code_ever hever, code_eq hb]
    · simp [pieces, Node.stmtPieces, Piece.emitted]
    · simp [pieces, Node.stmtPieces, Piece.emitted]

theorem covered_conditional
    (h : (Part.expr (.mk mark (.conditional test consequent alternate))).Stands s code answers pre post)
    (hi : (Part.pieces (.expr (.mk mark (.conditional test consequent alternate))) s)[i]? = some (.part true es w' s'))
    (hfs : w'.functions = []) :
    Covered code answers (pre.length + placeOf (.expr (.mk mark (.conditional test consequent alternate))) s i)
      (w'.code s') := by
  have hi' := hi
  rcases i with _ | _ | _ | _ | _ | _ | i
  all_goals simp [pieces, Node.exprPieces] at hi'
  · obtain ⟨hnever, -, -, -⟩ := hi'
    refine h.covered hi hfs ?_
    simpa [pieces, Node.exprPieces, Piece.emitted, code_never hnever] using Code.stops_of_never h.orderly hnever
  · obtain ⟨hever, -, rfl, rfl⟩ := hi'
    obtain ⟨r, hr⟩ := h.lowers
    obtain ⟨b, hb⟩ := lowers_of_getElem? hr (i := 2) rfl
    let s₁ := s.drawJoin.drawLabels 2
    refine h.covered_behind (a := test.operand s₁) (k := s.labels) (b := b.code)
      (c := [Quad.assign (consequent.operand ((Part.expr test).after s₁)) (.name (joinName s.joins))]) hi hfs ?_
      (Code.passes_of_ever h.orderly hever) (fun q hq hj => jumps_of_lower hb hq hj) ?_ ?_
    · simp [pieces, Node.exprPieces, Piece.emitted, code_ever hever, code_eq hb, s₁]
    · simp [pieces, Node.exprPieces, Piece.emitted]
    · simp [pieces, Node.exprPieces, Piece.emitted]

theorem covered_while {body : Node} (h : (Part.stmt loop (.mk mark (.while test body))).Stands s code answers pre post)
    (hi : (Part.pieces (.stmt loop (.mk mark (.while test body))) s)[i]? = some (.part true es w' s'))
    (hfs : w'.functions = []) :
    Covered code answers (pre.length + placeOf (.stmt loop (.mk mark (.while test body))) s i) (w'.code s') := by
  have hi' := hi
  rcases i with _ | _ | _ | _ | _ | i
  all_goals simp [pieces, Node.stmtPieces] at hi'
  obtain ⟨hnever, -, -, -⟩ := hi'
  refine h.covered hi hfs ?_
  have hstops : code.Stops answers ((pre ++ [Quad.label (labelName s.labels)]) ++
      [Quad.jumpIfFalse (test.operand (s.drawLabels 2)) (labelName (s.labels + 1))]) :=
    Code.stops_of_never h.orderly hnever
  simpa [pieces, Node.stmtPieces, Piece.emitted, code_never hnever] using hstops

theorem covered_for {init update body : Node}
    (h : (Part.stmt loop (.mk mark (.for init test update body))).Stands s code answers pre post)
    (hi : (Part.pieces (.stmt loop (.mk mark (.for init test update body))) s)[i]? = some (.part true es w' s'))
    (hfs : w'.functions = []) :
    Covered code answers (pre.length + placeOf (.stmt loop (.mk mark (.for init test update body))) s i)
      (w'.code s') := by
  have hi' := hi
  rcases i with _ | _ | _ | _ | _ | _ | i
  all_goals simp [pieces, Node.stmtPieces] at hi'
  obtain ⟨hnever, -, -, -⟩ := hi'
  refine h.covered hi hfs ?_
  let s₁ := init.initPart.after s
  have hstops : code.Stops answers ((pre ++ (init.initPart.code s ++ [Quad.label (labelName s₁.labels)])) ++
      [Quad.jumpIfFalse (test.operand (s₁.drawLabels 3)) (labelName (s₁.labels + 2))]) :=
    Code.stops_of_never h.orderly hnever
  simpa [pieces, Node.stmtPieces, Piece.emitted, code_never hnever, Node.isAbsent_of_never hnever, s₁] using hstops

theorem covered_logical {operator : Tree} {left right : Node}
    (h : (Part.expr (.mk mark (.logical operator left right))).Stands s code answers pre post)
    (hi : (Part.pieces (.expr (.mk mark (.logical operator left right))) s)[i]? = some (.part true es w' s'))
    (hfs : w'.functions = []) :
    Covered code answers (pre.length + placeOf (.expr (.mk mark (.logical operator left right))) s i)
      (w'.code s') := by
  have hi' := hi
  let s₁ := s.drawJoin.drawLabels 1
  cases ht : Lower.logicalTest operator (joinName s.joins) ((Part.expr left).after s₁) with
  | error f => simp [pieces, Node.exprPieces, ht, s₁] at hi'
  | ok t =>
    -- only the right side can be dead
    rcases i with _ | _ | _ | _ | _ | _ | i
    all_goals simp [pieces, Node.exprPieces, ht, s₁] at hi'
    obtain ⟨hdead, -, -, -⟩ := hi'
    -- a left side that decides the test is a literal, and has no code
    have hleft : (Part.expr left).code s₁ = [] := by
      rcases hdead with ⟨-, hnever⟩ | ⟨-, hever⟩
      · exact code_never hnever
      · exact code_ever hever
    have htake : ((Part.pieces (.expr (.mk mark (.logical operator left right))) s).take 4).flatMap Piece.emitted =
        Quad.assign (left.operand s₁) (.name (joinName s.joins)) ::
          (t.code ++ [Quad.jumpIfFalse t.value (labelName s.labels)]) := by
      simp [pieces, Node.exprPieces, ht, s₁, Piece.emitted, hleft]
    obtain ⟨r, hr⟩ := h.lowers
    have hcode := h.eq
    rw [code_eq hr, code_eq_pieces hr hi, htake] at hcode
    refine h.covered hi hfs ?_
    rw [htake]
    exact Code.stops_of_logical h.orderly ht (by simpa using hdead) (by simpa using hcode)

theorem dead_stmt_cases {n : Node} (h : Piece.part true es w' s' ∈ n.stmtPieces loop s) :
    (∃ mark test consequent alternate, n = .mk mark (.if test consequent alternate)) ∨
      (∃ mark test body, n = .mk mark (.while test body)) ∨
      ∃ mark init test update body, n = .mk mark (.for init test update body) := by
  cases n with
  | mk mark form =>
    cases form with
    | «if» test consequent alternate => exact .inl ⟨_, _, _, _, rfl⟩
    | «while» test body => exact .inr (.inl ⟨_, _, _, rfl⟩)
    | «for» init test update body => exact .inr (.inr ⟨_, _, _, _, _, rfl⟩)
    | function id params body =>
      simp only [Node.stmtPieces] at h
      split at h
      · split at h <;> simp at h
      · cases h
    | «break» labelled | «continue» labelled =>
      simp only [Node.stmtPieces] at h
      split at h <;> simp at h
    | _ => simp [Node.stmtPieces] at h
  | _ => simp [Node.stmtPieces] at h

theorem dead_expr_cases {n : Node} (h : Piece.part true es w' s' ∈ n.exprPieces s) :
    (∃ mark test consequent alternate, n = .mk mark (.conditional test consequent alternate)) ∨
      ∃ mark operator left right, n = .mk mark (.logical operator left right) := by
  cases n with
  | mk mark form =>
    cases form with
    | conditional test consequent alternate => exact .inl ⟨_, _, _, _, rfl⟩
    | logical operator left right => exact .inr ⟨_, _, _, _, rfl⟩
    | assignment operator left right =>
      simp only [Node.exprPieces] at h
      split at h
      · split at h
        · simp at h
        · split at h <;> simp at h
      · cases h
    | binary operator left right | call called arguments =>
      simp only [Node.exprPieces] at h
      split at h <;> simp at h
    | unary operator argument =>
      simp only [Node.exprPieces] at h
      split at h
      · simp at h
      · split at h <;> simp at h
    | update operator leading argument =>
      simp only [Node.exprPieces] at h
      split at h
      · split at h <;> simp at h
      · cases h
    | _ => simp [Node.exprPieces] at h
  | _ => simp [Node.exprPieces] at h

theorem dead_cases (h : Piece.part true es w' s' ∈ w.pieces s) :
    (∃ loop unreachable n rest, w = .stmts loop unreachable (n :: rest)) ∨ (∃ loop n, w = .stmt loop n) ∨
      (∃ n, w = .body n ∧ ∀ mark ns, n ≠ .mk mark (.block ns)) ∨ ∃ n, w = .expr n := by
  cases w with
  | stmt loop n => exact .inr (.inl ⟨loop, n, rfl⟩)
  | body n =>
    refine .inr (.inr (.inl ⟨n, rfl, ?_⟩))
    rintro mark ns rfl
    simp [pieces] at h
  | stmts loop unreachable ns =>
    cases ns with
    | nil => cases h
    | cons n rest => exact .inl ⟨_, _, _, _, rfl⟩
  | round loop n update => simp [pieces] at h
  | expr n => exact .inr (.inr (.inr ⟨n, rfl⟩))
  | exprs ns => cases ns <;> simp [pieces] at h
  | declarators kind ds => cases ds <;> simp [pieces] at h
  | declarator kind d =>
    rw [pieces, Declarator.pieces.eq_def] at h
    split at h
    · split at h
      · split at h <;> simp at h
      · cases h
    · cases h

theorem pieces_body_of_ne {n : Node} (hn : ∀ mark ns, n ≠ .mk mark (.block ns)) :
    (Part.body n).pieces s = (Part.stmt none n).pieces s := by
  rw [pieces, pieces]
  exact hn

theorem covered_stmt {n : Node} (h : (Part.stmt loop n).Stands s code answers pre post)
    (hi : (Part.pieces (.stmt loop n) s)[i]? = some (.part true es w' s')) (hfs : w'.functions = []) :
    Covered code answers (pre.length + placeOf (.stmt loop n) s i) (w'.code s') := by
  rcases dead_stmt_cases (List.mem_of_getElem? hi) with ⟨_, _, _, _, rfl⟩ | ⟨_, _, _, rfl⟩ | ⟨_, _, _, _, _, rfl⟩
  · exact covered_if h hi hfs
  · exact covered_while h hi hfs
  · exact covered_for h hi hfs

/-- A part that is called dead is covered by a sealed stretch. -/
theorem covered_dead (h : w.Stands s code answers pre post) (hi : (w.pieces s)[i]? = some (.part true es w' s'))
    (hfs : w'.functions = []) : Covered code answers (pre.length + w.placeOf s i) (w'.code s') := by
  rcases dead_cases (List.mem_of_getElem? hi) with ⟨_, _, n, rest, rfl⟩ | ⟨_, _, rfl⟩ | ⟨n, rfl, hn⟩ | ⟨n, rfl⟩
  · have hi' := hi
    rcases i with _ | _ | i
    all_goals simp [pieces] at hi'
    obtain ⟨hleaves, -, -, -⟩ := hi'
    obtain ⟨r, hr⟩ := h.lowers
    obtain ⟨a, ha⟩ := lowers_of_getElem? hr (i := 0) rfl
    refine h.covered hi hfs ?_
    simpa [pieces, Piece.emitted, code_eq ha] using stops_of_leaves ha hleaves
  · exact covered_stmt h hi hfs
  · have hstands : (Part.stmt none n).Stands s code answers pre post :=
      ⟨h.orderly, h.eq, ⟨h.around.drawn, h.around.leaves, h.around.jumps⟩, h.lowers⟩
    rw [pieces_body_of_ne hn] at hi
    rw [placeOf, pieces_body_of_ne hn]
    exact covered_stmt hstands hi hfs
  · rcases dead_expr_cases (List.mem_of_getElem? hi) with ⟨_, _, _, _, rfl⟩ | ⟨_, _, _, _, rfl⟩
    · exact covered_conditional h hi hfs
    · exact covered_logical h hi hfs

end

/-! ### Warnings of what is dead -/

/-- The node of which a part is the code. -/
def node? : Part → Option Node
  | .stmt _ n => some n
  | .body n => some n
  | .expr n => some n
  | _ => none

end Part

/-- The test of a node keeps a part of the node from being reached, and this is what is said of it. -/
inductive Node.Bars : Node → Part → String → Prop
  | ifBranch {mark : Mark} {test consequent alternate : Node} {loop : Option Loop} (h : test.isNever = true) :
      Bars (.mk mark (.if test consequent alternate)) (.stmt loop consequent)
        "Condition is always false; the if branch is never executed"
  | elseBranch {mark : Mark} {test consequent alternate : Node} {loop : Option Loop} (h : test.isEver = true) :
      Bars (.mk mark (.if test consequent alternate)) (.stmt loop alternate)
        "Condition is always true; the else branch is never executed"
  | whileBody {mark : Mark} {test body : Node} {loop : Option Loop} (h : test.isNever = true) :
      Bars (.mk mark (.while test body)) (.stmt loop body) "Loop condition is always false; the body never runs"
  /-- The update belongs to the rounds of the loop, as the body does. -/
  | forRound {mark : Mark} {init test update body : Node} {loop : Loop} (h : test.isNever = true) :
      Bars (.mk mark (.for init test update body)) (.round loop body update)
        "For loop condition is always false; the loop never runs"
  | consequent {mark : Mark} {test consequent alternate : Node} (h : test.isNever = true) :
      Bars (.mk mark (.conditional test consequent alternate)) (.expr consequent)
        "Condition is always false; the consequent branch is never evaluated"
  | alternate {mark : Mark} {test consequent alternate : Node} (h : test.isEver = true) :
      Bars (.mk mark (.conditional test consequent alternate)) (.expr alternate)
        "Condition is always true; the alternate branch is never evaluated"
  | andRight {mark : Mark} {operator : Tree} {left right : Node} (hop : operator.isText "&&" = true)
      (h : left.isNever = true) : Bars (.mk mark (.logical operator left right)) (.expr right)
        "Left side of && is always false; the right side is never evaluated"
  | orRight {mark : Mark} {operator : Tree} {left right : Node} (hop : operator.isText "||" = true)
      (h : left.isEver = true) : Bars (.mk mark (.logical operator left right)) (.expr right)
        "Left side of || is always true; the right side is never evaluated"

namespace Part

variable {w w' : Part} {s s' : Supply} {es : List Event}

section

variable {test : Node} {a b : String} {place : Except Fault Place}

theorem warn_never (h : test.isNever = true) :
    Event.warn b place ∈ Node.warnEither test.isAlwaysTrue test.isAlwaysFalse a b place := by
  obtain ⟨hscalar, hfalse⟩ := Bool.and_eq_true_iff.1 h
  -- a literal that counts as false does not count as true
  obtain ⟨_, -, hvalue⟩ := Node.lower_scalar (s := {}) hscalar
  obtain ⟨v, -, htrue, hfalse'⟩ := hvalue (∅ : Memory) rfl
  rw [hfalse, htrue] at hfalse'
  simp [Node.warnEither, Node.warnIf, hfalse, hfalse']

theorem warn_ever (h : test.isEver = true) :
    Event.warn a place ∈ Node.warnEither test.isAlwaysTrue test.isAlwaysFalse a b place := by
  simp [Node.warnEither, (Bool.and_eq_true_iff.1 h).2]

end

theorem bars_stmt {loop : Option Loop} {n : Node} (h : Piece.part true es w' s' ∈ n.stmtPieces loop s) :
    ∃ text, n.Bars w' text ∧ Event.warn text n.place ∈ n.events := by
  rcases dead_stmt_cases h with ⟨mark, test, _, _, rfl⟩ | ⟨mark, test, _, rfl⟩ | ⟨mark, init, test, _, _, rfl⟩
  · simp [Node.stmtPieces] at h
    rw [Node.events]
    obtain ⟨hnever, -, rfl, -⟩ | ⟨hever, -, rfl, -⟩ := h
    · exact ⟨_, .ifBranch hnever, List.mem_append_right _ (List.mem_append_left _ (warn_never hnever))⟩
    · exact ⟨_, .elseBranch hever, List.mem_append_right _ (List.mem_append_left _ (warn_ever hever))⟩
  · simp [Node.stmtPieces] at h
    obtain ⟨hnever, -, rfl, -⟩ := h
    rw [Node.events]
    exact ⟨_, .whileBody hnever, List.mem_append_right _ (List.mem_append_left _ (warn_never hnever))⟩
  · simp [Node.stmtPieces] at h
    obtain ⟨hnever, -, rfl, -⟩ := h
    have hwarn : Event.warn "For loop condition is always false; the loop never runs" mark.place ∈
        Node.warnIf test.isAlwaysFalse "For loop condition is always false; the loop never runs" mark.place := by
      simp [Node.warnIf, (Bool.and_eq_true_iff.1 hnever).2]
    refine ⟨_, .forRound hnever, ?_⟩
    rw [Node.events]
    simp only [List.mem_cons, List.mem_append]
    exact .inr (.inl (.inr (.inr (.inl hwarn))))

theorem bars_expr {n : Node} (h : Piece.part true es w' s' ∈ n.exprPieces s) :
    ∃ text, n.Bars w' text ∧ Event.warn text n.place ∈ n.events := by
  rcases dead_expr_cases h with ⟨mark, test, _, _, rfl⟩ | ⟨mark, operator, left, _, rfl⟩
  · have hlast : ∀ {c d e : List Event}, ∀ x ∈ e, x ∈ test.events ++ (c ++ (d ++ e)) := fun x hx =>
      List.mem_append_right _ (List.mem_append_right _ (List.mem_append_right _ hx))
    simp [Node.exprPieces] at h
    rw [Node.events]
    obtain ⟨hnever, -, rfl, -⟩ | ⟨hever, -, rfl, -⟩ := h
    · exact ⟨_, .consequent hnever, hlast _ (warn_never hnever)⟩
    · exact ⟨_, .alternate hever, hlast _ (warn_ever hever)⟩
  · simp only [Node.exprPieces] at h
    split at h
    · simp at h
      obtain ⟨hdead, -, rfl, -⟩ := h
      rw [Node.events]
      rcases hdead with ⟨hop, hnever⟩ | ⟨hop, hever⟩
      · refine ⟨_, .andRight hop hnever, List.mem_append_right _ (List.mem_append_right _ ?_)⟩
        rw [hop, (Bool.and_eq_true_iff.1 hnever).2]
        exact List.mem_cons_self
      · have hnot : operator.isText "&&" = false := by
          cases operator with
          | str o => simp_all [Tree.isText]
          | _ => cases hop
        refine ⟨_, .orRight hop hever, List.mem_append_right _ (List.mem_append_right _ ?_)⟩
        rw [hop, hnot, (Bool.and_eq_true_iff.1 hever).2]
        exact List.mem_cons_self
    · cases h

/-- A dead piece that is not what follows in a list is kept from being reached by a test, and warned of. -/
theorem bars_of_dead (h : Piece.part true es w' s' ∈ w.pieces s)
    (hw : ∀ loop unreachable ns, w ≠ .stmts loop unreachable ns) :
    ∃ m text, w.node? = some m ∧ m.Bars w' text ∧ Event.warn text m.place ∈ w.events := by
  rcases dead_cases h with ⟨_, _, n, rest, rfl⟩ | ⟨_, n, rfl⟩ | ⟨n, rfl, hn⟩ | ⟨n, rfl⟩
  · exact absurd rfl (hw _ _ _)
  · obtain ⟨text, hbars, hwarn⟩ := bars_stmt h
    exact ⟨n, text, rfl, hbars, hwarn⟩
  · rw [pieces_body_of_ne hn] at h
    obtain ⟨text, hbars, hwarn⟩ := bars_stmt h
    rw [events_body_of_ne hn]
    exact ⟨n, text, rfl, hbars, hwarn⟩
  · obtain ⟨text, hbars, hwarn⟩ := bars_expr h
    exact ⟨n, text, rfl, hbars, hwarn⟩

end Part

/-! ### Programs -/

theorem Code.Places.count_le_one {code : Code} {functions : List String} {n : Nat} (h : Places 0 code functions n)
    (k : Nat) : (code.filterMap Quad.label?).count (labelName k) ≤ 1 := by
  by_cases hk : k < n
  · exact (h.count_labelName hk).le
  · obtain ⟨m, rfl, h⟩ := h
    refine (List.count_eq_zero.2 fun hmem => ?_).le.trans (Nat.zero_le 1)
    rcases List.mem_append.1 (h.mem_iff.1 hmem) with hdrawn | hfunction
    · obtain ⟨j, hj, hname⟩ := List.mem_map.1 hdrawn
      obtain rfl := numbered_injective _ hname
      exact hk (List.mem_range'_1.1 hj).2
    · obtain ⟨f, -, hf⟩ := List.mem_flatMap.1 hfunction
      rcases List.mem_cons.1 hf with hf | hf
      · exact ne_of_head (head_labelName k) (head_functionMark f) (by decide) hf
      · exact ne_of_head (head_labelName k) (head_endMark f) (by decide) (List.mem_singleton.1 hf)

theorem Lower.eq_of_nameTarget {name : Tree} (h : (nameTarget name).toTree = .str "null") : name = .str "null" := by
  cases name with
  | str y =>
    have hy : mangle y = "null" := Tree.str.inj h
    unfold mangle at hy
    split at hy
    · have hhead := congrArg (fun x : String => x.toList.head?) hy
      simp at hhead
    · rw [hy]
  | _ => cases h

theorem Node.orderly_of_lower {n : Node} {r : Lowered Unit} (hr : Lower.stmt none n {} = .ok r)
    (hnull : ∀ e ∈ n.events, e.target? ≠ some (.str "null")) (answers : Answers) : r.code.Orderly answers := by
  have hemits := Lower.stmt_emits (N := fun _ => True) (p := False) nofun n nofun hr
  refine ⟨hemits.places.count_le_one, fun q hq hop => ?_, fun m hm => ?_⟩
  · have hemitted := hemits.emitted (fun _ => nofun) nofun Loop.drawn_none q hq
    cases hemitted with
    | print => exact ⟨_, rfl, fun k => ne_of_head (head_consoleMark _) (head_labelName k) (by decide)⟩
    | call => exact ⟨_, rfl, fun k => ne_of_head (head_functionMark _) (head_labelName k) (by decide)⟩
    | _ => cases hop
  · refine hm.get?_eq_none fun q hq hw htree => ?_
    rcases Part.from_of_lower (w := .stmt none n) hr hq hw with ⟨k, hx⟩ | ⟨k, hx⟩ | hx | ⟨name, hx, hevent⟩
    · rw [hx] at htree
      have htemp := isTempName_tempName k
      rw [Tree.str.inj htree] at htemp
      exact absurd htemp (by decide)
    · rw [hx] at htree
      have hhead := head_joinName k
      rw [Tree.str.inj htree] at hhead
      exact absurd hhead (by decide)
    · rw [hx] at htree
      cases htree
    · rw [hx] at htree
      obtain rfl := Lower.eq_of_nameTarget htree
      obtain ⟨e, he, htarget⟩ := hevent (by decide)
      exact hnull e he htarget

/-- What is called dead never runs: the branch, the body or the right side that a test keeps from being reached, which
a warning tells at the place of the test's node, and what follows a statement that leaves its list. -/
theorem Node.dead_never_runs {n : Node} {l : Lowered Unit} {es es' : List Event} {p i : Nat} {w w' : Part}
    {s s' : Supply} {answers : Answers} (ha : n.analyze.isFatal = false) (hl : n.lower = .ok l)
    (hnull : ∀ e ∈ n.events, e.target? ≠ some (.str "null")) (hw : (Part.stmt none n).Occurs {} es p w s)
    (hi : (w.pieces s)[i]? = some (.part true es' w' s')) (hfs : w'.functions = []) :
    ((∃ loop unreachable ns, w = .stmts loop unreachable ns) ∨
      ∃ m text, w.node? = some m ∧ m.Bars w' text ∧
        ∃ d ∈ n.analyze.warnings, d.message = text ∧ m.place = .ok d.place) ∧
    ∀ m, Machine.Reachable l.code answers m →
      m.pc < p + w.placeOf s i ∨ p + w.placeOf s i + (w'.code s').length ≤ m.pc := by
  refine ⟨?_, fun m hm => ?_⟩
  · by_cases hlist : ∃ loop unreachable ns, w = .stmts loop unreachable ns
    · exact .inl hlist
    · obtain ⟨m, text, hm, hbars, hwarn⟩ := Part.bars_of_dead (List.mem_of_getElem? hi)
        fun loop unreachable ns heq => hlist ⟨loop, unreachable, ns, heq⟩
      obtain ⟨τ, hperforms, -, hdiag⟩ := n.exists_performs ha
      have hevent := hw.events_prefix.subset (List.mem_append_right es hwarn)
      obtain ⟨d, hd, hsev, htext, hplace⟩ := hperforms.warned hevent
      refine .inr ⟨m, text, hm, hbars, d, ?_, htext, hplace⟩
      rw [Analysis.warnings, Diagnostic.warnings, hdiag, List.mem_filter]
      exact ⟨List.mem_append_left _ hd, by simp [hsev]⟩
  · obtain ⟨r, hr, hcode⟩ := except_bind_eq_ok hl
    cases hcode
    have hlower : (Part.stmt none n).lower {} = .ok r := hr
    have hroot : (Part.stmt none n).Around [] [] :=
      ⟨Loop.drawn_none, fun x hx => absurd hx (Loop.has_none x), fun q hq => absurd hq List.not_mem_nil⟩
    obtain ⟨pre, post, hpre, rfl, haround⟩ := hw.exists_around hlower hroot
    obtain ⟨pre', c, post', hsealed, hle, hge⟩ :=
      Part.covered_dead ⟨orderly_of_lower hr hnull answers, hpre, haround, hw.lowers hlower⟩ hi hfs
    have hout := (hsealed.outside (Machine.reachable_renumber.1 hm)).1
    omega

/-- A round with a branch that is never taken and a statement that is never reached. -/
def leftRound : List Node := [
  .bare (.if (.int 0) (.bare (.expression (.print [.int 1]))) .absent),
  .bare (.break false),
  .bare (.expression (.print [.int 2]))]

/-- A loop that is left in its first round. -/
def leftLoop : Node := .bare (.program [
  .bare (.while (.bare (.literal false (.bool true))) (.bare (.block leftRound)))])

def leftList : Part := .stmts (some ⟨"L0", "L1"⟩) (some false) leftRound

theorem leftList_pieces : (leftList.pieces { labels := 2 })[1]? = some (.part false (leftRound.headD .absent).events
    (.stmts (some ⟨"L0", "L1"⟩) (some false) leftRound.tail) { labels := 4 }) := by
  have hafter : (Part.stmt (some ⟨"L0", "L1"⟩) (leftRound.headD .absent)).after { labels := 2 } = { labels := 4 } := by
    cbv
  rw [← hafter]
  rfl

theorem leftList_occurs : ∃ es, (Part.stmt none leftLoop).Occurs {} es 2 leftList { labels := 2 } := by
  have hself : (Part.stmt none leftLoop).Occurs {} [] 0 (.stmt none leftLoop) {} := .self
  have hprogram := Part.Occurs.part (i := 0) hself rfl
  have hwhile := Part.Occurs.part (i := 0) hprogram rfl
  have hblock := Part.Occurs.part (i := 3) hwhile rfl
  exact ⟨_, Part.Occurs.part (i := 0) hblock rfl⟩

theorem leftLoop_occurs : ∃ es, (Part.stmt none leftLoop).Occurs {} es 8
    (.stmts (some ⟨"L0", "L1"⟩) (some false) leftRound.tail) { labels := 4 } := by
  obtain ⟨es, hlist⟩ := leftList_occurs
  have hplace : leftList.placeOf { labels := 2 } 1 = 6 := by cbv
  have hrest := hlist.part leftList_pieces
  rw [hplace] at hrest
  exact ⟨_, hrest⟩

/-- The branch that is never taken, and the statement behind the one that leaves the loop. -/
theorem Node.dead_never_runs_leftLoop : ∃ l, leftLoop.lower = .ok l ∧
    (∃ d ∈ leftLoop.analyze.warnings, d.message = "Condition is always false; the if branch is never executed") ∧
    ∀ answers m, Machine.Reachable l.code answers m → (m.pc < 3 ∨ 5 ≤ m.pc) ∧ (m.pc < 9 ∨ 11 ≤ m.pc) := by
  have hfatal : leftLoop.analyze.isFatal = false := by decide +kernel
  have hnull : ∀ e ∈ leftLoop.events, e.target? ≠ some (.str "null") := by
    have hnone : leftLoop.events.filterMap Event.target? = [] := rfl
    intro e he
    rw [List.filterMap_eq_nil_iff.1 hnone e he]
    exact (Option.some_ne_none _).symm
  obtain ⟨l, hl⟩ : ∃ l, leftLoop.lower = .ok l := ⟨_, by cbv⟩
  obtain ⟨es, hlist⟩ := leftList_occurs
  obtain ⟨es', hrest⟩ := leftLoop_occurs
  have hif := hlist.part (i := 0) rfl
  have hbranch := fun answers => @dead_never_runs _ _ _ _ _ 2 _ _ _ _ answers hfatal hl hnull hif rfl rfl
  refine ⟨l, hl, ?_, fun answers m hm => ⟨(hbranch answers).2 m hm, ?_⟩⟩
  · rcases (hbranch .nobody).1 with ⟨_, _, _, hlist⟩ | ⟨_, _, ⟨⟩, hbars, d, hd, htext, -⟩
    · cases hlist
    · cases hbars
      exact ⟨d, hd, htext⟩
  · exact (dead_never_runs (i := 1) hfatal hl hnull hrest rfl rfl).2 m hm

end QuadScript
