import QuadScript.Proofs.Temporaries

/-!
# Each temporary is written at one place, above its uses

`Code.Ordered c Γ Γ'`: read from top to bottom, whatever jumps there are, the code `c` mentions a temporary as an
operand only below an instruction whose result it is, unless it is one of `Γ`; the temporaries `Γ'` are those
that may be mentioned after it. Emitted code is ordered from nothing (`Emits.ordered`). With `Emits.draws`, by
which the results are the temporaries in order, and with what `Code.Flows` gives for runs, this says how a program
uses its temporaries.
-/

namespace QuadScript

namespace Code

/-- From top to bottom, temporaries are results before they are operands. -/
def Ordered : Code → Set String → Set String → Prop
  | [], Γ, Γ' => Γ' ⊆ Γ
  | q :: c, Γ, Γ' => Present Γ [q.arg1, q.arg2] ∧ Ordered c (Γ ∪ {s | q.result.temp? = some s}) Γ'

variable {code c d : Code} {q : Quad} {Γ Γ' Γ₁ Δ : Set String}

theorem Ordered.mono (h : Ordered c Γ Γ') (hsub : Γ ⊆ Δ) : Ordered c Δ Γ' := by
  induction c generalizing Γ Δ with
  | nil => exact h.trans hsub
  | cons q c ih => exact ⟨h.1.mono hsub, ih h.2 (Set.union_subset_union_left _ hsub)⟩

theorem Ordered.append (h : Ordered c Γ Γ₁) (h' : Ordered d Γ₁ Γ') : Ordered (c ++ d) Γ Γ' := by
  induction c generalizing Γ with
  | nil => exact h'.mono h
  | cons q c ih => exact ⟨h.1, ih h.2⟩

theorem Ordered.nil : Ordered [] Γ Γ := subset_rfl

theorem Ordered.cons (hq : Present Γ [q.arg1, q.arg2]) (h : Ordered c Γ Γ') : Ordered (q :: c) Γ Γ' :=
  ⟨hq, h.mono Set.subset_union_left⟩

theorem Ordered.write {t : Nat} (hq : Present Γ [q.arg1, q.arg2]) (hx : q.result = .name (tempName t)) :
    Ordered [q] Γ (Γ ∪ {tempName t}) := by
  refine ⟨hq, Set.union_subset_union_right Γ ?_⟩
  rintro s rfl
  simp [hx, Target.temp?, isTempName_tempName]

/-- A temporary that ordered code mentions was given, or it is the result of an instruction above. -/
theorem Ordered.exists_write {i : Nat} {s : String} (h : Ordered code Γ Γ') (hq : code[i]? = some q)
    (hs : .name s ∈ [q.arg1, q.arg2]) (ht : isTempName s = true) :
    s ∈ Γ ∨ ∃ j < i, ∃ q', code[j]? = some q' ∧ q'.result = .name s := by
  induction code generalizing Γ i with
  | nil => cases hq
  | cons q₀ code ih =>
    cases i with
    | zero =>
      cases hq
      exact .inl (h.1 s hs ht)
    | succ i =>
      rcases ih h.2 hq with (hΓ | hq₀) | ⟨j, hj, q', hq', hx⟩
      · exact .inl hΓ
      · exact .inr ⟨0, Nat.succ_pos i, q₀, rfl, (Target.temp?_eq_some hq₀).1⟩
      · exact .inr ⟨j + 1, Nat.succ_lt_succ hj, q', hq', hx⟩

end Code

/-! ### Emitted code -/

section
variable {P : Operand → Prop} {Q : Target → Prop} {loop : Option Loop} {t l t' l' : Nat} {c d : Code} {fs : List String}
  {as : List Operand} {a : Operand} {Γ Γ' : Set String}

theorem present_nothing : Present Γ [.none, .none] := by
  intro s hs
  simp at hs

theorem present_operand (h : Present Γ as) (ha : a ∈ as) : Present Γ [a, .none] :=
  (h.mem ha).append (present_of_temp? rfl)

theorem present_called (f : String) (k : Nat) (hf : f.toList.head? ≠ some 't') :
    Present Γ [.name f, .num (.int k)] := by
  have htemp : (Operand.name f).temp? = none := by simp [Operand.temp?, isTempName_eq_false hf]
  exact (present_of_temp? htemp).append (present_of_temp? rfl)

theorem ordered_params (h : Present Γ as) : Code.Ordered (as.map Quad.param) Γ Γ := by
  induction as with
  | nil => exact .nil
  | cons a as ih => exact .cons (present_operand h (by simp)) (ih (h.subset (List.subset_cons_self a as)))

theorem Evaluates.ordered (h : Evaluates P Q t l c as t' l') (Γ : Set String) :
    ∃ Γ', Γ ⊆ Γ' ∧ Present Γ' as ∧ c.Ordered Γ Γ' := by
  -- `Γ` holds the temporaries written above; code adds to it and never takes away
  induction h generalizing Γ with
  | nothing => exact ⟨Γ, subset_rfl, nofun, .nil⟩
  | operand ha => exact ⟨Γ, subset_rfl, present_of_temp? ha, .nil⟩
  | append _ _ ih₁ ih₂ =>
    obtain ⟨Γ₁, hsub₁, has, hc⟩ := ih₁ Γ
    obtain ⟨Γ₂, hsub₂, hbs, hd⟩ := ih₂ Γ₁
    exact ⟨Γ₂, hsub₁.trans hsub₂, (has.mono hsub₂).append hbs, hc.append hd⟩
  | forget _ hsub ih =>
    obtain ⟨Γ₁, hsub₁, has, hc⟩ := ih Γ
    exact ⟨Γ₁, hsub₁, has.subset hsub, hc⟩
  | assign _ ha _ _ ih =>
    obtain ⟨Γ₁, hsub, has, hc⟩ := ih Γ
    exact ⟨Γ₁, hsub, has, hc.append (.cons (present_operand has ha) .nil)⟩
  | @operator _ _ t₁ _ _ _ _ _ _ _ ha hb ih =>
    obtain ⟨Γ₁, hsub, has, hc⟩ := ih Γ
    exact ⟨Γ₁ ∪ {tempName t₁}, hsub.trans Set.subset_union_left,
      (present_temp t₁).append (has.mono Set.subset_union_left),
      hc.append (.write ((has.mem ha).append (has.mem hb)) rfl)⟩
  | @print _ _ _ _ _ as f _ ih =>
    obtain ⟨Γ₁, hsub, has, hc⟩ := ih Γ
    have hcall := present_called (Γ := Γ₁) (consoleMark ++ f) as.length (by rw [head_consoleMark]; decide)
    exact ⟨Γ₁, hsub, has, hc.append ((ordered_params has).append (.cons hcall .nil))⟩
  | @call _ _ t₁ _ _ as f _ ih =>
    obtain ⟨Γ₁, hsub, has, hc⟩ := ih Γ
    have hcall := present_called (Γ := Γ₁) (functionMark ++ f) as.length (by rw [head_functionMark]; decide)
    exact ⟨Γ₁ ∪ {tempName t₁}, hsub.trans Set.subset_union_left,
      (present_temp t₁).append (has.mono Set.subset_union_left),
      hc.append ((ordered_params has).append (.write hcall rfl))⟩
  | skip _ ha _ ih₁ ih₂ =>
    obtain ⟨Γ₁, hsub₁, has, hc⟩ := ih₁ Γ
    obtain ⟨Γ₂, hsub₂, -, hd⟩ := ih₂ Γ₁
    exact ⟨Γ₂, hsub₁.trans hsub₂, has.mono hsub₂,
      hc.append (.cons (present_operand has ha) (hd.append (.cons present_nothing .nil)))⟩
  | choose _ ha _ _ ih₁ ih₂ ih₃ =>
    obtain ⟨Γ₁, hsub₁, has, hc⟩ := ih₁ Γ
    obtain ⟨Γ₂, hsub₂, -, hd⟩ := ih₂ Γ₁
    obtain ⟨Γ₃, hsub₃, -, he⟩ := ih₃ Γ₂
    exact ⟨Γ₃, hsub₁.trans (hsub₂.trans hsub₃), has.mono (hsub₂.trans hsub₃),
      hc.append (.cons (present_operand has ha) (hd.append (.cons present_nothing (.cons present_nothing
        (he.append (.cons present_nothing .nil))))))⟩

theorem Emits.ordered (h : Emits P Q loop t l c fs t' l') (Γ : Set String) : ∃ Γ', c.Ordered Γ Γ' := by
  induction h generalizing Γ with
  | expression h =>
    obtain ⟨Γ₁, -, -, hc⟩ := h.ordered Γ
    exact ⟨Γ₁, hc⟩
  | append _ _ ih₁ ih₂ =>
    obtain ⟨Γ₁, hc⟩ := ih₁ Γ
    obtain ⟨Γ₂, hd⟩ := ih₂ Γ₁
    exact ⟨Γ₂, hc.append hd⟩
  | branch h ha _ _ ih₁ ih₂ =>
    obtain ⟨Γ₁, -, has, hc⟩ := h.ordered Γ
    obtain ⟨Γ₂, hd⟩ := ih₁ Γ₁
    obtain ⟨Γ₃, he⟩ := ih₂ Γ₂
    exact ⟨Γ₃, hc.append (.cons (present_operand has ha) (hd.append (.cons present_nothing (.cons present_nothing
      (he.append (.cons present_nothing .nil))))))⟩
  | «while» h ha _ ih =>
    obtain ⟨Γ₁, -, has, hc⟩ := h.ordered Γ
    obtain ⟨Γ₂, hd⟩ := ih Γ₁
    exact ⟨Γ₂, .cons present_nothing (hc.append (.cons (present_operand has ha)
      (hd.append (.cons present_nothing (.cons present_nothing .nil)))))⟩
  | @«for» _ _ k _ _ _ _ _ _ _ _ _ _ _ _ a h ha _ h' ih =>
    obtain ⟨Γ₁, -, has, hc⟩ := h.ordered Γ
    obtain ⟨Γ₂, hd⟩ := ih Γ₁
    obtain ⟨Γ₃, -, -, he⟩ := h'.ordered Γ₂
    have htest : Code.Ordered (exitTest (labelName (k + 2)) a) Γ₁ Γ₁ := by
      cases a with
      | none => exact .nil
      | some b => exact .cons (present_operand has (ha b rfl)) .nil
    exact ⟨Γ₃, .cons present_nothing (hc.append (htest.append (hd.append (.cons present_nothing
      (he.append (.cons present_nothing (.cons present_nothing .nil)))))))⟩
  | «break» => exact ⟨Γ, .cons present_nothing .nil⟩
  | «continue» => exact ⟨Γ, .cons present_nothing .nil⟩
  | «return» h ha =>
    obtain ⟨Γ₁, -, has, hc⟩ := h.ordered Γ
    exact ⟨Γ₁, hc.append (.cons (present_operand has ha) .nil)⟩
  | @function _ _ _ _ _ _ _ _ xs _ _ _ ih =>
    obtain ⟨Γ₁, hd⟩ := ih Γ
    have hreceives : Code.Ordered (xs.map Quad.receive) Γ Γ := by
      clear * -
      induction xs with
      | nil => exact .nil
      | cons x xs ih => exact .cons present_nothing ih
    have hvoid : Present Γ₁ [void, .none] := present_operand (present_of_temp? (a := void) rfl) (by simp)
    exact ⟨Γ₁, .cons present_nothing (.cons present_nothing (hreceives.append (hd.append
      (.cons hvoid (.cons present_nothing .nil)))))⟩

end

/-! ### Programs -/

open Machine

/-- The results of a program that are temporaries are the temporaries that it draws, in order and each once. Each
operand that is a temporary is the result of an instruction above, and in a run no temporary is read that is not
in memory. -/
theorem Node.temporaries_of_lower {n : Node} {l : Lowered Unit} (hl : n.lower = .ok l) :
    l.code.filterMap (fun q => q.result.temp?) = (List.range l.supply.temps).map tempName ∧
    (∀ (i : Nat) (q : Quad) (s : String), l.code[i]? = some q → .name s ∈ [q.arg1, q.arg2] → isTempName s = true →
      ∃ j < i, ∃ q', l.code[j]? = some q' ∧ q'.result = .name s) ∧
    ∀ answers m q, Reachable l.code answers m → l.code[m.pc]? = some q → m.ReadsPresent q := by
  obtain ⟨c, hc, hemits⟩ := lower_emits (N := fun _ => True) (p := False) nofun nofun hl
  refine ⟨?_, fun i q s hq hs ht => ?_, fun answers m q hm hq => readsPresent_of_reachable hl hm hq⟩
  · obtain ⟨k, hk, hdraws⟩ := hemits.draws Loop.drawn_none
    have htemps : c.renumber.map (fun q => q.result.temp?) = c.map (fun q => q.result.temp?) :=
      Code.map_renumber fun _ _ => rfl
    have hresults := congrArg (List.filterMap id) htemps
    simp only [List.filterMap_map, Function.id_comp] at hresults
    rw [hc, hresults, hdraws, hk, Nat.zero_add, List.range_eq_range']
  · obtain ⟨Γ, hordered⟩ := hemits.ordered ∅
    rw [hc, Code.getElem?_renumber] at hq
    obtain ⟨q₀, hq₀, rfl⟩ := Option.map_eq_some_iff.1 hq
    obtain hempty | ⟨j, hj, q', hq', hx⟩ := hordered.exists_write hq₀ hs ht
    · cases hempty
    · refine ⟨j, hj, { q' with index := j }, ?_, hx⟩
      rw [hc, Code.getElem?_renumber, hq']
      rfl

/-- A function that calls itself on one side of a logical operator. -/
def depthProgram : Node := .bare (.program [
  .bare (.function (.named "depth") [.mk (.ok .none) (.ok (.str "n")) .absent] (.bare (.block [
    .bare (.return (.bare (.logical (.str "&&") (.named "n")
      (.binary "+" (.bare (.call (.named "depth") [.binary "-" (.named "n") (.int 1)])) (.int 1)))))]))),
  .bare (.expression (.print [.bare (.call (.named "depth") [.int 2])]))])

def depthCode : Code := Code.renumber [
  Quad.goto "END_FUNC_depth", Quad.label "FUNC_depth", Quad.receive (.name "n"),
  Quad.assign (.name "n") (.name "%j0"), Quad.jumpIfFalse (.name "%j0") "L0",
  Quad.operator (.binary .sub) (.name "n") (.num (.int 1)) "t0", Quad.param (.name "t0"),
  Quad.call "FUNC_depth" 1 (.name "t1"), Quad.operator (.binary .add) (.name "t1") (.num (.int 1)) "t2",
  Quad.assign (.name "t2") (.name "%j0"), Quad.label "L0", Quad.ret (.name "%j0"), Quad.ret void,
  Quad.label "END_FUNC_depth", Quad.param (.num (.int 2)), Quad.call "FUNC_depth" 1 (.name "t3"),
  Quad.param (.name "t3"), Quad.call "console_log" 1 .none]

theorem depthProgram_lower : depthProgram.lower =
    .ok ⟨(), depthCode, { temps := 4, labels := 1, joins := 1, functions := ["depth"] }⟩ := by
  cbv

/-- After the second return the sum reads what the call at the same place gave. -/
theorem Node.temporaries_of_lower_depth :
    depthCode.filterMap (fun q => q.result.temp?) = ["t0", "t1", "t2", "t3"] ∧
    (∃ j < 8, ∃ q, depthCode[j]? = some q ∧ q.result = .name "t1") ∧
    ∃ m, Reachable depthCode .nobody m ∧ m.pc = 8 ∧ m.stack.length = 1 ∧ ∃ v, m.memory.get? (.text "t1") = some v := by
  obtain ⟨hresults, hwritten, hpresent⟩ := temporaries_of_lower depthProgram_lower
  have hq : depthCode[8]? =
      some { Quad.operator (.binary .add) (.name "t1") (.num (.int 1)) "t2" with index := 8 } := rfl
  obtain ⟨m, hm, hpc, hstack⟩ : ∃ m, after depthCode 28 (start .nobody) = some m ∧ m.pc = 8 ∧ m.stack.length = 1 :=
    ⟨_, rfl, rfl, rfl⟩
  have hreach : Reachable depthCode .nobody m := ⟨28, steps_of_after hm⟩
  exact ⟨hresults, hwritten 8 _ "t1" hq (by simp) (by decide), m, hreach, hpc, hstack,
    hpresent _ m _ hreach (hpc ▸ hq) "t1" (by simp [Quad.reads]) (by decide)⟩

end QuadScript
