import QuadScript.Proofs.Emitted
import QuadScript.Proofs.Endings
import QuadScript.Proofs.Optimizer.Conditions
import Mathlib.Data.Set.Basic

/-!
# Temporaries are written before they are read

`Code.Flows Λ c Γ Γ'`: if the temporaries in `Γ` are present when control enters `c`, every temporary that an
instruction of `c` reads is present then, and those in `Γ'` are present when control leaves `c` at its end. `Λ`
assigns to every drawn label the temporaries that are present wherever control comes from. All emitted code
flows from nothing to nothing (`Emits.flows`), for an assignment `Λ` that is put together from those of its
parts (`Code.Under`). Memory never loses a name, so what flows through the code is present in every state of a
run (`present_of_reachable`).
-/

namespace QuadScript

/-- The temporaries that are present at each drawn label. -/
abbrev Assertion := Nat → Set String

/-- The temporaries that are present at a name: none unless it is that of a drawn label. -/
def Assertion.at (Λ : Assertion) (x : Target) : Set String := {s | ∃ k, x = .name (labelName k) ∧ s ∈ Λ k}

theorem Assertion.at_labelName (Λ : Assertion) (k : Nat) : Λ.at (.name (labelName k)) = Λ k := by
  ext s
  constructor
  · rintro ⟨j, hj, hs⟩
    have hjk : labelName k = labelName j := by simpa using hj
    rwa [numbered_injective _ hjk]
  · exact fun hs => ⟨k, rfl, hs⟩

theorem Assertion.at_eq_empty (Λ : Assertion) {s : String} (h : s.toList.head? ≠ some 'L') :
    Λ.at (.name s) = ∅ := by
  rw [Set.eq_empty_iff_forall_notMem]
  rintro x ⟨k, hk, -⟩
  cases hk
  exact h (head_labelName k)

/-- The temporaries among some operands. -/
def Present (Γ : Set String) (as : List Operand) : Prop :=
  ∀ s, .name s ∈ as → isTempName s = true → s ∈ Γ

namespace Quad

/-- An instruction can be executed where the temporaries `Γ` are present: it reads only those, and where it
goes no others are expected. -/
structure Fits (Λ : Assertion) (Γ : Set String) (q : Quad) : Prop where
  reads : Present Γ q.reads
  goes : q.control ≠ .other → (∃ s, q.result = .name s) ∧ Λ.at q.result ⊆ Γ
  calls : q.op = .call → ∃ s, q.arg1 = .name s ∧ Λ.at (.name s) = ∅ ∧
    ∀ lead, consoleLead? s = some lead → q.result.temp? = none

/-- The temporaries that are present when control comes from an instruction to the next one. -/
def flow (Λ : Assertion) (Γ : Set String) (q : Quad) : Set String :=
  match q.op with
  | .goto => Set.univ
  | .ret => Set.univ
  | .label => Λ.at q.result
  | .jumpIfFalse => Γ
  | .param => Γ
  | .unknown _ => Γ
  | _ => Γ ∪ {s | q.result.temp? = some s}

variable {Λ : Assertion} {Γ Δ : Set String} {q : Quad} {a : Operand} {s : String}

theorem Fits.of_reads (hc : q.control = .other) (hop : q.op ≠ .call) (h : Present Γ q.reads) : q.Fits Λ Γ :=
  ⟨h, fun hne => absurd hc hne, fun hcall => absurd hcall hop⟩

theorem Fits.jumpIfFalse (h : Present Γ [a]) (hs : Λ.at (.name s) ⊆ Γ) : (Quad.jumpIfFalse a s).Fits Λ Γ :=
  ⟨h, fun _ => ⟨⟨s, rfl⟩, hs⟩, nofun⟩

theorem Fits.goto (hs : Λ.at (.name s) ⊆ Γ) : (Quad.goto s).Fits Λ Γ :=
  ⟨nofun, fun _ => ⟨⟨s, rfl⟩, hs⟩, nofun⟩

theorem Fits.label (hs : Λ.at (.name s) ⊆ Γ) : (Quad.label s).Fits Λ Γ :=
  ⟨nofun, fun _ => ⟨⟨s, rfl⟩, hs⟩, nofun⟩

theorem Fits.call {k : Nat} {x : Target} (hs : s.toList.head? ≠ some 'L')
    (hx : s.toList.head? = some 'c' → x.temp? = none) : (Quad.call s k x).Fits Λ Γ := by
  refine ⟨nofun, fun hne => absurd rfl hne, fun _ => ⟨s, rfl, Λ.at_eq_empty hs, fun lead hlead => hx ?_⟩⟩
  unfold consoleLead? at hlead
  split at hlead <;> first | rfl | cases hlead

theorem Fits.mono (h : q.Fits Λ Γ) (hsub : Γ ⊆ Δ) : q.Fits Λ Δ where
  reads s hs ht := hsub (h.reads s hs ht)
  goes hc := ⟨(h.goes hc).1, (h.goes hc).2.trans hsub⟩
  calls := h.calls

theorem flow_mono (hsub : Γ ⊆ Δ) : q.flow Λ Γ ⊆ q.flow Λ Δ := by
  unfold flow
  split <;> first | exact subset_rfl | exact hsub | exact Set.union_subset_union_left _ hsub

end Quad

namespace Code

variable {Λ : Assertion} {Γ Γ' Γ₁ Δ : Set String} {c d : Code} {q : Quad}

def Flows (Λ : Assertion) : Code → Set String → Set String → Prop
  | [], Γ, Γ' => Γ' ⊆ Γ
  | q :: c, Γ, Γ' => q.Fits Λ Γ ∧ Flows Λ c (q.flow Λ Γ) Γ'

theorem Flows.mono (h : Flows Λ c Γ Γ') (hsub : Γ ⊆ Δ) : Flows Λ c Δ Γ' := by
  induction c generalizing Γ Δ with
  | nil => exact h.trans hsub
  | cons q c ih => exact ⟨h.1.mono hsub, ih h.2 (Quad.flow_mono hsub)⟩

theorem Flows.append (h : Flows Λ c Γ Γ₁) (h' : Flows Λ d Γ₁ Γ') : Flows Λ (c ++ d) Γ Γ' := by
  induction c generalizing Γ with
  | nil => exact h'.mono h
  | cons q c ih => exact ⟨h.1, ih h.2⟩

theorem Flows.drop (h : Flows Λ c Γ Γ') (i : Nat) : ∃ Γ₁, Flows Λ (c.drop i) Γ₁ Γ' := by
  induction c generalizing Γ i with
  | nil => exact ⟨Γ, by rw [List.drop_nil]; exact h⟩
  | cons q c ih =>
    cases i with
    | zero => exact ⟨Γ, h⟩
    | succ i => exact ih h.2 i

/-! ### Putting assignments together -/

/-- Code flows for some assignment to the labels from `l` to `l'`, whatever is assigned to the others under the
condition `H`. -/
def Under (H : Assertion → Prop) (l l' : Nat) (c : Code) (Γ Γ' : Set String) : Prop :=
  ∃ Λ : Assertion, ∀ Λ' : Assertion, H Λ' → (∀ k, l ≤ k → k < l' → Λ' k = Λ k) → Flows Λ' c Γ Γ'

variable {H H' : Assertion → Prop} {l l₁ l' : Nat}

theorem Under.append (h : Under H l l₁ c Γ Γ₁) (h' : Under H l₁ l' d Γ₁ Γ') (hl : l ≤ l₁) (hl' : l₁ ≤ l') :
    Under H l l' (c ++ d) Γ Γ' := by
  obtain ⟨Λ₁, h₁⟩ := h
  obtain ⟨Λ₂, h₂⟩ := h'
  refine ⟨fun k => if k < l₁ then Λ₁ k else Λ₂ k, fun Λ' hH hΛ => (h₁ Λ' hH ?_).append (h₂ Λ' hH ?_)⟩
  · intro k hk hk'
    exact (hΛ k hk (by omega)).trans (if_pos hk')
  · intro k hk hk'
    exact (hΛ k (by omega) hk').trans (if_neg (by omega))

theorem Under.imp (h : Under H l l' c Γ Γ') (hH : ∀ Λ, H' Λ → H Λ) : Under H' l l' c Γ Γ' :=
  let ⟨Λ, h⟩ := h; ⟨Λ, fun Λ' hΛ' => h Λ' (hH Λ' hΛ')⟩

theorem Under.mono (h : Under H l l' c Γ Γ') (hsub : Γ ⊆ Δ) : Under H l l' c Δ Γ' :=
  let ⟨Λ, h⟩ := h; ⟨Λ, fun Λ' hH hΛ => (h Λ' hH hΛ).mono hsub⟩

theorem Under.forget (h : Under H l l' c Γ Γ') (hsub : Δ ⊆ Γ') : Under H l l' c Γ Δ := by
  obtain ⟨Λ, h⟩ := h
  refine ⟨Λ, fun Λ' hH hΛ => ?_⟩
  have h' : Flows Λ' (c ++ []) Γ Δ := (h Λ' hH hΛ).append hsub
  rwa [List.append_nil] at h'

theorem Under.draw (Δ : Set String) (h : Under (fun Λ => H Λ ∧ Λ l = Δ) (l + 1) l' c Γ Γ') (hl : l < l') :
    Under H l l' c Γ Γ' := by
  obtain ⟨Λ, h⟩ := h
  refine ⟨fun k => if k = l then Δ else Λ k, fun Λ' hH hΛ => h Λ' ⟨hH, ?_⟩ fun k hk hk' => ?_⟩
  · exact (hΛ l (Nat.le_refl l) hl).trans (if_pos rfl)
  · exact (hΛ k (by omega) hk').trans (if_neg (by omega))

theorem Under.single (hfit : ∀ Λ, H Λ → q.Fits Λ Γ) (hflow : ∀ Λ, H Λ → Γ' ⊆ q.flow Λ Γ) :
    Under H l l [q] Γ Γ' :=
  ⟨fun _ => ∅, fun Λ hH _ => ⟨hfit Λ hH, hflow Λ hH⟩⟩

theorem Under.nil (hsub : Γ' ⊆ Γ) : Under H l l [] Γ Γ' := ⟨fun _ => ∅, fun _ _ _ => hsub⟩

theorem Under.cons (h : Under H l l' c Γ₁ Γ') (hl : l ≤ l') (hfit : ∀ Λ, H Λ → q.Fits Λ Γ)
    (hflow : ∀ Λ, H Λ → Γ₁ ⊆ q.flow Λ Γ) : Under H l l' (q :: c) Γ Γ' :=
  (Under.single hfit hflow).append h (Nat.le_refl l) hl

end Code

/-! ### Expressions -/

section
variable {P : Operand → Prop} {Q : Target → Prop} {t l t' l' : Nat} {c : Code} {as bs : List Operand} {a : Operand}
  {Γ Δ : Set String} {H : Assertion → Prop}

theorem Present.mono (h : Present Γ as) (hsub : Γ ⊆ Δ) : Present Δ as := fun s hs ht => hsub (h s hs ht)

theorem Present.subset (h : Present Γ as) (hsub : bs ⊆ as) : Present Γ bs := fun s hs ht => h s (hsub hs) ht

theorem Present.mem (h : Present Γ as) (ha : a ∈ as) : Present Γ [a] :=
  h.subset (by simpa using ha)

theorem Present.append (h : Present Γ as) (h' : Present Γ bs) : Present Γ (as ++ bs) :=
  fun s hs ht => (List.mem_append.1 hs).elim (fun hs => h s hs ht) (fun hs => h' s hs ht)

theorem present_of_temp? (ha : a.temp? = none) : Present Γ [a] := by
  intro s hs ht
  cases List.mem_singleton.1 hs
  simp [Operand.temp?, ht] at ha

theorem present_temp (t : Nat) : Present (Γ ∪ {tempName t}) [.name (tempName t)] := by
  intro s hs _
  cases List.mem_singleton.1 hs
  exact .inr rfl

theorem under_params (h : Present Γ as) : Code.Under H l l (as.map Quad.param) Γ Γ := by
  induction as with
  | nil => exact .nil subset_rfl
  | cons a as ih =>
    exact (ih (h.subset (List.subset_cons_self a as))).cons (Nat.le_refl l)
      (fun _ _ => .of_reads rfl nofun (h.mem (by simp))) fun _ _ => subset_rfl

theorem subset_flow {q : Quad} {Λ : Assertion} (hop : q.flow Λ Γ = Γ ∪ {s | q.result.temp? = some s})
    (hx : q.result = .name (tempName t)) : Γ ∪ {tempName t} ⊆ q.flow Λ Γ := by
  rw [hop]
  refine Set.union_subset_union_right Γ ?_
  rintro s rfl
  simp [hx, Target.temp?, isTempName_tempName]

theorem under_label {k : Nat} (hH : ∀ Λ, H Λ → Λ k = Γ) (hsub : Γ ⊆ Δ) :
    Code.Under H l l [Quad.label (labelName k)] Δ Γ := by
  refine .single (fun Λ hΛ => .label ?_) fun Λ hΛ => ?_
  · rw [Λ.at_labelName, hH Λ hΛ]; exact hsub
  · change Γ ⊆ Λ.at (.name (labelName k))
    rw [Λ.at_labelName, hH Λ hΛ]

/-- Two branches that join: what is present at both labels is present before and after each branch. -/
theorem under_join {d e : Code} {j k l₁ l₂ : Nat} {Γ₁ Γ₂ Γ₃ : Set String} (hj : ∀ Λ, H Λ → Λ j = Δ)
    (hk : ∀ Λ, H Λ → Λ k = Δ) (hc : Code.Under H l l₁ c Γ Γ₁) (ha : Present Γ₁ [a])
    (hd : Code.Under H l₁ l₂ d Γ₁ Γ₂) (he : Code.Under H l₂ l' e Δ Γ₃) (h₁ : Δ ⊆ Γ₁) (h₂ : Δ ⊆ Γ₂) (h₃ : Δ ⊆ Γ₃)
    (hl₁ : l ≤ l₁) (hl₂ : l₁ ≤ l₂) (hl' : l₂ ≤ l') :
    Code.Under H l l' (c ++ Quad.jumpIfFalse a (labelName j) :: (d ++ Quad.goto (labelName k) ::
      Quad.label (labelName j) :: (e ++ [Quad.label (labelName k)]))) Γ Δ := by
  have hend := he.append (under_label hk h₃) hl' (Nat.le_refl _)
  have helse := (under_label hj (Set.subset_univ Δ)).append hend (Nat.le_refl _) hl'
  have hthen : Code.Under H l₂ l' (Quad.goto (labelName k) :: _) Γ₂ Δ :=
    helse.cons hl' (fun Λ hΛ => .goto (by rw [Λ.at_labelName, hk Λ hΛ]; exact h₂)) fun _ _ => subset_rfl
  have htest := (hd.append hthen hl₂ hl').cons (hl₂.trans hl')
    (fun Λ hΛ => .jumpIfFalse ha (by rw [Λ.at_labelName, hj Λ hΛ]; exact h₁)) fun _ _ => subset_rfl
  exact hc.append htest hl₁ (hl₂.trans hl')

theorem under_branch {d e : Code} {l₁ l₂ : Nat} {Γ₁ Γ₂ Γ₃ : Set String} (hc : Code.Under H (l + 2) l₁ c Γ Γ₁)
    (ha : Present Γ₁ [a]) (hd : Code.Under H l₁ l₂ d Γ₁ Γ₂) (he : Code.Under H l₂ l' e Δ Γ₃) (h₁ : Δ ⊆ Γ₁)
    (h₂ : Δ ⊆ Γ₂) (h₃ : Δ ⊆ Γ₃) (hl₁ : l + 2 ≤ l₁) (hl₂ : l₁ ≤ l₂) (hl' : l₂ ≤ l') :
    Code.Under H l l' (c ++ Quad.jumpIfFalse a (labelName l) :: (d ++ Quad.goto (labelName (l + 1)) ::
      Quad.label (labelName l) :: (e ++ [Quad.label (labelName (l + 1))]))) Γ Δ := by
  refine .draw Δ (.draw Δ (under_join (fun _ h => h.1.2) (fun _ h => h.2) (hc.imp fun _ h => h.1.1) ha
    (hd.imp fun _ h => h.1.1) (he.imp fun _ h => h.1.1) h₁ h₂ h₃ hl₁ hl₂ hl') ?_) ?_ <;> omega

theorem Evaluates.flows (h : Evaluates P Q t l c as t' l') (Γ : Set String) :
    ∃ Γ', Γ ⊆ Γ' ∧ Present Γ' as ∧ Code.Under (fun _ => True) l l' c Γ Γ' := by
  induction h generalizing Γ with
  | nothing => exact ⟨Γ, subset_rfl, nofun, .nil subset_rfl⟩
  | operand ha => exact ⟨Γ, subset_rfl, present_of_temp? ha, .nil subset_rfl⟩
  | append h₁ h₂ ih₁ ih₂ =>
    obtain ⟨Γ₁, hsub₁, has, hc⟩ := ih₁ Γ
    obtain ⟨Γ₂, hsub₂, hbs, hd⟩ := ih₂ Γ₁
    exact ⟨Γ₂, hsub₁.trans hsub₂, (has.mono hsub₂).append hbs, hc.append hd h₁.le.2 h₂.le.2⟩
  | forget _ hsub ih =>
    obtain ⟨Γ₁, hsub₁, has, hc⟩ := ih Γ
    exact ⟨Γ₁, hsub₁, has.subset hsub, hc⟩
  | assign h ha _ _ ih =>
    obtain ⟨Γ₁, hsub, has, hc⟩ := ih Γ
    refine ⟨Γ₁, hsub, has, hc.append (.single (fun _ _ => ?_) fun _ _ => Set.subset_union_left) h.le.2 (Nat.le_refl _)⟩
    exact .of_reads rfl nofun (has.mem ha)
  | @operator _ _ t₁ _ _ _ _ a b h ha hb ih =>
    obtain ⟨Γ₁, hsub, has, hc⟩ := ih Γ
    refine ⟨Γ₁ ∪ {tempName t₁}, hsub.trans Set.subset_union_left,
      (present_temp t₁).append (has.mono Set.subset_union_left),
      hc.append (.single (fun _ _ => ?_) fun _ _ => subset_flow rfl rfl) h.le.2 (Nat.le_refl _)⟩
    exact .of_reads rfl nofun ((has.mem ha).append (has.mem hb))
  | print h ih =>
    obtain ⟨Γ₁, hsub, has, hc⟩ := ih Γ
    refine ⟨Γ₁, hsub, has, hc.append ((under_params has).append (.single (fun _ _ => ?_)
      fun _ _ => Set.subset_union_left) (Nat.le_refl _) (Nat.le_refl _)) h.le.2 (Nat.le_refl _)⟩
    exact .call (by rw [head_consoleMark]; decide) fun _ => rfl
  | @call _ _ t₁ _ _ _ _ h ih =>
    obtain ⟨Γ₁, hsub, has, hc⟩ := ih Γ
    refine ⟨Γ₁ ∪ {tempName t₁}, hsub.trans Set.subset_union_left,
      (present_temp t₁).append (has.mono Set.subset_union_left),
      hc.append ((under_params has).append (.single (fun _ _ => ?_) fun _ _ => subset_flow rfl rfl)
        (Nat.le_refl _) (Nat.le_refl _)) h.le.2 (Nat.le_refl _)⟩
    exact .call (by rw [head_functionMark]; decide) fun h => absurd ((head_functionMark _).symm.trans h) (by decide)
  | skip h₁ ha h₂ ih₁ ih₂ =>
    obtain ⟨Γ₁, hsub₁, has, hc⟩ := ih₁ Γ
    obtain ⟨Γ₂, hsub₂, -, hd⟩ := ih₂ Γ₁
    have hle₁ := h₁.le
    have hle₂ := h₂.le
    -- at the label nothing of the skipped code can be relied on
    refine ⟨Γ₁, hsub₁, has, .draw Γ₁ ?_ (by omega)⟩
    refine (hc.imp fun _ _ => trivial).append (.cons ((hd.imp fun _ _ => trivial).append
      (under_label (fun _ hΛ => hΛ.2) hsub₂) hle₂.2 (Nat.le_refl _)) hle₂.2 (fun Λ hΛ => ?_)
        fun _ _ => subset_rfl) hle₁.2 hle₂.2
    exact .jumpIfFalse (has.mem ha) (by rw [Λ.at_labelName, hΛ.2])
  | choose h₁ ha h₂ h₃ ih₁ ih₂ ih₃ =>
    obtain ⟨Γ₁, hsub₁, has, hc⟩ := ih₁ Γ
    obtain ⟨Γ₂, hsub₂, -, hd⟩ := ih₂ Γ₁
    obtain ⟨Γ₃, hsub₃, -, he⟩ := ih₃ Γ₁
    exact ⟨Γ₁, hsub₁, has, under_branch hc (has.mem ha) hd he subset_rfl hsub₂ hsub₃ h₁.le.2 h₂.le.2 h₃.le.2⟩

/-! ### Statements -/

/-- Nothing need be present where a loop is continued or left. -/
def Loop.Bare (loop : Option Loop) (Λ : Assertion) : Prop :=
  ∀ lp ∈ loop, Λ.at (.name lp.next) = ∅ ∧ Λ.at (.name lp.exit) = ∅

theorem Loop.bare_some {Λ : Assertion} {j k : Nat} (hj : Λ j = ∅) (hk : Λ k = ∅) :
    Loop.Bare (some ⟨labelName j, labelName k⟩) Λ := by
  rintro lp ⟨⟩
  exact ⟨(Λ.at_labelName j).trans hj, (Λ.at_labelName k).trans hk⟩

theorem under_goto {s : String} (hH : ∀ Λ, H Λ → Λ.at (.name s) = ∅) : Code.Under H l l [Quad.goto s] Γ ∅ :=
  .single (fun Λ hΛ => .goto (by rw [hH Λ hΛ]; exact Set.empty_subset _)) fun _ _ => Set.empty_subset _

theorem under_while {d : Code} {j k l₁ : Nat} (hj : ∀ Λ, H Λ → Λ j = ∅) (hk : ∀ Λ, H Λ → Λ k = ∅)
    (hc : Code.Under H l l₁ c ∅ Γ) (ha : Present Γ [a]) (hd : Code.Under H l₁ l' d Γ ∅) (hl₁ : l ≤ l₁) (hl' : l₁ ≤ l') :
    Code.Under H l l' (Quad.label (labelName j) :: (c ++ Quad.jumpIfFalse a (labelName k) :: (d ++
      [Quad.goto (labelName j), Quad.label (labelName k)]))) ∅ ∅ := by
  have hend : Code.Under H l' l' [Quad.goto (labelName j), Quad.label (labelName k)] ∅ ∅ :=
    (under_goto fun Λ hΛ => (Λ.at_labelName j).trans (hj Λ hΛ)).append (under_label hk subset_rfl)
      (Nat.le_refl _) (Nat.le_refl _)
  have htest := (hd.append hend hl' (Nat.le_refl _)).cons hl'
    (fun Λ hΛ => .jumpIfFalse ha (by rw [Λ.at_labelName, hk Λ hΛ]; exact Set.empty_subset _))
    fun _ _ => subset_rfl
  exact (under_label hj subset_rfl).append (hc.append htest hl₁ hl') (Nat.le_refl _) (hl₁.trans hl')

theorem under_exitTest {b : Option Operand} {k : Nat} (hk : ∀ Λ, H Λ → Λ k = ∅) (hb : Present Γ b.toList) :
    Code.Under H l l (exitTest (labelName k) b) Γ Γ := by
  cases b with
  | none => exact .nil subset_rfl
  | some a =>
    exact .single (fun Λ hΛ => .jumpIfFalse hb (by rw [Λ.at_labelName, hk Λ hΛ]; exact Set.empty_subset _))
      fun _ _ => subset_rfl

theorem under_for {d e : Code} {b : Option Operand} {i j k l₁ l₂ : Nat} {Γ' : Set String} (hi : ∀ Λ, H Λ → Λ i = ∅)
    (hj : ∀ Λ, H Λ → Λ j = ∅) (hk : ∀ Λ, H Λ → Λ k = ∅) (hc : Code.Under H l l₁ c ∅ Γ) (hb : Present Γ b.toList)
    (hd : Code.Under H l₁ l₂ d Γ ∅) (he : Code.Under H l₂ l' e ∅ Γ') (hl₁ : l ≤ l₁) (hl₂ : l₁ ≤ l₂) (hl' : l₂ ≤ l') :
    Code.Under H l l' (Quad.label (labelName i) :: (c ++ (exitTest (labelName k) b ++ (d ++
      Quad.label (labelName j) :: (e ++ [Quad.goto (labelName i), Quad.label (labelName k)]))))) ∅ ∅ := by
  have hend : Code.Under H l' l' [Quad.goto (labelName i), Quad.label (labelName k)] Γ' ∅ :=
    (under_goto fun Λ hΛ => (Λ.at_labelName i).trans (hi Λ hΛ)).append (under_label hk subset_rfl)
      (Nat.le_refl _) (Nat.le_refl _)
  have hupdate := (under_label hj subset_rfl).append (he.append hend hl' (Nat.le_refl _)) (Nat.le_refl _) hl'
  have htest := (under_exitTest hk hb).append (hd.append hupdate hl₂ hl') (Nat.le_refl _) (hl₂.trans hl')
  exact (under_label hi subset_rfl).append (hc.append htest hl₁ (hl₂.trans hl')) (Nat.le_refl _)
    (hl₁.trans (hl₂.trans hl'))

theorem under_functionLabel {s : String} (hs : s.toList.head? ≠ some 'L') :
    Code.Under H l l [Quad.label s] Γ ∅ :=
  .single (fun Λ _ => .label (by rw [Λ.at_eq_empty hs]; exact Set.empty_subset _)) fun _ _ => Set.empty_subset _

theorem under_receives (xs : List Target) : Code.Under H l l (xs.map Quad.receive) Γ Γ := by
  induction xs with
  | nil => exact .nil subset_rfl
  | cons x xs ih =>
    exact ih.cons (Nat.le_refl l) (fun _ _ => .of_reads rfl nofun nofun) fun _ _ => Set.subset_union_left

theorem under_function {f : String} {xs : List Target} (hc : Code.Under H l l' c ∅ ∅) (hl : l ≤ l') :
    Code.Under H l l' (Lower.functionCode f xs c) ∅ ∅ := by
  have hf : (functionMark ++ f).toList.head? ≠ some 'L' := by rw [head_functionMark]; decide
  have he : (endMark ++ f).toList.head? ≠ some 'L' := by rw [head_endMark]; decide
  have hret : Code.Under H l' l' [Quad.ret void, Quad.label (endMark ++ f)] ∅ ∅ :=
    (Code.Under.single (q := Quad.ret void) (fun _ _ => .of_reads rfl nofun (present_of_temp? (by decide)))
      fun _ _ => subset_rfl).append (under_functionLabel he) (Nat.le_refl _) (Nat.le_refl _)
  have hbody := (under_receives xs).append (hc.append hret hl (Nat.le_refl _)) (Nat.le_refl _) hl
  exact (under_goto fun Λ _ => Λ.at_eq_empty he).append ((under_functionLabel hf).append hbody (Nat.le_refl _) hl)
    (Nat.le_refl _) hl

theorem Emits.flows {loop : Option Loop} {fs : List String} (h : Emits P Q loop t l c fs t' l') :
    Code.Under (Loop.Bare loop) l l' c ∅ ∅ := by
  -- statements hand no temporaries on, so nothing need be present between them, nor at their labels
  induction h with
  | expression h =>
    obtain ⟨Γ, -, -, hc⟩ := h.flows ∅
    exact (hc.imp fun _ _ => trivial).forget (Set.empty_subset _)
  | append h₁ h₂ ih₁ ih₂ => exact ih₁.append ih₂ h₁.le.2 h₂.le.2
  | branch h ha h₁ h₂ ih₁ ih₂ =>
    obtain ⟨Γ, -, has, hc⟩ := h.flows ∅
    exact under_branch (hc.imp fun _ _ => trivial) (has.mem ha) (ih₁.mono (Set.empty_subset _)) ih₂
      (Set.empty_subset _) subset_rfl subset_rfl h.le.2 h₁.le.2 h₂.le.2
  | «while» h ha h₁ ih =>
    obtain ⟨Γ, -, has, hc⟩ := h.flows ∅
    have hle := h.le
    have hle₁ := h₁.le
    refine .draw ∅ (.draw ∅ (under_while (fun _ h => h.1.2) (fun _ h => h.2) (hc.imp fun _ _ => trivial) (has.mem ha)
      ((ih.imp fun _ h => ?_).mono (Set.empty_subset _)) hle.2 hle₁.2) (by omega)) (by omega)
    exact Loop.bare_some h.1.2 h.2
  | «for» h ha h₁ h' ih =>
    obtain ⟨Γ, -, has, hc⟩ := h.flows ∅
    obtain ⟨Γ', -, -, he⟩ := h'.flows ∅
    have hle := h.le
    have hle₁ := h₁.le
    have hle' := h'.le
    refine .draw ∅ (.draw ∅ (.draw ∅ (under_for (fun _ h => h.1.1.2) (fun _ h => h.1.2) (fun _ h => h.2)
      (hc.imp fun _ _ => trivial) (has.subset fun b hb => ha b (by simpa using hb))
      ((ih.imp fun _ h => ?_).mono (Set.empty_subset _)) (he.imp fun _ _ => trivial) hle.2 hle₁.2 hle'.2)
      (by omega)) (by omega)) (by omega)
    exact Loop.bare_some h.1.2 h.2
  | «break» => exact under_goto fun Λ hΛ => (hΛ _ rfl).2
  | «continue» => exact under_goto fun Λ hΛ => (hΛ _ rfl).1
  | «return» h ha =>
    obtain ⟨Γ, -, has, hc⟩ := h.flows ∅
    exact (hc.imp fun _ _ => trivial).append (.single (fun _ _ => .of_reads rfl nofun (has.mem ha))
      fun _ _ => Set.empty_subset _) h.le.2 (Nat.le_refl _)
  | function _ _ h ih => exact under_function (ih.imp fun _ _ _ hlp => by cases hlp) h.le.2

end

/-! ### Runs -/

namespace Machine

variable {Λ : Assertion} {code : Code} {m m' : Machine} {q : Quad} {Γ : Set String} {answers : Answers}

/-- Everything in a set is in the memory. -/
def Holds (μ : Memory) (Γ : Set String) : Prop := ∀ s ∈ Γ, ∃ v, μ.get? (.text s) = some v

theorem Holds.setKey {μ : Memory} (h : Holds μ Γ) (k : Key) (v : Value) : Holds (μ.setKey k v) Γ := by
  intro s hs
  rw [Table.get?_setKey_text]
  split
  · exact ⟨v, rfl⟩
  · exact h s hs

theorem holds_temp {μ : Memory} {x : Target} {place : Nat} {k : Key} (v : Value) (hk : x.key place = .ok k) :
    Holds (μ.setKey k v) {s | x.temp? = some s} := by
  intro s hs
  obtain ⟨rfl, -⟩ := Target.temp?_eq_some hs
  cases hk
  exact ⟨v, by rw [Table.get?_setKey_text, if_pos rfl]⟩

theorem Holds.write {μ : Memory} (h : Holds μ Γ) {x : Target} {place : Nat} {k : Key} (v : Value)
    (hk : x.key place = .ok k) : Holds (μ.setKey k v) (Γ ∪ {s | x.temp? = some s}) := by
  rintro s (hs | hs)
  · exact h.setKey k v s hs
  · exact holds_temp v hk s hs

theorem Holds.store {μ μ' : Memory} (h : Holds μ Γ) {x : Target} {place : Nat} {v : Value}
    (hμ : μ' = μ ∧ x.truthy = false ∨ ∃ k, x.key place = .ok k ∧ μ' = μ.setKey k v) :
    Holds μ' (Γ ∪ {s | x.temp? = some s}) := by
  rcases hμ with ⟨rfl, hx⟩ | ⟨k, hk, rfl⟩
  · rintro s (hs | hs)
    · exact h s hs
    · obtain ⟨rfl, ht⟩ := Target.temp?_eq_some hs
      have hne : s ≠ "" := by rintro rfl; cases ht
      simp [Target.truthy, Target.toTree, Tree.truthy, hne] at hx
  · exact h.write v hk

/-- What flows from where the machine stands, and from where its calls return to, is in its memory. -/
structure Flowing (Λ : Assertion) (code : Code) (m : Machine) : Prop where
  here : ∃ Γ, Code.Flows Λ (code.drop m.pc) Γ ∅ ∧ Holds m.memory Γ
  frames : ∀ f ∈ m.stack, ∃ Γ, Code.Flows Λ (code.drop f.returnIndex) (Γ ∪ {s | f.target.temp? = some s}) ∅ ∧
    Holds m.memory Γ

theorem Flowing.start (h : Code.Flows Λ code ∅ ∅) : Flowing Λ code (start answers) :=
  ⟨⟨∅, h, fun s hs => absurd hs (Set.notMem_empty s)⟩, fun f hf => by cases hf⟩

theorem flows_drop (hq : code[m.pc]? = some q) (h : Code.Flows Λ (code.drop m.pc) Γ ∅) :
    q.Fits Λ Γ ∧ Code.Flows Λ (code.drop (m.pc + 1)) (q.flow Λ Γ) ∅ := by
  obtain ⟨hlt, rfl⟩ := List.getElem?_eq_some_iff.1 hq
  rwa [List.drop_eq_getElem_cons hlt] at h

/-- Where a label stands, no more is expected than is assigned to it. -/
theorem flows_label {Δ : Set String} (h : Code.Flows Λ code Γ ∅) {i : Nat} {s : String}
    (hi : code.labels.get? (.text s) = some i) (hs : Λ.at (.name s) ⊆ Δ) : Code.Flows Λ (code.drop i) Δ ∅ := by
  obtain ⟨q, hq, hop, hres⟩ := Code.labels_get?_eq_some hi
  obtain ⟨hlt, rfl⟩ := List.getElem?_eq_some_iff.1 hq
  obtain ⟨Γ₁, hdrop⟩ := h.drop i
  rw [List.drop_eq_getElem_cons hlt] at hdrop ⊢
  obtain ⟨hfits, hflows⟩ := hdrop
  obtain ⟨⟨s', hs'⟩, hsub⟩ := hfits.goes (by simp [Quad.control, hop])
  have hss : s' = s := by simpa [hs', Target.toTree] using hres s rfl
  subst hss
  have hflow : ∀ Γ, code[i].flow Λ Γ = Λ.at (.name s') := fun Γ => by simp [Quad.flow, hop, hs']
  rw [hflow] at hflows
  refine ⟨⟨?_, fun _ => ⟨⟨s', hs'⟩, hs' ▸ hs⟩, fun hc => by rw [hop] at hc; cases hc⟩, ?_⟩
  · simp [Present, Quad.reads, hop]
  · rw [hflow]; exact hflows

theorem Flowing.frames_of (h : Flowing Λ code m) (hstack : m'.stack = m.stack)
    (hmemory : ∀ Γ, Holds m.memory Γ → Holds m'.memory Γ) : ∀ f ∈ m'.stack, ∃ Γ,
      Code.Flows Λ (code.drop f.returnIndex) (Γ ∪ {s | f.target.temp? = some s}) ∅ ∧ Holds m'.memory Γ := by
  intro f hf
  obtain ⟨Γ, hflows, hΓ⟩ := h.frames f (hstack ▸ hf)
  exact ⟨Γ, hflows, hmemory Γ hΓ⟩

theorem Flowing.step (hcode : Code.Flows Λ code ∅ ∅) (h : Flowing Λ code m) (hq : code[m.pc]? = some q)
    (hs : m.step code code.labels q = .ok m') : Flowing Λ code m' := by
  obtain ⟨Γ, hΓ, hheld⟩ := h.here
  obtain ⟨hfits, hflows⟩ := flows_drop hq hΓ
  have hlabel : ∀ {k : Key} {i : Nat}, q.control ≠ .other → q.result.key m.pc = .ok k →
      code.labels.getKey? k = some i → Code.Flows Λ (code.drop i) Γ ∅ := by
    intro k i hc hk hi
    obtain ⟨⟨s, hs⟩, hsub⟩ := hfits.goes hc
    rw [hs] at hk
    cases hk
    exact flows_label hcode hi (hs ▸ hsub)
  cases step_effect hs with
  | assign hop hv hk =>
    have hflow : q.flow Λ Γ = Γ ∪ {s | q.result.temp? = some s} := by simp [Quad.flow, hop]
    exact ⟨⟨_, hflows, hflow ▸ hheld.write _ hk⟩, h.frames_of rfl fun _ hΓ => hΓ.setKey _ _⟩
  | operator hop ha hb hv hk =>
    have hflow : q.flow Λ Γ = Γ ∪ {s | q.result.temp? = some s} := by simp [Quad.flow, hop]
    exact ⟨⟨_, hflows, hflow ▸ hheld.write _ hk⟩, h.frames_of rfl fun _ hΓ => hΓ.setKey _ _⟩
  | goto hop hk hp => exact ⟨⟨Γ, hlabel (by simp [Quad.control, hop]) hk hp, hheld⟩, h.frames⟩
  | pass hop hv ht =>
    have hflow : q.flow Λ Γ = Γ := by simp [Quad.flow, hop]
    rw [hflow] at hflows
    exact ⟨⟨Γ, hflows, hheld⟩, h.frames⟩
  | branch hop hv ht hk hp => exact ⟨⟨Γ, hlabel (by simp [Quad.control, hop]) hk hp, hheld⟩, h.frames⟩
  | param hop hv =>
    have hflow : q.flow Λ Γ = Γ := by simp [Quad.flow, hop]
    rw [hflow] at hflows
    exact ⟨⟨Γ, hflows, hheld⟩, h.frames⟩
  | receive hop hk =>
    have hflow : q.flow Λ Γ = Γ ∪ {s | q.result.temp? = some s} := by simp [Quad.flow, hop]
    exact ⟨⟨_, hflows, hflow ▸ hheld.write _ hk⟩, h.frames_of rfl fun _ hΓ => hΓ.setKey _ _⟩
  | print hop harg hlead =>
    obtain ⟨s, hs, -, htemp⟩ := hfits.calls hop
    rw [hs] at harg
    cases harg
    have hflow : q.flow Λ Γ = Γ := by simp [Quad.flow, hop, htemp _ hlead]
    rw [hflow] at hflows
    exact ⟨⟨Γ, hflows, hheld⟩, h.frames⟩
  -- a function relies on no temporary, and a frame remembers what its caller had
  | enter hop hk hp =>
    obtain ⟨s, hs, hempty, -⟩ := hfits.calls hop
    rw [hs] at hk
    cases hk
    have hflow : q.flow Λ Γ = Γ ∪ {s | q.result.temp? = some s} := by simp [Quad.flow, hop]
    refine ⟨⟨Γ, flows_label hcode hp (by rw [hempty]; exact Set.empty_subset _), hheld⟩, fun f hf => ?_⟩
    rcases List.mem_cons.1 hf with rfl | hf
    · exact ⟨Γ, hflow ▸ hflows, hheld⟩
    · exact h.frames f hf
  | intrinsic hop hmem =>
    have hflow : q.flow Λ Γ = Γ ∪ {s | q.result.temp? = some s} := by simp [Quad.flow, hop]
    refine ⟨⟨_, hflows, hflow ▸ hheld.store hmem⟩, h.frames_of rfl fun _ hΓ => ?_⟩
    exact fun s hs => hΓ.store hmem s (.inl hs)
  | finish hop hstack =>
    refine ⟨⟨∅, ?_, fun s hs => absurd hs (Set.notMem_empty s)⟩, h.frames⟩
    rw [List.drop_length]
    exact subset_rfl
  | @leave v frame rest μ hop hv hstack hmem =>
    obtain ⟨Γ₁, hflows₁, hΓ₁⟩ := h.frames frame (by rw [hstack]; simp)
    refine ⟨⟨_, hflows₁, hΓ₁.store hmem⟩, fun f hf => ?_⟩
    obtain ⟨Γ₂, hflows₂, hΓ₂⟩ := h.frames f (by rw [hstack]; exact List.mem_cons_of_mem _ hf)
    exact ⟨Γ₂, hflows₂, fun s hs => hΓ₂.store hmem s (.inl hs)⟩
  | skip hop =>
    rcases hop with hop | ⟨word, hop⟩
    · have hflow : q.flow Λ Γ = Λ.at q.result := by simp [Quad.flow, hop]
      have hsub := (hfits.goes (by simp [Quad.control, hop])).2
      exact ⟨⟨_, hflows, fun s hs => hheld s (hsub (hflow ▸ hs))⟩, h.frames⟩
    · have hflow : q.flow Λ Γ = Γ := by simp [Quad.flow, hop]
      rw [hflow] at hflows
      exact ⟨⟨Γ, hflows, hheld⟩, h.frames⟩

/-- Every temporary that an instruction reads is present whenever a run comes to it. -/
theorem present_of_reachable (hcode : Code.Flows Λ code ∅ ∅) (h : Reachable code answers m)
    (hq : code[m.pc]? = some q) : m.ReadsPresent q := by
  have hflowing : Flowing Λ code m := by
    refine h.induct (Flowing.start hcode) fun m m' _ hm hadv => ?_
    obtain ⟨q, hq, hs⟩ := advance_eq_some hadv
    exact hm.step hcode hq hs
  obtain ⟨Γ, hΓ, hheld⟩ := hflowing.here
  exact fun s hs ht => hheld s ((flows_drop hq hΓ).1.reads s hs ht)

end Machine

/-! ### Lowered programs -/

namespace Node

variable {n : Node} {l : Lowered Unit} {N : Number → Prop} {answers : Answers} {m : Machine} {q : Quad}

theorem readsPresent_of_reachable (hl : n.lower = .ok l) (h : Machine.Reachable l.code answers m)
    (hq : l.code[m.pc]? = some q) : m.ReadsPresent q := by
  obtain ⟨c, hc, hemits⟩ := lower_emits (N := fun _ => True) (p := False) False.elim False.elim hl
  obtain ⟨Λ, hΛ⟩ := hemits.flows
  have hflows : Code.Flows Λ c ∅ ∅ := hΛ Λ (fun _ hlp => by cases hlp) fun _ _ _ => rfl
  rw [hc] at h hq
  rw [Code.getElem?_renumber] at hq
  obtain ⟨q', hq', rfl⟩ := Option.map_eq_some_iff.1 hq
  have hpresent := Machine.present_of_reachable hflows (Machine.reachable_renumber.1 h) hq'
  exact hpresent

theorem tame_of_lower (hone : N (.int 1)) (hp : n.Plain N) (hl : n.lower = .ok l) :
    ∃ c : Code, l.code = c.renumber ∧ c.Tame N := by
  obtain ⟨c, hc, hemits⟩ := lower_emits (p := True) (fun _ => hone) (fun _ => hp) hl
  have hdrawn : Loop.Drawn none := fun _ hlp => by cases hlp
  have hemitted := hemits.emitted (fun _ _ => trivial) (fun _ => trivial) hdrawn
  obtain ⟨k, -, hk⟩ := hemits.draws hdrawn
  refine ⟨c, hc, fun q hq => ?_, fun q hq => ?_, ?_, fun q hq => ?_⟩
  · cases hemitted q hq <;> simp_all [Quad.reads]
  · refine Target.Scalar.keyed ?_
    cases hemitted q hq <;> simp_all [Target.Scalar]
  · unfold Code.TempsOnce
    rw [hk]
    exact List.Nodup.map (numbered_injective _) List.nodup_range'
  · exact (hemitted q hq).writes

end Node

end QuadScript
