import QuadScript.Proofs.Emission
import QuadScript.Proofs.Symbols

/-!
# What a walk leaves as it was

A walk goes on from the state that it finds: the tree of scopes only grows (`ScopeTree.Grows`), the current scope and
the functions being walked are in the end the same as before, and nothing that was reported is taken back
(`AnalysisState.Continues`). It is the events of the walk that keep this, whatever the program is.
-/

namespace QuadScript

namespace ScopeTree

variable {t t₁ t₂ : ScopeTree} {i : Nat} {k : Key} {y : Symbol}

/-- Scopes stay where they are, names stay bound, and the flags of a symbol stay raised. -/
structure Grows (t t' : ScopeTree) : Prop where
  size : t.size ≤ t'.size
  parent : ∀ i < t.size, t'.parent? i = t.parent? i
  binds : ∀ i k, t.binds i k = true → t'.binds i k = true
  symbol : ∀ n y, t.symbol? n = some y → ∃ y', t'.symbol? n = some y' ∧
    (y.used = true → y'.used = true) ∧ (y.initialized = true → y'.initialized = true)

namespace Grows

theorem trans (h : t.Grows t₁) (h' : t₁.Grows t₂) : t.Grows t₂ where
  size := Nat.le_trans h.size h'.size
  parent i hi := (h'.parent i (Nat.lt_of_lt_of_le hi h.size)).trans (h.parent i hi)
  binds i k hk := h'.binds i k (h.binds i k hk)
  symbol n y hy := by
    obtain ⟨y₁, hy₁, hused, hinit⟩ := h.symbol n y hy
    obtain ⟨y₂, hy₂, hused', hinit'⟩ := h'.symbol n y₁ hy₁
    exact ⟨y₂, hy₂, hused' ∘ hused, hinit' ∘ hinit⟩

theorem of_evolves (h : t.Evolves t₁) : t.Grows t₁ where
  size := Nat.le_of_eq h.size.symm
  parent i _ := h.parent i
  binds i k hk := by rwa [ScopeTree.binds, h.findLocal?]
  symbol n y hy := by
    obtain ⟨y', hy', hlater⟩ := h.symbol hy
    exact ⟨y', hy', hlater.used, hlater.initialized⟩

theorem refl (t : ScopeTree) : t.Grows t := of_evolves (.refl t)

theorem bind (t : ScopeTree) (i : Nat) (y : Symbol) : t.Grows (t.bind i y) where
  size := Nat.le_of_eq size_bind.symm
  parent _ _ := parent?_bind
  binds j k hk := by
    rw [ScopeTree.binds, findLocal?_bind_key]
    split
    · rfl
    · exact hk
  symbol n y' hy := by
    have hlt := symbol?_lt hy
    exact ⟨y', by rw [symbol?_bind, if_neg (by omega), hy], id, id⟩

theorem child (t : ScopeTree) (i : Nat) (kind : ScopeKind) : t.Grows (t.child i kind) where
  size := by rw [size_child]; exact Nat.le_succ _
  parent j hj := by rw [parent?_child, if_neg (Nat.ne_of_lt hj)]
  binds j k hk := by
    obtain ⟨n, hn⟩ := Option.isSome_iff_exists.1 hk
    rw [ScopeTree.binds, findLocal?_child, if_neg (Nat.ne_of_lt (lt_size_of_findLocal? hn))]
    exact hk
  symbol n y hy := ⟨y, hy, id, id⟩

theorem children (h : t.Grows t₁) (i : Nat) : t.children i <+: t₁.children i := by
  obtain ⟨d, hd⟩ := Nat.exists_eq_add_of_le h.size
  have hsame : (List.range t.size).filter (fun j => t₁.parent? j = some i) = t.children i :=
    List.filter_congr fun j hj => by rw [h.parent j (List.mem_range.1 hj)]
  unfold ScopeTree.children at hsame ⊢
  rw [hd, List.range_add, List.filter_append, hsame]
  exact List.prefix_append _ _

end Grows

end ScopeTree

namespace AnalysisState

/-- The state is as before, but for scopes and symbols that are new, flags that are raised, a return of the innermost
function and what was found meanwhile. -/
structure Continues (σ τ : AnalysisState) : Prop where
  current : τ.current = σ.current
  functions : τ.functions = σ.functions ∨ τ.functions = σ.functions.modifyHead fun f => { f with hasReturn := true }
  size : σ.tree.size ≤ τ.tree.size
  parent : ∀ i < σ.tree.size, τ.tree.parent? i = σ.tree.parent? i
  children : ∀ i < σ.tree.size, σ.tree.children i <+: τ.tree.children i
  binds : ∀ i < σ.tree.size, ∀ k, σ.tree.binds i k = true → τ.tree.binds i k = true
  flags : ∀ n y, σ.tree.symbol? n = some y → ∃ y', τ.tree.symbol? n = some y' ∧
    (y.used = true → y'.used = true) ∧ (y.initialized = true → y'.initialized = true)
  diagnostics : σ.diagnostics <+: τ.diagnostics

end AnalysisState

namespace Event

variable {e : Event} {w w' : Walk}

theorem Does.grows (h : e.Does w w') : w.state.tree.Grows w'.state.tree := by
  obtain ⟨kind, rfl, rfl⟩ | ⟨rfl, i, -, hw⟩ | ⟨h, -⟩ := h.cases
  · exact .child ..
  · rw [hw]
    exact .refl _
  · obtain ⟨hchange, -⟩ := h.change
    generalize w'.state.tree = t at hchange ⊢
    cases hchange with
    | evolve hevolves => exact .of_evolves hevolves
    | bind => exact .bind ..

theorem Does.outermost (h : e.Does w w') :
    (w'.state.current :: w'.outer).getLast? = (w.state.current :: w.outer).getLast? := by
  obtain ⟨kind, rfl, rfl⟩ | ⟨rfl, i, houter, hw⟩ | ⟨h, houter⟩ := h.cases
  · simp
  · simp [hw, houter]
  · rw [houter, h.change.2.1]

end Event

namespace Performs

variable {es : List Event} {w w' : Walk}

theorem grows (h : Performs es w w') : w.state.tree.Grows w'.state.tree :=
  h.induct (P := fun w' => w.state.tree.Grows w'.state.tree)
    (fun _ _ _ hn hg => hg.trans (.of_evolves hn.evolves)) (fun _ _ _ _ he hg => hg.trans he.grows) (.refl _)

theorem outermost (h : Performs es w w') :
    (w'.state.current :: w'.outer).getLast? = (w.state.current :: w.outer).getLast? :=
  h.induct (P := fun w' => (w'.state.current :: w'.outer).getLast? = (w.state.current :: w.outer).getLast?)
    (fun _ _ _ hn hl => by rw [← hl, hn.current]) (fun _ _ _ _ he hl => he.outermost.trans hl) rfl

end Performs

/-- The walk of a node is balanced and monotone, from every state. -/
theorem Analyze.visit_continues {n : Node} {σ τ : AnalysisState} {kind : Option Kind}
    (h : visit n σ = .ok (kind, τ)) : σ.Continues τ := by
  have hmakes := visit_makes n
  have hperforms := hmakes.performs h []
  have hgrows := hperforms.grows
  exact {
    current := by simpa using hperforms.outermost
    functions := hmakes.frames h
    size := hgrows.size
    parent := hgrows.parent
    children := fun i _ => hgrows.children i
    binds := fun i _ => hgrows.binds i
    flags := hgrows.symbol
    diagnostics := hperforms.diagnostics }

/-- A block that declares a function and returns it. -/
def returningBlock : Node := .bare (.block [
  .bare (.function (.named "f") [.mk (.ok .none) (.ok (.str "x")) .absent] (.bare (.block []))),
  .bare (.return (.named "f"))])

/-- The state inside a function that stands in another one. -/
def AnalysisState.insideTwo : AnalysisState := { AnalysisState.initial with functions := [⟨none, false⟩, ⟨none, false⟩] }

/-- The block goes back to the scope in which it stands, and marks the function around it and no other. -/
theorem Analyze.visit_continues_block : ∃ τ, visit returningBlock .insideTwo = .ok (none, τ) ∧
    τ.functions.map (·.hasReturn) = [true, false] ∧ τ.tree.children 0 = [1] ∧
    AnalysisState.insideTwo.Continues τ := by
  obtain ⟨τ, hτ, hreturn, hchildren⟩ : ∃ τ, visit returningBlock .insideTwo = .ok (none, τ) ∧
      τ.functions.map (·.hasReturn) = [true, false] ∧ τ.tree.children 0 = [1] := ⟨_, rfl, rfl, rfl⟩
  exact ⟨τ, hτ, hreturn, hchildren, visit_continues hτ⟩

end QuadScript
