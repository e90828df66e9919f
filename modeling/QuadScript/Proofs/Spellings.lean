import QuadScript.Proofs.Symbols

/-!
# The names of a scope

A scope has no name twice, and each of its names is bound to a symbol of that name (`ScopeTree.Spelled`). A name that
is a number keeps the spelling of its first declaration in the scope, so the symbol that it is bound to may spell it
differently; texts have one spelling only. Every event of a walk keeps this.
-/

namespace QuadScript

/-! ### Tables without a key twice -/

namespace Table

variable {α : Type} {t : Table Key α} {k : Key} {a : α} {e : Key × α}

/-- No two keys of the table find the same entry. -/
def Distinct (t : Table Key α) : Prop := (t.entries.map (·.1)).Pairwise fun k k' => ¬k.Meets k'

theorem distinct_empty : (∅ : Table Key α).Distinct := .nil

theorem spelling_mem_or_eq (t : Table Key α) (k : Key) : t.spelling k ∈ t.entries.map (·.1) ∨ t.spelling k = k := by
  by_cases hk : k.number? = none
  · exact .inr (spelling_of_number?_eq_none hk)
  · rw [spelling_eq_of_number hk]
    cases hf : (t.entries.map (·.1)).find? (·.same k) with
    | none => exact .inr rfl
    | some s => exact .inl (List.mem_of_find?_eq_some hf)

/-- A key that meets one of the table has the spelling of a key of the table. -/
theorem spelling_mem (hmem : k ∈ t.entries.map (·.1)) {k' : Key} (h : k.Meets k') :
    t.spelling k' ∈ t.entries.map (·.1) := by
  by_cases hk : k'.number? = none
  · rwa [spelling_of_number?_eq_none hk, ← h.eq hk]
  · rw [spelling_eq_of_number hk]
    cases hf : (t.entries.map (·.1)).find? (·.same k') with
    | some s => exact List.mem_of_find?_eq_some hf
    | none =>
      obtain rfl := h.resolve_right (List.find?_eq_none.1 hf k hmem)
      exact hmem

theorem Distinct.setKey (h : t.Distinct) (k : Key) (a : α) : (t.setKey k a).Distinct := by
  unfold Distinct Table.setKey set
  rw [keys_put]
  split
  · exact h
  · rename_i hnew
    refine List.pairwise_append.2 ⟨h, List.pairwise_singleton _ _, fun s hs s' hs' hmeets => hnew ?_⟩
    cases List.mem_singleton.1 hs'
    exact spelling_mem hs (hmeets.trans (t.spelling_meets k))

theorem mem_setKey (h : e ∈ (t.setKey k a).entries) : e = (t.spelling k, a) ∨ e ∈ t.entries := mem_put h

end Table

/-! ### Scopes -/

namespace ScopeTree

variable {t t' : ScopeTree} {i : Nat}

theorem bindings_child (t : ScopeTree) (i j : Nat) (kind : ScopeKind) : (t.child i kind).bindings j = t.bindings j := by
  unfold bindings child
  rw [List.getElem?_append]
  by_cases hj : j < t.scopes.length
  · rw [if_pos hj]
  · rw [if_neg hj, List.getElem?_eq_none (Nat.le_of_not_lt hj)]
    cases j - t.scopes.length <;> rfl

/-- Each scope has no name twice; each name is bound to a symbol whose name it meets, and is the name of a symbol
itself. -/
structure Spelled (t : ScopeTree) : Prop where
  distinct : ∀ i, (t.bindings i).Distinct
  bound : ∀ i, ∀ e ∈ (t.bindings i).entries, ∃ y, t.symbol? e.2 = some y ∧ e.1.Meets y.name
  origin : ∀ i, ∀ e ∈ (t.bindings i).entries, ∃ n y, t.symbol? n = some y ∧ y.name = e.1

namespace Spelled

theorem root (kind : ScopeKind) : (root kind).Spelled := by
  have hnone : ∀ i, (ScopeTree.root kind).bindings i = ∅ := by
    intro i
    rcases i with _ | i <;> rfl
  constructor
  · intro i
    rw [hnone]
    exact Table.distinct_empty
  all_goals
    intro i e he
    rw [hnone] at he
    cases he

theorem evolves (h : t.Spelled) (he : t.Evolves t') : t'.Spelled where
  distinct i := he.bindings i ▸ h.distinct i
  bound i e hmem := by
    obtain ⟨y, hy, hmeets⟩ := h.bound i e (he.bindings i ▸ hmem)
    obtain ⟨y', hy', hlater⟩ := he.symbol hy
    exact ⟨y', hy', hlater.name ▸ hmeets⟩
  origin i e hmem := by
    obtain ⟨n, y, hy, hname⟩ := h.origin i e (he.bindings i ▸ hmem)
    obtain ⟨y', hy', hlater⟩ := he.symbol hy
    exact ⟨n, y', hy', hlater.name.trans hname⟩

theorem child (h : t.Spelled) (i : Nat) (kind : ScopeKind) : (t.child i kind).Spelled where
  distinct j := t.bindings_child i j kind ▸ h.distinct j
  bound j := t.bindings_child i j kind ▸ h.bound j
  origin j := t.bindings_child i j kind ▸ h.origin j

theorem bind (h : t.Spelled) (i : Nat) (y : Symbol) : (t.bind i y).Spelled := by
  have hold : ∀ {n y₀}, t.symbol? n = some y₀ → (t.bind i y).symbol? n = some y₀ := fun hy₀ => by
    rw [symbol?_bind, if_neg (Nat.ne_of_lt (symbol?_lt hy₀)), hy₀]
  have hself : (t.bind i y).symbol? t.declared.length = some y := by rw [symbol?_bind, if_pos rfl]
  have hbound : ∀ {j : Nat} {e : Key × Nat}, e ∈ (t.bindings j).entries →
      ∃ y', (t.bind i y).symbol? e.2 = some y' ∧ e.1.Meets y'.name := fun hmem => by
    obtain ⟨y', hy', hmeets⟩ := h.bound _ _ hmem
    exact ⟨y', hold hy', hmeets⟩
  have horigin : ∀ {j : Nat} {e : Key × Nat}, e ∈ (t.bindings j).entries →
      ∃ n y', (t.bind i y).symbol? n = some y' ∧ y'.name = e.1 := fun hmem => by
    obtain ⟨n, y', hy', hname⟩ := h.origin _ _ hmem
    exact ⟨n, y', hold hy', hname⟩
  -- the new entry has the spelling that the scope had for the name, or else that of the new symbol
  constructor
  · intro j
    rw [bindings_bind]
    split
    · exact (h.distinct j).setKey _ _
    · exact h.distinct j
  · intro j e hmem
    rw [bindings_bind] at hmem
    split at hmem
    · obtain rfl | hmem := Table.mem_setKey hmem
      · exact ⟨y, hself, Table.spelling_meets _ _⟩
      · exact hbound hmem
    · exact hbound hmem
  · intro j e hmem
    rw [bindings_bind] at hmem
    split at hmem
    · obtain rfl | hmem := Table.mem_setKey hmem
      · obtain hkey | heq := (t.bindings j).spelling_mem_or_eq y.name
        · obtain ⟨e, he, hkey⟩ := List.mem_map.1 hkey
          obtain ⟨n, y', hy', hname⟩ := horigin he
          exact ⟨n, y', hy', hname.trans hkey⟩
        · exact ⟨_, y, hself, heq.symm⟩
      · exact horigin hmem
    · exact horigin hmem

theorem global : global.Spelled := by
  have key : ∀ (ys : List Symbol) {t : ScopeTree}, t.Spelled → (ys.foldl (fun t y => t.bind 0 y) t).Spelled := by
    intro ys
    induction ys with
    | nil => exact fun h => h
    | cons y ys ih => exact fun h => ih (h.bind 0 y)
  exact key builtins (root .global)

end Spelled

end ScopeTree

theorem Event.Does.spelled {e : Event} {w w' : Walk} (h : e.Does w w') (hw : w.state.tree.Spelled) :
    w'.state.tree.Spelled := by
  obtain ⟨kind, rfl, rfl⟩ | ⟨rfl, i, -, hstate⟩ | ⟨h, -⟩ := h.cases
  · exact hw.child _ _
  · rw [hstate]
    exact hw
  · obtain ⟨hchange, -⟩ := h.change
    generalize w'.state.tree = t at hchange ⊢
    cases hchange with
    | evolve hevolves => exact hw.evolves hevolves
    | bind => exact hw.bind _ _

theorem Performs.spelled {es : List Event} {w w' : Walk} (h : Performs es w w') (hw : w.state.tree.Spelled) :
    w'.state.tree.Spelled :=
  h.induct (P := fun w => w.state.tree.Spelled) (fun _ _ _ hn hw => hw.evolves hn.evolves)
    (fun _ _ _ _ he hw => he.spelled hw) hw

end QuadScript
