import QuadScript.Proofs.Symbols

/-!
# Redeclared names

Scopes change by operations from outside: a scope is opened inside another, and a symbol is declared in a scope
(`ScopeTree.Op`). A declaration of a name that its scope has already is refused if it is a `let` or a `const`, or a
`var` whose function has the name; any other declaration takes the name over (`ScopeTree.Guarded`). So a name stays
bound to its symbol, and all later declarations of it are refused, exactly if all of them are guarded
(`ScopeTree.kept_iff_guarded`).
-/

namespace QuadScript

namespace ScopeTree

variable {t : ScopeTree} {i j n : Nat} {k : Key} {s y : Symbol}

inductive Op
  | child (scope : Nat) (kind : ScopeKind)
  | define (scope : Nat) (symbol : Symbol)

def apply (t : ScopeTree) : Op → ScopeTree
  | .child i kind => t.child i kind
  | .define i s => t.define i s

def applyAll (t : ScopeTree) (ops : List Op) : ScopeTree := ops.foldl apply t

/-- A declaration is refused if its scope has the name. -/
def Guarded (t : ScopeTree) (i : Nat) (s : Symbol) : Prop :=
  s.kind = .let ∨ s.kind = .const ∨ s.kind = .var ∧ t.binds (t.functionScope i) s.name = true

theorem findLocal?_congr {k' : Key} (h : k.Meets k') : t.findLocal? i k = t.findLocal? i k' :=
  Table.getKey?_congr h

theorem isSome_conflict?_iff (h : t.binds i s.name = true) : (t.conflict? i s).isSome = true ↔ t.Guarded i s := by
  unfold conflict? Guarded
  cases s.kind <;> simp [h]

theorem findLocal?_define (hi : i < t.size) (h : t.conflict? i s = none) :
    (t.define i s).findLocal? i s.name = some t.declared.length := by
  unfold define
  rw [h, findLocal?_bind_key, if_pos ⟨rfl, hi, .inl rfl⟩]

/-- A name keeps its symbol through every operation but an unguarded declaration of it in its scope. -/
theorem findLocal?_apply (h : t.findLocal? i k = some n) {op : Op}
    (hop : ∀ s, op = .define i s → s.name.Meets k → t.Guarded i s) : (t.apply op).findLocal? i k = some n := by
  cases op with
  | child j kind =>
    have hlt := lt_size_of_findLocal? h
    show (t.child j kind).findLocal? i k = _
    rw [findLocal?_child, if_neg (Nat.ne_of_lt hlt), h]
  | define j s =>
    show (t.define j s).findLocal? i k = _
    cases hc : t.conflict? j s with
    | some c => simp [define, hc, h]
    | none =>
      simp only [define, hc, findLocal?_bind_key]
      rw [if_neg, h]
      rintro ⟨rfl, -, hmeets⟩
      have hbound : t.binds j s.name = true := by rw [binds, findLocal?_congr hmeets, h]; rfl
      have hsome := (isSome_conflict?_iff hbound).2 (hop s rfl hmeets)
      rw [hc] at hsome
      cases hsome

theorem findLocal?_applyAll (h : t.findLocal? i k = some n) {ops : List Op}
    (hops : ∀ ops₁ s ops₂, ops = ops₁ ++ .define i s :: ops₂ → s.name.Meets k → (t.applyAll ops₁).Guarded i s) :
    (t.applyAll ops).findLocal? i k = some n := by
  induction ops generalizing t with
  | nil => exact h
  | cons op ops ih =>
    refine ih (findLocal?_apply h fun s hs => hops [] s ops (by rw [hs]; rfl)) fun ops₁ s ops₂ heq => ?_
    exact hops (op :: ops₁) s ops₂ (by rw [heq]; rfl)

/-- Through the operations after a declaration, the name stays bound to the symbol declared, and the later declarations
of the name in that scope are refused. -/
structure Kept (t : ScopeTree) (i : Nat) (s : Symbol) (ops : List Op) : Prop where
  bound : ∀ ops₁ ops₂, ops = ops₁ ++ ops₂ →
    ((t.define i s).applyAll ops₁).findLocal? i s.name = some t.declared.length
  refused : ∀ ops₁ y ops₂, ops = ops₁ ++ .define i y :: ops₂ → y.name.Meets s.name →
    (((t.define i s).applyAll ops₁).conflict? i y).isSome = true

/-- A symbol of whatever kind is kept exactly if the later declarations of its name in its scope are guarded. -/
theorem kept_iff_guarded (hi : i < t.size) (hs : t.conflict? i s = none) (ops : List Op) :
    t.Kept i s ops ↔ ∀ ops₁ y ops₂, ops = ops₁ ++ .define i y :: ops₂ → y.name.Meets s.name →
      ((t.define i s).applyAll ops₁).Guarded i y := by
  constructor
  · intro hkept ops₁ y ops₂ hops hmeets
    refine (isSome_conflict?_iff ?_).1 (hkept.refused ops₁ y ops₂ hops hmeets)
    rw [binds, findLocal?_congr hmeets, hkept.bound ops₁ _ hops]
    rfl
  · intro hguarded
    have hbound : ∀ ops₁ ops₂, ops = ops₁ ++ ops₂ →
        ((t.define i s).applyAll ops₁).findLocal? i s.name = some t.declared.length := by
      rintro ops₁ ops₂ rfl
      refine findLocal?_applyAll (findLocal?_define hi hs) fun ops₀ y ops' heq => ?_
      exact hguarded ops₀ y (ops' ++ ops₂) (by rw [heq, List.append_assoc]; rfl)
    refine ⟨hbound, fun ops₁ y ops₂ hops hmeets => ?_⟩
    refine (isSome_conflict?_iff ?_).2 (hguarded ops₁ y ops₂ hops hmeets)
    rw [binds, findLocal?_congr hmeets, hbound ops₁ _ hops]
    rfl

/-- A `let` of the whole program is kept beside a class of its name in a block, and refuses a `var`. -/
theorem kept_iff_guarded_var :
    (root .global).Kept 0 { name := .text "x", kind := .let }
      [.child 0 .block, .define 1 { name := .text "x", kind := .classDecl },
        .define 0 { name := .text "x", kind := .var }] := by
  refine (kept_iff_guarded (by decide) rfl _).2 fun ops₁ y ops₂ hops _ => ?_
  rcases ops₁ with _ | ⟨a, _ | ⟨b, _ | ⟨c, _ | ⟨d, rest⟩⟩⟩⟩ <;> cases hops
  exact .inr (.inr ⟨rfl, rfl⟩)

/-- A class takes over the name of a `let`. -/
theorem not_kept_class :
    ¬(root .global).Kept 0 { name := .text "x", kind := .let } [.define 0 { name := .text "x", kind := .classDecl }] := by
  intro h
  have hrefused := h.refused [] { name := .text "x", kind := .classDecl } [] rfl (.inl rfl)
  cases hrefused

end ScopeTree

end QuadScript
