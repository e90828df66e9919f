import QuadScript.Proofs.Events
import QuadScript.Proofs.Keys
import QuadScript.Proofs.Labels

/-!
# Symbols along a walk

What single actions of the walk do to the symbols, and what all events have in common: an event binds one new symbol
(`ScopeTree.bind`), or it leaves the bindings as they are and at most raises flags of symbols (`ScopeTree.Evolves`).
-/

namespace QuadScript

/-! ### Scope trees -/

namespace ScopeTree

variable {t t' t₁ t₂ : ScopeTree} {i j n m : Nat} {y : Symbol} {k : Key}

@[simp] theorem symbol?_modifySymbol (f : Symbol → Symbol) :
    (t.modifySymbol n f).symbol? m = if n = m then (t.symbol? m).map f else t.symbol? m := by
  simp only [symbol?, modifySymbol, List.getElem?_modify]
  split <;> simp

theorem symbol?_bind : (t.bind i y).symbol? n = if n = t.declared.length then some y else t.symbol? n := by
  simp only [symbol?, bind, List.getElem?_append]
  split
  · rw [if_neg (by omega)]
  · split
    · simp_all
    · rw [List.getElem?_eq_none (by simp; omega), List.getElem?_eq_none (by omega)]

theorem symbol?_lt (h : t.symbol? n = some y) : n < t.declared.length := (List.getElem?_eq_some_iff.1 h).1

theorem bindings_bind : (t.bind i y).bindings j =
    if i = j ∧ i < t.size then (t.bindings j).setKey y.name t.declared.length else t.bindings j := by
  simp only [bindings, bind, size, List.getElem?_modify]
  by_cases hj : i = j
  · subst hj
    by_cases hi : i < t.scopes.length
    · simp [hi]
    · simp [hi]
  · simp [hj]

@[simp] theorem parent?_bind : (t.bind i y).parent? j = t.parent? j := by
  simp only [parent?, bind, List.getElem?_modify]
  split <;> cases t.scopes[j]? <;> rfl

@[simp] theorem size_bind : (t.bind i y).size = t.size := by simp [size, bind]

theorem findLocal?_bind_key : (t.bind i y).findLocal? j k =
    if i = j ∧ i < t.size ∧ y.name.Meets k then some t.declared.length else t.findLocal? j k := by
  simp only [findLocal?, bindings_bind]
  by_cases h : i = j ∧ i < t.size
  · obtain ⟨rfl, hi⟩ := h
    simp [hi, Table.getKey?_setKey]
  · have h' : ¬(i = j ∧ i < t.size ∧ y.name.Meets k) := fun h' => h ⟨h'.1, h'.2.1⟩
    rw [if_neg h, if_neg h']

theorem findLocal?_bind (s : String) : (t.bind i y).findLocal? j (.text s) =
    if i = j ∧ i < t.size ∧ y.name = .text s then some t.declared.length else t.findLocal? j (.text s) := by
  simp only [findLocal?_bind_key, Key.meets_text]

theorem lt_size_of_findLocal? (h : t.findLocal? i k = some n) : i < t.size := by
  by_contra hi
  have hnone : t.scopes[i]? = none := List.getElem?_eq_none (Nat.le_of_not_lt hi)
  simp only [findLocal?, bindings, hnone] at h
  cases k <;> cases h

theorem findLocal?_child (kind : ScopeKind) : (t.child i kind).findLocal? j k =
    if j = t.size then none else t.findLocal? j k := by
  unfold findLocal? bindings child size
  rw [List.getElem?_append]
  by_cases hj : j < t.scopes.length
  · rw [if_pos hj, if_neg (by omega)]
  · rw [if_neg hj]
    by_cases hj' : j = t.scopes.length
    · subst hj'
      rw [if_pos rfl, Nat.sub_self]
      cases k <;> rfl
    · rw [if_neg hj', List.getElem?_eq_none (by simp; omega), List.getElem?_eq_none (by omega)]

theorem parent?_child (kind : ScopeKind) : (t.child i kind).parent? j =
    if j = t.size then some i else t.parent? j := by
  unfold parent? child size
  rw [List.getElem?_append]
  by_cases hj : j < t.scopes.length
  · rw [if_pos hj, if_neg (by omega)]
  · rw [if_neg hj]
    by_cases hj' : j = t.scopes.length
    · subst hj'
      simp
    · rw [if_neg hj', List.getElem?_eq_none (by simp; omega), List.getElem?_eq_none (by omega)]

@[simp] theorem size_child (kind : ScopeKind) : (t.child i kind).size = t.size + 1 := by simp [size, child]

/-- Two trees bind the same names in the same scopes. -/
structure Agrees (t t' : ScopeTree) : Prop where
  size : t'.size = t.size
  parent : ∀ i, t'.parent? i = t.parent? i
  bindings : ∀ i, t'.bindings i = t.bindings i

theorem agrees_of_scopes (h : t'.scopes = t.scopes) : Agrees t t' := by
  constructor <;> simp [ScopeTree.size, parent?, ScopeTree.bindings, h]

theorem agrees_setKind (kind : ScopeKind) : Agrees t (t.setKind i kind) := by
  constructor
  · simp [ScopeTree.size, setKind]
  · intro j
    simp only [parent?, setKind, List.getElem?_modify]
    split <;> cases t.scopes[j]? <;> rfl
  · intro j
    simp only [ScopeTree.bindings, setKind, List.getElem?_modify]
    split <;> cases t.scopes[j]? <;> rfl

namespace Agrees

theorem refl (t : ScopeTree) : Agrees t t := ⟨rfl, fun _ => rfl, fun _ => rfl⟩

theorem findLocal? (h : Agrees t t') : t'.findLocal? i k = t.findLocal? i k := by
  rw [ScopeTree.findLocal?, ScopeTree.findLocal?, h.bindings]

end Agrees

end ScopeTree

/-- What a symbol can become: its flags are raised, the rest stays. -/
structure Symbol.Later (y y' : Symbol) : Prop where
  name : y'.name = y.name
  kind : y'.kind = y.kind
  params : y'.params = y.params
  builtin : y'.builtin = y.builtin
  hasError : y'.hasError = y.hasError
  initialized : y.initialized = true → y'.initialized = true
  used : y.used = true → y'.used = true

theorem Symbol.Later.refl (y : Symbol) : y.Later y := ⟨rfl, rfl, rfl, rfl, rfl, id, id⟩

/-- The bindings stay, and symbols have their flags raised at most. -/
structure ScopeTree.Evolves (t t' : ScopeTree) : Prop extends t.Agrees t' where
  length : t'.declared.length = t.declared.length
  symbol : ∀ {n y}, t.symbol? n = some y → ∃ y', t'.symbol? n = some y' ∧ y.Later y'

namespace ScopeTree.Evolves

variable {t t' : ScopeTree}

theorem refl (t : ScopeTree) : t.Evolves t := ⟨.refl t, rfl, fun h => ⟨_, h, .refl _⟩⟩

theorem setKind (i : Nat) (kind : ScopeKind) : t.Evolves (t.setKind i kind) :=
  ⟨agrees_setKind kind, rfl, fun h => ⟨_, h, .refl _⟩⟩

theorem modifySymbol (n : Nat) {f : Symbol → Symbol} (hf : ∀ y : Symbol, y.Later (f y)) :
    t.Evolves (t.modifySymbol n f) := by
  refine ⟨agrees_of_scopes rfl, by simp [ScopeTree.modifySymbol], fun {m y} h => ?_⟩
  rw [symbol?_modifySymbol]
  split
  · exact ⟨f y, by rw [h]; rfl, hf y⟩
  · exact ⟨y, h, .refl y⟩

/-- A symbol later has its origin among the symbols before. -/
theorem exists_symbol (h : t.Evolves t') {n : Nat} {y' : Symbol} (hy : t'.symbol? n = some y') :
    ∃ y, t.symbol? n = some y ∧ y.Later y' := by
  have hlt : n < t.declared.length := h.length ▸ symbol?_lt hy
  have hsome : t.symbol? n = some t.declared[n] := List.getElem?_eq_getElem hlt
  obtain ⟨y'', hy'', hlater⟩ := h.symbol hsome
  rw [hy] at hy''
  cases hy''
  exact ⟨_, hsome, hlater⟩

end ScopeTree.Evolves

/-! ### Names of symbols -/

namespace ScopeTree

variable {t t' : ScopeTree}

/-- Names are bound to symbols of that name. -/
def Named (t : ScopeTree) : Prop :=
  ∀ i s n, t.findLocal? i (.text s) = some n → ∃ y, t.symbol? n = some y ∧ y.name = .text s

theorem named_root (kind : ScopeKind) : (root kind).Named := by
  intro i s n hn
  rcases i with _ | i <;> cases hn

namespace Named

theorem evolves (h : t.Named) (he : t.Evolves t') : t'.Named := by
  intro i s n hn
  rw [he.findLocal?] at hn
  obtain ⟨y, hy, hname⟩ := h i s n hn
  obtain ⟨y', hy', hlater⟩ := he.symbol hy
  exact ⟨y', hy', hlater.name.trans hname⟩

theorem bind (h : t.Named) (i : Nat) (y : Symbol) : (t.bind i y).Named := by
  intro j s n hn
  rw [findLocal?_bind] at hn
  split at hn
  · rename_i hj
    cases hn
    exact ⟨y, by rw [symbol?_bind, if_pos rfl], hj.2.2⟩
  · obtain ⟨y', hy', hname⟩ := h j s n hn
    have hlt := symbol?_lt hy'
    exact ⟨y', by rw [symbol?_bind, if_neg (by omega), hy'], hname⟩

theorem child (h : t.Named) (i : Nat) (kind : ScopeKind) : (t.child i kind).Named := by
  intro j s n hn
  rw [findLocal?_child] at hn
  split at hn
  · cases hn
  · exact h j s n hn

end Named

/-! ### The global scope -/

theorem named_global : global.Named := by
  have key : ∀ (ys : List Symbol) {t : ScopeTree}, t.Named → (ys.foldl (fun t y => t.bind 0 y) t).Named := by
    intro ys
    induction ys with
    | nil => exact fun h => h
    | cons y ys ih => exact fun h => ih (h.bind 0 y)
  exact key builtins (named_root .global)

theorem findLocal?_global {s : String} (h : ∀ y ∈ builtins, y.name ≠ .text s) (i : Nat) :
    global.findLocal? i (.text s) = none := by
  cases hn : global.findLocal? i (.text s) with
  | none => rfl
  | some n =>
    obtain ⟨y, hy, hname⟩ := named_global i s n hn
    exact absurd hname (h y (List.mem_of_getElem? hy))

end ScopeTree

theorem Symbol.plain_later {y y' : Symbol} (h : y'.plain = y.plain) : y.Later y' := by
  cases y
  cases y'
  simp only [Symbol.plain, Symbol.mk.injEq] at h
  obtain ⟨h₁, h₂, h₃, h₄, h₅, h₆, h₇, -, h₈, h₉⟩ := h
  subst_vars
  exact ⟨rfl, rfl, rfl, rfl, rfl, id, id⟩

namespace Notes

variable {σ τ : AnalysisState}

theorem symbol (h : Notes σ τ) {n : Nat} {y : Symbol} (hy : σ.tree.symbol? n = some y) :
    ∃ y', τ.tree.symbol? n = some y' ∧ y'.plain = y.plain := by
  have hn : (τ.tree.declared.map Symbol.plain)[n]? = (σ.tree.declared.map Symbol.plain)[n]? := by rw [h.symbols]
  have hy' : σ.tree.declared[n]? = some y := hy
  rw [List.getElem?_map, List.getElem?_map, hy'] at hn
  exact Option.map_eq_some_iff.1 hn

theorem evolves (h : Notes σ τ) : σ.tree.Evolves τ.tree := by
  have hlength : τ.tree.declared.length = σ.tree.declared.length := by
    simpa using congrArg List.length h.symbols
  refine ⟨ScopeTree.agrees_of_scopes h.scopes, hlength, fun hy => ?_⟩
  obtain ⟨y', hy', hplain⟩ := h.symbol hy
  exact ⟨y', hy', Symbol.plain_later hplain⟩

end Notes

/-! ### Single actions -/

namespace AnalysisState

/-- The symbol that a key stands for, with its number. -/
def lookup? (σ : AnalysisState) (k : Key) : Option (Nat × Symbol) := do
  let n ← σ.tree.find? σ.current k
  let symbol ← σ.tree.symbol? n
  return (n, symbol)

def touch (σ : AnalysisState) (n : Nat) (f : Symbol → Symbol) : AnalysisState :=
  { σ with tree := σ.tree.modifySymbol n f }

theorem lookup?_eq_some {σ : AnalysisState} {k : Key} {n : Nat} {y : Symbol} :
    σ.lookup? k = some (n, y) ↔ σ.tree.find? σ.current k = some n ∧ σ.tree.symbol? n = some y := by
  simp only [lookup?, Option.bind_eq_bind, Option.bind_eq_some_iff, Option.pure_def, Option.some.injEq,
    Prod.mk.injEq]
  constructor
  · rintro ⟨n', hn, y', hy, rfl, rfl⟩
    exact ⟨hn, hy⟩
  · rintro ⟨hn, hy⟩
    exact ⟨n, hn, y, hy, rfl, rfl⟩

end AnalysisState

/-- The flag of a symbol that is read. -/
def Symbol.use (y : Symbol) : Symbol := { y with used := true }

/-- The flag of a symbol that has a value. -/
def Symbol.init (y : Symbol) : Symbol := { y with initialized := true }

/-- Whether a read of a symbol is reported. -/
def Symbol.isEarly (y : Symbol) : Bool := !y.initialized && y.kind ≠ .function && !y.builtin

namespace Analyze

variable {σ τ : AnalysisState} {mark : Mark} {k : Key}

theorem errorEither_eq_ok {b : Prop} [Decidable b] {message message' : String} {place : Except Fault Place} {u : Unit}
    (h : (if b then error message place else error message' place) σ = .ok (u, τ)) : ∃ d, τ = σ.tell d := by
  split at h
  all_goals
    obtain ⟨p, -, rfl⟩ := report_eq_ok h
    exact ⟨_, rfl⟩

theorem errorIf_eq_ok {α : Type} {b : Prop} [Decidable b] {message : String} {place : Except Fault Place}
    {x : Analyze α} {a : α} (h : (if b then (do error message place; x) else x) σ = .ok (a, τ)) :
    ∃ ρ, (ρ = σ ∨ ∃ d, ρ = σ.tell d) ∧ x ρ = .ok (a, τ) := by
  split at h
  · obtain ⟨_, ρ, herr, h⟩ := bind_eq_ok h
    obtain ⟨p, -, rfl⟩ := report_eq_ok herr
    exact ⟨_, .inr ⟨_, rfl⟩, h⟩
  · exact ⟨σ, .inl rfl, h⟩

theorem lookup_eq_ok {r : Option (Nat × Symbol)} (h : lookup mark σ = .ok (r, τ)) :
    ∃ k, Key.ofTree mark.site mark.nameTree = .ok k ∧ r = σ.lookup? k ∧ σ = τ := by
  obtain ⟨k, _, hkey, h⟩ := bind_eq_ok h
  obtain ⟨hk, rfl⟩ := liftM_eq_ok hkey
  cases h
  exact ⟨k, hk, rfl, rfl⟩

theorem visitIdentifier_eq_ok {kind : Kind} (h : visitIdentifier mark σ = .ok (kind, τ)) :
    ∃ k, Key.ofTree mark.site mark.nameTree = .ok k ∧
      ((σ.lookup? k = none ∧ ∃ p, τ = σ.tell ⟨.error, s!"'{mark.nameTree.text}' is not defined", p, false⟩) ∨
      ∃ n y, σ.lookup? k = some (n, y) ∧
        ((y.isEarly = false ∧ τ = σ.touch n Symbol.use) ∨ (y.isEarly = true ∧ ∃ p, τ = (σ.touch n Symbol.use).tell
          ⟨.error, s!"Variable '{mark.nameTree.text}' is used before being initialized", p, false⟩))) := by
  obtain ⟨r, _, hr, h⟩ := bind_eq_ok h
  obtain ⟨k, hk, rfl, rfl⟩ := lookup_eq_ok hr
  refine ⟨k, hk, ?_⟩
  cases hfound : σ.lookup? k with
  | none =>
    rw [hfound] at h
    obtain ⟨_, _, herr, h⟩ := bind_eq_ok h
    obtain ⟨p, -, rfl⟩ := report_eq_ok herr
    cases h
    exact .inl ⟨rfl, p, rfl⟩
  | some found =>
    obtain ⟨n, y⟩ := found
    rw [hfound] at h
    refine .inr ⟨n, y, rfl, ?_⟩
    obtain ⟨_, _, ⟨⟩, h⟩ := bind_eq_ok h
    have hearly : y.isEarly = (!y.initialized && y.kind ≠ .function && !y.builtin) := rfl
    dsimp only at h
    rw [← hearly] at h
    cases he : y.isEarly with
    | false =>
      rw [he] at h
      cases h
      exact .inl ⟨rfl, rfl⟩
    | true =>
      rw [he] at h
      obtain ⟨_, _, herr, h⟩ := bind_eq_ok h
      obtain ⟨p, -, rfl⟩ := report_eq_ok herr
      cases h
      exact .inr ⟨rfl, p, rfl⟩

theorem assignVariable_eq_ok {u : Unit} (h : assignVariable mark σ = .ok (u, τ)) :
    ∃ k, Key.ofTree mark.site mark.nameTree = .ok k ∧ σ.diagnostics <+: τ.diagnostics ∧
      τ.current = σ.current ∧ ((σ.lookup? k = none ∧ τ.tree = σ.tree) ∨ ∃ n y, σ.lookup? k = some (n, y) ∧
        τ.tree = if y.kind = .let || y.kind = .var || y.kind = .const then σ.tree.modifySymbol n Symbol.init
          else σ.tree) := by
  obtain ⟨r, _, hr, h⟩ := bind_eq_ok h
  obtain ⟨k, hk, rfl, rfl⟩ := lookup_eq_ok hr
  refine ⟨k, hk, ?_⟩
  cases hfound : σ.lookup? k with
  | none =>
    rw [hfound] at h
    obtain ⟨p, -, rfl⟩ := report_eq_ok h
    exact ⟨List.prefix_append _ _, rfl, .inl ⟨rfl, rfl⟩⟩
  | some found =>
    obtain ⟨n, y⟩ := found
    rw [hfound] at h
    have hflag : ∀ {ρ : AnalysisState}, (if y.kind = .let || y.kind = .var || y.kind = .const then
        (modifySymbol n fun s => { s with initialized := true } : Analyze Unit) else pure ()) ρ = .ok (u, τ) →
        τ.diagnostics = ρ.diagnostics ∧ τ.current = ρ.current ∧ τ.tree = if y.kind = .let || y.kind = .var ||
          y.kind = .const then ρ.tree.modifySymbol n Symbol.init else ρ.tree := by
      intro ρ hρ
      split at hρ
      · rename_i hkind
        cases hρ
        rw [if_pos hkind]
        exact ⟨rfl, rfl, rfl⟩
      · rename_i hkind
        cases hρ
        rw [if_neg hkind]
        exact ⟨rfl, rfl, rfl⟩
    dsimp only at h
    split at h
    · obtain ⟨_, _, herr, h⟩ := bind_eq_ok h
      obtain ⟨p, -, rfl⟩ := report_eq_ok herr
      obtain ⟨hd, hcur, htree⟩ := hflag h
      exact ⟨hd ▸ List.prefix_append _ _, hcur, .inr ⟨n, y, rfl, htree⟩⟩
    · obtain ⟨hd, hcur, htree⟩ := hflag h
      exact ⟨hd ▸ List.prefix_rfl, hcur, .inr ⟨n, y, rfl, htree⟩⟩

theorem updateVariable_eq_ok {u : Unit} (h : updateVariable mark σ = .ok (u, τ)) :
    ∃ k, Key.ofTree mark.site mark.nameTree = .ok k ∧
      ((σ.lookup? k = none ∧ ∃ p, τ = σ.tell
        ⟨.error, s!"Cannot update undeclared variable '{mark.nameTree.text}'", p, false⟩) ∨
      ∃ n y, σ.lookup? k = some (n, y) ∧ ((y.kind = .const ∧ ∃ p, τ = σ.tell
          ⟨.error, s!"Cannot update const variable '{mark.nameTree.text}'", p, false⟩) ∨
        (y.kind ≠ .const ∧ τ = σ.touch n Symbol.use))) := by
  obtain ⟨r, _, hr, h⟩ := bind_eq_ok h
  obtain ⟨k, hk, rfl, rfl⟩ := lookup_eq_ok hr
  refine ⟨k, hk, ?_⟩
  cases hfound : σ.lookup? k with
  | none =>
    rw [hfound] at h
    obtain ⟨p, -, rfl⟩ := report_eq_ok h
    exact .inl ⟨rfl, p, rfl⟩
  | some found =>
    obtain ⟨n, y⟩ := found
    rw [hfound] at h
    refine .inr ⟨n, y, rfl, ?_⟩
    dsimp only at h
    split at h
    · obtain ⟨p, -, rfl⟩ := report_eq_ok h
      exact .inl ⟨by assumption, p, rfl⟩
    · cases h
      exact .inr ⟨by assumption, rfl⟩

theorem namedFunction_eq_ok {r : Option Nat} (h : namedFunction mark σ = .ok (r, τ)) :
    ∃ k, Key.ofTree mark.site mark.nameTree = .ok k ∧ σ.diagnostics <+: τ.diagnostics ∧
      τ.current = σ.current ∧ ((σ.lookup? k = none ∧ τ.tree = σ.tree) ∨
        ∃ n y, σ.lookup? k = some (n, y) ∧ τ.tree = σ.tree.modifySymbol n Symbol.use) := by
  obtain ⟨r, _, hr, h⟩ := bind_eq_ok h
  obtain ⟨k, hk, rfl, rfl⟩ := lookup_eq_ok hr
  refine ⟨k, hk, ?_⟩
  cases hfound : σ.lookup? k with
  | none =>
    rw [hfound] at h
    obtain ⟨_, _, herr, h⟩ := bind_eq_ok h
    obtain ⟨p, -, rfl⟩ := report_eq_ok herr
    cases h
    exact ⟨List.prefix_append _ _, rfl, .inl ⟨rfl, rfl⟩⟩
  | some found =>
    obtain ⟨n, y⟩ := found
    rw [hfound] at h
    obtain ⟨_, _, ⟨⟩, h⟩ := bind_eq_ok h
    dsimp only at h
    split at h
    · obtain ⟨_, _, hwarn, h⟩ := bind_eq_ok h
      obtain ⟨p, -, rfl⟩ := report_eq_ok hwarn
      cases h
      exact ⟨List.prefix_append _ _, rfl, .inr ⟨n, y, rfl, rfl⟩⟩
    · cases h
      exact ⟨List.prefix_rfl, rfl, .inr ⟨n, y, rfl, rfl⟩⟩

/-! ### Declarations -/

theorem define_eq_ok {scope : Nat} {y : Symbol} {c : Option Conflict} (h : define scope y σ = .ok (c, τ)) :
    c = σ.tree.conflict? scope y ∧ τ = { σ with tree := σ.tree.define scope y } := by
  cases h
  exact ⟨rfl, rfl⟩

theorem define_bound {scope : Nat} {y : Symbol} {c : Option Conflict}
    (hkind : y.kind = .function ∨ y.kind = .parameter ∨ y.kind = .classDecl) (h : define scope y σ = .ok (c, τ)) :
    c = none ∧ τ = { σ with tree := σ.tree.bind scope y } := by
  have hnone : σ.tree.conflict? scope y = none := by
    unfold ScopeTree.conflict?
    rcases hkind with hkind | hkind | hkind <;> rw [hkind]
  obtain ⟨rfl, rfl⟩ := define_eq_ok h
  unfold ScopeTree.define
  rw [hnone]
  exact ⟨rfl, rfl⟩

theorem hoistFunction_eq_ok {id : Node} {params : List Param} {u : Unit}
    (h : hoistFunction mark id params σ = .ok (u, τ)) :
    ∃ name, id.nameTree = .ok name ∧ ((name.truthy = false ∧ τ = σ) ∨
      name.truthy = true ∧ ∃ k y, Key.ofTree mark.site name = .ok k ∧ y.name = k ∧ y.used = false ∧
        y.builtin = false ∧ τ = { σ with tree := σ.tree.bind σ.current y }) := by
  obtain ⟨name, _, hlift, h⟩ := bind_eq_ok h
  obtain ⟨hname, rfl⟩ := liftM_eq_ok hlift
  refine ⟨name, hname, ?_⟩
  split at h
  · rename_i htrue
    obtain ⟨_, _, hlift, h⟩ := bind_eq_ok h
    obtain ⟨-, rfl⟩ := liftM_eq_ok hlift
    obtain ⟨_, _, hlift, h⟩ := bind_eq_ok h
    obtain ⟨-, rfl⟩ := liftM_eq_ok hlift
    obtain ⟨k, _, hkey, h⟩ := bind_eq_ok h
    obtain ⟨hk, rfl⟩ := liftM_eq_ok hkey
    obtain ⟨_, _, ⟨⟩, h⟩ := bind_eq_ok h
    obtain ⟨_, _, hdef, h⟩ := bind_eq_ok h
    obtain ⟨rfl, rfl⟩ := define_bound (.inl rfl) hdef
    cases h
    exact .inr ⟨htrue, k, _, hk, rfl, rfl, rfl, rfl⟩
  · rename_i hfalse
    cases h
    exact .inl ⟨by simpa using hfalse, rfl⟩

theorem declareParam_eq_ok {position : Except Fault Position} {name : Tree} {u : Unit}
    (h : declareParam position name σ = .ok (u, τ)) :
    (name.truthy = false ∧ τ = σ) ∨ ∃ k y, Key.ofTree (2 * σ.tree.declared.length + 1) name = .ok k ∧ y.name = k ∧
      y.used = false ∧ y.builtin = false ∧ y.params = none ∧ τ = { σ with tree := σ.tree.bind σ.current y } := by
  unfold declareParam at h
  split at h
  · obtain ⟨_, _, hlift, h⟩ := bind_eq_ok h
    obtain ⟨-, rfl⟩ := liftM_eq_ok hlift
    obtain ⟨k, _, hkey, h⟩ := bind_eq_ok h
    obtain ⟨_, _, ⟨⟩, hkey⟩ := bind_eq_ok hkey
    obtain ⟨hk, rfl⟩ := liftM_eq_ok hkey
    obtain ⟨_, _, ⟨⟩, h⟩ := bind_eq_ok h
    obtain ⟨_, _, hdef, h⟩ := bind_eq_ok h
    obtain ⟨rfl, rfl⟩ := define_bound (.inr (.inl rfl)) hdef
    cases h
    exact .inr ⟨k, _, hk, rfl, rfl, rfl, rfl, rfl⟩
  · rename_i hfalse
    cases h
    exact .inl ⟨by simpa using hfalse, rfl⟩

theorem declareClass_eq_ok {id : Node} {u : Unit} (h : declareClass mark id σ = .ok (u, τ)) :
    ∃ name, id.nameTree = .ok name ∧ ((name.truthy = false ∧ τ = σ) ∨
      ∃ k y, Key.ofTree mark.site name = .ok k ∧ y.name = k ∧ y.used = false ∧
        y.builtin = false ∧ y.params = none ∧ τ = { σ with tree := σ.tree.bind σ.current y }) := by
  obtain ⟨name, _, hlift, h⟩ := bind_eq_ok h
  obtain ⟨hname, rfl⟩ := liftM_eq_ok hlift
  refine ⟨name, hname, ?_⟩
  split at h
  · obtain ⟨_, _, hlift, h⟩ := bind_eq_ok h
    obtain ⟨-, rfl⟩ := liftM_eq_ok hlift
    obtain ⟨k, _, hkey, h⟩ := bind_eq_ok h
    obtain ⟨hk, rfl⟩ := liftM_eq_ok hkey
    obtain ⟨_, _, ⟨⟩, h⟩ := bind_eq_ok h
    obtain ⟨_, _, hdef, h⟩ := bind_eq_ok h
    obtain ⟨rfl, rfl⟩ := define_bound (.inr (.inr rfl)) hdef
    cases h
    exact .inr ⟨k, _, hk, rfl, rfl, rfl, rfl, rfl⟩
  · rename_i hfalse
    cases h
    exact .inl ⟨by simpa using hfalse, rfl⟩

theorem functionOwner_eq_ok {id : Node} {params : List Param} {r : Option Nat}
    (h : functionOwner mark id params σ = .ok (r, τ)) :
    τ = σ ∨ hoistFunction mark id params σ = .ok ((), τ) := by
  obtain ⟨name, _, hlift, h⟩ := bind_eq_ok h
  obtain ⟨hname, rfl⟩ := liftM_eq_ok hlift
  split at h
  · cases h
    exact .inl rfl
  · obtain ⟨k, _, hkey, h⟩ := bind_eq_ok h
    obtain ⟨hk, rfl⟩ := liftM_eq_ok hkey
    obtain ⟨_, _, ⟨⟩, h⟩ := bind_eq_ok h
    cases hfound : σ.tree.findLocal? σ.current k with
    | some n =>
      rw [hfound] at h
      cases h
      exact .inl rfl
    | none =>
      rw [hfound] at h
      obtain ⟨_, _, hhoist, h⟩ := bind_eq_ok h
      obtain ⟨_, _, ⟨⟩, h⟩ := bind_eq_ok h
      cases h
      exact .inr hhoist

theorem declareVariable_eq_ok {name : Tree} {kind : DeclKind} {given : Bool} {inferred : Kind} {u : Unit}
    (h : declareVariable mark name kind given inferred σ = .ok (u, τ)) :
    ∃ k y, Key.ofTree mark.site name = .ok k ∧ y.name = k ∧ y.kind = kind ∧ y.initialized = given ∧
      y.used = false ∧ y.builtin = false ∧ y.params = none ∧ σ.diagnostics <+: τ.diagnostics ∧
      τ.current = σ.current ∧ τ.tree = σ.tree.define
        (if kind = .var then σ.tree.functionScope σ.current else σ.current) y := by
  obtain ⟨position, _, hlift, h⟩ := bind_eq_ok h
  obtain ⟨-, rfl⟩ := liftM_eq_ok hlift
  -- The check of a constant's initialiser reports at most, so what follows starts from the same scopes.
  obtain ⟨ρ, hρ, h⟩ := errorIf_eq_ok h
  have hdiag : σ.diagnostics <+: ρ.diagnostics := by
    obtain rfl | ⟨d, rfl⟩ := hρ
    · exact List.prefix_rfl
    · exact List.prefix_append _ _
  have htree : ρ.tree = σ.tree := by obtain rfl | ⟨d, rfl⟩ := hρ <;> rfl
  have hcur : ρ.current = σ.current := by obtain rfl | ⟨d, rfl⟩ := hρ <;> rfl
  obtain ⟨_, _, ⟨⟩, h⟩ := bind_eq_ok h
  obtain ⟨k, _, hkey, h⟩ := bind_eq_ok h
  obtain ⟨hk, rfl⟩ := liftM_eq_ok hkey
  obtain ⟨c, _, hdef, h⟩ := bind_eq_ok h
  obtain ⟨-, rfl⟩ := define_eq_ok hdef
  refine ⟨k,
    { name := k, kind := kind, inferred := inferred, initialized := given, position := position,
      hasError := kind = .const && !given },
    hk, rfl, rfl, rfl, rfl, rfl, rfl, ?_⟩
  rw [← htree, ← hcur]
  cases c with
  | none =>
    cases h
    exact ⟨hdiag, rfl, rfl⟩
  | some c =>
    obtain ⟨_, _, ⟨⟩, h⟩ := bind_eq_ok h
    obtain ⟨d, rfl⟩ := errorEither_eq_ok h
    exact ⟨hdiag.trans (List.prefix_append _ _), rfl, rfl⟩

end Analyze

/-! ### Events -/

theorem Symbol.later_use (y : Symbol) : y.Later y.use := ⟨rfl, rfl, rfl, rfl, rfl, id, fun _ => rfl⟩

theorem Symbol.later_init (y : Symbol) : y.Later y.init := ⟨rfl, rfl, rfl, rfl, rfl, fun _ => rfl, id⟩

namespace Event

/-- The name that an event declares. -/
def name? : Event → Option Tree
  | .hoist _ id _ => id.nameTree.toOption
  | .own _ id _ => id.nameTree.toOption
  | .classDecl _ id => id.nameTree.toOption
  | .declare _ name _ _ => some name
  | .param _ name => some name
  | _ => none

/-- Whether an event declares a function. -/
def isFunction : Event → Bool
  | .hoist .. => true
  | .own .. => true
  | _ => false

/-- What an event does to the scopes: it binds a new symbol, or the bindings stay as they are. Only functions know
their parameters. -/
inductive Change (e : Event) (σ : AnalysisState) : ScopeTree → Prop
  | evolve {t : ScopeTree} (h : σ.tree.Evolves t) : Change e σ t
  | bind {name : Tree} {place i : Nat} {y : Symbol} (hname : e.name? = some name)
      (hkey : Key.ofTree place name = .ok y.name) (hused : y.used = false)
      (hbuiltin : y.builtin = false)
      (hparams : (e.isFunction = true ∧ name.truthy = true ∧ i = σ.current) ∨ y.params = none) :
      Change e σ (σ.tree.bind i y)

variable {e : Event} {σ τ : AnalysisState}

theorem change_hoist {mark : Mark} {id : Node} {params : List Param} (he : e.isFunction = true)
    (hname : e.name? = id.nameTree.toOption) (h : Analyze.hoistFunction mark id params σ = .ok ((), τ)) :
    e.Change σ τ.tree ∧ τ.current = σ.current ∧ σ.diagnostics <+: τ.diagnostics := by
  obtain ⟨name, hid, ⟨-, rfl⟩ | ⟨htrue, k, y, hk, rfl, hused, hbuiltin, rfl⟩⟩ := Analyze.hoistFunction_eq_ok h
  · exact ⟨.evolve (.refl _), rfl, List.prefix_rfl⟩
  · rw [hid] at hname
    exact ⟨.bind hname hk hused hbuiltin (.inl ⟨he, htrue, rfl⟩), rfl, List.prefix_rfl⟩

theorem Acts.change (h : e.Acts σ τ) :
    e.Change σ τ.tree ∧ τ.current = σ.current ∧ σ.diagnostics <+: τ.diagnostics := by
  -- a declaration binds a new symbol or conflicts; a use changes the flags of one that is there
  cases e with
  | enter | leave => cases h
  | global =>
    cases h
    exact ⟨.evolve (.setKind ..), rfl, List.prefix_rfl⟩
  | hoist mark id params => exact change_hoist rfl rfl h
  | own mark id params =>
    obtain ⟨owner, h⟩ := h
    rcases Analyze.functionOwner_eq_ok h with rfl | h
    · exact ⟨.evolve (.refl _), rfl, List.prefix_rfl⟩
    · exact change_hoist rfl rfl h
  | declare mark name kind given =>
    obtain ⟨inferred, h⟩ := h
    obtain ⟨k, y, hk, rfl, -, -, hused, hbuiltin, hparams, hdiag, hcur, htree⟩ := Analyze.declareVariable_eq_ok h
    refine ⟨?_, hcur, hdiag⟩
    rw [htree, ScopeTree.define]
    split
    · exact .evolve (.refl _)
    · exact .bind rfl hk hused hbuiltin (.inr hparams)
  | param position name =>
    obtain ⟨-, rfl⟩ | ⟨k, y, hk, rfl, hused, hbuiltin, hparams, rfl⟩ := Analyze.declareParam_eq_ok h
    · exact ⟨.evolve (.refl _), rfl, List.prefix_rfl⟩
    · exact ⟨.bind rfl hk hused hbuiltin (.inr hparams), rfl, List.prefix_rfl⟩
  | classDecl mark id =>
    obtain ⟨name, hid, ⟨-, rfl⟩ | ⟨k, y, hk, rfl, hused, hbuiltin, hparams, rfl⟩⟩ := Analyze.declareClass_eq_ok h
    · exact ⟨.evolve (.refl _), rfl, List.prefix_rfl⟩
    · have hname : (Event.classDecl mark id).name? = some name := by rw [name?, hid]; rfl
      exact ⟨.bind hname hk hused hbuiltin (.inr hparams), rfl, List.prefix_rfl⟩
  | read mark =>
    obtain ⟨kind, h⟩ := h
    obtain ⟨k, -, ⟨-, p, rfl⟩ | ⟨n, y, -, ⟨-, rfl⟩ | ⟨-, p, rfl⟩⟩⟩ := Analyze.visitIdentifier_eq_ok h
    · exact ⟨.evolve (.refl _), rfl, List.prefix_append _ _⟩
    · exact ⟨.evolve (.modifySymbol n Symbol.later_use), rfl, List.prefix_rfl⟩
    · exact ⟨.evolve (.modifySymbol n Symbol.later_use), rfl, List.prefix_append _ _⟩
  | assign operator mark =>
    obtain ⟨k, -, hdiag, hcur, ⟨-, htree⟩ | ⟨n, y, -, htree⟩⟩ := Analyze.assignVariable_eq_ok h
    · exact ⟨.evolve (htree ▸ .refl _), hcur, hdiag⟩
    · refine ⟨.evolve ?_, hcur, hdiag⟩
      rw [htree]
      split
      · exact .modifySymbol n Symbol.later_init
      · exact .refl _
  | update mark =>
    obtain ⟨k, -, ⟨-, p, rfl⟩ | ⟨n, y, -, ⟨-, p, rfl⟩ | ⟨-, rfl⟩⟩⟩ := Analyze.updateVariable_eq_ok h
    · exact ⟨.evolve (.refl _), rfl, List.prefix_append _ _⟩
    · exact ⟨.evolve (.refl _), rfl, List.prefix_append _ _⟩
    · exact ⟨.evolve (.modifySymbol n Symbol.later_use), rfl, List.prefix_rfl⟩
  | call mark =>
    obtain ⟨called, h⟩ := h
    obtain ⟨k, -, hdiag, hcur, ⟨-, htree⟩ | ⟨n, y, -, htree⟩⟩ := Analyze.namedFunction_eq_ok h
    · exact ⟨.evolve (htree ▸ .refl _), hcur, hdiag⟩
    · exact ⟨.evolve (htree ▸ .modifySymbol n Symbol.later_use), hcur, hdiag⟩
  | warn message place =>
    obtain ⟨p, -, rfl⟩ := Analyze.report_eq_ok h
    exact ⟨.evolve (.refl _), rfl, List.prefix_append _ _⟩

variable {w w' : Walk}

theorem Does.cases (h : e.Does w w') :
    (∃ kind, e = .enter kind ∧ w' = ⟨{ w.state with
      tree := w.state.tree.child w.state.current kind, current := w.state.tree.size }, w.state.current :: w.outer⟩) ∨
    (e = .leave ∧ ∃ i, w.outer = i :: w'.outer ∧ w'.state = { w.state with current := i }) ∨
    (e.Acts w.state w'.state ∧ w'.outer = w.outer) := by
  cases e with
  | enter kind => exact .inl ⟨kind, rfl, h⟩
  | leave => exact .inr (.inl ⟨rfl, h⟩)
  | _ => exact .inr (.inr h)

theorem Does.diagnostics (h : e.Does w w') : w.state.diagnostics <+: w'.state.diagnostics := by
  obtain ⟨kind, rfl, rfl⟩ | ⟨rfl, i, -, hw⟩ | ⟨h, -⟩ := h.cases
  · exact List.prefix_rfl
  · have hsame : w'.state.diagnostics = w.state.diagnostics := by simp [hw]
    exact hsame ▸ List.prefix_rfl
  · exact h.change.2.2

end Event

theorem Performs.diagnostics {es : List Event} {w w' : Walk} (h : Performs es w w') :
    w.state.diagnostics <+: w'.state.diagnostics :=
  h.induct (P := fun v => w.state.diagnostics <+: v.state.diagnostics) (fun _ _ _ hn hw => hw.trans hn.diagnostics)
    (fun _ _ _ _ he hw => hw.trans he.diagnostics) List.prefix_rfl

/-- A walk leaves the warnings that are among its events. -/
theorem Performs.warned {es : List Event} {w w' : Walk} {text : String} {place : Except Fault Place}
    (h : Performs es w w') (he : Event.warn text place ∈ es) :
    ∃ d ∈ w'.state.diagnostics, d.severity = .warning ∧ d.message = text ∧ place = .ok d.place := by
  obtain ⟨es₁, es₂, rfl⟩ := List.append_of_mem he
  obtain ⟨w₁, -, h⟩ := h.split
  obtain ⟨w₂, w₃, -, hdoes, h⟩ := h.cons_inv
  obtain ⟨p, hp, hstate⟩ := Analyze.report_eq_ok hdoes.1
  refine ⟨⟨.warning, text, p, false⟩, h.diagnostics.subset ?_, rfl, rfl, hp⟩
  rw [hstate]
  exact List.mem_append_right _ List.mem_cons_self

end QuadScript
