import QuadScript.Proofs.Redeclaration
import QuadScript.Proofs.Visits

/-!
# Functions are known in the whole list

The functions of a statement list are declared before the list is walked. A name stays declared, and the scope of the
list stays open while the list is walked, so a reference to such a function finds a symbol wherever it stands in the
list, before the function or after it and however deep (`Node.hoisted_found`). A function has to have a name: an empty
one is not declared (`Node.unnamed_not_found`).
-/

namespace QuadScript

/-! ### Names that are found -/

namespace ScopeTree

variable {t t' : ScopeTree} {i j n : Nat} {is : List Nat} {k : Key}

theorem Nested.exists_find? (hn : t.Nested (i :: is)) (hsize : (i :: is).length ≤ t.size) (hj : j ∈ i :: is)
    (hk : t.binds j k = true) : ∃ n, t.find? i k = some n := by
  rw [find?]
  generalize t.size = fuel at hsize
  induction is generalizing i fuel with
  | nil =>
    obtain ⟨fuel, rfl⟩ : ∃ m, fuel = m + 1 := ⟨fuel - 1, by simp at hsize; omega⟩
    obtain ⟨n, hn⟩ := Option.isSome_iff_exists.1 hk
    rw [List.mem_singleton.1 hj] at hn
    exact ⟨n, by rw [findFrom, hn]⟩
  | cons i' is ih =>
    obtain ⟨fuel, rfl⟩ : ∃ m, fuel = m + 1 := ⟨fuel - 1, by simp at hsize; omega⟩
    rw [findFrom, hn.1]
    cases hlocal : t.findLocal? i k with
    | some n => exact ⟨n, rfl⟩
    | none =>
      have hne : j ≠ i := by
        rintro rfl
        rw [binds, hlocal] at hk
        cases hk
      exact ih hn.2 (List.mem_of_ne_of_mem hne hj) fuel (Nat.le_of_succ_le_succ hsize)

/-- What names are bound to are symbols. -/
def Filled (t : ScopeTree) : Prop := ∀ i k n, t.findLocal? i k = some n → n < t.declared.length

namespace Filled

theorem evolves (h : t.Filled) (he : t.Evolves t') : t'.Filled := by
  intro i k n hn
  rw [he.length]
  exact h i k n (he.findLocal? ▸ hn)

theorem bind (h : t.Filled) (i : Nat) (y : Symbol) : (t.bind i y).Filled := by
  intro j k n hn
  have hlength : (t.bind i y).declared.length = t.declared.length + 1 := List.length_append
  rw [findLocal?_bind_key] at hn
  rw [hlength]
  split at hn
  · cases hn
    exact Nat.lt_succ_self _
  · exact Nat.lt_succ_of_lt (h j k n hn)

theorem child (h : t.Filled) (i : Nat) (kind : ScopeKind) : (t.child i kind).Filled := by
  intro j k n hn
  rw [findLocal?_child] at hn
  split at hn
  · cases hn
  · exact h j k n hn

theorem global : ScopeTree.global.Filled := by
  have hroot : (root .global).Filled := by
    intro i k n hn
    rcases i with _ | i <;> cases k <;> cases hn
  have hall : ∀ (ys : List Symbol) {t : ScopeTree}, t.Filled → (ys.foldl (fun t y => t.bind 0 y) t).Filled := by
    intro ys
    induction ys with
    | nil => exact fun h => h
    | cons y ys ih => exact fun h => ih (h.bind 0 y)
  exact hall builtins hroot

end Filled

end ScopeTree

theorem Event.Does.filled {e : Event} {w w' : Walk} (h : e.Does w w') (hw : w.state.tree.Filled) :
    w'.state.tree.Filled := by
  obtain ⟨kind, rfl, rfl⟩ | ⟨rfl, i, -, hstate⟩ | ⟨h, -⟩ := h.cases
  · exact hw.child _ _
  · rw [hstate]
    exact hw
  · obtain ⟨hchange, -⟩ := h.change
    generalize w'.state.tree = t at hchange ⊢
    cases hchange with
    | evolve hevolves => exact hw.evolves hevolves
    | bind => exact hw.bind _ _

theorem Performs.filled {es : List Event} {w w' : Walk} (h : Performs es w w') (hw : w.state.tree.Filled) :
    w'.state.tree.Filled :=
  h.induct (P := fun w => w.state.tree.Filled) (fun _ _ _ hn hw => hw.evolves hn.evolves)
    (fun _ _ _ _ he hw => he.filled hw) hw

/-- Where a walk comes to from the start of an analysis, a name that an open scope has stands for a symbol. -/
theorem Performs.exists_lookup? {es : List Event} {w : Walk} (h : Performs es ⟨.initial, []⟩ w) {i : Nat} {k : Key}
    (hi : i ∈ w.stack) (hk : w.state.tree.binds i k = true) : ∃ found, w.state.lookup? k = some found := by
  have htracks := h.tracks Walk.tracks_initial
  obtain ⟨n, hn⟩ := htracks.nested.exists_find? htracks.length_le hi hk
  obtain ⟨j, -, hj⟩ := htracks.nested.exists_findLocal? hn
  have hlt := h.filled ScopeTree.Filled.global j k n hj
  exact ⟨(n, _), AnalysisState.lookup?_eq_some.2 ⟨hn, List.getElem?_eq_getElem hlt⟩⟩

/-! ### References -/

namespace Event

/-- The name that an event refers to. -/
def reference? : Event → Option Tree
  | .read mark => some mark.nameTree
  | .assign _ mark => some mark.nameTree
  | .update mark => some mark.nameTree
  | .call mark => some mark.nameTree
  | _ => none

end Event

/-- What is said of a name that is not declared. -/
def undeclaredMessages (x : String) : List String :=
  ["'" ++ x ++ "' is not defined", "Function '" ++ x ++ "' is not defined",
    "Cannot assign to undeclared variable '" ++ x ++ "'", "Cannot update undeclared variable '" ++ x ++ "'"]

section Messages

variable (g x : String)

theorem early_notMem : "Variable '" ++ g ++ "' is used before being initialized" ∉ undeclaredMessages x := by
  simp [undeclaredMessages, String.ext_iff]

theorem assignConst_notMem : "Cannot assign to const variable '" ++ g ++ "'" ∉ undeclaredMessages x := by
  simp [undeclaredMessages, String.ext_iff]

theorem updateConst_notMem : "Cannot update const variable '" ++ g ++ "'" ∉ undeclaredMessages x := by
  simp [undeclaredMessages, String.ext_iff]

theorem notFunction_notMem (kind : String) :
    "'" ++ g ++ "' is not a function, its kind is '" ++ kind ++ "'" ∉ undeclaredMessages x := by
  have hlast : ∀ a b : String, a ++ "'" ≠ b ++ "' is not defined" := by
    intro a b h
    have hchar := congrArg (fun s => s.toList.getLast?) h
    simp [List.getLast?_append] at hchar
  simp only [undeclaredMessages, List.mem_cons, List.not_mem_nil, or_false, not_or]
  refine ⟨hlast _ _, hlast _ _, ?_, ?_⟩ <;> simp [String.ext_iff]

end Messages

/-- The diagnostics are as before, with at most one more, which does not say that a name is not declared. -/
def AnalysisState.Knows (σ τ : AnalysisState) : Prop :=
  τ.diagnostics = σ.diagnostics ∨ ∃ d, τ.diagnostics = σ.diagnostics ++ [d] ∧ ∀ x, d.message ∉ undeclaredMessages x

namespace Analyze

variable {σ τ : AnalysisState} {mark : Mark} {k : Key} {found : Nat × Symbol}

theorem visitIdentifier_knows {kind : Kind} (hk : Key.ofTree mark.site mark.nameTree = .ok k)
    (hfound : σ.lookup? k = some found) (h : visitIdentifier mark σ = .ok (kind, τ)) : σ.Knows τ := by
  obtain ⟨k', hk', hcases⟩ := visitIdentifier_eq_ok h
  rw [hk] at hk'
  cases hk'
  rcases hcases with ⟨hnone, -⟩ | ⟨n, y, -, ⟨-, rfl⟩ | ⟨-, p, rfl⟩⟩
  · rw [hfound] at hnone
    cases hnone
  · exact .inl rfl
  · exact .inr ⟨_, rfl, early_notMem _⟩

theorem updateVariable_knows {u : Unit} (hk : Key.ofTree mark.site mark.nameTree = .ok k)
    (hfound : σ.lookup? k = some found) (h : updateVariable mark σ = .ok (u, τ)) : σ.Knows τ := by
  obtain ⟨k', hk', hcases⟩ := updateVariable_eq_ok h
  rw [hk] at hk'
  cases hk'
  rcases hcases with ⟨hnone, -⟩ | ⟨n, y, -, ⟨-, p, rfl⟩ | ⟨-, rfl⟩⟩
  · rw [hfound] at hnone
    cases hnone
  · exact .inr ⟨_, rfl, updateConst_notMem _⟩
  · exact .inl rfl

theorem assignVariable_knows {u : Unit} (hk : Key.ofTree mark.site mark.nameTree = .ok k)
    (hfound : σ.lookup? k = some found) (h : assignVariable mark σ = .ok (u, τ)) : σ.Knows τ := by
  obtain ⟨r, _, hr, h⟩ := bind_eq_ok h
  obtain ⟨k', hk', rfl, rfl⟩ := lookup_eq_ok hr
  rw [hk] at hk'
  cases hk'
  rw [hfound] at h
  have hflag : ∀ {ρ : AnalysisState}, (if found.2.kind = .let || found.2.kind = .var || found.2.kind = .const then
      (modifySymbol found.1 fun s => { s with initialized := true } : Analyze Unit) else pure ()) ρ = .ok (u, τ) →
      τ.diagnostics = ρ.diagnostics := by
    intro ρ hρ
    split at hρ <;> cases hρ <;> rfl
  dsimp only at h
  split at h
  · obtain ⟨_, _, herr, h⟩ := bind_eq_ok h
    obtain ⟨p, -, rfl⟩ := report_eq_ok herr
    exact .inr ⟨_, hflag h, assignConst_notMem _⟩
  · exact .inl (hflag h)

theorem namedFunction_knows {r : Option Nat} (hk : Key.ofTree mark.site mark.nameTree = .ok k)
    (hfound : σ.lookup? k = some found) (h : namedFunction mark σ = .ok (r, τ)) : σ.Knows τ := by
  obtain ⟨r, _, hr, h⟩ := bind_eq_ok h
  obtain ⟨k', hk', rfl, rfl⟩ := lookup_eq_ok hr
  rw [hk] at hk'
  cases hk'
  rw [hfound] at h
  obtain ⟨_, _, ⟨⟩, h⟩ := bind_eq_ok h
  dsimp only at h
  split at h
  · obtain ⟨_, _, hwarn, h⟩ := bind_eq_ok h
    obtain ⟨p, -, rfl⟩ := report_eq_ok hwarn
    cases h
    exact .inr ⟨_, rfl, fun x => notFunction_notMem _ x _⟩
  · cases h
    exact .inl rfl

end Analyze

theorem Event.Acts.knows {e : Event} {σ τ : AnalysisState} {g : Tree} (h : e.Acts σ τ) (hg : e.reference? = some g) :
    ∃ place k, Key.ofTree place g = .ok k ∧ ∀ found, σ.lookup? k = some found → σ.Knows τ := by
  cases e with
  | read mark =>
    cases hg
    obtain ⟨kind, h⟩ := h
    obtain ⟨k, hk, -⟩ := Analyze.visitIdentifier_eq_ok h
    exact ⟨_, k, hk, fun found hfound => Analyze.visitIdentifier_knows hk hfound h⟩
  | assign operator mark =>
    cases hg
    obtain ⟨k, hk, -⟩ := Analyze.assignVariable_eq_ok h
    exact ⟨_, k, hk, fun found hfound => Analyze.assignVariable_knows hk hfound h⟩
  | update mark =>
    cases hg
    obtain ⟨k, hk, -⟩ := Analyze.updateVariable_eq_ok h
    exact ⟨_, k, hk, fun found hfound => Analyze.updateVariable_knows hk hfound h⟩
  | call mark =>
    cases hg
    obtain ⟨called, h⟩ := h
    obtain ⟨k, hk, -⟩ := Analyze.namedFunction_eq_ok h
    exact ⟨_, k, hk, fun found hfound => Analyze.namedFunction_knows hk hfound h⟩
  | _ => cases hg

theorem AnalysisState.Knows.reports {v : Visit} (h : v.before.state.Knows v.after.state) :
    ∀ d ∈ v.reports, ∀ x, d.message ∉ undeclaredMessages x := by
  intro d hd x
  unfold Visit.reports at hd
  rcases h with hsame | ⟨d', hmore, hd'⟩
  · rw [hsame, List.drop_length] at hd
    cases hd
  · rw [hmore, List.drop_left, List.mem_singleton] at hd
    exact hd ▸ hd' x

/-! ### Functions of a list -/

/-- The function that a statement declares before its list is walked. -/
def Node.hoist? : Node → Option Event
  | .mk mark (.function id params _) => some (.hoist mark id params)
  | _ => none

theorem Node.hoists_eq (ns : List Node) : Node.hoists ns = ns.filterMap Node.hoist? := by
  induction ns with
  | nil => rfl
  | cons n ns ih =>
    rcases n with _ | _ | ⟨mark, form⟩
    · exact ih
    · exact ih
    · cases form with
      | function id params body => exact congrArg (Event.hoist mark id params :: ·) ih
      | _ => exact ih

theorem Node.exists_of_mem_hoists {ns : List Node} {e : Event} (he : e ∈ Node.hoists ns) :
    ∃ mark id params, e = .hoist mark id params := by
  rw [hoists_eq, List.mem_filterMap] at he
  obtain ⟨n, -, hn⟩ := he
  unfold hoist? at hn
  split at hn
  · exact ⟨_, _, _, (Option.some.inj hn).symm⟩
  · cases hn

namespace Performs

variable {es : List Event} {w w' : Walk}

theorem stack_hoists (ns : List Node) (h : Performs es w w') (hes : es ⊆ Node.hoists ns) : w'.stack = w.stack := by
  refine h.induct (P := fun w' => w'.stack = w.stack) (fun σ τ outer hn hw => ?_) (fun e he w₁ w₂ hdoes hw => ?_) rfl
  · rw [← hw, Walk.stack, Walk.stack, hn.current]
  · obtain ⟨mark, id, params, rfl⟩ := Node.exists_of_mem_hoists (hes he)
    rw [← hw, Walk.stack, Walk.stack, hdoes.2, hdoes.1.change.2.1]

/-- Once the functions of a list are declared, the scope that is open has their names. -/
theorem binds_hoists {ns : List Node} {mark : Mark} {id body : Node} {params : List Param} {f : Tree}
    (h : Performs (Node.hoists ns) w w') (hw : w.state.current < w.state.tree.size)
    (hmem : Node.mk mark (.function id params body) ∈ ns) (hname : id.nameTree = .ok f) (hf : f.truthy = true) :
    ∃ p k, Key.ofTree p f = .ok k ∧ w'.state.tree.binds w.state.current k = true := by
  have hevent : Event.hoist mark id params ∈ Node.hoists ns := by
    rw [Node.hoists_eq]
    exact List.mem_filterMap.2 ⟨_, hmem, rfl⟩
  obtain ⟨es₁, es₂, hes⟩ := List.append_of_mem hevent
  rw [hes] at h
  obtain ⟨w₁, h₁, h⟩ := h.split
  obtain ⟨w₂, w₃, h₂, hdoes, h₃⟩ := h.cons_inv
  have hbefore : Performs es₁ w w₂ := by simpa using h₁.append h₂
  have hcurrent : w₂.state.current = w.state.current := by
    have hstack := hbefore.stack_hoists ns (hes ▸ List.subset_append_left _ _)
    exact (List.cons.inj hstack).1
  obtain ⟨name, hname', hcases⟩ := Analyze.hoistFunction_eq_ok hdoes.1
  rw [hname] at hname'
  cases hname'
  rcases hcases with ⟨hfalse, -⟩ | ⟨-, k, y, hk, hy, -, -, hstate⟩
  · rw [hf] at hfalse
    cases hfalse
  · refine ⟨_, k, hk, h₃.grows.binds _ k ?_⟩
    have hsize : w.state.current < w₂.state.tree.size := Nat.lt_of_lt_of_le hw hbefore.grows.size
    rw [hstate, ScopeTree.binds, ScopeTree.findLocal?_bind_key, hcurrent, if_pos ⟨rfl, hsize, .inl hy⟩]
    rfl

end Performs

namespace Site

/-- What is walked after the functions of a list are declared. -/
def rest : Site → List Event
  | .node n => n.events
  | .program ns => Node.eventsAll ns
  | .block ns => Node.eventsStatements false ns

theorem events_eq (s : Site) : s.events = Node.hoists s.statements ++ s.rest := by
  cases s <;> rfl

end Site

/-- The walk of a program comes to a list of statements in which a function is declared. Then nothing that refers to
the function while the list is walked is told that it does not exist. -/
theorem Node.hoisted_found {n : Node} {es : List Event} {s : Site} {mark : Mark} {id body : Node}
    {params : List Param} {f : Tree} (hn : n.analyze.isFatal = false) (hs : (Site.node n).Reaches es s)
    (hmem : Node.mk mark (.function id params body) ∈ s.statements) (hname : id.nameTree = .ok f)
    (hf : f.truthy = true) :
    (∃ vs t, n.Visits vs t ∧ (vs.flatMap Visit.reports).Sublist n.analyze.diagnostics) ∧
      ∀ vs t, n.Visits vs t → ∃ vs₁ vs₂ vs₃, vs = vs₁ ++ (vs₂ ++ vs₃) ∧
      vs₁.map Visit.event = es ∧ vs₂.map Visit.event = s.events ∧
      ∀ v ∈ vs₂, ∀ g, v.event.reference? = some g → f.isSameName g = true →
        ∀ d ∈ v.reports, ∀ x, d.message ∉ undeclaredMessages x := by
  refine ⟨Node.exists_visits hn, fun vs t hvs => ?_⟩
  obtain ⟨rest, hrest⟩ := hs.within
  have hevents : vs.map Visit.event = es ++ (s.events ++ rest) := by
    rw [hvs.events, ← List.append_assoc]
    exact hrest.symm
  obtain ⟨vs₁, vs', rfl, hes₁, hevents⟩ := List.map_eq_append_iff.1 hevents
  obtain ⟨vs₂, vs₃, rfl, hes₂, -⟩ := List.map_eq_append_iff.1 hevents
  refine ⟨vs₁, vs₂, vs₃, rfl, hes₁, hes₂, fun v hv g hg hsame => ?_⟩
  obtain ⟨τ, htraces, -⟩ := hvs.traces
  obtain ⟨w₁, htraces₁, htraces⟩ := htraces.split
  obtain ⟨w₂, htraces₂, -⟩ := htraces.split
  -- The functions of the list come first, what refers to them comes after.
  obtain ⟨hs, rs, rfl, hhoists, -⟩ := List.map_eq_append_iff.1 (hes₂.trans s.events_eq)
  obtain ⟨w₃, htraces_hs, htraces_rs⟩ := htraces₂.split
  have hperforms : Performs (Node.hoists s.statements) w₁ w₃ := hhoists ▸ htraces_hs.performs
  have hlate : v ∈ rs := by
    refine (List.mem_append.1 hv).resolve_left fun hearly => ?_
    obtain ⟨m, i, ps, hevent⟩ := Node.exists_of_mem_hoists (hhoists ▸ List.mem_map_of_mem hearly)
    rw [hevent] at hg
    cases hg
  obtain ⟨rs₁, rs₂, hsplit, htraces_v, hdoes, -⟩ := htraces_rs.exists_of_mem hlate
  have hreach := (htraces₁.append (htraces_hs.append htraces_v)).performs
  have hstart := htraces₁.performs.tracks Walk.tracks_initial
  -- The scope of the list has the function, and it is still open.
  obtain ⟨p, k, hk, hbinds⟩ := hperforms.binds_hoists (hstart.small _ List.mem_cons_self) hmem hname hf
  have hopen : w₁.state.current ∈ v.before.stack := by
    obtain ⟨inner, hinner, -⟩ := (s.sealed _ w₁ w₂ htraces₂ hes₂).2 v hv
    rw [hinner]
    exact List.mem_append_right _ List.mem_cons_self
  have hacts : v.event.Acts v.before.state v.after.state := by
    obtain ⟨kind, hkind, -⟩ | ⟨hleave, -⟩ | ⟨hacts, -⟩ := hdoes.cases
    · rw [hkind] at hg
      cases hg
    · rw [hleave] at hg
      cases hg
    · exact hacts
  obtain ⟨_, l, hl, hknows⟩ := hacts.knows hg
  have hbinds_l : v.before.state.tree.binds w₁.state.current l = true := by
    have hlater := htraces_v.performs.grows.binds _ _ hbinds
    rwa [ScopeTree.binds, ScopeTree.findLocal?_congr (Tree.meets_of_isSameName hsame hk hl)] at hlater
  obtain ⟨found, hfound⟩ := hreach.exists_lookup? hopen hbinds_l
  exact (hknows found hfound).reports

/-- A function that is called and written to in its block before it is declared there, and read outside of the block. -/
def forwardBlock : List Node := [
  .bare (.expression (.bare (.call (.named "f") []))),
  .bare (.block [.bare (.expression (.set "f" (.int 1)))]),
  .bare (.function (.named "f") [] (.bare (.block [])))]

def forwardProgram : Node := .bare (.program [.bare (.block forwardBlock), .bare (.expression (.named "f"))])

/-- Of the references to the function only the one outside of its block is reported. -/
theorem Node.hoisted_found_forward : forwardProgram.analyze.isFatal = false ∧
    forwardProgram.analyze.errors.map (·.message) = ["'f' is not defined"] ∧
    ∃ vs₁ vs₂ vs₃ t, forwardProgram.Visits (vs₁ ++ (vs₂ ++ vs₃)) t ∧
      (vs₂.map Visit.event).filterMap Event.reference? = [.str "f", .str "f"] ∧
      ∀ v ∈ vs₂, ∀ g, v.event.reference? = some g → (Tree.str "f").isSameName g = true →
        ∀ d ∈ v.reports, ∀ x, d.message ∉ undeclaredMessages x := by
  have hfatal : forwardProgram.analyze.isFatal = false := by decide +kernel
  have hprogram := Site.Reaches.inside (.self : (Site.node forwardProgram).Reaches [] _) List.mem_cons_self
  have hblock := Site.Reaches.inside hprogram List.mem_cons_self
  have hreaches := Site.Reaches.inside hblock List.mem_cons_self
  have hmem : Node.bare (.function (.named "f") [] (.bare (.block []))) ∈ (Site.block forwardBlock).statements :=
    List.mem_cons_of_mem _ (List.mem_cons_of_mem _ List.mem_cons_self)
  obtain ⟨⟨vs, t, hvs, -⟩, hall⟩ := hoisted_found hfatal hreaches hmem rfl rfl
  obtain ⟨vs₁, vs₂, vs₃, rfl, -, hevents, hfound⟩ := hall vs t hvs
  refine ⟨hfatal, by decide +kernel, vs₁, vs₂, vs₃, t, hvs, ?_, hfound⟩
  rw [hevents]
  rfl

/-- A function without a name, and a reference to what has none. -/
def unnamedProgram : Node := .bare (.program [
  .bare (.function (.named "") [] (.bare (.block []))), .bare (.expression (.named ""))])

theorem Node.unnamed_not_found : unnamedProgram.analyze.isFatal = false ∧
    unnamedProgram.analyze.errors.map (·.message) = ["'' is not defined"] := by
  constructor <;> decide +kernel

end QuadScript
