import QuadScript.Proofs.BlockScopes
import QuadScript.Proofs.Returns
import QuadScript.Proofs.ScopePaths
import QuadScript.Proofs.UnusedVariables

/-!
# The symbol table and the sweep for unused symbols

The rows of the symbol table and the warnings on unused symbols come from two traversals of the scopes: one builds the
paths of the scopes on its way, the other does not. Both visit the scopes in the same order (`ScopeTree.rows_eq`,
`ScopeTree.unusedWarnings_eq`), and within a scope both follow its names, so the warnings are on the unused rows, one
by one (`ScopeTree.forall₂_isWarned`). A row is found by the path of its scope and its name
(`ScopeTree.pairwise_rows`). The walk says nothing about unused symbols, so that such warnings among the diagnostics
are those of the sweep, in its order (`Node.filter_concernsUnused`).

A warning shows the name as its scope spells it. A scope never changes the spelling of a name, so that is the spelling
of the visit that gave the name to the scope (`Traces.introduces`), while the row has the spelling of its symbol. For a
name that is a number the two may differ (`Node.warned_as_spelled_first`).
-/

namespace QuadScript

/-! ### The names of a scope -/

namespace ScopeTree

variable {t : ScopeTree} {i : Nat}

theorem symbols_eq (t : ScopeTree) (i : Nat) : t.symbols i = (t.entries i).map (·.2) := by
  rw [symbols, entries, Table.values, List.filterMap_map, List.map_filterMap]
  congr 1
  funext e
  cases h : t.symbol? e.2 <;> simp [h]

theorem mem_entries {e : Key × Symbol} (h : e ∈ t.entries i) :
    ∃ n, (e.1, n) ∈ (t.bindings i).entries ∧ t.symbol? n = some e.2 := by
  obtain ⟨⟨k, n⟩, hmem, he⟩ := List.mem_filterMap.1 h
  obtain ⟨y, hy, rfl⟩ := Option.map_eq_some_iff.1 he
  exact ⟨n, hmem, hy⟩

theorem Spelled.meets (h : t.Spelled) {e : Key × Symbol} (he : e ∈ t.entries i) : e.1.Meets e.2.name := by
  obtain ⟨n, hmem, hn⟩ := mem_entries he
  obtain ⟨y, hy, hmeets⟩ := h.bound i _ hmem
  cases hn.symm.trans hy
  exact hmeets

theorem Spelled.pairwise_entries (h : t.Spelled) : (t.entries i).Pairwise fun e e' => ¬e.1.Meets e'.1 := by
  refine List.pairwise_filterMap.2 ((List.pairwise_map.1 (h.distinct i)).imp fun {a b} hne e he e' he' => ?_)
  obtain ⟨y, -, rfl⟩ := Option.map_eq_some_iff.1 he
  obtain ⟨y', -, rfl⟩ := Option.map_eq_some_iff.1 he'
  exact hne

/-- The symbols of a scope have different names. -/
theorem Spelled.pairwise_symbols (h : t.Spelled) : (t.symbols i).Pairwise fun y y' => ¬y.name.Meets y'.name := by
  rw [symbols_eq, List.pairwise_map]
  refine h.pairwise_entries.imp_of_mem fun {e e'} he he' hne hmeets => hne ?_
  exact (h.meets he).trans (hmeets.trans (h.meets he').symm)

end ScopeTree

/-! ### The first spelling of a name -/

namespace ScopeTree

variable {t : ScopeTree} {i j : Nat} {k : Key} {y : Symbol}

/-- The names of a scope, as it spells them. -/
def names (t : ScopeTree) (i : Nat) : List Key := (t.bindings i).entries.map (·.1)

theorem mem_names {e : Key × Symbol} (h : e ∈ t.entries i) : e.1 ∈ t.names i := by
  obtain ⟨n, hmem, -⟩ := mem_entries h
  exact List.mem_map_of_mem hmem

theorem mem_names_bind (h : k ∈ (t.bind i y).names j) :
    k ∈ t.names j ∨ i = j ∧ i < t.size ∧ y.name = k ∧ t.binds j k = false := by
  unfold names at h ⊢
  rw [bindings_bind] at h
  split at h
  · rename_i hj
    unfold Table.setKey Table.set at h
    rw [Table.keys_put] at h
    split at h
    · exact .inl h
    · rename_i hnew
      obtain h | h := List.mem_append.1 h
      · exact .inl h
      · have hspelling := ((t.bindings j).spelling_mem_or_eq y.name).resolve_left hnew
        obtain rfl : k = y.name := (List.mem_singleton.1 h).trans hspelling
        refine .inr ⟨hj.1, hj.2, rfl, ?_⟩
        rw [hspelling] at hnew
        rw [binds, findLocal?, Table.getKey?, hspelling, Table.get?, Table.find?_eq_none_of_notMem hnew]
        rfl
  · exact .inl h

end ScopeTree

/-- A visit gives a name to a scope that had none that meets it: it declares the name there, in this spelling. -/
structure Visit.Introduces (v : Visit) (i : Nat) (k : Key) : Prop where
  target : v.event.target v.before.state = i
  name : ∃ name place, v.event.name? = some name ∧ Key.ofTree place name = .ok k
  fresh : v.before.state.tree.binds i k = false
  bound : v.after.state.tree.binds i k = true

theorem Event.Does.introduces {e : Event} {w w' : Walk} {i : Nat} {k : Key} (h : e.Does w w')
    (hk : k ∈ w'.state.tree.names i) : k ∈ w.state.tree.names i ∨ Visit.Introduces ⟨e, w, w'⟩ i k := by
  obtain ⟨kind, rfl, rfl⟩ | ⟨rfl, j, -, hstate⟩ | ⟨hacts, -⟩ := h.cases
  · rw [ScopeTree.names, ScopeTree.bindings_child] at hk
    exact .inl hk
  · rw [hstate] at hk
    exact .inl hk
  · have halters := hacts.alters
    generalize htree : w'.state.tree = t at halters hk
    cases halters with
    | same | use | init => exact .inl hk
    | global =>
      rw [ScopeTree.names, (ScopeTree.agrees_setKind .global).bindings] at hk
      exact .inl hk
    | bind hname hkey =>
      obtain hk | ⟨htarget, hsize, rfl, hfresh⟩ := ScopeTree.mem_names_bind hk
      · exact .inl hk
      · refine .inr ⟨htarget, ⟨_, _, hname, hkey⟩, hfresh, ?_⟩
        rw [htree, ScopeTree.binds, ScopeTree.findLocal?_bind_key, if_pos ⟨htarget, hsize, .inl rfl⟩]
        rfl

/-- A name that a scope has at the end it had at the start, or a visit gave it to the scope in this spelling. -/
theorem Traces.introduces {vs : List Visit} {w w' : Walk} {i : Nat} {k : Key} (h : Traces vs w w')
    (hk : k ∈ w'.state.tree.names i) : k ∈ w.state.tree.names i ∨ ∃ v ∈ vs, v.Introduces i k := by
  induction h with
  | done => exact .inl hk
  | note hn _ ih =>
    refine (ih hk).imp_left fun hmem => ?_
    rw [ScopeTree.names, (ScopeTree.agrees_of_scopes hn.scopes).bindings] at hmem
    exact hmem
  | visit he _ ih =>
    rcases ih hk with hmem | ⟨v, hv, hintro⟩
    · exact (he.introduces hmem).imp_right fun hintro => ⟨_, List.mem_cons_self, hintro⟩
    · exact .inr ⟨v, List.mem_cons_of_mem _ hv, hintro⟩

/-! ### Rows -/

/-- Whether the sweep warns of a row: its symbol is unused, no function, and without an error in its declaration. -/
def SymbolRow.isSwept (r : SymbolRow) : Bool := !r.symbol.used && r.symbol.kind ≠ .function && !r.symbol.hasError

/-- A warning that the symbol of a row is never used, at the position of the row. It shows the name as it was spelled
when the scope of the row had it first, from the start of the analysis or from one of the visits on. -/
structure SymbolRow.IsWarned (vs : List Visit) (t : ScopeTree) (r : SymbolRow) (d : Diagnostic) : Prop where
  severity : d.severity = .warning
  position : d.place.position = r.symbol.position
  message : ∃ s ∈ t.sites, s.path = r.scope ∧ ∃ k, (k, r.symbol) ∈ t.entries s.scope ∧ k.Meets r.symbol.name ∧
    (k ∈ ScopeTree.global.names s.scope ∨ ∃ v ∈ vs, v.Introduces s.scope k) ∧ d.message = unusedMessage k.display
  text : ∀ s, r.symbol.name = .text s → d.message = unusedMessage s

namespace ScopeTree

variable {t : ScopeTree}

theorem rowsFrom_eq (fuel i : Nat) (path : String) (depth : Nat) : t.rowsFrom fuel i path depth =
    (t.sitesFrom fuel i path depth).flatMap fun s => t.rowsOf s.scope s.path s.depth := by
  induction fuel generalizing i path depth with
  | zero => rfl
  | succ fuel ih =>
    rw [rowsFrom, sitesFrom, List.flatMap_cons, List.flatMap_assoc]
    simp only [ih]

theorem rows_eq (t : ScopeTree) : t.rows = t.sites.flatMap fun s => t.rowsOf s.scope s.path s.depth := rowsFrom_eq ..

theorem unusedWarnings_eq (t : ScopeTree) : t.unusedWarnings = t.sites.flatMap fun s =>
    ((t.entries s.scope).filter (·.2.isUnused)).map fun e => e.2.unusedWarning e.1 := by
  rw [unusedWarnings, ← t.map_scope_sites, List.flatMap_map]

theorem pairwise_rows (ht : t.Spelled) :
    t.rows.Pairwise fun r r' => ¬(r.scope = r'.scope ∧ r.symbol.name.Meets r'.symbol.name) := by
  have hscope : ∀ {r} {s : ScopeSite}, r ∈ t.rowsOf s.scope s.path s.depth → r.scope = s.path := by
    intro r s hr
    obtain ⟨y, -, rfl⟩ := List.mem_map.1 hr
    rfl
  rw [rows_eq, List.pairwise_flatMap]
  refine ⟨fun s _ => ?_, ?_⟩
  · refine List.pairwise_map.2 ((ht.pairwise_symbols.filter _).imp fun hne hboth => hne hboth.2)
  · refine (List.pairwise_map.1 t.nodup_paths).imp fun {s s'} hne r hr r' hr' hboth => hne ?_
    exact (hscope hr).symm.trans (hboth.1.trans (hscope hr'))

theorem filter_rowsOf (t : ScopeTree) (i : Nat) (path : String) (depth : Nat) :
    (t.rowsOf i path depth).filter SymbolRow.isSwept =
      ((t.entries i).filter (·.2.isUnused)).map fun e => ⟨e.2, path, depth⟩ := by
  rw [rowsOf, symbols_eq, List.filter_map, List.filter_map, List.filter_map, List.filter_filter, List.map_map]
  congr 1
  refine List.filter_congr fun e _ => ?_
  simp only [Function.comp, SymbolRow.isSwept, Symbol.isUnused]
  cases e.2.builtin <;> simp

/-- The warnings are on the swept rows, in the same order. -/
theorem forall₂_isWarned {vs : List Visit} (ht : t.Spelled)
    (hvs : ∀ i, ∀ k ∈ t.names i, k ∈ ScopeTree.global.names i ∨ ∃ v ∈ vs, v.Introduces i k) :
    List.Forall₂ (SymbolRow.IsWarned vs t) (t.rows.filter SymbolRow.isSwept) t.unusedWarnings := by
  have hscope : ∀ s ∈ t.sites, List.Forall₂ (SymbolRow.IsWarned vs t)
      ((t.rowsOf s.scope s.path s.depth).filter SymbolRow.isSwept)
      (((t.entries s.scope).filter (·.2.isUnused)).map fun e => e.2.unusedWarning e.1) := by
    intro s hs
    rw [filter_rowsOf, List.forall₂_map_left_iff, List.forall₂_map_right_iff, List.forall₂_same]
    rintro ⟨k, y⟩ he
    have hmem := List.mem_of_mem_filter he
    have hmeets : k.Meets y.name := ht.meets hmem
    refine ⟨rfl, rfl, ⟨s, hs, rfl, k, hmem, hmeets, hvs _ _ (mem_names hmem), rfl⟩, fun x hx => ?_⟩
    obtain rfl : k = .text x := Key.meets_text.1 (hx ▸ hmeets)
    rfl
  rw [rows_eq, unusedWarnings_eq, List.filter_flatMap]
  generalize t.sites = sites at hscope
  induction sites with
  | nil => exact .nil
  | cons s sites ih =>
    obtain ⟨hs, hsites⟩ := List.forall_mem_cons.1 hscope
    exact List.rel_append hs (ih hsites)

end ScopeTree

/-! ### Analyses -/

theorem ScopeTree.filter_unusedWarnings_unused (t : ScopeTree) :
    t.unusedWarnings.filter (fun d => concernsUnused d.message) = t.unusedWarnings := by
  rw [List.filter_eq_self]
  intro w hw
  obtain ⟨i, -, hw⟩ := List.mem_flatMap.1 hw
  obtain ⟨e, -, rfl⟩ := List.mem_map.1 hw
  exact concernsUnused_unusedMessage e.1.display

theorem Node.filter_concernsUnused {n : Node} {t : ScopeTree} (h : n.analyze.scopes = some t) :
    n.analyze.diagnostics.filter (fun d => concernsUnused d.message) = t.unusedWarnings := by
  unfold Node.analyze at h ⊢
  split at h
  · rename_i kind τ hτ
    cases h
    have hwalk : τ.unusedFindings = [] := ((Analyze.visit_credits n 0).credit hτ rfl).unused
    rw [AnalysisState.unusedFindings] at hwalk
    rw [List.filter_append, hwalk, List.nil_append, ScopeTree.filter_unusedWarnings_unused]
  · cases h

/-- The symbol table of an analysis with these visits and scopes: every scope has a place and a path of its own, the
rows are the symbols of the scopes in that order, and what is said about unused symbols is said of the rows. -/
structure Analysis.Tabulates (a : Analysis) (vs : List Visit) (t : ScopeTree) : Prop where
  scopes : (t.sites.map (·.scope)).Perm (List.range t.size)
  paths : (t.sites.map (·.path)).Nodup
  rows : a.rows = t.sites.flatMap fun s => ((t.symbols s.scope).filter (!·.builtin)).map (⟨·, s.path, s.depth⟩)
  distinct : a.rows.Pairwise fun r r' => ¬(r.scope = r'.scope ∧ r.symbol.name.Meets r'.symbol.name)
  warned : List.Forall₂ (SymbolRow.IsWarned vs t) (a.rows.filter SymbolRow.isSwept)
    (a.diagnostics.filter fun d => concernsUnused d.message)
  counted : a.statistics.unusedCount = (a.rows.filter (!·.symbol.used)).length

/-- The symbol table of an analysis without a fault and the warnings on unused symbols agree. -/
theorem Node.tabulates_analyze {n : Node} {t : ScopeTree} (h : n.analyze.scopes = some t) :
    (∃ vs, n.Visits vs t) ∧ ∀ vs, n.Visits vs t → n.analyze.Tabulates vs t := by
  constructor
  · obtain ⟨τ, hperforms, rfl, -⟩ := performs_of_scopes h
    obtain ⟨vs, hevents, hvs⟩ := hperforms.exists_traces
    exact ⟨vs, ⟨τ, hvs, rfl⟩, hevents, h⟩
  intro vs hvs
  obtain ⟨τ, htraces, rfl⟩ := hvs.traces
  have hspelled : τ.tree.Spelled := htraces.performs.spelled .global
  have hrooted : τ.tree.Rooted := (htraces.performs.rooted Walk.rooted_initial).tree
  have hrows : n.analyze.rows = τ.tree.rows := by rw [Analysis.rows, h]
  constructor
  case scopes =>
    rw [ScopeTree.map_scope_sites]
    exact hrooted.walk_perm
  case paths => exact τ.tree.nodup_paths
  case rows => exact hrows.trans τ.tree.rows_eq
  case distinct =>
    rw [hrows]
    exact ScopeTree.pairwise_rows hspelled
  case warned =>
    rw [hrows, filter_concernsUnused h]
    exact ScopeTree.forall₂_isWarned hspelled fun i k hk => htraces.introduces hk
  case counted => rfl

/-- One name in nested blocks and in blocks side by side: `let x = 1; { let x = 2; { const x; } } { let x = 3; x; }`,
with a function `f(a)` at the end. -/
def shadowed : Node := .bare (.program [
  declare .let (some 1),
  .bare (.block [declare .let (some 2), .bare (.block [declare .const none])]),
  .bare (.block [declare .let (some 3), .bare (.expression (.named "x"))]),
  .bare (.function (.named "f") [.mk (.ok .none) (.ok (.str "a")) .absent] (.bare (.block [])))])
where
  declare (kind : DeclKind) (value : Option Int) : Node :=
    .bare (.declaration kind [.mk ⟨"", none, none, .ok .none⟩ (.named "x") value.isSome (value.elim .absent .int)])

/-- The constant has an error and the last `x` is used, so neither is swept; nor is the function. -/
theorem Node.tabulates_analyze_shadowed : ∃ vs t, shadowed.Visits vs t ∧ shadowed.analyze.Tabulates vs t ∧
    shadowed.analyze.rows.map (fun r => (r.scope, r.symbol.name, r.isSwept)) =
      [("global", .text "f", false), ("global", .text "x", true), ("global.block0", .text "x", true),
        ("global.block0.block0", .text "x", false), ("global.block1", .text "x", false),
        ("global.function2", .text "a", true)] := by
  have hsome : shadowed.analyze.scopes.isSome = true := by decide +kernel
  obtain ⟨t, ht⟩ := Option.isSome_iff_exists.1 hsome
  obtain ⟨⟨vs, hvs⟩, htabulates⟩ := tabulates_analyze ht
  exact ⟨vs, t, hvs, htabulates vs hvs, by decide +kernel⟩

/-- A function whose parameters are the number one and the truth value that is the same name. -/
def twiceNamed : Node := .bare (.program [.bare (.function (.named "f")
  [parameter 1 (.num (.int 1)), parameter 2 (.bool true)] (.bare (.block [.bare (.return .absent)])))])
where
  parameter (line : Int) (name : Tree) : Param := .mk (.ok ⟨.int line, .int 0⟩) (.ok name) .absent

/-- The one row of the parameters has the name and the position of the second, and the warning at that position names
the first. -/
theorem Node.warned_as_spelled_first : twiceNamed.analyze.scopes.isSome = true ∧
    (twiceNamed.analyze.rows.filter SymbolRow.isSwept).map (fun r => (r.symbol.name, r.symbol.position.line.text)) =
      [(.bool true, "2")] ∧
    (twiceNamed.analyze.diagnostics.filter fun d => concernsUnused d.message).map (fun d =>
      (d.message, d.place.position.line.text)) = [(unusedMessage "1", "2")] ∧
    unusedMessage "1" ≠ unusedMessage (Key.bool true).display := by
  refine ⟨?_, ?_, ?_, ?_⟩ <;> decide +kernel

end QuadScript
