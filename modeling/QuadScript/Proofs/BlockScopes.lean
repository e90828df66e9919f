import QuadScript.Proofs.Redeclaration
import QuadScript.Proofs.Visits

/-!
# Names of a block

What is declared in the scope of a block are its `let`s and `const`s, its functions and its classes: a `var` goes to
the scope of the function around it, and parameters belong to functions (`Traces.target_ne_block`). So where a name has
no function and no class in a block, the first `let` or `const` of the name binds it, and every further one is refused
with one error at its own place (`Node.redeclared_once`). A variable has to have a name: one without is not declared
(`Node.unnamed_not_redeclared`).
-/

namespace QuadScript

/-! ### What an event does to the scopes -/

namespace ScopeTree

variable {t : ScopeTree} {i j n fuel : Nat} {is : List Nat}

def kind? (t : ScopeTree) (i : Nat) : Option ScopeKind := t.scopes[i]?.map (·.kind)

theorem kind?_bind {y : Symbol} : (t.bind i y).kind? j = t.kind? j := by
  simp only [kind?, bind, List.getElem?_modify]
  split <;> cases t.scopes[j]? <;> rfl

theorem kind?_child (kind : ScopeKind) : (t.child i kind).kind? j = if j = t.size then some kind else t.kind? j := by
  unfold kind? child size
  rw [List.getElem?_append]
  by_cases hj : j < t.scopes.length
  · rw [if_pos hj, if_neg (Nat.ne_of_lt hj)]
  · rw [if_neg hj]
    by_cases hj' : j = t.scopes.length
    · subst hj'
      simp
    · rw [if_neg hj', List.getElem?_eq_none (by simp; omega), List.getElem?_eq_none (Nat.le_of_not_lt hj)]

theorem Nested.functionScopeFrom (hn : t.Nested (i :: is)) (hfuel : is.length < fuel) :
    t.functionScopeFrom fuel i ∈ i :: is ∧ (t.parent? (t.functionScopeFrom fuel i) = none ∨
      ∃ kind, t.kind? (t.functionScopeFrom fuel i) = some kind ∧ holdsVariables kind = true) := by
  -- along the open scopes, each the parent of the one before it, with fuel for all of them
  induction is generalizing i fuel with
  | nil =>
    obtain ⟨fuel, rfl⟩ : ∃ m, fuel = m + 1 := ⟨fuel - 1, by simp at hfuel; omega⟩
    have hself : t.functionScopeFrom (fuel + 1) i = i := by
      have hparent : t.parent? i = none := hn
      unfold ScopeTree.functionScopeFrom
      split
      · rename_i hscope
        rw [parent?, hscope] at hparent
        cases hparent
      · rfl
    rw [hself]
    exact ⟨List.mem_cons_self, .inl hn⟩
  | cons j is ih =>
    obtain ⟨fuel, rfl⟩ : ∃ m, fuel = m + 1 := ⟨fuel - 1, by simp at hfuel; omega⟩
    obtain ⟨hparent, hn⟩ := hn
    obtain ⟨scope, hscope, hj⟩ := Option.bind_eq_some_iff.1 hparent
    have hself : t.functionScopeFrom (fuel + 1) i =
        if holdsVariables scope.kind then i else t.functionScopeFrom fuel j := by
      obtain ⟨kind, parent, bindings⟩ := scope
      cases hj
      rw [ScopeTree.functionScopeFrom, hscope]
    rw [hself]
    split
    · rename_i hkind
      exact ⟨List.mem_cons_self, .inr ⟨scope.kind, by rw [kind?, hscope]; rfl, hkind⟩⟩
    · obtain ⟨hmem, hr⟩ := ih hn (Nat.lt_of_succ_lt_succ hfuel)
      exact ⟨List.mem_cons_of_mem _ hmem, hr⟩

end ScopeTree

namespace Event

/-- The scope in which an event declares its name. -/
def target (e : Event) (σ : AnalysisState) : Nat :=
  match e with
  | .declare _ _ .var _ => σ.tree.functionScope σ.current
  | _ => σ.current

/-- What an event makes of the scopes and the symbols. -/
inductive Alters (e : Event) (σ : AnalysisState) : ScopeTree → Prop
  | same : Alters e σ σ.tree
  | global (h : e = .global) : Alters e σ (σ.tree.setKind σ.current .global)
  | use (n : Nat) : Alters e σ (σ.tree.modifySymbol n Symbol.use)
  | init (n : Nat) : Alters e σ (σ.tree.modifySymbol n Symbol.init)
  | bind {name : Tree} {place : Nat} {y : Symbol} (hname : e.name? = some name)
      (hkey : Key.ofTree place name = .ok y.name) : Alters e σ (σ.tree.bind (e.target σ) y)

variable {e : Event} {σ τ : AnalysisState}

theorem alters_hoist {mark : Mark} {id : Node} {params : List Param} (htarget : e.target σ = σ.current)
    (hname : e.name? = id.nameTree.toOption) (h : Analyze.hoistFunction mark id params σ = .ok ((), τ)) :
    e.Alters σ τ.tree := by
  obtain ⟨name, hid, ⟨-, rfl⟩ | ⟨-, k, y, hk, rfl, -, -, rfl⟩⟩ := Analyze.hoistFunction_eq_ok h
  · exact .same
  · rw [hid] at hname
    exact htarget ▸ .bind hname hk

theorem Acts.alters (h : e.Acts σ τ) : e.Alters σ τ.tree := by
  cases e with
  | enter | leave => cases h
  | global =>
    cases h
    exact .global rfl
  | hoist mark id params => exact alters_hoist rfl rfl h
  | own mark id params =>
    obtain ⟨owner, h⟩ := h
    rcases Analyze.functionOwner_eq_ok h with rfl | h
    · exact .same
    · exact alters_hoist rfl rfl h
  | declare mark name kind given =>
    obtain ⟨inferred, h⟩ := h
    obtain ⟨k, y, hk, rfl, -, -, -, -, -, -, -, htree⟩ := Analyze.declareVariable_eq_ok h
    have htarget : (if kind = .var then σ.tree.functionScope σ.current else σ.current) =
        (Event.declare mark name kind given).target σ := by
      cases kind <;> rfl
    rw [htree, htarget, ScopeTree.define]
    split
    · exact .same
    · exact .bind rfl hk
  | param position name =>
    obtain ⟨-, rfl⟩ | ⟨k, y, hk, rfl, -, -, -, rfl⟩ := Analyze.declareParam_eq_ok h
    · exact .same
    · exact .bind rfl hk
  | classDecl mark id =>
    obtain ⟨name, hid, ⟨-, rfl⟩ | ⟨k, y, hk, rfl, -, -, -, rfl⟩⟩ := Analyze.declareClass_eq_ok h
    · exact .same
    · have hname : (Event.classDecl mark id).name? = some name := by rw [name?, hid]; rfl
      exact .bind hname hk
  | read mark =>
    obtain ⟨kind, h⟩ := h
    obtain ⟨k, -, ⟨-, p, rfl⟩ | ⟨n, y, -, ⟨-, rfl⟩ | ⟨-, p, rfl⟩⟩⟩ := Analyze.visitIdentifier_eq_ok h
    · exact .same
    · exact .use n
    · exact .use n
  | assign operator mark =>
    obtain ⟨k, -, -, -, ⟨-, htree⟩ | ⟨n, y, -, htree⟩⟩ := Analyze.assignVariable_eq_ok h
    · exact htree ▸ .same
    · rw [htree]
      split
      · exact .init n
      · exact .same
  | update mark =>
    obtain ⟨k, -, ⟨-, p, rfl⟩ | ⟨n, y, -, ⟨-, p, rfl⟩ | ⟨-, rfl⟩⟩⟩ := Analyze.updateVariable_eq_ok h
    · exact .same
    · exact .same
    · exact .use n
  | call mark =>
    obtain ⟨called, h⟩ := h
    obtain ⟨k, -, -, -, ⟨-, htree⟩ | ⟨n, y, -, htree⟩⟩ := Analyze.namedFunction_eq_ok h
    · exact htree ▸ .same
    · exact htree ▸ .use n
  | warn message place =>
    obtain ⟨p, -, rfl⟩ := Analyze.report_eq_ok h
    exact .same

variable {w w' : Walk} {i n : Nat} {x : Tree} {k : Key} {kind : ScopeKind} {y : Symbol}

theorem Does.kind? (h : e.Does w w') (he : e ≠ .global) (hi : w.state.tree.kind? i = some kind) :
    w'.state.tree.kind? i = some kind := by
  obtain ⟨inner, rfl, rfl⟩ | ⟨rfl, j, -, hstate⟩ | ⟨hacts, -⟩ := h.cases
  · have hne : i ≠ w.state.tree.size := by
      rintro rfl
      have hnone : w.state.tree.scopes[w.state.tree.size]? = none := List.getElem?_eq_none (Nat.le_refl _)
      rw [ScopeTree.kind?, hnone] at hi
      cases hi
    show (w.state.tree.child w.state.current inner).kind? i = some kind
    rw [ScopeTree.kind?_child, if_neg hne, hi]
  · rw [hstate]
    exact hi
  · have halters := hacts.alters
    generalize w'.state.tree = t at halters ⊢
    cases halters with
    | same | use | init => exact hi
    | global hglobal => exact absurd hglobal he
    | bind => exact ScopeTree.kind?_bind.trans hi

/-- Whether an event declares this name. -/
def names (x : Tree) (e : Event) : Bool := e.name?.any x.isSameName

theorem Does.findLocal? (h : e.Does w w') (hk : ∀ q, Key.ofTree q x = .ok k)
    (hother : e.names x = true → e.target w.state ≠ i) :
    w'.state.tree.findLocal? i k = w.state.tree.findLocal? i k := by
  obtain ⟨inner, rfl, rfl⟩ | ⟨rfl, j, -, hstate⟩ | ⟨hacts, -⟩ := h.cases
  · show (w.state.tree.child w.state.current inner).findLocal? i k = _
    rw [ScopeTree.findLocal?_child]
    split
    · rename_i hsize
      cases hfound : w.state.tree.findLocal? i k with
      | none => rfl
      | some n => exact absurd hsize (Nat.ne_of_lt (ScopeTree.lt_size_of_findLocal? hfound))
    · rfl
  · rw [hstate]
  · have halters := hacts.alters
    generalize w'.state.tree = t at halters ⊢
    cases halters with
    | same | use | init => rfl
    | global => exact (ScopeTree.agrees_setKind .global).findLocal?
    | bind hname hkey =>
      rw [ScopeTree.findLocal?_bind_key, if_neg]
      rintro ⟨htarget, -, hmeets⟩
      refine hother ?_ htarget
      rw [names, hname]
      exact Tree.isSameName_of_meets hk hkey hmeets.symm

end Event

/-- What a declaration says of its symbol. -/
def Symbol.origin (y : Symbol) : Key × DeclKind × Position := (y.name, y.kind, y.position)

theorem Event.Does.symbol {e : Event} {w w' : Walk} {n : Nat} {y : Symbol} (h : e.Does w w')
    (hy : w.state.tree.symbol? n = some y) : ∃ y', w'.state.tree.symbol? n = some y' ∧ y'.origin = y.origin := by
  obtain ⟨inner, rfl, rfl⟩ | ⟨rfl, j, -, hstate⟩ | ⟨hacts, -⟩ := h.cases
  · exact ⟨y, hy, rfl⟩
  · rw [hstate]
    exact ⟨y, hy, rfl⟩
  · have halters := hacts.alters
    generalize w'.state.tree = t at halters ⊢
    cases halters with
    | same => exact ⟨y, hy, rfl⟩
    | global => exact ⟨y, hy, rfl⟩
    | use m =>
      rw [ScopeTree.symbol?_modifySymbol, hy]
      split
      · exact ⟨_, rfl, rfl⟩
      · exact ⟨y, rfl, rfl⟩
    | init m =>
      rw [ScopeTree.symbol?_modifySymbol, hy]
      split
      · exact ⟨_, rfl, rfl⟩
      · exact ⟨y, rfl, rfl⟩
    | bind =>
      have hlt := ScopeTree.symbol?_lt hy
      exact ⟨y, by rw [ScopeTree.symbol?_bind, if_neg (Nat.ne_of_lt hlt), hy], rfl⟩

theorem Performs.symbol {es : List Event} {w w' : Walk} {n : Nat} {y : Symbol} (h : Performs es w w')
    (hy : w.state.tree.symbol? n = some y) : ∃ y', w'.state.tree.symbol? n = some y' ∧ y'.origin = y.origin := by
  refine h.induct (P := fun w => ∃ y', w.state.tree.symbol? n = some y' ∧ y'.origin = y.origin) ?_ ?_ ⟨y, hy, rfl⟩
  · rintro σ τ outer hn ⟨y₁, hy₁, horigin⟩
    obtain ⟨y₂, hy₂, hplain⟩ := hn.symbol hy₁
    exact ⟨y₂, hy₂, (congrArg Symbol.origin hplain).trans horigin⟩
  · rintro e - w₁ w₂ hdoes ⟨y₁, hy₁, horigin⟩
    obtain ⟨y₂, hy₂, horigin₂⟩ := hdoes.symbol hy₁
    exact ⟨y₂, hy₂, horigin₂.trans horigin⟩

theorem Performs.kind? {es : List Event} {w w' : Walk} {i : Nat} {kind : ScopeKind} (h : Performs es w w')
    (hes : Event.global ∉ es) (hi : w.state.tree.kind? i = some kind) : w'.state.tree.kind? i = some kind := by
  refine h.induct (P := fun w => w.state.tree.kind? i = some kind) ?_ ?_ hi
  · intro σ τ outer hn hi
    rw [ScopeTree.kind?, hn.scopes]
    exact hi
  · intro e he w₁ w₂ hdoes hi
    exact hdoes.kind? (fun heq => hes (heq ▸ he)) hi

/-- A scope that is closed is not opened again. -/
theorem Performs.notMem_stack {es : List Event} {w w' : Walk} {i : Nat} (h : Performs es w w')
    (hi : i < w.state.tree.size) (hstack : i ∉ w.stack) : i ∉ w'.stack := by
  refine (h.induct (P := fun w => i < w.state.tree.size ∧ i ∉ w.stack) ?_ ?_ ⟨hi, hstack⟩).2
  · rintro σ τ outer hn ⟨hi, hstack⟩
    refine ⟨hn.evolves.size ▸ hi, ?_⟩
    rwa [Walk.stack, hn.current]
  · rintro e - w₁ w₂ hdoes ⟨hi, hstack⟩
    refine ⟨Nat.lt_of_lt_of_le hi hdoes.grows.size, ?_⟩
    obtain ⟨kind, rfl, rfl⟩ | ⟨rfl, j, houter, hstate⟩ | ⟨hacts, houter⟩ := hdoes.cases
    · exact fun hmem => (List.mem_cons.1 hmem).elim (Nat.ne_of_lt hi) hstack
    · rw [Walk.stack, hstate]
      rw [Walk.stack, houter] at hstack
      exact fun hmem => hstack (List.mem_cons_of_mem _ hmem)
    · rwa [Walk.stack, houter, hacts.change.2.1]

/-! ### Declarations of a block -/

/-- What is said of a name that is declared already. -/
def redeclaredMessages (x : String) : List String :=
  ["Cannot redeclare block-scoped variable '" ++ x ++ "'",
    "Identifier '" ++ x ++ "' has already been declared with a different kind"]

theorem Key.display_of_ofTree {a : Tree} {k : Key} (h : ∀ q, Key.ofTree q a = .ok k) : k.display = a.text := by
  have hzero := h 0
  cases a with
  | num n =>
    rw [Key.ofTree] at hzero
    split at hzero
    · rename_i hnan
      have hone := h 1
      rw [Key.ofTree, if_pos hnan] at hone
      cases hzero
      cases hone
    · cases hzero
      rfl
  | list | record => cases hzero
  | _ =>
    cases hzero
    rfl

theorem Analyze.errorIf_reports {α : Type} {b : Prop} [Decidable b] {message : String} {place : Except Fault Place}
    {x : Analyze α} {a : α} {σ τ : AnalysisState}
    (h : (if b then (do error message place; x) else x) σ = .ok (a, τ)) :
    ∃ ds : List Diagnostic, (∀ d ∈ ds, d.message = message) ∧
      x { σ with diagnostics := σ.diagnostics ++ ds } = .ok (a, τ) := by
  split at h
  · obtain ⟨_, ρ, herr, h⟩ := bind_eq_ok h
    obtain ⟨p, -, rfl⟩ := report_eq_ok herr
    exact ⟨[⟨.error, message, p, false⟩], by simp, h⟩
  · exact ⟨[], by simp, by simpa using h⟩

/-- A `let` or `const` binds a name that its scope does not have, and is refused with one error otherwise. -/
theorem Analyze.declareVariable_block {mark : Mark} {name : Tree} {kind : DeclKind} {given : Bool} {inferred : Kind}
    {σ τ : AnalysisState} (hkind : kind = .let ∨ kind = .const)
    (h : declareVariable mark name kind given inferred σ = .ok ((), τ)) :
    ∃ y missing, Key.ofTree mark.site name = .ok y.name ∧ y.kind = kind ∧
      mark.position = .ok y.position ∧
      (∀ d ∈ missing, ∃ text : String, d.message = "Missing initializer in const declaration '" ++ text) ∧
      ((σ.tree.binds σ.current y.name = false ∧ τ.tree = σ.tree.bind σ.current y ∧
        τ.diagnostics = σ.diagnostics ++ missing) ∨
      σ.tree.binds σ.current y.name = true ∧ τ.tree = σ.tree ∧ ∃ d, mark.place = .ok d.place ∧
        d.severity = .error ∧ (d.message = (Conflict.blockScoped y.name).message ∨
          d.message = "Identifier '" ++ name.text ++ "' has already been declared with a different kind") ∧
        τ.diagnostics = σ.diagnostics ++ (missing ++ [d])) := by
  obtain ⟨position, _, hlift, h⟩ := bind_eq_ok h
  obtain ⟨hposition, rfl⟩ := liftM_eq_ok hlift
  obtain ⟨missing, hmissing, h⟩ := errorIf_reports h
  obtain ⟨_, _, ⟨⟩, h⟩ := bind_eq_ok h
  obtain ⟨k, _, hkey, h⟩ := bind_eq_ok h
  obtain ⟨hk, rfl⟩ := liftM_eq_ok hkey
  obtain ⟨c, _, hdef, h⟩ := bind_eq_ok h
  obtain ⟨hc, rfl⟩ := define_eq_ok hdef
  -- only a `var` goes to the scope of its function; the other two conflict with any binding of the scope itself
  have hscope : (if kind = .var then σ.tree.functionScope σ.current else σ.current) = σ.current := by
    rcases hkind with rfl | rfl <;> rfl
  have hconflict : ∀ y : Symbol, y.kind = kind → σ.tree.conflict? σ.current y =
      if σ.tree.binds σ.current y.name then some (.blockScoped y.name) else none := by
    intro y hy
    unfold ScopeTree.conflict?
    rw [hy]
    rcases hkind with rfl | rfl <;> rfl
  refine ⟨
    { name := k, kind := kind, inferred := inferred, initialized := given, position := position,
      hasError := kind = .const && !given },
    missing, hk, rfl, hposition, ?_, ?_⟩
  · intro d hd
    exact ⟨name.text ++ "'", (hmissing d hd).trans (String.append_assoc ..)⟩
  · dsimp only at hc h
    rw [hscope, hconflict _ rfl] at hc
    rw [hscope, ScopeTree.define, hconflict _ rfl] at h
    dsimp only at hc h ⊢
    cases hbinds : σ.tree.binds σ.current k with
    | false =>
      rw [hbinds] at hc h
      subst hc
      cases h
      exact .inl ⟨rfl, rfl, rfl⟩
    | true =>
      rw [hbinds, if_pos rfl] at hc h
      subst hc
      obtain ⟨_, _, ⟨⟩, h⟩ := bind_eq_ok h
      refine .inr ⟨rfl, ?_⟩
      dsimp only at h
      split at h
      all_goals
        obtain ⟨p, hp, rfl⟩ := report_eq_ok h
        refine ⟨rfl, ⟨_, _, p, _⟩, hp, rfl, ?_, List.append_assoc ..⟩
      · exact .inr rfl
      · exact .inl rfl

namespace Event

/-- Whether an event declares a name with `let` or `const`. -/
def isLexical : Event → Bool
  | .declare _ _ .let _ => true
  | .declare _ _ .const _ => true
  | _ => false

/-- Whether an event declares a name for a whole function. -/
def isForFunction : Event → Bool
  | .declare _ _ .var _ => true
  | .param .. => true
  | _ => false

def isClass : Event → Bool
  | .classDecl .. => true
  | _ => false

/-- The word with which an event declares variables. -/
def word? : Event → Option DeclKind
  | .declare _ _ kind _ => some kind
  | _ => none

end Event

namespace Visit

/-- A visit declares the name in the scope, with `let` or `const`. -/
def declares (i : Nat) (x : Tree) (v : Visit) : Bool :=
  v.before.state.current = i && v.event.isLexical && v.event.names x

/-- A visit declares a function or a class of this name in the scope. -/
def replaces (i : Nat) (x : Tree) (v : Visit) : Bool :=
  v.before.state.current = i && (v.event.isFunction || v.event.isClass) && v.event.names x

/-- A visit does not declare the name in the scope. -/
def Spares (i : Nat) (x : Tree) (v : Visit) : Prop := v.event.names x = true → v.event.target v.before.state ≠ i

/-- The errors of a visit that say that its own name is declared already. -/
def redeclared (v : Visit) : List Diagnostic :=
  v.reports.filter fun d => d.severity = .error && v.event.name?.any fun name =>
    (redeclaredMessages name.text).contains d.message

variable {v : Visit} {i m : Nat} {x : Tree} {k : Key}

theorem declares_iff : v.declares i x = true ↔ ∃ mark name kind given, v.event = .declare mark name kind given ∧
    (kind = .let ∨ kind = .const) ∧ x.isSameName name = true ∧ v.before.state.current = i := by
  unfold declares
  rw [Bool.and_eq_true, Bool.and_eq_true, decide_eq_true_iff]
  constructor
  · rintro ⟨⟨hcurrent, hlexical⟩, hname⟩
    generalize v.event = e at hlexical hname
    unfold Event.isLexical at hlexical
    split at hlexical
    · exact ⟨_, _, _, _, rfl, .inl rfl, hname, hcurrent⟩
    · exact ⟨_, _, _, _, rfl, .inr rfl, hname, hcurrent⟩
    · cases hlexical
  · rintro ⟨mark, name, kind, given, hevent, rfl | rfl, hname, hcurrent⟩ <;>
      rw [hevent] <;> exact ⟨⟨hcurrent, rfl⟩, hname⟩

theorem missing_notMem (a x : String) :
    "Missing initializer in const declaration '" ++ a ∉ redeclaredMessages x := by
  simp [redeclaredMessages, String.ext_iff]

theorem redeclared_append {mark : Mark} {name : Tree} {kind : DeclKind} {given : Bool} {missing ds : List Diagnostic}
    (hevent : v.event = .declare mark name kind given)
    (hmissing : ∀ d ∈ missing, ∃ text : String, d.message = "Missing initializer in const declaration '" ++ text)
    (h : v.after.state.diagnostics = v.before.state.diagnostics ++ (missing ++ ds)) :
    v.redeclared = ds.filter fun d => d.severity = .error && (redeclaredMessages name.text).contains d.message := by
  rw [redeclared, reports, h, List.drop_left, List.filter_append, hevent]
  have hnil : (missing.filter fun d =>
      d.severity = .error && (redeclaredMessages name.text).contains d.message) = [] := by
    rw [List.filter_eq_nil_iff]
    intro d hd
    obtain ⟨text, htext⟩ := hmissing d hd
    rw [htext]
    simp [missing_notMem]
  exact (congrArg (· ++ _) hnil).trans (List.nil_append _)

theorem declares_free (hdoes : v.event.Does v.before v.after) (hv : v.declares i x = true)
    (hi : i < v.before.state.tree.size) (hk : ∀ q, Key.ofTree q x = .ok k)
    (hfree : v.before.state.tree.findLocal? i k = none) :
    v.redeclared = [] ∧ v.after.state.tree.findLocal? i k = some v.before.state.tree.declared.length ∧
      ∃ mark name kind given y, v.event = .declare mark name kind given ∧
        v.after.state.tree.symbol? v.before.state.tree.declared.length = some y ∧
        y.kind = kind ∧ mark.position = .ok y.position := by
  obtain ⟨mark, name, kind, given, hevent, hkind, hname, rfl⟩ := declares_iff.1 hv
  rw [hevent] at hdoes
  obtain ⟨⟨inferred, hdoes⟩, -⟩ := hdoes
  obtain ⟨y, missing, hy, hykind, hposition, hmissing, ⟨-, htree, hdiag⟩ | ⟨hbinds, -⟩⟩ :=
    Analyze.declareVariable_block hkind hdoes
  · have hmeets : y.name.Meets k := (Tree.meets_of_isSameName hname (hk 0) hy).symm
    refine ⟨?_, ?_, mark, name, kind, given, y, hevent, ?_, hykind, hposition⟩
    · rw [← List.append_nil missing] at hdiag
      exact redeclared_append hevent hmissing hdiag
    · rw [htree, ScopeTree.findLocal?_bind_key, if_pos ⟨rfl, hi, hmeets⟩]
    · rw [htree, ScopeTree.symbol?_bind, if_pos rfl]
  · have hmeets : k.Meets y.name := Tree.meets_of_isSameName hname (hk 0) hy
    rw [ScopeTree.binds, ← ScopeTree.findLocal?_congr hmeets, hfree] at hbinds
    cases hbinds

theorem declares_bound (hdoes : v.event.Does v.before v.after) (hv : v.declares i x = true)
    (hk : ∀ q, Key.ofTree q x = .ok k) (hbound : v.before.state.tree.findLocal? i k = some m) :
    v.after.state.tree = v.before.state.tree ∧ ∃ mark name kind given d, v.event = .declare mark name kind given ∧
      v.redeclared = [d] ∧ mark.place = .ok d.place := by
  obtain ⟨mark, name, kind, given, hevent, hkind, hname, rfl⟩ := declares_iff.1 hv
  rw [hevent] at hdoes
  obtain ⟨⟨inferred, hdoes⟩, -⟩ := hdoes
  obtain ⟨y, missing, hy, hykind, hposition, hmissing, ⟨hfree, -⟩ | ⟨-, htree, d, hplace, herror, hmessage, hdiag⟩⟩ :=
    Analyze.declareVariable_block hkind hdoes
  · have hmeets : k.Meets y.name := Tree.meets_of_isSameName hname (hk 0) hy
    rw [ScopeTree.binds, ← ScopeTree.findLocal?_congr hmeets, hbound] at hfree
    cases hfree
  · refine ⟨htree, mark, name, kind, given, d, hevent, ?_, hplace⟩
    have hdisplay : y.name.display = name.text := by
      obtain ⟨_, l, -, hl, -⟩ := Tree.isSameName_iff.1 hname
      rw [hl] at hy
      cases hy
      exact Key.display_of_ofTree hl
    have hmem : d.message ∈ redeclaredMessages name.text := by
      rw [redeclaredMessages, ← hdisplay]
      rcases hmessage with hblock | hkinds
      · exact List.mem_cons.2 (.inl hblock)
      · rw [← hdisplay] at hkinds
        exact List.mem_cons_of_mem _ (List.mem_singleton.2 hkinds)
    rw [redeclared_append hevent hmissing hdiag]
    simp [herror, hmem]

end Visit

namespace Traces

variable {vs : List Visit} {v : Visit} {w w' : Walk} {i m : Nat} {x : Tree} {k : Key}

theorem findLocal?_of_spares (h : Traces vs w w') (hk : ∀ q, Key.ofTree q x = .ok k)
    (hs : ∀ v ∈ vs, v.Spares i x) : w'.state.tree.findLocal? i k = w.state.tree.findLocal? i k := by
  induction h with
  | done => rfl
  | note hn _ ih => exact (ih hs).trans (ScopeTree.agrees_of_scopes hn.scopes).findLocal?
  | visit he _ ih =>
    obtain ⟨hspares, hs⟩ := List.forall_mem_cons.1 hs
    exact (ih hs).trans (he.findLocal? hk hspares)

/-- A name that a scope has stays bound to the same symbol, whatever `let`s and `const`s of it follow. -/
theorem findLocal?_kept (h : Traces vs w w') (hk : ∀ q, Key.ofTree q x = .ok k)
    (hs : ∀ v ∈ vs, v.declares i x = true ∨ v.Spares i x) (hm : w.state.tree.findLocal? i k = some m) :
    w'.state.tree.findLocal? i k = some m := by
  induction h with
  | done => exact hm
  | note hn _ ih => exact ih hs ((ScopeTree.agrees_of_scopes hn.scopes).findLocal?.trans hm)
  | visit he _ ih =>
    obtain ⟨hv, hs⟩ := List.forall_mem_cons.1 hs
    refine ih hs ?_
    rcases hv with hdeclares | hspares
    · obtain ⟨htree, -⟩ := Visit.declares_bound he hdeclares hk hm
      exact htree ▸ hm
    · exact (he.findLocal? hk hspares).trans hm

end Traces

/-! ### The scope of a block -/

namespace Walk.Tracks

variable {w : Walk} {scopes : List (List String)} {i j : Nat}

theorem functionScope (h : w.Tracks scopes) :
    w.state.tree.functionScope w.state.current ∈ w.stack ∧
      (w.state.tree.parent? (w.state.tree.functionScope w.state.current) = none ∨
        ∃ kind, w.state.tree.kind? (w.state.tree.functionScope w.state.current) = some kind ∧
          ScopeTree.holdsVariables kind = true) :=
  h.nested.functionScopeFrom h.length_le

theorem target_mem (h : w.Tracks scopes) (e : Event) : e.target w.state ∈ w.stack := by
  unfold Event.target
  split
  · exact h.functionScope.1
  · exact List.mem_cons_self

theorem functionScope_ne (h : w.Tracks scopes) (hkind : w.state.tree.kind? i = some .block)
    (hparent : w.state.tree.parent? i = some j) : w.state.tree.functionScope w.state.current ≠ i := by
  rintro rfl
  rcases h.functionScope.2 with hnone | ⟨kind, hkind', hholds⟩
  · rw [hnone] at hparent
    cases hparent
  · rw [hkind] at hkind'
    cases hkind'
    cases hholds

end Walk.Tracks

namespace Traces

variable {vs vs₁ vs₂ vs₃ : List Visit} {u v : Visit} {w w' : Walk} {i : Nat} {body : List Node}

theorem enter_ne_zero {kind : ScopeKind} (h : Traces vs ⟨.initial, []⟩ w) (hu : u ∈ vs)
    (hkind : u.event = .enter kind) : u.after.state.current ≠ 0 := by
  obtain ⟨vs₁, vs₂, -, hbefore, hdoes, -⟩ := h.exists_of_mem hu
  rw [hkind] at hdoes
  have hcurrent : u.after.state.current = u.before.state.tree.size := congrArg (·.state.current) hdoes
  have hsize : 1 ≤ u.before.state.tree.size := hbefore.performs.grows.size
  omega

theorem target_ne_before (h : Traces vs ⟨.initial, []⟩ w) (hi : w.state.tree.size ≤ i) (hv : v ∈ vs) :
    v.event.target v.before.state ≠ i := by
  obtain ⟨vs₁, vs₂, -, hbefore, hdoes, hafter⟩ := h.exists_of_mem hv
  have htracks := hbefore.performs.tracks Walk.tracks_initial
  have hlt := htracks.small _ (htracks.target_mem v.event)
  have hgrows := hdoes.grows.trans hafter.performs.grows
  have hsize := hgrows.size
  omega

theorem target_ne_after (h₀ : Traces vs₁ ⟨.initial, []⟩ w) (h : Traces vs₂ w w') (hi : i < w.state.tree.size)
    (hstack : i ∉ w.stack) (hv : v ∈ vs₂) : v.event.target v.before.state ≠ i := by
  obtain ⟨vs₃, vs₄, -, hbefore, -, -⟩ := h.exists_of_mem hv
  have htracks := (h₀.append hbefore).performs.tracks Walk.tracks_initial
  intro htarget
  exact hbefore.performs.notMem_stack hi hstack (htarget ▸ htracks.target_mem v.event)

/-- While the statements of a block are walked, what is declared for a function is not declared in the block. -/
theorem target_ne_inside (h₀ : Traces vs₁ ⟨.initial, []⟩ w) (h : Traces vs₂ w w')
    (hevents : vs₂.map Visit.event = (Site.block body).events) (hglobal : Event.global ∉ (Site.block body).events)
    (hkind : w.state.tree.kind? w.state.current = some .block) (hi : w.state.tree.parent? w.state.current = some i)
    (hv : v ∈ vs₂) (hfunction : v.event.isForFunction = true) :
    v.event.target v.before.state ≠ w.state.current := by
  obtain ⟨inner, hinner, hparam⟩ := ((Site.block body).sealed _ _ _ h hevents).2 v hv
  have hlt := (h₀.performs.tracks Walk.tracks_initial).small w.state.current List.mem_cons_self
  obtain ⟨vs₃, vs₄, rfl, hbefore, -, -⟩ := h.exists_of_mem hv
  have htracks := (h₀.append hbefore).performs.tracks Walk.tracks_initial
  have hsub : vs₃.map Visit.event ⊆ (Site.block body).events := by
    rw [← hevents, List.map_append]
    exact List.subset_append_left _ _
  unfold Event.isForFunction at hfunction
  split at hfunction
  -- A `var` goes to a scope of a function or to the outermost one, and the scope of a block is neither.
  · rename_i hevent
    rw [hevent]
    refine htracks.functionScope_ne ?_ ?_ (j := i)
    · exact hbefore.performs.kind? (fun hmem => hglobal (hsub hmem)) hkind
    · rw [hbefore.performs.grows.parent _ hlt, hi]
  -- Where a parameter is taken, a scope inside that of the block is open, and no scope is open twice.
  · rename_i hevent
    rw [hevent] at hparam ⊢
    intro htarget
    have hcurrent : v.before.state.current = w.state.current := htarget
    have hnodup := htracks.nodup
    rcases inner with _ | ⟨j, inner⟩
    · cases hparam rfl
    · rw [hinner, List.cons_append, List.nodup_cons] at hnodup
      rw [Walk.stack, List.cons_append] at hinner
      obtain ⟨rfl, -⟩ := List.cons.inj hinner
      refine hnodup.1 (List.mem_append_right _ ?_)
      rw [hcurrent]
      exact List.mem_cons_self
  · cases hfunction

theorem target_ne_block {l : Visit} (h : Traces (vs₁ ++ u :: (vs₂ ++ l :: vs₃)) ⟨.initial, []⟩ w)
    (hu : u.event = .enter .block) (hevents : vs₂.map Visit.event = (Site.block body).events) (hl : l.event = .leave)
    (hglobal : Event.global ∉ (Site.block body).events) :
    ∀ v ∈ vs₁ ++ u :: (vs₂ ++ l :: vs₃), v.event.isForFunction = true →
      v.event.target v.before.state ≠ u.after.state.current := by
  obtain ⟨w₁, h₁, h⟩ := h.split
  obtain ⟨hnote, hdoes, h⟩ := h.cons_inv
  obtain ⟨w₂, h₂, h⟩ := h.split
  obtain ⟨hnote', hleave, h₃⟩ := h.cons_inv
  have hbefore : Traces vs₁ ⟨.initial, []⟩ u.before := by simpa using h₁.append hnote
  have hopen : Traces (vs₁ ++ [u]) ⟨.initial, []⟩ u.after := hbefore.append (.visit hdoes (.done _))
  have hinside : Traces (vs₂ ++ [l]) u.after l.after := h₂.append (hnote'.append (.visit hleave (.done _)))
  have henter : (Event.enter .block).Does u.before u.after := hu ▸ hdoes
  have hcurrent : u.after.state.current = u.before.state.tree.size := congrArg (·.state.current) henter
  have htree : u.after.state.tree = u.before.state.tree.child u.before.state.current .block :=
    congrArg (·.state.tree) henter
  have hlt := Nat.lt_of_lt_of_le ((hopen.performs.tracks Walk.tracks_initial).small _ List.mem_cons_self)
    hinside.performs.grows.size
  have hstack : u.after.state.current ∉ l.after.stack := by
    have hblock : (u :: (vs₂ ++ [l])).map Visit.event = (Node.bare (.block body)).events := by
      rw [List.map_cons, List.map_append, hevents, List.map_singleton, hu, hl]
      rfl
    have hsame : l.after.stack = u.before.stack :=
      ((Node.bare (.block body)).sealed _ _ _ (.visit hdoes hinside) hblock).1
    rw [hsame, hcurrent]
    exact fun hmem => Nat.lt_irrefl _ ((hbefore.performs.tracks Walk.tracks_initial).small _ hmem)
  -- before the block its scope is not there yet, in the block functions have scopes of their own, and behind it the
  -- scope is closed for good
  intro v hv hfunction
  rcases List.mem_append.1 hv with hv | hv
  · exact hbefore.target_ne_before (Nat.le_of_eq hcurrent.symm) hv
  rcases List.mem_cons.1 hv with rfl | hv
  · rw [hu] at hfunction
    cases hfunction
  rcases List.mem_append.1 hv with hv | hv
  · refine hopen.target_ne_inside h₂ hevents hglobal ?_ ?_ hv hfunction (i := u.before.state.current)
    · rw [htree, hcurrent, ScopeTree.kind?_child, if_pos rfl]
    · rw [htree, hcurrent, ScopeTree.parent?_child, if_pos rfl]
  rcases List.mem_cons.1 hv with rfl | hv
  · rw [hl] at hfunction
    cases hfunction
  · exact (hopen.append hinside).target_ne_after h₃ hlt hstack hv

end Traces

/-! ### Which scope is open -/

/-- The open scopes and the number of scopes after an event. -/
def Event.nest (p : List Nat × Nat) : Event → List Nat × Nat
  | .enter _ => (p.2 :: p.1, p.2 + 1)
  | .leave => (p.1.tail, p.2)
  | _ => p

theorem Event.Does.nest {e : Event} {w w' : Walk} (h : e.Does w w') :
    (w'.stack, w'.state.tree.size) = Event.nest (w.stack, w.state.tree.size) e := by
  obtain ⟨kind, rfl, rfl⟩ | ⟨rfl, i, houter, hstate⟩ | ⟨hacts, houter⟩ := h.cases
  · simp [Event.nest, Walk.stack]
  · simp [Event.nest, Walk.stack, houter, hstate]
  · obtain ⟨hchange, hcurrent, -⟩ := hacts.change
    have hsize : w'.state.tree.size = w.state.tree.size := by
      generalize w'.state.tree = t at hchange ⊢
      cases hchange with
      | evolve hevolves => exact hevolves.size
      | bind => exact ScopeTree.size_bind
    rw [Walk.stack, hcurrent, houter, hsize]
    cases e with
    | enter | leave => cases hacts
    | _ => rfl

/-- Which scopes are open is told by the events alone. -/
theorem Performs.nest {es : List Event} {w w' : Walk} (h : Performs es w w') :
    (w'.stack, w'.state.tree.size) = es.foldl Event.nest (w.stack, w.state.tree.size) := by
  induction h with
  | done => rfl
  | note hn _ ih => rw [ih, Walk.stack, Walk.stack, hn.current, hn.evolves.size]
  | step he _ ih => rw [ih, he.nest, List.foldl_cons]

/-- Events, each with the scope that is open where it comes. -/
def Event.scoped (p : List Nat × Nat) : List Event → List (Nat × Event)
  | [] => []
  | e :: es => (p.1.headD 0, e) :: Event.scoped (e.nest p) es

theorem Traces.scoped {vs : List Visit} {w w' : Walk} (h : Traces vs w w') :
    vs.map (fun v => (v.before.state.current, v.event)) =
      Event.scoped (w.stack, w.state.tree.size) (vs.map Visit.event) := by
  induction h with
  | done => rfl
  | note hn _ ih => rw [ih, Walk.stack, Walk.stack, hn.current, hn.evolves.size]
  | visit he _ ih => rw [List.map_cons, ih, he.nest, List.map_cons, Event.scoped, Walk.stack, List.headD_cons]

theorem Traces.length_declares {vs : List Visit} {w w' : Walk} (h : Traces vs w w') (i : Nat) (x : Tree) :
    (vs.filter (Visit.declares i x)).length = (Event.scoped (w.stack, w.state.tree.size) (vs.map Visit.event)).countP
      fun p => p.1 = i && p.2.isLexical && p.2.names x := by
  rw [← h.scoped, List.countP_map, List.countP_eq_length_filter]
  rfl

/-! ### The first declaration counts -/

theorem Visit.declares_or_spares {v : Visit} {i : Nat} {x : Tree}
    (hwords : ∀ kind ∈ v.event.word?, kind = .let ∨ kind = .const ∨ kind = .var) (hv : v.replaces i x = false)
    (hfunction : v.event.isForFunction = true → v.event.target v.before.state ≠ i) :
    v.declares i x = true ∨ v.Spares i x := by
  by_cases hcurrent : v.event.names x = true ∧ v.event.target v.before.state = i
  swap
  · exact .inr fun hname htarget => hcurrent ⟨hname, htarget⟩
  obtain ⟨hname, htarget⟩ := hcurrent
  left
  rcases v with ⟨e, before, after⟩
  dsimp only at hname htarget hwords hfunction
  unfold replaces at hv
  unfold declares
  dsimp only at hv ⊢
  cases e with
  | declare mark name kind given =>
    rcases hwords kind rfl with rfl | rfl | rfl
    · simp [Event.isLexical, hname, ← htarget, Event.target]
    · simp [Event.isLexical, hname, ← htarget, Event.target]
    · exact absurd htarget (hfunction rfl)
  | param => exact absurd htarget (hfunction rfl)
  | hoist | own | classDecl =>
    simp [hname, ← htarget, Event.isFunction, Event.isClass, Event.target] at hv
  | _ => cases hname

/-- Of the declarations of a name in a scope, in the order of the walk, the first one makes the symbol of the scope, and
each of the others is refused with one error at its own place. -/
structure ScopeTree.FirstWins (t : ScopeTree) (i : Nat) (x : Tree) (first : Visit) (rest : List Visit) : Prop where
  accepted : first.redeclared = []
  refused : ∀ v ∈ rest, ∃ mark name kind given d, v.event = .declare mark name kind given ∧
    v.redeclared = [d] ∧ mark.place = .ok d.place
  bound : ∀ p k, Key.ofTree p x = .ok k → t.findLocal? i k = some first.before.state.tree.declared.length
  symbol : ∃ mark name kind given y, first.event = .declare mark name kind given ∧
    t.symbol? first.before.state.tree.declared.length = some y ∧ y.kind = kind ∧ mark.position = .ok y.position

theorem Traces.firstWins {vs rest : List Visit} {first : Visit} {w : Walk} {i : Nat} {x : Tree}
    (h : Traces vs ⟨.initial, []⟩ w) (hi : i ≠ 0) (hvs : vs.filter (Visit.declares i x) = first :: rest)
    (hs : ∀ v ∈ vs, v.declares i x = true ∨ v.Spares i x) : w.state.tree.FirstWins i x first rest := by
  obtain ⟨vs₁, vs₂, rfl, hvs₁, hfirst, rfl⟩ := List.filter_eq_cons_iff.1 hvs
  obtain ⟨w₁, h₁, h⟩ := h.split
  obtain ⟨hnote, hdoes, h₂⟩ := h.cons_inv
  have hbefore : Traces vs₁ ⟨.initial, []⟩ first.before := by simpa using h₁.append hnote
  obtain ⟨_, _, _, _, -, -, hname, hcurrent⟩ := Visit.declares_iff.1 hfirst
  obtain ⟨k, _, hk, -⟩ := Tree.isSameName_iff.1 hname
  -- Nothing declares the name in the scope before the first of its declarations does.
  have hfree : first.before.state.tree.findLocal? i k = none := by
    have hspares : ∀ v ∈ vs₁, v.Spares i x := fun v hv =>
      (hs v (List.mem_append_left _ hv)).resolve_left (hvs₁ v hv)
    rw [hbefore.findLocal?_of_spares hk hspares]
    cases hfound : AnalysisState.initial.tree.findLocal? i k with
    | none => rfl
    | some m =>
      have hlt : i < 1 := ScopeTree.lt_size_of_findLocal? hfound
      omega
  have hsmall := (hbefore.performs.tracks Walk.tracks_initial).small i (hcurrent ▸ List.mem_cons_self)
  obtain ⟨haccepted, hbound, mark', name', kind', given', y, hevent', hy, hkind, hposition⟩ :=
    Visit.declares_free hdoes hfirst hsmall hk hfree
  have hs₂ : ∀ v ∈ vs₂, v.declares i x = true ∨ v.Spares i x := fun v hv =>
    hs v (List.mem_append_right _ (List.mem_cons_of_mem _ hv))
  refine ⟨haccepted, fun v hv => ?_, fun p l hl => ?_, ?_⟩
  · obtain ⟨hv, hdeclares⟩ := List.mem_filter.1 hv
    obtain ⟨vs₃, vs₄, rfl, h₃, hdoes', -⟩ := h₂.exists_of_mem hv
    have hkept := h₃.findLocal?_kept hk (fun v hv => hs₂ v (List.mem_append_left _ hv)) hbound
    exact (Visit.declares_bound hdoes' hdeclares hk hkept).2
  · rw [hk p] at hl
    cases hl
    exact h₂.findLocal?_kept hk hs₂ hbound
  · obtain ⟨y', hy', horigin⟩ := h₂.performs.symbol hy
    have hkind' : y'.kind = y.kind := congrArg (·.2.1) horigin
    have hposition' : y'.position = y.position := congrArg (·.2.2) horigin
    exact ⟨mark', name', kind', given', y', hevent', hy', hkind'.trans hkind, hposition' ▸ hposition⟩

/-- In every block, where a name has no function and no class there. -/
theorem Node.redeclared_once {n : Node} {es : List Event} {mark : Mark} {body : List Node}
    (hn : n.analyze.isFatal = false) (hglobal : Event.global ∉ n.events.tail)
    (hwords : ∀ e ∈ n.events, ∀ kind ∈ e.word?, kind = .let ∨ kind = .const ∨ kind = .var)
    (hblock : (Site.node n).Reaches es (.node (.mk mark (.block body)))) :
    (∃ vs t, n.Visits vs t ∧ (vs.flatMap Visit.reports).Sublist n.analyze.diagnostics) ∧
    ∀ vs t, n.Visits vs t → ∃ vs₁ u vs₂, vs = vs₁ ++ u :: vs₂ ∧
      vs₁.map Visit.event = es ∧ u.event = .enter .block ∧
      ∀ x first rest, vs.filter (Visit.declares u.after.state.current x) = first :: rest →
        (∀ v ∈ vs, v.replaces u.after.state.current x = false) →
        t.FirstWins u.after.state.current x first rest := by
  refine ⟨Node.exists_visits hn, fun vs t hvs => ?_⟩
  obtain ⟨after, hafter⟩ := hblock.within
  have hevents : n.events = es ++ .enter .block :: ((Site.block body).events ++ .leave :: after) := by
    show (Site.node n).events = _
    rw [← hafter]
    simp [Site.events, Node.events]
  have hinside : (Site.block body).events ⊆ n.events.tail := by
    intro e he
    rw [hevents]
    rcases es with _ | ⟨_, es⟩ <;> simp [he]
  -- the visits split as the events do: before the block, its opening, its statements, its closing, and the rest
  obtain ⟨vs₁, vs', rfl, hes, hvs'⟩ := List.map_eq_append_iff.1 (hvs.events.trans hevents)
  obtain ⟨u, vs', rfl, hu, hvs'⟩ := List.map_eq_cons_iff.1 hvs'
  obtain ⟨vs₂, vs', rfl, hvs₂, hvs'⟩ := List.map_eq_append_iff.1 hvs'
  obtain ⟨l, vs₃, rfl, hl, -⟩ := List.map_eq_cons_iff.1 hvs'
  refine ⟨vs₁, u, _, rfl, hes, hu, fun x first rest hfilter hreplaces => ?_⟩
  obtain ⟨τ, htraces, rfl⟩ := hvs.traces
  have htargets := htraces.target_ne_block hu hvs₂ hl fun hmem => hglobal (hinside hmem)
  refine htraces.firstWins ?_ hfilter fun v hv => ?_
  · exact htraces.enter_ne_zero (List.mem_append_right _ List.mem_cons_self) hu
  · have hmem : v.event ∈ n.events := hvs.events ▸ List.mem_map_of_mem hv
    exact Visit.declares_or_spares (hwords _ hmem) (hreplaces v hv) (htargets v hv)

def Mark.onLine (line : Int) : Mark := { path := "", kind := none, name := none, position := .ok ⟨.int line, .int 0⟩ }

/-- A declaration of a variable on a line. -/
def Node.declaring (kind : DeclKind) (line : Int) (x : String) : Node :=
  .bare (.declaration kind [.mk (.onLine line) (.named x) true (.int 1)])

/-- A name that is declared before a block, in the block, in a block inside of it, and twice more in the block. -/
def redeclaringProgram : Node := .bare (.program [.declaring .let 1 "x",
  .bare (.block [.declaring .let 2 "x", .bare (.block [.declaring .let 3 "x"]), .declaring .const 4 "x",
    .declaring .let 5 "x"])])

theorem redeclaringProgram_events : redeclaringProgram.events = [.global,
    .declare (.onLine 1) (.str "x") .let true, .enter .block, .declare (.onLine 2) (.str "x") .let true,
    .enter .block, .declare (.onLine 3) (.str "x") .let true, .leave,
    .declare (.onLine 4) (.str "x") .const true, .declare (.onLine 5) (.str "x") .let true, .leave] := rfl

theorem Node.redeclared_once_nested : redeclaringProgram.analyze.isFatal = false ∧
    redeclaringProgram.analyze.errors.map (fun d => (d.message, d.place.position.line.text)) =
      [("Identifier 'x' has already been declared with a different kind", "4"),
        ("Cannot redeclare block-scoped variable 'x'", "5")] ∧
    ∃ vs t first rest, redeclaringProgram.Visits vs t ∧ vs.filter (Visit.declares 1 (.str "x")) = first :: rest ∧
      rest.length = 2 ∧ t.FirstWins 1 (.str "x") first rest := by
  have hfatal : redeclaringProgram.analyze.isFatal = false := by decide +kernel
  have hprogram := Site.Reaches.inside (.self : (Site.node redeclaringProgram).Reaches [] _) List.mem_cons_self
  have hblock := Site.Reaches.inside hprogram (List.mem_cons_of_mem _ List.mem_cons_self)
  have hglobal : Event.global ∉ redeclaringProgram.events.tail := by simp [redeclaringProgram_events]
  have hwords : ∀ e ∈ redeclaringProgram.events, ∀ kind ∈ e.word?, kind = .let ∨ kind = .const ∨ kind = .var := by
    simp [redeclaringProgram_events, Event.word?]
  have hfunctions : ∀ e ∈ redeclaringProgram.events, (e.isFunction || e.isClass) = false := by
    simp [redeclaringProgram_events, Event.isFunction, Event.isClass]
  refine ⟨hfatal, by decide +kernel, ?_⟩
  obtain ⟨⟨vs, t, hvs, -⟩, hall⟩ := redeclared_once hfatal hglobal hwords hblock
  obtain ⟨vs₁, u, vs₂, rfl, hes, hu, hwins⟩ := hall vs t hvs
  obtain ⟨τ, htraces, -⟩ := hvs.traces
  have hcurrent : u.after.state.current = 1 := by
    obtain ⟨w₁, h₁, h⟩ := htraces.split
    obtain ⟨hnote, hdoes, -⟩ := h.cons_inv
    have hopen := (h₁.append (hnote.append (.visit hdoes (.done _)))).performs.nest
    rw [List.nil_append, List.map_append, hes, List.map_singleton, hu] at hopen
    exact congrArg (·.1.headD 0) hopen
  have hlength : ((vs₁ ++ u :: vs₂).filter (Visit.declares 1 (.str "x"))).length = 3 := by
    rw [htraces.length_declares, hvs.events, redeclaringProgram_events]
    rfl
  have hreplaces : ∀ v ∈ vs₁ ++ u :: vs₂, v.replaces 1 (.str "x") = false := by
    intro v hv
    have hmem : v.event ∈ redeclaringProgram.events := hvs.events ▸ List.mem_map_of_mem hv
    simp [Visit.replaces, hfunctions _ hmem]
  obtain ⟨first, rest, hfirst⟩ := List.exists_cons_of_length_eq_add_one hlength
  rw [hcurrent] at hwins
  rw [hfirst] at hlength
  exact ⟨_, t, first, rest, hvs, hfirst, Nat.succ.inj hlength, hwins _ _ _ hfirst hreplaces⟩

/-- Two variables without a name. -/
def unnamedBlock : Node := .bare (.program [.bare (.block [.declaring .let 1 "", .declaring .let 2 ""])])

theorem Node.unnamed_not_redeclared :
    unnamedBlock.analyze.isFatal = false ∧ unnamedBlock.analyze.errors.length = 0 := by
  constructor <;> decide +kernel

end QuadScript
