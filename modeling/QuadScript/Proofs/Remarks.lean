import QuadScript.Analysis.Basic
import QuadScript.Proofs.Messages
import QuadScript.Proofs.Steps

/-!
# Actions and what they leave alone

What is said of every run of an action is a relation between the states before and after it (`Analyze.Within`). Most
actions of the walk stay in the functions being walked and say no more than remarks (`Remarks`); those that only check
something leave the scopes as well (`Checks`). A relation that allows for checks and is closed under runs in a row is
lenient, and what is shown here of checks holds of every lenient relation.
-/

namespace QuadScript

/-! ### The scopes around scopes -/

namespace ScopeTree

variable (t : ScopeTree)

/-- The scope that each scope is in. -/
def parents : List (Option Nat) := t.scopes.map Scope.parent

theorem length_parents : t.parents.length = t.size := List.length_map ..

theorem parent?_eq (i : Nat) : t.parent? i = t.parents[i]?.join := by
  rw [parent?, parents, List.getElem?_map]
  cases t.scopes[i]? <;> rfl

theorem parents_child (i : Nat) (kind : ScopeKind) : (t.child i kind).parents = t.parents ++ [some i] :=
  List.map_append ..

theorem parents_modify {f : Scope → Scope} (hf : ∀ scope, (f scope).parent = scope.parent) (i : Nat) :
    (t.scopes.modify i f).map Scope.parent = t.parents := by
  apply List.ext_getElem?
  intro j
  rw [List.getElem?_map, List.getElem?_modify, parents, List.getElem?_map]
  cases t.scopes[j]? with
  | none => rfl
  | some scope => by_cases hj : i = j <;> simp [hj, hf]

theorem parents_setKind (i : Nat) (kind : ScopeKind) : (t.setKind i kind).parents = t.parents :=
  t.parents_modify (by intro scope; rfl) i

theorem parents_define (i : Nat) (y : Symbol) : (t.define i y).parents = t.parents := by
  unfold define
  split
  · rfl
  · exact t.parents_modify (by intro scope; rfl) i

end ScopeTree

/-! ### Runs -/

/-- The analysis after a report. -/
def AnalysisState.tell (σ : AnalysisState) (d : Diagnostic) : AnalysisState :=
  { σ with diagnostics := σ.diagnostics ++ [d] }

namespace Analyze

variable {α β : Type} {σ ρ τ : AnalysisState}

theorem bind_eq_ok {x : Analyze α} {f : α → Analyze β} {b : β} (h : (x >>= f) σ = .ok (b, τ)) :
    ∃ a ρ, x σ = .ok (a, ρ) ∧ f a ρ = .ok (b, τ) := by
  obtain ⟨⟨a, ρ⟩, ha, hb⟩ := except_bind_eq_ok h
  exact ⟨a, ρ, ha, hb⟩

theorem liftM_eq_ok {x : Except Fault α} {a : α} (h : (liftM x : Analyze α) σ = .ok (a, τ)) :
    x = .ok a ∧ σ = τ := by
  cases x with
  | error e => cases h
  | ok b => cases h; exact ⟨rfl, rfl⟩

theorem report_eq_ok {severity : Severity} {message : String} {place : Except Fault Place} {u : Unit}
    (h : report severity message place σ = .ok (u, τ)) :
    ∃ p, place = .ok p ∧ τ = σ.tell ⟨severity, message, p, false⟩ := by
  obtain ⟨p, _, hp, h⟩ := bind_eq_ok h
  obtain ⟨rfl, rfl⟩ := liftM_eq_ok hp
  cases h
  exact ⟨p, rfl, rfl⟩

theorem inScope_eq_ok {kind : ScopeKind} {x : Analyze α} {a : α} (h : inScope kind x σ = .ok (a, τ)) :
    ∃ ρ, x { σ with tree := σ.tree.child σ.current kind, current := σ.tree.size } = .ok (a, ρ) ∧
      τ = { ρ with current := (ρ.tree.parent? ρ.current).getD ρ.current } := by
  obtain ⟨_, _, ⟨⟩, h⟩ := bind_eq_ok h
  obtain ⟨a, ρ, ha, h⟩ := bind_eq_ok h
  obtain ⟨_, _, ⟨⟩, h⟩ := bind_eq_ok h
  cases h
  exact ⟨ρ, ha, rfl⟩

theorem inFunction_eq_ok {owner : Option Nat} {x : Analyze Unit} {b : Bool} (h : inFunction owner x σ = .ok (b, τ)) :
    ∃ ρ, x ⟨σ.tree.child σ.current .function, σ.tree.size, ⟨owner, false⟩ :: σ.functions, σ.diagnostics, σ.kinds⟩ =
        .ok ((), ρ) ∧
      b = (ρ.functions.head?.map (·.hasReturn)).getD false ∧
      τ = { ρ with current := (ρ.tree.parent? ρ.current).getD ρ.current, functions := ρ.functions.tail } := by
  obtain ⟨_, hbody, rfl⟩ := inScope_eq_ok h
  obtain ⟨_, _, ⟨⟩, hbody⟩ := bind_eq_ok hbody
  obtain ⟨_, ρ, hρ, hbody⟩ := bind_eq_ok hbody
  obtain ⟨_, _, ⟨⟩, hbody⟩ := bind_eq_ok hbody
  obtain ⟨_, _, ⟨⟩, hbody⟩ := bind_eq_ok hbody
  cases hbody
  exact ⟨ρ, hρ, rfl, rfl⟩

/-! ### What happens between two states -/

/-- The current scope stays, and every scope stays inside the one that it is in. -/
structure Stays (σ τ : AnalysisState) : Prop where
  current : τ.current = σ.current
  parents : σ.tree.parents <+: τ.tree.parents

/-- The analysis stays in the functions being walked, and says no more than remarks. -/
structure Remarks (σ τ : AnalysisState) : Prop extends Stays σ τ where
  functions : τ.functions = σ.functions
  said : ∃ ds, τ.diagnostics = σ.diagnostics ++ ds ∧ ∀ d ∈ ds, IsRemark d.message

/-- Something is checked, and perhaps remarked on. -/
structure Checks (σ τ : AnalysisState) : Prop extends Remarks σ τ where
  tree : τ.tree = σ.tree

namespace Stays

theorem of_parents (hc : τ.current = σ.current) (hp : τ.tree.parents = σ.tree.parents) : Stays σ τ :=
  ⟨hc, hp ▸ List.prefix_rfl⟩

theorem trans (h : Stays σ ρ) (h' : Stays ρ τ) : Stays σ τ :=
  ⟨h'.current.trans h.current, h.parents.trans h'.parents⟩

variable {ρ₀ : AnalysisState} {kind : ScopeKind}

/-- What stays in a new scope goes back to where the scope was opened. -/
theorem parent? (h : Stays ρ₀ ρ) (ht : ρ₀.tree = σ.tree.child σ.current kind) (hc : ρ₀.current = σ.tree.size) :
    (ρ.tree.parent? ρ.current).getD ρ.current = σ.current := by
  have hparent : ρ.tree.parents[ρ.current]? = some (some σ.current) := by
    obtain ⟨rest, hrest⟩ := h.parents
    rw [h.current, hc, ← hrest, ht, ScopeTree.parents_child, List.append_assoc, ← ScopeTree.length_parents]
    simp
  rw [ScopeTree.parent?_eq, hparent]
  rfl

theorem of_child (h : Stays ρ₀ ρ) (ht : ρ₀.tree = σ.tree.child σ.current kind) (hc : ρ₀.current = σ.tree.size)
    (hτ : τ.tree = ρ.tree) (hback : τ.current = (ρ.tree.parent? ρ.current).getD ρ.current) : Stays σ τ := by
  refine ⟨hback.trans (h.parent? ht hc), ?_⟩
  have hparents := h.parents
  rw [ht, ScopeTree.parents_child] at hparents
  rw [hτ]
  exact (List.prefix_append _ _).trans hparents

end Stays

namespace Remarks

theorem of_eq (hs : Stays σ τ) (hf : τ.functions = σ.functions) (hd : τ.diagnostics = σ.diagnostics) : Remarks σ τ :=
  ⟨hs, hf, [], by rw [hd, List.append_nil], by simp⟩

theorem trans (h : Remarks σ ρ) (h' : Remarks ρ τ) : Remarks σ τ where
  toStays := h.toStays.trans h'.toStays
  functions := h'.functions.trans h.functions
  said := by
    obtain ⟨ds, hds, hremark⟩ := h.said
    obtain ⟨ds', hds', hremark'⟩ := h'.said
    refine ⟨ds ++ ds', by rw [hds', hds, List.append_assoc], fun d hd => ?_⟩
    exact (List.mem_append.1 hd).elim (hremark d) (hremark' d)

/-- A search among the diagnostics for what no remark is finds what it found before. -/
theorem filter_eq {p : String → Bool} (hp : ∀ message, IsRemark message → p message = false) (h : Remarks σ τ) :
    τ.diagnostics.filter (fun d => p d.message) = σ.diagnostics.filter fun d => p d.message := by
  obtain ⟨ds, hds, hremark⟩ := h.said
  have hnone : ds.filter (fun d => p d.message) = [] := by
    rw [List.filter_eq_nil_iff]
    intro d hd
    rw [hp _ (hremark d hd)]
    exact Bool.false_ne_true
  rw [hds, List.filter_append, hnone, List.append_nil]

end Remarks

namespace Checks

theorem refl (σ : AnalysisState) : Checks σ σ := ⟨.of_eq (.of_parents rfl rfl) rfl rfl, rfl⟩

theorem tell {d : Diagnostic} (h : IsRemark d.message) : Checks σ (σ.tell d) :=
  ⟨⟨.of_parents rfl rfl, rfl, [d], rfl, List.forall_mem_singleton.2 h⟩, rfl⟩

end Checks

/-- Checks are allowed for, and so are runs in a row. -/
class Lenient (R : AnalysisState → AnalysisState → Prop) : Prop where
  trans {σ ρ τ : AnalysisState} : R σ ρ → R ρ τ → R σ τ
  of_checks {σ τ : AnalysisState} : Checks σ τ → R σ τ

instance : Lenient Remarks where
  trans h h' := h.trans h'
  of_checks h := h.toRemarks

/-- Every run of the action that succeeds is of this sort. -/
structure Within (R : AnalysisState → AnalysisState → Prop) (x : Analyze α) : Prop where
  run {σ τ : AnalysisState} {a : α} (h : x σ = .ok (a, τ)) : R σ τ

/-- An action stays in the functions being walked, and says nothing about returns or unused declarations. -/
abbrev Aside (x : Analyze α) : Prop := Within Remarks x

namespace Within

variable {R : AnalysisState → AnalysisState → Prop} {x y : Analyze α}

theorem throw_bind (f : Fault) (g : α → Analyze β) : Within R (MonadExcept.throw f >>= g) where
  run h := by cases h

theorem ite {b : Prop} [Decidable b] (hx : Within R x) (hy : Within R y) : Within R (if b then x else y) := by
  split
  · exact hx
  · exact hy

theorem change {f : AnalysisState → AnalysisState} (hf : ∀ σ, R σ (f σ)) : Within R (modify f : Analyze Unit) where
  run := by
    rintro σ _ _ ⟨⟩
    exact hf σ

/-! ### Checks -/

section Lenient

variable [Lenient R]

theorem pure (a : α) : Within R (Pure.pure a) where
  run := by
    rintro σ _ _ ⟨⟩
    exact Lenient.of_checks (.refl σ)

theorem bind {f : α → Analyze β} (hx : Within R x) (hf : ∀ a, Within R (f a)) : Within R (x >>= f) where
  run h := by
    obtain ⟨a, ρ, ha, hb⟩ := bind_eq_ok h
    exact Lenient.trans (hx.run ha) ((hf a).run hb)

theorem lift (y : Except Fault α) : Within R (liftM y : Analyze α) where
  run h := by
    obtain ⟨-, rfl⟩ := liftM_eq_ok h
    exact Lenient.of_checks (.refl _)

theorem get : Within R (MonadState.get : Analyze AnalysisState) where
  run := by
    rintro σ _ _ ⟨⟩
    exact Lenient.of_checks (.refl σ)

theorem remark {severity : Severity} {message : String} (h : IsRemark message) (place : Except Fault Place) :
    Within R (Analyze.report severity message place) where
  run hr := by
    obtain ⟨p, -, rfl⟩ := report_eq_ok hr
    exact Lenient.of_checks (.tell h)

theorem literal {severity : Severity} {c : Char} {l : List Char} (hc : opensOther c = true)
    (place : Except Fault Place) : Within R (Analyze.report severity (String.ofList (c :: l)) place) :=
  remark (.literal hc) place

theorem naming {severity : Severity} {a : String} {l : List Char} {c : Char} (hl : l.getLast? = some c)
    (hc : closesOther c = true) (hu : (l.isSuffixOf unusedEnding || unusedEnding.isSuffixOf l) = false)
    (place : Except Fault Place) : Within R (Analyze.report severity (a ++ String.ofList l) place) :=
  remark (.naming hl hc hu) place

theorem record (mark : Mark) (kind : Option Kind) : Within R (Analyze.record mark kind) := by
  cases kind with
  | none => exact pure _
  | some k => exact .bind (change fun σ => Lenient.of_checks ⟨.of_eq (.of_parents rfl rfl) rfl rfl, rfl⟩) fun _ => pure _

theorem result (mark : Mark) (kind : Option Kind) :
    Within R (do let kind ← Pure.pure kind; Analyze.record mark kind) :=
  .bind (pure kind) fun _ => record ..

theorem key (mark : Mark) (name : Tree) : Within R (Analyze.key mark name) := lift _

theorem lookup (mark : Mark) : Within R (Analyze.lookup mark) := .bind (key ..) fun _ => .bind get fun _ => pure _

theorem checkNumeric (operand : Node) (place : Except Fault Place) : Within R (Analyze.checkNumeric operand place) :=
  .ite (literal rfl place) (pure ())

theorem checkAddition (left right : Node) (place : Except Fault Place) :
    Within R (Analyze.checkAddition left right place) := by
  unfold Analyze.checkAddition
  split
  · exact literal rfl place
  · exact pure ()

theorem unaryKind (operator : Tree) (argument : Node) (place : Except Fault Place) :
    Within R (Analyze.unaryKind operator argument place) := by
  unfold Analyze.unaryKind
  refine .ite (.ite (.bind (literal rfl _) fun _ => pure _) (pure _)) (.ite (pure _) (.ite ?_ (.ite ?_ ?_)))
  · exact .bind (checkNumeric ..) fun _ => pure _
  · dsimp only
    split
    · exact .bind (naming rfl rfl rfl _) fun _ => pure _
    · exact pure _
  · exact .ite (pure _) (pure _)

theorem callKind (called : Option Nat) (count : Nat) (place : Except Fault Place) :
    Within R (Analyze.callKind called count place) := by
  refine .bind get fun σ => ?_
  split
  · refine .bind ?_ fun _ => pure _
    unfold checkCount
    split
    · exact .ite (pure _) (remark (.count (by decide)) _)
    · exact pure _
  · exact pure _

theorem checkConsole (mark : Mark) (object property : Node) :
    Within R (Analyze.checkConsole mark object property) := by
  unfold Analyze.checkConsole
  split
  · exact .ite (.bind (lift _) fun name => .ite (remark (.opening rfl) _) (pure _)) (pure _)
  · exact pure _

theorem checkDuplicate (names : List Key) (name : Tree) (place : Except Fault Place) :
    Within R (Analyze.checkDuplicate names name place) := by
  unfold Analyze.checkDuplicate
  split
  · exact pure _
  · exact .bind (lift _) fun key => .ite (.bind (naming rfl rfl rfl _) fun _ => pure _) (pure _)

end Lenient

/-! ### Declarations and uses -/

theorem modifySymbol (n : Nat) (f : Symbol → Symbol) : Aside (Analyze.modifySymbol n f) :=
  .change fun _ => .of_eq (.of_parents rfl rfl) rfl rfl

theorem define (scope : Nat) (y : Symbol) : Aside (Analyze.define scope y) :=
  .bind .get fun _ => .bind (.change fun _ => .of_eq (.of_parents rfl (ScopeTree.parents_define ..)) rfl rfl) fun _ =>
    .pure _

theorem defining (scope : Nat) (y : Symbol) (mark : Mark) : Aside (do
    match ← Analyze.define scope y with
    | some c => Analyze.error c.message mark.place
    | none => Pure.pure ()) := by
  refine .bind (.define ..) fun conflict => ?_
  cases conflict with
  | none => exact .pure _
  | some c => exact .remark c.isRemark _

theorem hoistFunction (mark : Mark) (id : Node) (params : List Param) :
    Aside (Analyze.hoistFunction mark id params) := by
  refine .bind (.lift _) fun name => .ite ?_ (.pure _)
  refine .bind (.lift _) fun _ => .bind (.lift _) fun _ => .bind (.key ..) fun _ => .bind .get fun _ => ?_
  exact .defining ..

theorem hoistFunctions (ns : List Node) : Aside (Analyze.hoistFunctions ns) := by
  induction ns with
  | nil => exact .pure ()
  | cons n rest ih =>
    rcases n with _ | f | ⟨mark, form⟩
    · exact .bind (.pure ()) fun _ => ih
    · exact .throw_bind f _
    · cases form with
      | function id params body => exact .bind (.hoistFunction mark id params) fun _ => ih
      | _ => exact .bind (.pure ()) fun _ => ih

theorem functionOwner (mark : Mark) (id : Node) (params : List Param) :
    Aside (Analyze.functionOwner mark id params) := by
  refine .bind (.lift _) fun name => .ite (.pure _) (.bind (.key ..) fun k => .bind .get fun σ => ?_)
  split
  · exact .pure _
  · exact .bind (.hoistFunction ..) fun _ => .bind .get fun _ => .pure _

theorem declareVariable (mark : Mark) (name : Tree) (kind : DeclKind) (given : Bool) (inferred : Kind) :
    Aside (Analyze.declareVariable mark name kind given inferred) := by
  refine .bind (.lift _) fun position => .ite (.bind (.naming rfl rfl rfl _) fun _ => ?_) ?_
  all_goals
    refine .bind .get fun σ => .bind (.key ..) fun k => .bind (.define ..) fun conflict => ?_
    cases conflict with
    | none => exact .pure _
    | some c => exact .bind .get fun _ => .ite (.naming rfl rfl rfl _) (.remark c.isRemark _)

theorem declareParam (position : Except Fault Position) (name : Tree) : Aside (Analyze.declareParam position name) := by
  refine .ite (.bind (.lift _) fun _ => .bind (.bind .get fun _ => .lift _) fun _ => .bind .get fun _ => ?_) (.pure _)
  exact .bind (.define ..) fun _ => .pure _

theorem declareClass (mark : Mark) (id : Node) : Aside (Analyze.declareClass mark id) := by
  refine .bind (.lift _) fun name => .ite ?_ (.pure _)
  exact .bind (.lift _) fun _ => .bind (.key ..) fun _ => .bind .get fun _ => .defining ..

theorem visitIdentifier (mark : Mark) : Aside (Analyze.visitIdentifier mark) := by
  refine .bind (.lookup _) fun found => ?_
  cases found with
  | none => exact .bind (.naming rfl rfl rfl _) fun _ => .pure _
  | some found =>
    exact .bind (.modifySymbol ..) fun _ => .ite (.bind (.naming rfl rfl rfl _) fun _ => .pure _) (.pure _)

theorem assignVariable (mark : Mark) : Aside (Analyze.assignVariable mark) := by
  refine .bind (.lookup _) fun found => ?_
  cases found with
  | none => exact .naming rfl rfl rfl _
  | some found =>
    have hflag := Within.ite (b := found.2.kind = .let || found.2.kind = .var || found.2.kind = .const)
      (.modifySymbol found.1 fun s => { s with initialized := true }) (.pure ())
    exact .ite (.bind (.naming rfl rfl rfl _) fun _ => hflag) hflag

theorem updateVariable (mark : Mark) : Aside (Analyze.updateVariable mark) := by
  refine .bind (.lookup _) fun found => ?_
  cases found with
  | none => exact .naming rfl rfl rfl _
  | some found => exact .ite (.naming rfl rfl rfl _) (.modifySymbol ..)

theorem namedFunction (mark : Mark) : Aside (Analyze.namedFunction mark) := by
  refine .bind (.lookup _) fun found => ?_
  cases found with
  | none => exact .bind (.naming rfl rfl rfl _) fun _ => .pure _
  | some found =>
    exact .bind (.modifySymbol ..) fun _ => .ite (.bind (.naming rfl rfl rfl _) fun _ => .pure _) (.pure _)

end Within

end Analyze

end QuadScript
