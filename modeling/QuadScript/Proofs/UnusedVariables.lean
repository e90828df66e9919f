import QuadScript.Proofs.Continuity
import QuadScript.Proofs.Replacement
import QuadScript.Proofs.Spellings

/-!
# Variables that are reported as unused

Reading and updating a variable mark its symbol as used, or are reported because there is no such symbol. A variable
that is declared once has one symbol, so if that symbol is unused in the end and no use was reported, the program
neither reads nor updates the variable. Its initial value then shows in no line that the program prints
(`Node.output_run_withInit_of_unused`).

Compound assignments do not mark a symbol although they read the variable, so they have to be left out.
-/

namespace QuadScript

/-! ### Symbols of one name -/

/-- Whether messages show a name as `x`. -/
def Tree.isShownAs (x : String) (name : Tree) : Bool :=
  match Key.ofTree 0 name with
  | .ok k => k.display = x
  | .error _ => false

theorem Tree.isShownAs_of_key {x : String} {name : Tree} {place : Nat} {k : Key}
    (h : Key.ofTree place name = .ok k) : name.isShownAs x = decide (k.display = x) := by
  cases name with
  | list | record => cases h
  | num n =>
    rw [Key.ofTree] at h
    rw [isShownAs, Key.ofTree]
    cases hn : n.isNaN <;> rw [hn] at h <;> cases h <;> rfl
  | _ => cases h; rfl

/-- Whether an event declares a name that is shown as `x`. -/
def Event.declares (x : String) (e : Event) : Bool := e.name?.any (Tree.isShownAs x)

namespace ScopeTree

variable {t t' : ScopeTree} {x : String} {o : Option Nat}

/-- The symbols whose name is shown as `x` are at most one, a variable declared by `let` under this very text, which
has this number. -/
def Sole (t : ScopeTree) (x : String) (o : Option Nat) : Prop :=
  ∀ n y, t.symbol? n = some y → y.name.display = x → o = some n ∧ y.kind = .let ∧ y.name = .text x

namespace Sole

theorem evolves (h : t.Sole x o) (he : t.Evolves t') : t'.Sole x o := by
  intro n y' hy' hname
  obtain ⟨y, hy, hlater⟩ := he.exists_symbol hy'
  rw [hlater.kind, hlater.name]
  exact h n y hy (hlater.name ▸ hname)

theorem bind (h : t.Sole x o) (i : Nat) {y : Symbol} (hname : y.name.display ≠ x) : (t.bind i y).Sole x o := by
  intro n y' hy' hname'
  rw [symbol?_bind] at hy'
  split at hy'
  · cases hy'
    exact absurd hname' hname
  · exact h n y' hy' hname'

theorem bind_self (h : t.Sole x none) (i : Nat) {y : Symbol} (hkind : y.kind = .let) (hname : y.name = .text x) :
    (t.bind i y).Sole x (some t.declared.length) := by
  intro n y' hy' hname'
  rw [symbol?_bind] at hy'
  split at hy'
  · rename_i hn
    cases hy'
    exact ⟨congrArg some hn.symm, hkind, hname⟩
  · cases (h n y' hy' hname').1

theorem global (hx : IsFresh x) : global.Sole x none := by
  intro n y hy hname
  have hmem : y ∈ builtins := List.mem_of_getElem? hy
  have htexts : ∀ y ∈ builtins, ∃ s, y.name = .text s := by simp [builtins, builtin, builtinFunction]
  obtain ⟨s, hs⟩ := htexts y hmem
  rw [hs] at hname
  exact absurd (hs.trans (congrArg Key.text hname)) (hx.not_builtin y hmem)

end Sole

theorem exists_findLocal? {i n : Nat} {k : Key} (h : t.find? i k = some n) : ∃ j, t.findLocal? j k = some n := by
  rw [find?] at h
  generalize t.size = fuel at h
  induction fuel generalizing i with
  | zero => cases h
  | succ fuel ih =>
    rw [findFrom] at h
    split at h
    · rename_i hlocal
      exact ⟨i, hlocal.trans h⟩
    · split at h
      · exact ih h
      · cases h

end ScopeTree

/-! ### What a walk marks as used -/

namespace Event

variable {e : Event} {x : String} {o : Option Nat} {σ τ : AnalysisState} {w w' : Walk}

theorem Does.named (h : e.Does w w') (hw : w.state.tree.Named) : w'.state.tree.Named := by
  obtain ⟨kind, rfl, rfl⟩ | ⟨rfl, i, -, hstate⟩ | ⟨h, -⟩ := h.cases
  · exact hw.child _ _
  · rw [hstate]
    exact hw
  · obtain ⟨hchange, -⟩ := h.change
    generalize w'.state.tree = t at hchange ⊢
    cases hchange with
    | evolve hevolves => exact hw.evolves hevolves
    | bind => exact hw.bind _ _

theorem Does.sole (h : e.Does w w') (he : e.declares x = false) (hw : w.state.tree.Sole x o) :
    w'.state.tree.Sole x o := by
  obtain ⟨kind, rfl, rfl⟩ | ⟨rfl, i, -, hstate⟩ | ⟨h, -⟩ := h.cases
  · exact hw
  · rw [hstate]
    exact hw
  · obtain ⟨hchange, -⟩ := h.change
    generalize w'.state.tree = t at hchange ⊢
    cases hchange with
    | evolve hevolves => exact hw.evolves hevolves
    | bind hname hkey =>
      rw [declares, hname, Option.any_some, Tree.isShownAs_of_key hkey] at he
      exact hw.bind _ (of_decide_eq_false he)

theorem Acts.sole_declare {mark : Mark} {given : Bool} (h : (declare mark (.str x) .let given).Acts σ τ)
    (hσ : σ.tree.Sole x none) : τ.tree.Sole x (some σ.tree.declared.length) := by
  obtain ⟨inferred, h⟩ := h
  obtain ⟨k, y, hk, hname, hkind, -, -, -, -, -, -, htree⟩ := Analyze.declareVariable_eq_ok h
  cases hk
  rw [htree, ScopeTree.define]
  split
  · exact fun n y' hy' hname' => absurd (hσ n y' hy' hname').1 (by simp)
  · exact hσ.bind_self _ hkind hname

end Event

/-- A use of a variable where it is not declared is among the reports. -/
def Diagnostic.Missed (x : String) (ds : List Diagnostic) : Prop :=
  ∃ d ∈ ds, d.message = s!"'{x}' is not defined" ∨ d.message = s!"Cannot update undeclared variable '{x}'"

theorem Diagnostic.Missed.mono {x : String} {ds ds' : List Diagnostic} (h : Missed x ds) (hds : ds ⊆ ds') :
    Missed x ds' := by
  obtain ⟨d, hd, hmessage⟩ := h
  exact ⟨d, hds hd, hmessage⟩

/-- What reading or updating a variable comes to: it is reported, or the symbol of the variable is marked. -/
inductive AnalysisState.Uses (x : String) (σ τ : AnalysisState) : Prop
  | missed (h : Diagnostic.Missed x τ.diagnostics)
  | marks {n : Nat} {y : Symbol} (hfound : σ.lookup? (.text x) = some (n, y))
      (hused : y.kind = .let → ∃ y', τ.tree.symbol? n = some y' ∧ y'.used = true)

namespace Event

variable {x : String} {mark : Mark} {σ τ : AnalysisState}

theorem symbol?_touch_use {n : Nat} {y : Symbol} {k : Key} (h : σ.lookup? k = some (n, y)) :
    (σ.touch n Symbol.use).tree.symbol? n = some y.use := by
  rw [AnalysisState.touch, ScopeTree.symbol?_modifySymbol, (AnalysisState.lookup?_eq_some.1 h).2, if_pos rfl]
  rfl

theorem Acts.uses_read (hm : mark.nameTree = .str x) (h : (read mark).Acts σ τ) : σ.Uses x τ := by
  obtain ⟨kind, h⟩ := h
  obtain ⟨k, hk, h⟩ := Analyze.visitIdentifier_eq_ok h
  rw [hm] at hk h
  cases hk
  obtain ⟨-, p, rfl⟩ | ⟨n, y, hfound, ⟨-, rfl⟩ | ⟨-, p, rfl⟩⟩ := h
  · exact .missed ⟨_, List.mem_append_right _ List.mem_cons_self, .inl rfl⟩
  · exact .marks hfound fun _ => ⟨_, symbol?_touch_use hfound, rfl⟩
  · exact .marks hfound fun _ => ⟨_, symbol?_touch_use hfound, rfl⟩

theorem Acts.uses_update (hm : mark.nameTree = .str x) (h : (update mark).Acts σ τ) : σ.Uses x τ := by
  obtain ⟨k, hk, h⟩ := Analyze.updateVariable_eq_ok h
  rw [hm] at hk h
  cases hk
  obtain ⟨-, p, rfl⟩ | ⟨n, y, hfound, ⟨hconst, p, rfl⟩ | ⟨-, rfl⟩⟩ := h
  · exact .missed ⟨_, List.mem_append_right _ List.mem_cons_self, .inr rfl⟩
  · refine .marks hfound fun hlet => ?_
    rw [hconst] at hlet
    cases hlet
  · exact .marks hfound fun _ => ⟨_, symbol?_touch_use hfound, rfl⟩

end Event

namespace Performs

variable {es : List Event} {e : Event} {x : String} {o : Option Nat} {w w' : Walk}

theorem named (h : Performs es w w') (hw : w.state.tree.Named) : w'.state.tree.Named :=
  h.induct (P := fun w => w.state.tree.Named) (fun _ _ _ hn hw => hw.evolves hn.evolves)
    (fun _ _ _ _ he hw => he.named hw) hw

theorem sole (h : Performs es w w') (hes : ∀ e ∈ es, e.declares x = false) (hw : w.state.tree.Sole x o) :
    w'.state.tree.Sole x o :=
  h.induct (P := fun w => w.state.tree.Sole x o) (fun _ _ _ hn hw => hw.evolves hn.evolves)
    (fun e he _ _ hdoes hw => hdoes.sole (hes e he) hw) hw

theorem used (h : Performs es w w') (hes : ∀ e ∈ es, e.declares x = false) (hnamed : w.state.tree.Named)
    (hsole : w.state.tree.Sole x o) (he : e ∈ es) (huses : ∀ v v' : Walk, e.Does v v' → v.state.Uses x v'.state) :
    Diagnostic.Missed x w'.state.diagnostics ∨
      ∃ n y, o = some n ∧ w'.state.tree.symbol? n = some y ∧ y.used = true := by
  obtain ⟨es₁, es₂, rfl⟩ := List.append_of_mem he
  obtain ⟨w₁, h₁, h⟩ := h.split
  obtain ⟨w₂, w₃, h₂, hdoes, h₃⟩ := h.cons_inv
  cases huses w₂ w₃ hdoes with
  | missed hmissed => exact .inl (hmissed.mono h₃.diagnostics.subset)
  | @marks n y hfound hused =>
    obtain ⟨hfind, hy⟩ := AnalysisState.lookup?_eq_some.1 hfound
    obtain ⟨j, hlocal⟩ := ScopeTree.exists_findLocal? hfind
    -- What is found under the name is the one symbol of that name.
    obtain ⟨y₀, hy₀, hname⟩ := (h₂.named (h₁.named hnamed)) j x n hlocal
    cases hy.symm.trans hy₀
    have hsole₁ := h₁.sole (fun e he => hes e (List.mem_append_left _ he)) hsole
    have hsole₂ := h₂.sole (x := x) (by simp) hsole₁
    obtain ⟨ho, hlet, -⟩ := hsole₂ n y hy (by rw [hname]; rfl)
    obtain ⟨y', hy', hused'⟩ := hused hlet
    obtain ⟨y'', hy'', hmono, -⟩ := h₃.grows.symbol n y' hy'
    exact .inr ⟨n, y'', ho, hy'', hmono hused'⟩

end Performs

/-! ### Programs with an unused variable -/

/-- The variable that an event reads, assigns to or updates. -/
def Event.variable? : Event → Option Tree
  | .read mark => some mark.nameTree
  | .assign _ mark => some mark.nameTree
  | .update mark => some mark.nameTree
  | _ => none

/-- Whether the variable of an event has a name that no generated one can equal. -/
def Event.isSourced (e : Event) : Bool :=
  match e.variable? with
  | some (.str y) => isSourceName y
  | _ => true

theorem Event.isSourceName_of {e : Event} {y : String} (h : e.isSourced = true) (hy : e.variable? = some (.str y)) :
    isSourceName y = true := by
  rw [isSourced, hy] at h
  exact h

/-- The one symbol of a name is unused if the name is warned about. -/
theorem ScopeTree.Sole.exists_symbol_of_warned {t : ScopeTree} {x : String} {o : Option Nat} {d : Diagnostic}
    (hsole : t.Sole x o) (hspelled : t.Spelled) (hd : d ∈ t.unusedWarnings)
    (hmessage : d.message = s!"'{x}' is declared but its value is never used") :
    ∃ n y, o = some n ∧ t.symbol? n = some y ∧ y.used = false := by
  obtain ⟨i, -, hd⟩ := List.mem_flatMap.1 hd
  obtain ⟨e, he, rfl⟩ := List.mem_map.1 hd
  obtain ⟨he, hunused⟩ := List.mem_filter.1 he
  obtain ⟨⟨k, n⟩, hmem, he⟩ := List.mem_filterMap.1 he
  obtain ⟨y, hy, rfl⟩ := Option.map_eq_some_iff.1 he
  have hshown : k.display = x := (String.append_right_inj _).1 ((String.append_left_inj _).1 hmessage)
  -- The scope has the name from a symbol that is shown as `x`, so the name is this text and no number.
  obtain ⟨n₀, y₀, hy₀, hname₀⟩ := hspelled.origin i _ hmem
  obtain ⟨-, -, htext⟩ := hsole n₀ y₀ hy₀ (hname₀ ▸ hshown)
  obtain rfl : k = .text x := hname₀.symm.trans htext
  obtain ⟨y', hy', hmeets⟩ := hspelled.bound i _ hmem
  cases hy.symm.trans hy'
  have hname : y.name = .text x := Key.meets_text.1 hmeets.symm
  refine ⟨n, y, (hsole n y hy (hname ▸ hshown)).1, hy, ?_⟩
  rw [Symbol.isUnused] at hunused
  simp_all

theorem Node.performs_of_scopes {n : Node} {t : ScopeTree} (h : n.analyze.scopes = some t) :
    ∃ τ, Performs n.events ⟨.initial, []⟩ ⟨τ, []⟩ ∧ τ.tree = t ∧ τ.diagnostics ⊆ n.analyze.diagnostics := by
  unfold Node.analyze at h ⊢
  split at h
  · rename_i k τ hτ
    exact ⟨τ, (Analyze.visit_makes n).performs hτ [], Option.some.inj h, List.subset_append_left _ _⟩
  · cases h

namespace Node

variable {x : String} {n : Node}

/-- The program declares a name once, by `let`. -/
def DeclaresOnce (n : Node) (x : String) : Prop :=
  ∃ mark given, n.events.filter (Event.declares x) = [.declare mark (.str x) .let given]

/-- The analysis reports a variable as unused. -/
def ReportsUnused (n : Node) (x : String) : Prop :=
  ∃ t, n.analyze.scopes = some t ∧
    ∃ d ∈ t.unusedWarnings, d.message = s!"'{x}' is declared but its value is never used"

/-- A variable that is declared once and reported as unused is used nowhere, unless it was missed there. -/
theorem not_uses_of_unused (hx : IsFresh x) (honce : n.DeclaresOnce x) (hunused : n.ReportsUnused x)
    (hmissed : ¬Diagnostic.Missed x n.analyze.diagnostics) {e : Event} (he : e ∈ n.events)
    (hother : e.declares x = false) : ¬∀ v v' : Walk, e.Does v v' → v.state.Uses x v'.state := by
  intro huses
  obtain ⟨t, ht, d, hd, hmessage⟩ := hunused
  obtain ⟨τ, h, rfl, hdiag⟩ := performs_of_scopes ht
  -- The walk up to the declaration knows no such name, and from there on it knows one symbol of that name.
  obtain ⟨mark, given, hdecl⟩ := honce
  obtain ⟨es₁, es₂, hes, hbefore, hself, hafter⟩ := List.filter_eq_cons_iff.1 hdecl
  have hbefore' : ∀ e ∈ es₁, e.declares x = false := fun e he => Bool.eq_false_iff.2 (hbefore e he)
  have hafter' : ∀ e ∈ es₂, e.declares x = false := fun e he =>
    Bool.eq_false_iff.2 (List.filter_eq_nil_iff.1 hafter e he)
  rw [hes] at h he
  obtain ⟨w₁, h₁, hrest⟩ := h.split
  obtain ⟨w₂, w₃, h₂, hdoes, h₃⟩ := hrest.cons_inv
  have hsole₁ : w₁.state.tree.Sole x none := h₁.sole hbefore' (.global hx)
  have hsole₃ : w₃.state.tree.Sole x (some w₂.state.tree.declared.length) :=
    hdoes.1.sole_declare (h₂.sole (by simp) hsole₁)
  obtain he | rfl | he := List.mem_append.1 he |>.imp_right List.mem_cons.1
  · obtain hmiss | ⟨_, _, ho, -⟩ := h₁.used hbefore' ScopeTree.named_global (.global hx) he huses
    · exact hmissed (hmiss.mono fun d hd => hdiag (hrest.diagnostics.subset hd))
    · cases ho
  · exact absurd hself (Bool.eq_false_iff.1 hother)
  · have hnamed₃ : w₃.state.tree.Named := hdoes.named (h₂.named (h₁.named ScopeTree.named_global))
    obtain hmiss | ⟨k, y, hk, hy, hused⟩ := h₃.used hafter' hnamed₃ hsole₃ he huses
    · exact hmissed (hmiss.mono hdiag)
    · have hspelled : τ.tree.Spelled := h₃.spelled (hdoes.spelled (h₂.spelled (h₁.spelled .global)))
      obtain ⟨k', y', hk', hy', hunused⟩ := (h₃.sole hafter' hsole₃).exists_symbol_of_warned hspelled hd hmessage
      obtain rfl : k = k' := Option.some.inj (hk.symm.trans hk')
      cases hy.symm.trans hy'
      exact absurd (hused.symm.trans hunused) (by simp)

theorem leaves_of_unused (hx : IsFresh x) (hnames : ∀ e ∈ n.events, e.isSourced = true) (honce : n.DeclaresOnce x)
    (hunused : n.ReportsUnused x) (hmissed : ¬Diagnostic.Missed x n.analyze.diagnostics)
    (hplain : .modify ∉ n.uses x) : ∀ e ∈ n.events, e.Leaves x := by
  intro e he
  have hsource : ∀ {y}, e.variable? = some (.str y) → isSourceName y = true := Event.isSourceName_of (hnames e he)
  have hnot := not_uses_of_unused hx honce hunused hmissed he
  cases e with
  | read mark =>
    intro y hy
    refine ⟨hsource (congrArg some hy), ?_⟩
    rintro rfl
    exact hnot rfl fun v v' hdoes => hdoes.1.uses_read hy
  | update mark =>
    intro y hy
    refine ⟨hsource (congrArg some hy), ?_⟩
    rintro rfl
    exact hnot rfl fun v v' hdoes => hdoes.1.uses_update hy
  | assign operator mark =>
    intro y hy
    refine ⟨hsource (congrArg some hy), fun hop => ?_⟩
    rintro rfl
    refine hplain (List.mem_filterMap.2 ⟨_, he, ?_⟩)
    rw [Event.use?, hy, hop]
    simp [Tree.isText]
  | _ => trivial

/-- The initial value of a variable that is reported as unused shows in no line that is printed. -/
theorem output_run_withInit_of_unused {l : Lowered Unit} (hx : IsFresh x)
    (hnames : ∀ e ∈ n.events, e.isSourced = true) (honce : n.DeclaresOnce x) (hunused : n.ReportsUnused x)
    (hmissed : ¬Diagnostic.Missed x n.analyze.diagnostics) (hplain : .modify ∉ n.uses x)
    (hsettled : n.settled x = true) (hl : n.lower = .ok l) (v : Constant) :
    ∃ l', (n.withInit x v).lower = .ok l' ∧ ∀ maxSteps answers,
      (Machine.run l'.code maxSteps answers).output = (Machine.run l.code maxSteps answers).output := by
  have hleaves := leaves_of_unused hx hnames honce hunused hmissed hplain
  exact output_run_withInit hx.assignable hleaves hsettled hl v

end Node

/-- Whatever the variable `x` is declared with, a loop and a function assign to it, and the value of an assignment to
it is printed. -/
def unusedProgram : Node := .bare (.program [
  .letOne "x" true (.int 1), .letOne "a" true (.int 0),
  .bare (.function (.named "f") [] (.bare (.block [
    .bare (.expression (.set "x" (.int 7))), .bare (.return (.int 1))]))),
  .bare (.while (.binary "<" (.named "a") (.int 2)) (.bare (.block [
    .bare (.expression (.set "x" (.named "a"))),
    .bare (.expression (.set "a" (.binary "+" (.named "a") (.int 1))))]))),
  .bare (.expression (.print [.binary "+" (.bare (.call (.named "f") [])) (.set "x" (.int 5))]))])

def unusedCode : Code := Code.renumber [
  Quad.assign (.num (.int 1)) (.name "x"), Quad.assign (.num (.int 0)) (.name "a"),
  Quad.goto "END_FUNC_f", Quad.label "FUNC_f", Quad.assign (.num (.int 7)) (.name "x"), Quad.ret (.num (.int 1)),
  Quad.ret void, Quad.label "END_FUNC_f",
  Quad.label "L0", Quad.operator (.binary .lt) (.name "a") (.num (.int 2)) "t0", Quad.jumpIfFalse (.name "t0") "L1",
  Quad.assign (.name "a") (.name "x"), Quad.operator (.binary .add) (.name "a") (.num (.int 1)) "t1",
  Quad.assign (.name "t1") (.name "a"), Quad.goto "L0", Quad.label "L1",
  Quad.call "FUNC_f" 0 (.name "t2"), Quad.assign (.num (.int 5)) (.name "x"),
  Quad.operator (.binary .add) (.name "t2") (.name "x") "t3", Quad.param (.name "t3"), Quad.call "console_log" 1 .none]

theorem unusedProgram_lower :
    unusedProgram.lower = .ok ⟨(), unusedCode, { temps := 4, labels := 2, functions := ["f"] }⟩ := by
  cbv

/-- The number two, as a constant. -/
def Constant.two : Constant where
  mark := { path := "", kind := none, name := none, position := .ok .none }
  regex := false
  value := .num (.int 2)
  scalar := rfl

theorem Node.output_run_withInit_of_unused_two : unusedProgram.DeclaresOnce "x" ∧ unusedProgram.ReportsUnused "x" ∧
    (Machine.run unusedCode 100 .nobody).output = ["6"] ∧
    ∃ l, (unusedProgram.withInit "x" .two).lower = .ok l ∧ ∀ maxSteps answers,
      (Machine.run l.code maxSteps answers).output = (Machine.run unusedCode maxSteps answers).output := by
  have hx : IsFresh "x" := ⟨by decide, by decide, by decide⟩
  have honce : unusedProgram.DeclaresOnce "x" := ⟨_, _, rfl⟩
  have hunused : unusedProgram.ReportsUnused "x" := ⟨_, rfl, _, List.mem_cons_self, rfl⟩
  have hmissed : ¬Diagnostic.Missed "x" unusedProgram.analyze.diagnostics := by
    unfold Diagnostic.Missed
    decide +kernel
  exact ⟨honce, hunused, rfl, output_run_withInit_of_unused hx (by decide) honce hunused hmissed (by decide) rfl
    unusedProgram_lower .two⟩

/-- Prints the value of a compound assignment to a variable. -/
def growingProgram : Node := .bare (.program [
  .letOne "x" true (.int 1),
  .bare (.expression (.print [.bare (.assignment (.str "+=") (.named "x") (.int 1))]))])

def growingCode (k : Int) : Code := Code.renumber [
  Quad.assign (.num (.int k)) (.name "x"),
  Quad.operator (.binary .add) (.name "x") (.num (.int 1)) "t0", Quad.assign (.name "t0") (.name "x"),
  Quad.param (.name "x"), Quad.call "console_log" 1 .none]

/-- The variable is reported as unused, and what is printed depends on the value that it is declared with. -/
theorem Node.output_run_withInit_ne_compound : growingProgram.DeclaresOnce "x" ∧ growingProgram.ReportsUnused "x" ∧
    growingProgram.analyze.errors = [] ∧
    growingProgram.lower = .ok ⟨(), growingCode 1, { temps := 1 }⟩ ∧
    (growingProgram.withInit "x" .two).lower = .ok ⟨(), growingCode 2, { temps := 1 }⟩ ∧
    (Machine.run (growingCode 1) 100 .nobody).output = ["2"] ∧
    (Machine.run (growingCode 2) 100 .nobody).output = ["3"] := by
  exact ⟨⟨_, _, rfl⟩, ⟨_, rfl, _, List.mem_cons_self, rfl⟩, rfl, by cbv, by cbv, rfl, rfl⟩

end QuadScript
