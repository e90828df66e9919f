import QuadScript.Proofs.Remarks

/-!
# The walk as a sequence of events

What the walk of a program does to the scopes and the symbols is a sequence of events, and which events these are
depends on the program alone (`Node.events`). An event is one of the actions that the walk is made of, on its own;
between the events the walk takes notes, which leave the scopes as they are (`Notes`). A walk that succeeds performs
the events of its program (`Analyze.visit_makes`), so that an invariant of the analysis is proved for each sort of
event and for notes, without the walk.
-/

namespace QuadScript

inductive Event
  /-- The current scope becomes that of the whole program. -/
  | global
  | enter (kind : ScopeKind)
  | leave
  /-- A function is declared before the list that it stands in is walked. -/
  | hoist (mark : Mark) (id : Node) (params : List Param)
  /-- A function is about to be walked; one that is not declared yet is. -/
  | own (mark : Mark) (id : Node) (params : List Param)
  | declare (mark : Mark) (name : Tree) (kind : DeclKind) (given : Bool)
  | param (position : Except Fault Position) (name : Tree)
  | classDecl (mark : Mark) (id : Node)
  | read (mark : Mark)
  | assign (operator : Tree) (mark : Mark)
  | update (mark : Mark)
  | call (mark : Mark)
  | warn (message : String) (place : Except Fault Place)

/-! ### The events of a program -/

namespace Node

/-- The functions of a statement list. -/
def hoists : List Node → List Event
  | [] => []
  | .mk mark (.function id params _) :: rest => .hoist mark id params :: hoists rest
  | _ :: rest => hoists rest

/-- A variable is handled by its name, any other node by what it is. -/
def eventsOr (n : Node) (byName : Mark → Event) (other : List Event) : List Event :=
  match n with
  | .mk mark .identifier => [byName mark]
  | _ => other

/-- The body of a function. -/
def bodyEvents (body : Node) (block other : List Event) : List Event :=
  match body with
  | .absent => []
  | .mk _ (.block _) => block
  | _ => other

/-- A warning, where there is reason for one. -/
def warnIf (b : Bool) (message : String) (place : Except Fault Place) : List Event :=
  if b then [.warn message place] else []

/-- One of two warnings, where there is reason for one. -/
def warnEither (b b' : Bool) (message message' : String) (place : Except Fault Place) : List Event :=
  if b then [.warn message place] else warnIf b' message' place

end Node

/-- The events of a declared name. -/
def namedEvents (name : Except Fault Tree) (event : Tree → Event) : List Event :=
  match name with
  | .ok t => if t.truthy then [event t] else []
  | .error _ => []

mutual

def Node.events : Node → List Event
  | .absent => []
  | .fault _ => []
  | .mk mark form =>
    match form with
    | .program body => .global :: (Node.hoists body ++ Node.eventsAll body)
    | .block body => .enter .block :: (Node.hoists body ++ Node.eventsStatements false body ++ [.leave])
    | .expression e => e.events
    | .declaration kind ds => Declarator.eventsAll kind ds
    | .function id params body =>
      .own mark id params :: .enter .function ::
        (Param.eventsAll params ++ body.bodyEvents body.blockEvents body.events ++ [.leave])
    | .classDecl id parent members =>
      .classDecl mark id :: (parent.events ++ .enter .classBody :: (Node.eventsAll members ++ [.leave]))
    | .method computed key params body =>
      (if computed then key.events else []) ++ .enter .function ::
        (Param.eventsAll params ++ body.bodyEvents body.blockEvents body.events ++ [.leave])
    | .if test consequent alternate =>
      test.events ++
        (Node.warnEither test.isAlwaysTrue test.isAlwaysFalse
          "Condition is always true; the else branch is never executed"
          "Condition is always false; the if branch is never executed" mark.place ++
        (consequent.events ++ alternate.events))
    | .while test body =>
      test.events ++
        (Node.warnEither test.isAlwaysTrue test.isAlwaysFalse "Possible infinite loop: condition is always true"
          "Loop condition is always false; the body never runs" mark.place ++ body.events)
    | .for init test update body =>
      .enter .block :: (init.events ++ (test.events ++
        (Node.warnIf test.isAlwaysFalse "For loop condition is always false; the loop never runs" mark.place ++
        (update.events ++ body.events))) ++ [.leave])
    | .return argument => argument.events
    | .throw argument => argument.events
    | .identifier => [.read mark]
    | .template _ expressions => Node.eventsAll expressions
    | .assignment operator left right => right.events ++ left.eventsOr (.assign operator) left.events
    | .binary _ left right => left.events ++ right.events
    | .logical operator left right =>
      left.events ++ (right.events ++
        Node.warnEither (operator.isText "&&" && left.isAlwaysFalse) (operator.isText "||" && left.isAlwaysTrue)
          "Left side of && is always false; the right side is never evaluated"
          "Left side of || is always true; the right side is never evaluated" mark.place)
    | .unary _ argument => argument.events
    | .update _ _ argument => argument.eventsOr .update argument.events
    | .conditional test consequent alternate =>
      test.events ++ (consequent.events ++ (alternate.events ++
        Node.warnEither test.isAlwaysTrue test.isAlwaysFalse
          "Condition is always true; the alternate branch is never evaluated"
          "Condition is always false; the consequent branch is never evaluated" mark.place))
    | .call callee arguments => callee.eventsOr .call callee.events ++ Node.eventsAll arguments
    | .new callee arguments => callee.events ++ Node.eventsAll arguments
    | .member computed object property => object.events ++ if computed then property.events else []
    | .array elements => Node.eventsAll elements
    | .object properties => Property.eventsAll properties
    | .lambda params body =>
      .enter .function :: (Param.eventsAll params ++ body.bodyEvents body.blockEvents body.events ++ [.leave])
    | .sequence expressions => Node.eventsAll expressions
    | .break _ => []
    | .continue _ => []
    | .empty => []
    | .literal _ _ => []
    | .this => []
    | .unknown => []

def Node.eventsAll : List Node → List Event
  | [] => []
  | n :: rest => n.events ++ Node.eventsAll rest

/-- The events of a statement list; what follows a statement that ends it is unreachable. -/
def Node.eventsStatements (unreachable : Bool) : List Node → List Event
  | [] => []
  | n :: rest =>
    Node.warnIf unreachable "Unreachable code detected" n.place ++
      (n.events ++ Node.eventsStatements (unreachable || n.isTerminator) rest)

/-- The events of a function body that is a block. -/
def Node.blockEvents : Node → List Event
  | .mk _ (.block body) => Node.hoists body ++ Node.eventsStatements false body
  | _ => []

def Declarator.eventsAll (kind : DeclKind) : List Declarator → List Event
  | [] => []
  | d :: rest => d.events kind ++ Declarator.eventsAll kind rest

def Declarator.events (kind : DeclKind) : Declarator → List Event
  | .fault _ => []
  | .mk mark id given init => init.events ++ namedEvents id.nameTree fun name => .declare mark name kind given

def Param.eventsAll : List Param → List Event
  | [] => []
  | p :: rest => p.events ++ Param.eventsAll rest

def Param.events : Param → List Event
  | .mk position name default => default.events ++ namedEvents name (.param position)
  | _ => []

def Property.eventsAll : List Property → List Event
  | [] => []
  | p :: rest => p.events ++ Property.eventsAll rest

def Property.events : Property → List Event
  | .fault _ => []
  | .mk _ computed key value => (if computed then key.events else []) ++ value.events

end

/-! ### What events do -/

/-- A state of a walk: that of the analysis, and the scopes to go back to, the innermost first. -/
structure Walk where
  state : AnalysisState
  outer : List Nat := []

namespace Event

/-- What an event does that opens and closes no scope. -/
def Acts : Event → AnalysisState → AnalysisState → Prop
  | .global, σ, τ => τ = { σ with tree := σ.tree.setKind σ.current .global }
  | .hoist mark id params, σ, τ => Analyze.hoistFunction mark id params σ = .ok ((), τ)
  | .own mark id params, σ, τ => ∃ owner, Analyze.functionOwner mark id params σ = .ok (owner, τ)
  | .declare mark name kind given, σ, τ =>
    ∃ inferred, Analyze.declareVariable mark name kind given inferred σ = .ok ((), τ)
  | .param position name, σ, τ => Analyze.declareParam position name σ = .ok ((), τ)
  | .classDecl mark id, σ, τ => Analyze.declareClass mark id σ = .ok ((), τ)
  | .read mark, σ, τ => ∃ kind, Analyze.visitIdentifier mark σ = .ok (kind, τ)
  | .assign _ mark, σ, τ => Analyze.assignVariable mark σ = .ok ((), τ)
  | .update mark, σ, τ => Analyze.updateVariable mark σ = .ok ((), τ)
  | .call mark, σ, τ => ∃ called, Analyze.namedFunction mark σ = .ok (called, τ)
  | .warn message place, σ, τ => Analyze.warning message place σ = .ok ((), τ)
  | .enter _, _, _ => False
  | .leave, _, _ => False

/-- What an event does. -/
def Does : Event → Walk → Walk → Prop
  | .enter kind, w, w' =>
    w' = ⟨{ w.state with tree := w.state.tree.child w.state.current kind, current := w.state.tree.size },
      w.state.current :: w.outer⟩
  | .leave, w, w' => ∃ i, w.outer = i :: w'.outer ∧ w'.state = { w.state with current := i }
  | e, w, w' => e.Acts w.state w'.state ∧ w'.outer = w.outer

theorem Acts.does {e : Event} {σ τ : AnalysisState} (h : e.Acts σ τ) (outer : List Nat) :
    e.Does ⟨σ, outer⟩ ⟨τ, outer⟩ := by
  cases e with
  | enter | leave => cases h
  | _ => exact ⟨h, rfl⟩

end Event

/-- A symbol without the kind of its result. -/
def Symbol.plain (s : Symbol) : Symbol := { s with returns := none }

/-- What leaves the scopes as they are, and the symbols but for the kind of a result. -/
structure Notes (σ τ : AnalysisState) : Prop where
  scopes : τ.tree.scopes = σ.tree.scopes
  symbols : τ.tree.declared.map Symbol.plain = σ.tree.declared.map Symbol.plain
  current : τ.current = σ.current
  diagnostics : σ.diagnostics <+: τ.diagnostics

theorem Notes.trans {σ ρ τ : AnalysisState} (h : Notes σ ρ) (h' : Notes ρ τ) : Notes σ τ :=
  ⟨h'.scopes.trans h.scopes, h'.symbols.trans h.symbols, h'.current.trans h.current,
    h.diagnostics.trans h'.diagnostics⟩

/-- A walk performs these events, with notes between them. -/
inductive Performs : List Event → Walk → Walk → Prop
  | done (w : Walk) : Performs [] w w
  | note {es : List Event} {σ τ : AnalysisState} {outer : List Nat} {w : Walk} (h : Notes σ τ)
      (hs : Performs es ⟨τ, outer⟩ w) : Performs es ⟨σ, outer⟩ w
  | step {e : Event} {es : List Event} {w w₁ w₂ : Walk} (h : e.Does w w₁) (hs : Performs es w₁ w₂) :
      Performs (e :: es) w w₂

namespace Performs

variable {e : Event} {es es' : List Event} {w w₁ w₂ : Walk}

theorem append (h : Performs es w w₁) (h' : Performs es' w₁ w₂) : Performs (es ++ es') w w₂ := by
  induction h with
  | done => exact h'
  | note hn _ ih => exact .note hn (ih h')
  | step he _ ih => exact .step he (ih h')

theorem split (h : Performs (es ++ es') w w₂) : ∃ w₁, Performs es w w₁ ∧ Performs es' w₁ w₂ := by
  generalize hs : es ++ es' = all at h
  induction h generalizing es with
  | done w =>
    obtain ⟨rfl, rfl⟩ := List.append_eq_nil_iff.1 hs
    exact ⟨w, .done w, .done w⟩
  | note hn _ ih =>
    obtain ⟨w₁, h₁, h₂⟩ := ih hs
    exact ⟨w₁, .note hn h₁, h₂⟩
  | @step e all w _ _ he h ih =>
    cases es with
    | nil =>
      rw [List.nil_append] at hs
      exact ⟨w, .done w, hs ▸ .step he h⟩
    | cons e' es =>
      rw [List.cons_append] at hs
      cases hs
      obtain ⟨w₁, h₁, h₂⟩ := ih rfl
      exact ⟨w₁, .step he h₁, h₂⟩

theorem cons_inv (h : Performs (e :: es) w w₂) : ∃ w₀ w₁, Performs [] w w₀ ∧ e.Does w₀ w₁ ∧ Performs es w₁ w₂ := by
  generalize hs : e :: es = all at h
  induction h with
  | done w => cases hs
  | note hn _ ih =>
    obtain ⟨w₀, w₁, h₀, hrest⟩ := ih hs
    exact ⟨w₀, w₁, .note hn h₀, hrest⟩
  | @step _ _ w w₁ _ he h _ =>
    cases hs
    exact ⟨w, w₁, .done w, he, h⟩

theorem of_notes {σ τ : AnalysisState} {outer : List Nat} (h : Notes σ τ) : Performs [] ⟨σ, outer⟩ ⟨τ, outer⟩ :=
  .note h (.done _)

theorem of_does (h : e.Does w w₁) : Performs [e] w w₁ := .step h (.done _)

theorem induct {P : Walk → Prop} (h : Performs es w w₁)
    (hnote : ∀ σ τ outer, Notes σ τ → P ⟨σ, outer⟩ → P ⟨τ, outer⟩)
    (hstep : ∀ e ∈ es, ∀ w w', e.Does w w' → P w → P w') (hw : P w) : P w₁ := by
  induction h with
  | done => exact hw
  | note hn _ ih => exact ih hstep (hnote _ _ _ hn hw)
  | step he _ ih =>
    exact ih (fun e' he' => hstep e' (List.mem_cons_of_mem _ he')) (hstep _ List.mem_cons_self _ _ he hw)

end Performs

/-! ### Actions of the walk -/

namespace Analyze

variable {α β : Type} {σ τ : AnalysisState} {es es' : List Event}

/-- The functions being walked stay, but the innermost may have a return now. -/
def Frames (fs gs : List Activation) : Prop := gs = fs ∨ gs = fs.modifyHead fun f => { f with hasReturn := true }

theorem Frames.trans {fs gs hs : List Activation} (h : Frames fs gs) (h' : Frames gs hs) : Frames fs hs := by
  obtain rfl | rfl := h
  · exact h'
  · obtain rfl | rfl := h'
    · exact .inr rfl
    · exact .inr (by cases fs <;> rfl)

/-- Notes are taken, and perhaps that the innermost function returns. -/
structure Noted (σ τ : AnalysisState) : Prop extends Notes σ τ where
  frames : Frames σ.functions τ.functions

instance : Lenient Noted where
  trans h h' := ⟨h.toNotes.trans h'.toNotes, h.frames.trans h'.frames⟩
  of_checks h := by
    obtain ⟨ds, hds, -⟩ := h.said
    refine ⟨⟨?_, ?_, h.current, ds, hds.symm⟩, .inl h.functions⟩
    · rw [h.tree]
    · rw [h.tree]

/-- An action takes notes only. -/
abbrev Quiet (x : Analyze α) : Prop := Within Noted x

namespace Within

theorem report (severity : Severity) (message : String) (place : Except Fault Place) :
    Quiet (Analyze.report severity message place) where
  run h := by
    obtain ⟨p, -, rfl⟩ := report_eq_ok h
    exact ⟨⟨rfl, rfl, rfl, List.prefix_append _ _⟩, .inl rfl⟩

theorem markReturn : Quiet Analyze.markReturn :=
  .change fun σ => ⟨⟨rfl, rfl, rfl, List.prefix_rfl⟩, .inr (by dsimp only; cases σ.functions <;> rfl)⟩

theorem setReturns (n : Nat) (kind : Kind) :
    Quiet (Analyze.modifySymbol n fun s => { s with returns := some kind }) := by
  refine .change fun σ => ⟨⟨rfl, ?_, rfl, List.prefix_rfl⟩, .inl rfl⟩
  apply List.ext_getElem?
  intro i
  simp only [ScopeTree.modifySymbol, List.getElem?_map, List.getElem?_modify]
  cases σ.tree.declared[i]? with
  | none => rfl
  | some s => by_cases hi : n = i <;> simp [hi, Symbol.plain]

theorem returned (mark : Mark) (kind : Kind) : Quiet (Analyze.returned mark kind) := by
  refine .bind .get fun σ => ?_
  split
  · exact .report ..
  · refine .bind .markReturn fun _ => ?_
    split
    · exact .setReturns ..
    · exact .pure _

end Within

/-- An action performs these events, whenever it succeeds, and is done with the functions and the scopes that it has
opened. -/
structure Makes (x : Analyze α) (es : List Event) : Prop where
  performs {σ τ : AnalysisState} {a : α} (h : x σ = .ok (a, τ)) (outer : List Nat) :
    Performs es ⟨σ, outer⟩ ⟨τ, outer⟩
  frames {σ τ : AnalysisState} {a : α} (h : x σ = .ok (a, τ)) : Frames σ.functions τ.functions
  stays {σ τ : AnalysisState} {a : α} (h : x σ = .ok (a, τ)) : Stays σ τ

end Analyze

theorem Notes.stays {σ τ : AnalysisState} (h : Notes σ τ) : Analyze.Stays σ τ := by
  refine .of_parents h.current ?_
  rw [ScopeTree.parents, h.scopes]
  rfl

/-- An event on its own opens and closes no function and no scope. -/
theorem Event.Acts.stays {e : Event} {σ τ : AnalysisState} (h : e.Acts σ τ) :
    τ.functions = σ.functions ∧ Analyze.Stays σ τ := by
  have of_remarks (hremarks : Analyze.Remarks σ τ) : τ.functions = σ.functions ∧ Analyze.Stays σ τ :=
    ⟨hremarks.functions, hremarks.toStays⟩
  cases e with
  | enter | leave => cases h
  | global =>
    cases h
    exact ⟨rfl, .of_parents rfl (σ.tree.parents_setKind ..)⟩
  | hoist mark id params => exact of_remarks ((Analyze.Within.hoistFunction mark id params).run h)
  | own mark id params =>
    obtain ⟨owner, h⟩ := h
    exact of_remarks ((Analyze.Within.functionOwner mark id params).run h)
  | declare mark name kind given =>
    obtain ⟨inferred, h⟩ := h
    exact of_remarks ((Analyze.Within.declareVariable mark name kind given inferred).run h)
  | param position name => exact of_remarks ((Analyze.Within.declareParam position name).run h)
  | classDecl mark id => exact of_remarks ((Analyze.Within.declareClass mark id).run h)
  | read mark =>
    obtain ⟨kind, h⟩ := h
    exact of_remarks ((Analyze.Within.visitIdentifier mark).run h)
  | assign operator mark => exact of_remarks ((Analyze.Within.assignVariable mark).run h)
  | update mark => exact of_remarks ((Analyze.Within.updateVariable mark).run h)
  | call mark =>
    obtain ⟨called, h⟩ := h
    exact of_remarks ((Analyze.Within.namedFunction mark).run h)
  | warn message place =>
    obtain ⟨p, -, rfl⟩ := Analyze.report_eq_ok h
    exact ⟨rfl, .of_parents rfl rfl⟩

namespace Analyze

variable {α β : Type} {σ τ : AnalysisState} {es es' : List Event}

namespace Makes

variable {x : Analyze α}

theorem of_eq (h : Makes x es) (hes : es = es') : Makes x es' := hes ▸ h

theorem of_run (h : ∀ {σ τ a}, x σ = .ok (a, τ) → (∀ outer, Performs es ⟨σ, outer⟩ ⟨τ, outer⟩) ∧
    Frames σ.functions τ.functions ∧ Stays σ τ) : Makes x es :=
  ⟨fun hx outer => (h hx).1 outer, fun hx => (h hx).2.1, fun hx => (h hx).2.2⟩

theorem quiet (h : Quiet x) : Makes x [] := by
  refine of_run fun hx => ?_
  have hnoted := h.run hx
  exact ⟨fun _ => .of_notes hnoted.toNotes, hnoted.frames, hnoted.toNotes.stays⟩

theorem pure (a : α) : Makes (Pure.pure a) [] := quiet (.pure a)

theorem throw (f : Fault) : Makes (MonadExcept.throw f : Analyze α) es :=
  of_run fun h => by cases h

theorem throw_bind (f : Fault) (g : α → Analyze β) : Makes (MonadExcept.throw f >>= g) es :=
  of_run fun h => by cases h

theorem bind {f : α → Analyze β} (hx : Makes x es) (hf : ∀ a, Makes (f a) es') : Makes (x >>= f) (es ++ es') := by
  refine of_run fun h => ?_
  obtain ⟨a, ρ, ha, hb⟩ := bind_eq_ok h
  refine ⟨fun outer => ?_, (hx.frames ha).trans ((hf a).frames hb), (hx.stays ha).trans ((hf a).stays hb)⟩
  exact (hx.performs ha outer).append ((hf a).performs hb outer)

theorem after {f : α → Analyze β} (hx : Quiet x) (hf : ∀ a, Makes (f a) es) : Makes (x >>= f) es :=
  (quiet hx).bind hf

theorem before {f : α → Analyze β} (hx : Makes x es) (hf : ∀ a, Quiet (f a)) : Makes (x >>= f) es :=
  (hx.bind fun a => quiet (hf a)).of_eq (List.append_nil es)

theorem lift {y : Except Fault α} {f : α → Analyze β} (hf : ∀ a, y = .ok a → Makes (f a) es) :
    Makes (liftM y >>= f) es := by
  refine of_run fun h => ?_
  obtain ⟨a, ρ, ha, hb⟩ := bind_eq_ok h
  obtain ⟨hy, rfl⟩ := liftM_eq_ok ha
  exact ⟨(hf a hy).performs hb, (hf a hy).frames hb, (hf a hy).stays hb⟩

theorem acts {e : Event} (h : ∀ {σ τ a}, x σ = .ok (a, τ) → e.Acts σ τ) : Makes x [e] := by
  refine of_run fun hx => ?_
  obtain ⟨hfunctions, hstays⟩ := (h hx).stays
  exact ⟨fun outer => .of_does ((h hx).does outer), .inl hfunctions, hstays⟩

theorem step {e : Event} {f : α → Analyze β} (h : ∀ {σ τ a}, x σ = .ok (a, τ) → e.Acts σ τ)
    (hf : ∀ a, Makes (f a) es) : Makes (x >>= f) (e :: es) :=
  (acts h).bind hf

theorem inScope {kind : ScopeKind} (hx : Makes x es) :
    Makes (Analyze.inScope kind x) (.enter kind :: (es ++ [.leave])) := by
  refine of_run fun h => ?_
  obtain ⟨ρ, hρ, rfl⟩ := inScope_eq_ok h
  have hstays := hx.stays hρ
  refine ⟨fun outer => ?_, (hx.frames hρ :), hstays.of_child rfl rfl rfl rfl⟩
  rw [hstays.parent? rfl rfl]
  exact .step rfl ((hx.performs hρ _).append (.of_does ⟨_, rfl, rfl⟩))

/-- A function that is opened and closed leaves the functions around it. -/
theorem inFunction {owner : Option Nat} {y : Analyze Unit} (hy : Makes y es) :
    Makes (Analyze.inFunction owner y) (.enter .function :: (es ++ [.leave])) := by
  refine of_run fun h => ?_
  obtain ⟨ρ, hρ, -, rfl⟩ := inFunction_eq_ok h
  have hstays := hy.stays hρ
  have htail : ρ.functions.tail = _ := (hy.frames hρ).elim (congrArg List.tail) (congrArg List.tail)
  refine ⟨fun outer => ?_, .inl htail, hstays.of_child rfl rfl rfl rfl⟩
  have hset : ∀ (σ : AnalysisState) (fs : List Activation), Notes σ { σ with functions := fs } :=
    fun _ _ => ⟨rfl, rfl, rfl, List.prefix_rfl⟩
  rw [hstays.parent? rfl rfl]
  refine .step rfl (.note (hset _ _) ((hy.performs hρ _).append (.note (hset ρ ρ.functions.tail) ?_)))
  exact .of_does ⟨_, rfl, rfl⟩

theorem warnIf {b : Bool} {message : String} {place : Except Fault Place} {y : Analyze α} (hy : Makes y es) :
    Makes (if b then (do Analyze.warning message place; y) else y) (Node.warnIf b message place ++ es) := by
  cases b with
  | false => exact hy
  | true => exact .step (fun h => h) fun _ => hy

theorem warnEither {b b' : Bool} {message message' : String} {place : Except Fault Place} {y : Analyze α}
    (hy : Makes y es) :
    Makes (if b then (do Analyze.warning message place; y) else
      if b' then (do Analyze.warning message' place; y) else y)
      (Node.warnEither b b' message message' place ++ es) := by
  cases b with
  | false => exact .warnIf hy
  | true => exact .step (fun h => h) fun _ => hy

theorem variableOr {n : Node} {byName : Mark → Analyze Unit} {other : Analyze Unit} {event : Mark → Event}
    (h : ∀ mark σ τ, byName mark σ = .ok ((), τ) → (event mark).Acts σ τ) (ho : Makes other es) :
    Makes (Analyze.variableOr n byName other) (n.eventsOr event es) := by
  rcases n with _ | _ | ⟨mark, form⟩
  · exact ho
  · exact ho
  · cases form with
    | identifier => exact .acts fun hx => h mark _ _ hx
    | _ => exact ho

theorem calledSymbol {n : Node} {other : Analyze Unit} (ho : Makes other es) :
    Makes (Analyze.calledSymbol n other) (n.eventsOr .call es) := by
  have hother : Makes (do other; return none : Analyze (Option Nat)) es := ho.before fun _ => .pure none
  rcases n with _ | _ | ⟨mark, form⟩
  · exact hother
  · exact hother
  · cases form with
    | identifier => exact .acts fun hx => ⟨_, hx⟩
    | _ => exact hother

theorem functionBody {n : Node} {block other : Analyze Unit} (hb : Makes block es) (ho : Makes other es') :
    Makes (Analyze.functionBody n block other) (n.bodyEvents es es') := by
  have hother : Makes (do markReturn; other) es' := .after .markReturn fun _ => ho
  rcases n with _ | _ | ⟨mark, form⟩
  · exact .pure ()
  · exact hother
  · cases form with
    | block => exact hb
    | _ => exact hother

theorem function {owner : Option Nat} {params : List Param} {body : Node} {ps block other : List Event}
    (hp : Makes (visitParams params) ps) (hb : Makes (visitBlock body) block) (ho : Makes (visit body) other) :
    Makes (Analyze.inFunction owner do
      visitParams params
      Analyze.functionBody body (visitBlock body) (do let _ ← visit body))
      (.enter .function :: (ps ++ body.bodyEvents block other ++ [.leave])) :=
  .inFunction (.bind hp fun _ => .functionBody hb (ho.before fun _ => .pure ()))

theorem hoistFunctions : ∀ ns : List Node, Makes (Analyze.hoistFunctions ns) (Node.hoists ns)
  | [] => .pure ()
  | .absent :: rest => .after (.pure ()) fun _ => hoistFunctions rest
  | .fault f :: rest => .throw_bind f _
  | .mk mark form :: rest => by
    cases form with
    | function id params body =>
      exact .step (fun h => h) fun _ => hoistFunctions rest
    | _ => exact .after (.pure ()) fun _ => hoistFunctions rest

end Makes

mutual

theorem visit_makes : ∀ n : Node, Makes (visit n) n.events
  | .absent => .pure none
  | .fault f => .throw f
  | .mk mark form => by
    -- along the walk: declarations and uses are events, parts make their own, and all else leaves notes at most
    cases form with
    | program body =>
      rw [visit, Node.events]
      refine .step (fun h => ?_) fun _ =>
        .bind (.hoistFunctions body) fun _ => (visitAll_makes body).before fun _ => .result mark none
      cases h
      rfl
    | block body =>
      rw [visit, Node.events]
      exact .before (.inScope (.bind (.hoistFunctions body) fun _ => visitStatements_makes false body)) fun _ =>
        .result mark none
    | expression e =>
      rw [visit, Node.events]
      exact (visit_makes e).before fun _ => .result mark none
    | declaration kind ds =>
      rw [visit, Node.events]
      exact (visitDeclarators_makes kind ds).before fun _ => .result mark none
    | function id params body =>
      rw [visit, Node.events]
      refine .after (.lift _) fun name => .step (fun h => ⟨_, h⟩) fun owner => ?_
      refine .before (.function (visitParams_makes params) (visitBlock_makes body) (visit_makes body)) fun _ => ?_
      exact .ite (.bind (.report ..) fun _ => .result mark none) (.result mark none)
    | classDecl id parent members =>
      rw [visit, Node.events]
      refine .step (fun h => h) fun _ => .bind (visit_makes parent) fun _ => ?_
      exact .before (.inScope (visitAll_makes members)) fun _ => .result mark none
    | method computed key params body =>
      rw [visit, Node.events]
      have hbody := (@Makes.function none _ _ _ _ _ (visitParams_makes params) (visitBlock_makes body)
        (visit_makes body)).before fun _ => .result mark none
      cases computed with
      | true => exact .bind (visit_makes key) fun _ => hbody
      | false => exact hbody
    | «if» test consequent alternate =>
      rw [visit, Node.events]
      refine .bind (visit_makes test) fun _ => .warnEither ?_
      exact .bind (visit_makes consequent) fun _ => (visit_makes alternate).before fun _ => .result mark none
    | «while» test body =>
      rw [visit, Node.events]
      exact .bind (visit_makes test) fun _ => .warnEither ((visit_makes body).before fun _ => .result mark none)
    | «for» init test update body =>
      rw [visit, Node.events]
      refine .before (.inScope ?_) fun _ => .result mark none
      refine .bind (visit_makes init) fun _ => .bind (visit_makes test) fun _ => .warnIf ?_
      exact .bind (visit_makes update) fun _ => (visit_makes body).before fun _ => .pure ()
    | «return» argument =>
      rw [visit, Node.events]
      exact (visit_makes argument).before fun _ => .bind (.returned ..) fun _ => .result mark none
    | throw argument =>
      rw [visit, Node.events]
      exact (visit_makes argument).before fun _ => .result mark none
    | identifier =>
      rw [visit, Node.events]
      exact .before (.acts fun h => ⟨_, h⟩) fun _ => .result ..
    | template text expressions =>
      rw [visit, Node.events]
      exact (visitAll_makes expressions).before fun _ => .result ..
    | assignment operator left right =>
      rw [visit, Node.events]
      refine .bind (visit_makes right) fun kind => ?_
      refine .before (Makes.variableOr (fun _ _ _ h => h) ((visit_makes left).before fun _ => .pure ())) fun _ => ?_
      refine .ite (.bind (.checkAddition ..) fun _ => .result ..) (.ite ?_ (.result ..))
      exact .bind (.checkNumeric ..) fun _ => .bind (.checkNumeric ..) fun _ => .result ..
    | binary operator left right =>
      rw [visit, Node.events]
      exact .bind (visit_makes left) fun _ => (visit_makes right).before fun _ => .result ..
    | logical operator left right =>
      rw [visit, Node.events]
      refine .bind (visit_makes left) fun a => .bind (visit_makes right) fun b => ?_
      exact (Makes.warnEither (.quiet (.result ..))).of_eq (by simp)
    | unary operator argument =>
      rw [visit, Node.events]
      exact (visit_makes argument).before fun _ => .bind (.unaryKind ..) fun _ => .result ..
    | update operator leading argument =>
      rw [visit, Node.events]
      exact .before (.variableOr (fun _ _ _ h => h) ((visit_makes argument).before fun _ => .pure ())) fun _ => .result ..
    | conditional test consequent alternate =>
      rw [visit, Node.events]
      refine .bind (visit_makes test) fun _ => .bind (visit_makes consequent) fun a =>
        .bind (visit_makes alternate) fun b => ?_
      exact (Makes.warnEither (.quiet (.result ..))).of_eq (by simp)
    | call callee arguments =>
      rw [visit, Node.events]
      refine .bind (.calledSymbol ((visit_makes callee).before fun _ => .pure ())) fun _ => ?_
      refine (visitAll_makes arguments).before fun _ => ?_
      exact .bind (.callKind ..) fun _ => .result ..
    | new callee arguments =>
      rw [visit, Node.events]
      exact .bind (visit_makes callee) fun _ => (visitAll_makes arguments).before fun _ => .result ..
    | member computed object property =>
      rw [visit, Node.events]
      refine .bind (visit_makes object) fun _ => ?_
      cases computed with
      | true => exact (visit_makes property).before fun _ => .result ..
      | false => exact .quiet (.bind (.checkConsole ..) fun _ => .result ..)
    | array elements =>
      rw [visit, Node.events]
      exact (visitAll_makes elements).before fun _ => .result ..
    | object properties =>
      rw [visit, Node.events]
      exact (visitProperties_makes [] properties).before fun _ => .result ..
    | lambda params body =>
      rw [visit, Node.events]
      exact .before (.function (visitParams_makes params) (visitBlock_makes body) (visit_makes body)) fun _ =>
        .result ..
    | sequence expressions =>
      rw [visit, Node.events]
      exact (visitLast_makes expressions none).before fun _ => .record ..
    | unknown =>
      rw [visit, Node.events]
      dsimp only
      split
      · exact .throw_bind _ _
      · exact .quiet (.bind (.report ..) fun _ => .result ..)
    | «break» | «continue» | empty | literal | this =>
      rw [visit, Node.events]
      exact .quiet (.result ..)

theorem visitAll_makes : ∀ ns : List Node, Makes (visitAll ns) (Node.eventsAll ns)
  | [] => .pure ()
  | n :: rest => .bind (visit_makes n) fun _ => visitAll_makes rest

theorem visitLast_makes : ∀ (ns : List Node) (last : Option Kind), Makes (visitLast last ns) (Node.eventsAll ns)
  | [], last => .pure last
  | n :: rest, _ => .bind (visit_makes n) fun kind => visitLast_makes rest kind

theorem visitStatements_makes (unreachable : Bool) : ∀ ns : List Node,
    Makes (visitStatements unreachable ns) (Node.eventsStatements unreachable ns)
  | [] => .pure ()
  | n :: rest => .warnIf (.bind (visit_makes n) fun _ => visitStatements_makes (unreachable || n.isTerminator) rest)

theorem visitBlock_makes : ∀ n : Node, Makes (visitBlock n) n.blockEvents
  | .absent => .pure ()
  | .fault _ => .pure ()
  | .mk mark form => by
    cases form with
    | block body => exact .bind (.hoistFunctions body) fun _ => visitStatements_makes false body
    | _ => exact .pure ()

theorem visitDeclarators_makes (kind : DeclKind) : ∀ ds : List Declarator,
    Makes (visitDeclarators kind ds) (Declarator.eventsAll kind ds)
  | [] => .pure ()
  | d :: rest => .bind (visitDeclarator_makes kind d) fun _ => visitDeclarators_makes kind rest

theorem visitDeclarator_makes (kind : DeclKind) : ∀ d : Declarator, Makes (visitDeclarator kind d) (d.events kind)
  | .fault f => .throw f
  | .mk mark id given init => by
    rw [visitDeclarator, Declarator.events]
    refine .lift fun name hname => .bind (visit_makes init) fun inferred => ?_
    rw [hname, namedEvents]
    split
    · exact .acts fun h => ⟨_, h⟩
    · exact .pure ()

theorem visitParams_makes : ∀ ps : List Param, Makes (visitParams ps) (Param.eventsAll ps)
  | [] => .pure ()
  | p :: rest => .bind (visitParam_makes p) fun _ => visitParams_makes rest

theorem visitParam_makes : ∀ p : Param, Makes (visitParam p) p.events
  | .fault f => .throw f
  | .absent f => .throw f
  | .mk position name default => by
    rw [visitParam, Param.events]
    refine .lift fun t ht => .bind (visit_makes default) fun _ => ?_
    rw [ht, namedEvents]
    split
    · exact .acts fun h => h
    · rename_i hfalse
      unfold declareParam
      rw [if_neg hfalse]
      exact .pure ()

theorem visitProperties_makes (names : List Key) : ∀ ps : List Property,
    Makes (visitProperties names ps) (Property.eventsAll ps)
  | [] => .pure ()
  | p :: rest => .bind (visitProperty_makes names p) fun names => visitProperties_makes names rest

theorem visitProperty_makes (names : List Key) : ∀ p : Property, Makes (visitProperty names p) p.events
  | .fault f => .throw f
  | .mk mark computed key value => by
    rw [visitProperty, Property.events]
    refine .after (.lift _) fun name => .after (.checkDuplicate ..) fun names => ?_
    have hvalue : Makes (propertyValue value (visitLambda value) (do let _ ← visit value)) value.events := by
      have hother : Makes (do let _ ← visit value) value.events := (visit_makes value).before fun _ => .pure ()
      rcases value with _ | _ | ⟨mark, form⟩
      · exact hother
      · exact hother
      · cases form with
        | lambda params body =>
          rw [Node.events]
          exact .before (.function (visitParams_makes params) (visitBlock_makes body) (visit_makes body)) fun _ =>
            .pure ()
        | _ => exact hother
    cases computed with
    | true => exact .bind (visit_makes key) fun _ => hvalue.before fun _ => .pure names
    | false => exact hvalue.before fun _ => .pure names

end

end Analyze

/-- A walk that ends without a fault performs the events of its program. -/
theorem Node.exists_performs {n : Node} (h : n.analyze.isFatal = false) :
    ∃ τ, Performs n.events ⟨.initial, []⟩ ⟨τ, []⟩ ∧ n.analyze.scopes = some τ.tree ∧
      n.analyze.diagnostics = τ.diagnostics ++ τ.tree.unusedWarnings := by
  unfold Node.analyze at h ⊢
  split at h
  · rename_i k τ hτ
    exact ⟨τ, (Analyze.visit_makes n).performs hτ [], rfl, rfl⟩
  · cases h

/-- The analysis of a program comes to this point after these events, and goes on to what it gives. -/
structure Node.Passes (n : Node) (es : List Event) (w : Walk) : Prop where
  before : Performs es ⟨.initial, []⟩ w
  after : ∃ es' τ, n.events = es ++ es' ∧ Performs es' w ⟨τ, []⟩ ∧ n.analyze.scopes = some τ.tree ∧
    n.analyze.diagnostics = τ.diagnostics ++ τ.tree.unusedWarnings

theorem Node.exists_passes {n : Node} {es : List Event} (h : n.analyze.isFatal = false) (hes : es <+: n.events) :
    ∃ w, n.Passes es w := by
  obtain ⟨τ, hperforms, hscopes, hdiag⟩ := n.exists_performs h
  obtain ⟨es', hes'⟩ := hes
  rw [← hes'] at hperforms
  obtain ⟨w, hbefore, hafter⟩ := hperforms.split
  exact ⟨w, hbefore, es', τ, hes'.symm, hafter, hscopes, hdiag⟩

end QuadScript
