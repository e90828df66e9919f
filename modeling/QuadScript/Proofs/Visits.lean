import Mathlib.Data.List.Perm.Subperm
import QuadScript.Proofs.Continuity
import QuadScript.Proofs.OpenScopes

/-!
# Visits

The events of a walk with the states between them: a visit is one event, with what the analysis knows before and after
it (`Traces`). What a walk comes to is a node or a list of statements, and `Site.Reaches` tells after which events it
comes there. Each of them closes the scopes that it opens, so while it is walked the scopes stay open that are open
around it (`Event.Level`), and only functions take parameters (`Node.sealed`).
-/

namespace QuadScript

/-- One event of a walk, with the states before and after it. -/
structure Visit where
  event : Event
  before : Walk
  after : Walk

/-- What is found on a visit. -/
def Visit.reports (v : Visit) : List Diagnostic :=
  v.after.state.diagnostics.drop v.before.state.diagnostics.length

/-- A walk makes these visits, with notes between them. -/
inductive Traces : List Visit → Walk → Walk → Prop
  | done (w : Walk) : Traces [] w w
  | note {vs : List Visit} {σ τ : AnalysisState} {outer : List Nat} {w : Walk} (h : Notes σ τ)
      (hs : Traces vs ⟨τ, outer⟩ w) : Traces vs ⟨σ, outer⟩ w
  | visit {e : Event} {vs : List Visit} {w w₁ w₂ : Walk} (h : e.Does w w₁) (hs : Traces vs w₁ w₂) :
      Traces (⟨e, w, w₁⟩ :: vs) w w₂

namespace Traces

variable {v : Visit} {vs vs' : List Visit} {w w₁ w₂ : Walk}

theorem performs (h : Traces vs w w₁) : Performs (vs.map Visit.event) w w₁ := by
  induction h with
  | done w => exact .done w
  | note hn _ ih => exact .note hn ih
  | visit he _ ih => exact .step he ih

theorem split (h : Traces (vs ++ vs') w w₂) : ∃ w₁, Traces vs w w₁ ∧ Traces vs' w₁ w₂ := by
  generalize hs : vs ++ vs' = all at h
  induction h generalizing vs with
  | done w =>
    obtain ⟨rfl, rfl⟩ := List.append_eq_nil_iff.1 hs
    exact ⟨w, .done w, .done w⟩
  | note hn _ ih =>
    obtain ⟨w₁, h₁, h₂⟩ := ih hs
    exact ⟨w₁, .note hn h₁, h₂⟩
  | @visit e all w _ _ he h ih =>
    rcases vs with _ | ⟨v, vs⟩
    · rw [List.nil_append] at hs
      exact ⟨w, .done w, hs ▸ .visit he h⟩
    · rw [List.cons_append] at hs
      cases hs
      obtain ⟨w₁, h₁, h₂⟩ := ih rfl
      exact ⟨w₁, .visit he h₁, h₂⟩

theorem cons_inv (h : Traces (v :: vs) w w₂) :
    Traces [] w v.before ∧ v.event.Does v.before v.after ∧ Traces vs v.after w₂ := by
  generalize hs : v :: vs = all at h
  induction h with
  | done w => cases hs
  | note hn _ ih =>
    obtain ⟨h₀, hrest⟩ := ih hs
    exact ⟨.note hn h₀, hrest⟩
  | visit he h _ =>
    cases hs
    exact ⟨.done _, he, h⟩

theorem append (h : Traces vs w w₁) (h' : Traces vs' w₁ w₂) : Traces (vs ++ vs') w w₂ := by
  induction h with
  | done => exact h'
  | note hn _ ih => exact .note hn (ih h')
  | visit he _ ih => exact .visit he (ih h')

theorem exists_of_mem (h : Traces vs w w₂) (hv : v ∈ vs) : ∃ vs₁ vs₂, vs = vs₁ ++ v :: vs₂ ∧
    Traces vs₁ w v.before ∧ v.event.Does v.before v.after ∧ Traces vs₂ v.after w₂ := by
  obtain ⟨vs₁, vs₂, rfl⟩ := List.append_of_mem hv
  obtain ⟨w₁, h₁, h⟩ := h.split
  obtain ⟨h₀, hdoes, h₂⟩ := h.cons_inv
  have hbefore := h₁.append h₀
  rw [List.append_nil] at hbefore
  exact ⟨vs₁, vs₂, rfl, hbefore, hdoes, h₂⟩

/-- What is found on the visits comes in their order, behind what was found before. -/
theorem sublist_reports (h : Traces vs w w₁) :
    (w.state.diagnostics ++ vs.flatMap Visit.reports).Sublist w₁.state.diagnostics := by
  induction h with
  | done w => rw [List.flatMap_nil, List.append_nil]
  | note hn _ ih => exact (hn.diagnostics.sublist.append_right _).trans ih
  | @visit e vs w w₁ _ he _ ih =>
    have hsplit : w.state.diagnostics ++ Visit.reports ⟨e, w, w₁⟩ = w₁.state.diagnostics := by
      obtain ⟨ds, hds⟩ := he.diagnostics
      rw [Visit.reports, ← hds, List.drop_left]
    rw [List.flatMap_cons, ← List.append_assoc, hsplit]
    exact ih

theorem nil_stack (h : Traces [] w w₁) : w₁.stack = w.stack := by
  generalize hs : ([] : List Visit) = vs at h
  induction h with
  | done => rfl
  | @note _ σ τ outer _ hn _ ih =>
    have hcurrent : Walk.stack ⟨τ, outer⟩ = Walk.stack ⟨σ, outer⟩ := by
      simp only [Walk.stack, hn.current]
    exact (ih hs).trans hcurrent
  | visit => cases hs

end Traces

theorem Walk.Tracks.length_le {w : Walk} {scopes : List (List String)} (h : w.Tracks scopes) :
    w.stack.length ≤ w.state.tree.size := by
  have hsub : w.stack ⊆ List.range w.state.tree.size := fun j hj => List.mem_range.2 (h.small j hj)
  simpa using (List.subperm_of_subset h.nodup hsub).length_le

theorem Performs.exists_traces {es : List Event} {w w' : Walk} (h : Performs es w w') :
    ∃ vs, vs.map Visit.event = es ∧ Traces vs w w' := by
  induction h with
  | done w => exact ⟨[], rfl, .done w⟩
  | note hn _ ih =>
    obtain ⟨vs, rfl, hvs⟩ := ih
    exact ⟨vs, rfl, .note hn hvs⟩
  | @step e _ w w₁ _ he _ ih =>
    obtain ⟨vs, rfl, hvs⟩ := ih
    exact ⟨⟨e, w, w₁⟩ :: vs, rfl, .visit he hvs⟩

/-- The visits of the analysis of a program, and the scopes that it ends with. -/
structure Node.Visits (n : Node) (vs : List Visit) (t : ScopeTree) : Prop where
  traces : ∃ τ : AnalysisState, Traces vs ⟨.initial, []⟩ ⟨τ, []⟩ ∧ τ.tree = t
  events : vs.map Visit.event = n.events
  scopes : n.analyze.scopes = some t

/-- An analysis without a fault makes visits, and what is found on them is among its diagnostics, in that order. -/
theorem Node.exists_visits {n : Node} (h : n.analyze.isFatal = false) :
    ∃ vs t, n.Visits vs t ∧ (vs.flatMap Visit.reports).Sublist n.analyze.diagnostics := by
  obtain ⟨τ, hperforms, hscopes, hdiag⟩ := n.exists_performs h
  obtain ⟨vs, hevents, hvs⟩ := hperforms.exists_traces
  refine ⟨vs, τ.tree, ⟨⟨τ, hvs, rfl⟩, hevents, hscopes⟩, ?_⟩
  rw [hdiag]
  exact hvs.sublist_reports.trans (List.sublist_append_left _ _)

/-! ### Names -/

theorem Key.ofTree_place {p : Nat} {a : Tree} {k : Key} (h : Key.ofTree p a = .ok k) :
    (∀ q, Key.ofTree q a = .ok k ∧ k ≠ .nan q) ∨ ∀ q, Key.ofTree q a = .ok (.nan q) := by
  cases a with
  | num n =>
    rw [Key.ofTree] at h
    split at h
    · rename_i hnan
      exact .inr fun q => by rw [Key.ofTree, if_pos hnan]
    · rename_i hnan
      cases h
      exact .inl fun q => ⟨by rw [Key.ofTree, if_neg hnan], fun h => by cases h⟩
  | list | record => cases h
  | _ =>
    cases h
    exact .inl fun q => ⟨rfl, fun h => by cases h⟩

/-- Whether two names are one, wherever they stand. A NaN is no other name, not even another NaN. -/
def Tree.isSameName (a b : Tree) : Bool :=
  match Key.ofTree 0 a, Key.ofTree 1 b with
  | .ok k, .ok l => decide (k.Meets l)
  | _, _ => false

namespace Tree

variable {a b : Tree} {p q : Nat} {k l : Key}

theorem isSameName_iff : a.isSameName b = true ↔
    ∃ k l, (∀ q, Key.ofTree q a = .ok k) ∧ (∀ q, Key.ofTree q b = .ok l) ∧ k.Meets l := by
  unfold isSameName
  constructor
  · intro h
    split at h
    · rename_i k l ha hb
      have hmeets : k.Meets l := of_decide_eq_true h
      rcases Key.ofTree_place ha with hk | hk <;> rcases Key.ofTree_place hb with hl | hl
      · exact ⟨k, l, fun q => (hk q).1, fun q => (hl q).1, hmeets⟩
      · rw [hl 1] at hb
        cases hb
        exact absurd (hmeets.eq rfl) (hk 1).2
      · rw [hk 0] at ha
        cases ha
        exact absurd (hmeets.symm.eq rfl) (hl 0).2
      · rw [hk 0] at ha
        rw [hl 1] at hb
        cases ha
        cases hb
        cases hmeets.eq rfl
    · cases h
  · rintro ⟨k, l, hk, hl, hmeets⟩
    rw [hk 0, hl 1]
    exact decide_eq_true hmeets

theorem meets_of_isSameName (h : a.isSameName b = true) (ha : Key.ofTree p a = .ok k)
    (hb : Key.ofTree q b = .ok l) : k.Meets l := by
  obtain ⟨k', l', hk, hl, hmeets⟩ := isSameName_iff.1 h
  rw [hk p] at ha
  rw [hl q] at hb
  cases ha
  cases hb
  exact hmeets

theorem isSameName_of_meets (ha : ∀ q, Key.ofTree q a = .ok k) (hb : Key.ofTree p b = .ok l) (h : k.Meets l) :
    a.isSameName b = true := by
  rcases Key.ofTree_place hb with hl | hl
  · exact isSameName_iff.2 ⟨k, l, ha, fun q => (hl q).1, h⟩
  · rw [hl p] at hb
    cases hb
    obtain rfl := h.eq rfl
    rcases Key.ofTree_place (ha p) with hk | hk
    · exact absurd rfl (hk p).2
    · have hnext := (hk (p + 1)).symm.trans (ha (p + 1))
      simp at hnext

end Tree

/-! ### What a walk comes to -/

inductive Site
  | node (n : Node)
  /-- The statements of a whole program. -/
  | program (ns : List Node)
  /-- The statements of a block or of a function. -/
  | block (ns : List Node)

namespace Site

def events : Site → List Event
  | .node n => n.events
  | .program ns => Node.hoists ns ++ Node.eventsAll ns
  | .block ns => Node.hoists ns ++ Node.eventsStatements false ns

/-- The list of statements that a site is. -/
def statements : Site → List Node
  | .node _ => []
  | .program ns => ns
  | .block ns => ns

/-- Sites that come after these events too. -/
def after (es : List Event) (sites : List (List Event × Site)) : List (List Event × Site) :=
  sites.map fun s => (es ++ s.1, s.2)

def ofNode (n : Node) : List (List Event × Site) := [([], .node n)]

/-- A node that is walked if it is computed. -/
def ofComputed (computed : Bool) (n : Node) : List (List Event × Site) := if computed then ofNode n else []

def ofNodes : List Node → List (List Event × Site)
  | [] => []
  | n :: rest => ofNode n ++ after n.events (ofNodes rest)

def ofStatements (unreachable : Bool) : List Node → List (List Event × Site)
  | [] => []
  | n :: rest => after (Node.warnIf unreachable "Unreachable code detected" n.place)
      (ofNode n ++ after n.events (ofStatements (unreachable || n.isTerminator) rest))

def ofDeclarators (kind : DeclKind) : List Declarator → List (List Event × Site)
  | [] => []
  | .fault _ :: rest => ofDeclarators kind rest
  | .mk mark id given init :: rest =>
    ofNode init ++ after ((Declarator.mk mark id given init).events kind) (ofDeclarators kind rest)

def ofParams : List Param → List (List Event × Site)
  | [] => []
  | .mk position name default :: rest =>
    ofNode default ++ after (Param.mk position name default).events (ofParams rest)
  | _ :: rest => ofParams rest

def ofProperties : List Property → List (List Event × Site)
  | [] => []
  | .fault _ :: rest => ofProperties rest
  | .mk mark computed key value :: rest =>
    ofComputed computed key ++ after (if computed then key.events else []) (ofNode value) ++
      after (Property.mk mark computed key value).events (ofProperties rest)

/-- A node that is handled by its name if it is a variable. -/
def ofOther (n : Node) : List (List Event × Site) :=
  match n with
  | .mk _ .identifier => []
  | n => ofNode n

/-- The parameters and the body of a function. -/
def ofFunction (params : List Param) (body : Node) : List (List Event × Site) :=
  ofParams params ++ after (Param.eventsAll params)
    (match body with
    | .absent => []
    | .mk _ (.block ns) => [([], .block ns)]
    | n => ofNode n)

/-- The sites directly inside a site, each with the events that come before it there. -/
def inside : Site → List (List Event × Site)
  | .program ns => after (Node.hoists ns) (ofNodes ns)
  | .block ns => after (Node.hoists ns) (ofStatements false ns)
  | .node .absent => []
  | .node (.fault _) => []
  | .node (.mk mark form) =>
    match form with
    | .program ns => [([.global], .program ns)]
    | .block ns => [([.enter .block], .block ns)]
    | .expression e => ofNode e
    | .declaration kind ds => ofDeclarators kind ds
    | .function id params body => after [.own mark id params, .enter .function] (ofFunction params body)
    | .classDecl id parent members =>
      after [.classDecl mark id] (ofNode parent ++ after parent.events (after [.enter .classBody] (ofNodes members)))
    | .method computed key params body =>
      ofComputed computed key ++
        after (if computed then key.events else []) (after [.enter .function] (ofFunction params body))
    | .if test consequent alternate =>
      ofNode test ++ after test.events
        (after (Node.warnEither test.isAlwaysTrue test.isAlwaysFalse
          "Condition is always true; the else branch is never executed"
          "Condition is always false; the if branch is never executed" mark.place)
          (ofNode consequent ++ after consequent.events (ofNode alternate)))
    | .while test body =>
      ofNode test ++ after test.events
        (after (Node.warnEither test.isAlwaysTrue test.isAlwaysFalse
          "Possible infinite loop: condition is always true"
          "Loop condition is always false; the body never runs" mark.place) (ofNode body))
    | .for init test update body =>
      after [.enter .block] (ofNode init ++ after init.events (ofNode test ++ after test.events
        (after (Node.warnIf test.isAlwaysFalse "For loop condition is always false; the loop never runs" mark.place)
          (ofNode update ++ after update.events (ofNode body)))))
    | .return argument => ofNode argument
    | .throw argument => ofNode argument
    | .template _ expressions => ofNodes expressions
    | .assignment _ left right => ofNode right ++ after right.events (ofOther left)
    | .binary _ left right => ofNode left ++ after left.events (ofNode right)
    | .logical _ left right => ofNode left ++ after left.events (ofNode right)
    | .unary _ argument => ofNode argument
    | .update _ _ argument => ofOther argument
    | .conditional test consequent alternate =>
      ofNode test ++ after test.events (ofNode consequent ++ after consequent.events (ofNode alternate))
    | .call callee arguments => ofOther callee ++ after (callee.eventsOr .call callee.events) (ofNodes arguments)
    | .new callee arguments => ofNode callee ++ after callee.events (ofNodes arguments)
    | .member computed object property => ofNode object ++ after object.events (ofComputed computed property)
    | .array elements => ofNodes elements
    | .object properties => ofProperties properties
    | .lambda params body => after [.enter .function] (ofFunction params body)
    | .sequence expressions => ofNodes expressions
    | _ => []

/-- The walk of a site comes to another one after these events. -/
inductive Reaches (s₀ : Site) : List Event → Site → Prop
  | self : Reaches s₀ [] s₀
  | inside {es es' : List Event} {s s' : Site} (h : Reaches s₀ es s) (hs : (es', s') ∈ s.inside) :
      Reaches s₀ (es ++ es') s'

/-- Each site with the events before it stands at the beginning of these events. -/
def Covers (sites : List (List Event × Site)) (es : List Event) : Prop := ∀ s ∈ sites, s.1 ++ s.2.events <+: es

namespace Covers

variable {l l' : List (List Event × Site)} {es es' : List Event}

theorem nil : Covers [] es := fun _ h => by cases h

theorem site (s : Site) : Covers [([], s)] s.events := by
  intro s' hs'
  rw [List.mem_singleton.1 hs']
  exact List.prefix_rfl

theorem extend (h : Covers l es) (es' : List Event) : Covers l (es ++ es') :=
  fun s hs => (h s hs).trans (List.prefix_append _ _)

theorem after (es : List Event) (h : Covers l es') : Covers (Site.after es l) (es ++ es') := by
  intro s hs
  obtain ⟨s', hs', rfl⟩ := List.mem_map.1 hs
  show es ++ s'.1 ++ s'.2.events <+: es ++ es'
  rw [List.append_assoc]
  exact (List.prefix_append_right_inj es).2 (h s' hs')

theorem append (h : Covers l es) (h' : Covers l' es') : Covers (l ++ Site.after es l') (es ++ es') := by
  intro s hs
  rcases List.mem_append.1 hs with hs | hs
  · exact h.extend es' s hs
  · exact h'.after es s hs

theorem node (n : Node) : Covers (ofNode n) n.events := site (.node n)

theorem computed (computed : Bool) (n : Node) : Covers (ofComputed computed n) (if computed then n.events else []) := by
  cases computed with
  | false => exact nil
  | true => exact node n

theorem nodes (ns : List Node) : Covers (ofNodes ns) (Node.eventsAll ns) := by
  induction ns with
  | nil => exact nil
  | cons n ns ih => exact .append (.node n) ih

theorem statements (unreachable : Bool) (ns : List Node) :
    Covers (ofStatements unreachable ns) (Node.eventsStatements unreachable ns) := by
  induction ns generalizing unreachable with
  | nil => exact nil
  | cons n ns ih => exact .after _ (.append (.node n) (ih _))

theorem declarators (kind : DeclKind) (ds : List Declarator) :
    Covers (ofDeclarators kind ds) (Declarator.eventsAll kind ds) := by
  induction ds with
  | nil => exact nil
  | cons d ds ih =>
    rcases d with f | ⟨mark, id, given, init⟩
    · exact ih
    · exact .append ((Covers.node init).extend _) ih

theorem params (ps : List Param) : Covers (ofParams ps) (Param.eventsAll ps) := by
  induction ps with
  | nil => exact nil
  | cons p ps ih =>
    rcases p with f | f | ⟨position, name, default⟩
    · exact ih
    · exact ih
    · exact .append ((Covers.node default).extend _) ih

theorem properties (ps : List Property) : Covers (ofProperties ps) (Property.eventsAll ps) := by
  induction ps with
  | nil => exact nil
  | cons p ps ih =>
    rcases p with f | ⟨mark, computed, key, value⟩
    · exact ih
    · exact .append (.append (.computed computed key) (.node value)) ih

theorem other (n : Node) (byName : Mark → Event) : Covers (ofOther n) (n.eventsOr byName n.events) := by
  rcases n with _ | _ | ⟨mark, form⟩
  · exact .node _
  · exact .node _
  · cases form with
    | identifier => exact nil
    | _ => exact .node _

theorem function (ps : List Param) (body : Node) (es : List Event) : Covers (ofFunction ps body)
    (Param.eventsAll ps ++ body.bodyEvents body.blockEvents body.events ++ es) := by
  refine .extend (.append (.params ps) ?_) es
  rcases body with _ | _ | ⟨mark, form⟩
  · exact nil
  · exact .node _
  · cases form with
    | block ns => exact .site (.block ns)
    | _ => exact .node _

end Covers

theorem covers_inside (s : Site) : Covers s.inside s.events := by
  rcases s with n | ns | ns
  · rcases n with _ | _ | ⟨mark, form⟩
    · exact .nil
    · exact .nil
    · cases form with
      | program ns => exact .after [.global] (.site (.program ns))
      | block ns => exact .after [.enter .block] (.extend (.site (.block ns)) [.leave])
      | expression e => exact .node e
      | declaration kind ds => exact .declarators kind ds
      | function id params body => exact .after [.own mark id params, .enter .function] (.function params body _)
      | classDecl id parent members =>
        exact .after [.classDecl mark id]
          (.append (.node parent) (.after [.enter .classBody] (.extend (.nodes members) [.leave])))
      | method computed key params body =>
        exact .append (.computed computed key) (.after [.enter .function] (.function params body _))
      | «if» test consequent alternate =>
        exact .append (.node test) (.after _ (.append (.node consequent) (.node alternate)))
      | «while» test body => exact .append (.node test) (.after _ (.node body))
      | «for» init test update body =>
        exact .after [.enter .block] (.extend (.append (.node init) (.append (.node test)
          (.after _ (.append (.node update) (.node body))))) [.leave])
      | assignment operator left right => exact .append (.node right) (.other left _)
      | binary operator left right => exact .append (.node left) (.node right)
      | logical operator left right => exact .append (.node left) (.extend (.node right) _)
      | update operator leading argument => exact .other argument _
      | conditional test consequent alternate =>
        exact .append (.node test) (.append (.node consequent) (.extend (.node alternate) _))
      | call callee arguments => exact .append (.other callee _) (.nodes arguments)
      | new callee arguments => exact .append (.node callee) (.nodes arguments)
      | member computed object property => exact .append (.node object) (.computed computed property)
      | object properties => exact .properties properties
      | lambda params body => exact .after [.enter .function] (.function params body _)
      | «return» argument | throw argument | unary _ argument => exact .node argument
      | template _ ns | array ns | sequence ns => exact .nodes ns
      | _ => exact .nil
  · exact .after _ (.nodes ns)
  · exact .after _ (.statements false ns)

theorem Reaches.within {s₀ s : Site} {es : List Event} (h : s₀.Reaches es s) :
    es ++ s.events <+: s₀.events := by
  induction h with
  | self => exact List.prefix_rfl
  | @inside es es' s s' _ hs ih =>
    rw [List.append_assoc]
    exact ((List.prefix_append_right_inj es).2 (s.covers_inside _ hs)).trans ih

end Site

/-! ### Scopes around a visit -/

namespace Event

def isParam : Event → Bool
  | .param .. => true
  | _ => false

/-- Whether an event opens and closes nothing and is no parameter. -/
def isFlat : Event → Bool
  | .enter _ => false
  | .leave => false
  | .param .. => false
  | _ => true

/-- While these events are visited, the scopes around them stay open, and in the end no other scope is. What is visited
in no scope of their own has the property `P`. -/
def Level (P : Event → Prop) (es : List Event) : Prop :=
  ∀ (vs : List Visit) (w w' : Walk), Traces vs w w' → vs.map Visit.event = es →
    w'.stack = w.stack ∧ ∀ v ∈ vs, ∃ inner, v.before.stack = inner ++ w.stack ∧ (inner = [] → P v.event)

namespace Level

variable {P Q : Event → Prop} {es es' : List Event} {e : Event}

theorem nil : Level P [] := by
  intro vs w w' h hvs
  rw [List.map_eq_nil_iff] at hvs
  subst hvs
  exact ⟨h.nil_stack, by simp⟩

theorem mono (h : Level P es) (hP : ∀ e, P e → Q e) : Level Q es := by
  intro vs w w' hvs hes
  obtain ⟨hstack, hall⟩ := h vs w w' hvs hes
  refine ⟨hstack, fun v hv => ?_⟩
  obtain ⟨inner, hinner, hp⟩ := hall v hv
  exact ⟨inner, hinner, fun hnil => hP _ (hp hnil)⟩

theorem append (h : Level P es) (h' : Level P es') : Level P (es ++ es') := by
  intro vs w w' hvs hes
  obtain ⟨vs₁, vs₂, rfl, hes₁, hes₂⟩ := List.map_eq_append_iff.1 hes
  obtain ⟨w₁, hvs₁, hvs₂⟩ := hvs.split
  obtain ⟨hstack₁, hall₁⟩ := h _ _ _ hvs₁ hes₁
  obtain ⟨hstack₂, hall₂⟩ := h' _ _ _ hvs₂ hes₂
  refine ⟨hstack₂.trans hstack₁, fun v hv => ?_⟩
  rcases List.mem_append.1 hv with hv | hv
  · exact hall₁ v hv
  · rw [← hstack₁]
    exact hall₂ v hv

theorem single (henter : ∀ kind, e ≠ .enter kind) (hleave : e ≠ .leave) (he : P e) : Level P [e] := by
  intro vs w w' hvs hes
  obtain ⟨v, rfl, rfl⟩ := List.map_eq_singleton_iff.1 hes
  obtain ⟨hbefore, hdoes, hafter⟩ := hvs.cons_inv
  have hstack : v.after.stack = v.before.stack := by
    obtain ⟨kind, hkind, -⟩ | ⟨hleave', -⟩ | ⟨hacts, houter⟩ := hdoes.cases
    · exact absurd hkind (henter kind)
    · exact absurd hleave' hleave
    · rw [Walk.stack, Walk.stack, houter, hacts.change.2.1]
  refine ⟨hafter.nil_stack.trans (hstack.trans hbefore.nil_stack), fun v' hv' => ?_⟩
  rw [List.mem_singleton.1 hv']
  exact ⟨[], hbefore.nil_stack, fun _ => he⟩

theorem cons (h : Level P [e]) (hes : Level P es) : Level P (e :: es) := append h hes

theorem scope {kind : ScopeKind} (h : Level Q es) (hkind : P (.enter kind)) :
    Level P (.enter kind :: (es ++ [.leave])) := by
  intro vs w w' hvs hes
  obtain ⟨v, vs, rfl, hv, hes⟩ := List.map_eq_cons_iff.1 hes
  obtain ⟨vs₁, vs₂, rfl, hes₁, hes₂⟩ := List.map_eq_append_iff.1 hes
  obtain ⟨u, rfl, hu⟩ := List.map_eq_singleton_iff.1 hes₂
  obtain ⟨hbefore, hdoes, hvs⟩ := hvs.cons_inv
  obtain ⟨w₁, hvs₁, hvs₂⟩ := hvs.split
  obtain ⟨hbefore₂, hdoes₂, hafter⟩ := hvs₂.cons_inv
  rw [hv] at hdoes
  rw [hu] at hdoes₂
  obtain ⟨hstack₁, hall₁⟩ := h _ _ _ hvs₁ hes₁
  -- the stack at the visits inside has the new scope on top of what it was before, which is popped at the end
  have hopen : v.after.stack = v.after.state.current :: w.stack := by
    rw [← hbefore.nil_stack, Walk.stack, Walk.stack]
    exact congrArg (v.after.state.current :: ·) (congrArg Walk.outer hdoes)
  have hinside : u.before.stack = v.after.state.current :: w.stack :=
    hbefore₂.nil_stack.trans (hstack₁.trans hopen)
  have hclose : u.after.stack = w.stack := by
    obtain ⟨i, houter, hstate⟩ := hdoes₂
    rw [Walk.stack, houter] at hinside
    rw [Walk.stack, hstate]
    exact (List.cons.inj hinside).2
  refine ⟨hafter.nil_stack.trans hclose, fun v' hv' => ?_⟩
  rcases List.mem_cons.1 hv' with rfl | hv'
  · exact ⟨[], hbefore.nil_stack, fun _ => hv ▸ hkind⟩
  · rcases List.mem_append.1 hv' with hv' | hv'
    · obtain ⟨inner, hinner, -⟩ := hall₁ v' hv'
      refine ⟨inner ++ [v.after.state.current], ?_, fun hnil => ?_⟩
      · rw [hinner, hopen, List.append_assoc]
        rfl
      · simp at hnil
    · rw [List.mem_singleton.1 hv']
      exact ⟨[v.after.state.current], hinside, fun hnil => by cases hnil⟩

theorem warnIf {b : Bool} {message : String} {place : Except Fault Place} (hP : ∀ m p, P (.warn m p)) :
    Level P (Node.warnIf b message place) := by
  unfold Node.warnIf
  split
  · exact single (by simp) (by simp) (hP ..)
  · exact nil

theorem warnEither {b b' : Bool} {message message' : String} {place : Except Fault Place}
    (hP : ∀ m p, P (.warn m p)) : Level P (Node.warnEither b b' message message' place) := by
  unfold Node.warnEither
  split
  · exact single (by simp) (by simp) (hP ..)
  · exact warnIf hP

theorem eventsOr {n : Node} {byName : Mark → Event} (hname : ∀ mark, Level P [byName mark]) (h : Level P es) :
    Level P (n.eventsOr byName es) := by
  unfold Node.eventsOr
  split
  · exact hname _
  · exact h

theorem named {name : Except Fault Tree} {event : Tree → Event} (h : ∀ t, Level P [event t]) :
    Level P (namedEvents name event) := by
  unfold namedEvents
  split
  · split
    · exact h _
    · exact nil
  · exact nil

theorem ite {b : Bool} (h : Level P es) : Level P (if b then es else []) := by
  split
  · exact h
  · exact nil

theorem hoists (hP : ∀ mark id params, P (.hoist mark id params)) (ns : List Node) : Level P (Node.hoists ns) := by
  induction ns with
  | nil => exact nil
  | cons n ns ih =>
    unfold Node.hoists
    split
    · exact nil
    · rename_i heq
      cases heq
      exact cons (single (by simp) (by simp) (hP ..)) ih
    · rename_i heq
      cases heq
      exact ih

end Level

end Event

open Event (Level)

/-- The events close the scopes that they open, and take no parameter in the scope around them. -/
abbrev Event.Sealed (es : List Event) : Prop := Level (fun e => e.isParam = false) es

theorem Event.sealed_single {e : Event} (h : e.isFlat = true) : Event.Sealed [e] := by
  cases e with
  | enter | leave | param => cases h
  | _ => exact .single (by simp) (by simp) rfl

theorem Event.level_function {ps block other : List Event} {body : Node} {P : Event → Prop}
    (hps : Level (fun _ => True) ps) (hblock : Event.Sealed block)
    (hother : Event.Sealed other) (hP : P (.enter .function)) :
    Level P (.enter .function :: (ps ++ body.bodyEvents block other ++ [.leave])) := by
  have hbody : Event.Sealed (body.bodyEvents block other) := by
    rw [Node.bodyEvents.eq_def]
    split
    · exact .nil
    · exact hblock
    · exact hother
  exact .scope (.append hps (hbody.mono fun _ _ => trivial)) hP

mutual

/-- The walk of a node declares no parameter in the scope around it. -/
theorem Node.sealed : ∀ n : Node, Event.Sealed n.events
  | .absent => .nil
  | .fault _ => .nil
  | .mk mark form => by
    cases form with
    | program body =>
      rw [Node.events]
      exact .cons (Event.sealed_single rfl) (.append (.hoists (fun _ _ _ => rfl) body) (Node.sealed_all body))
    | block body =>
      rw [Node.events]
      exact .scope (.append (.hoists (fun _ _ _ => rfl) body) (Node.sealed_statements false body)) rfl
    | expression e =>
      rw [Node.events]
      exact Node.sealed e
    | declaration kind ds =>
      rw [Node.events]
      exact Declarator.sealed_all kind ds
    | function id params body =>
      rw [Node.events]
      exact .cons (Event.sealed_single rfl)
        (Event.level_function (Param.level_all params) (Node.sealed_block body) (Node.sealed body) rfl)
    | classDecl id parent members =>
      rw [Node.events]
      exact .cons (Event.sealed_single rfl) (.append (Node.sealed parent) (.scope (Node.sealed_all members) rfl))
    | method computed key params body =>
      rw [Node.events]
      exact .append (.ite (Node.sealed key))
        (Event.level_function (Param.level_all params) (Node.sealed_block body) (Node.sealed body) rfl)
    | «if» test consequent alternate =>
      rw [Node.events]
      exact .append (Node.sealed test) (.append (.warnEither fun _ _ => rfl)
        (.append (Node.sealed consequent) (Node.sealed alternate)))
    | «while» test body =>
      rw [Node.events]
      exact .append (Node.sealed test) (.append (.warnEither fun _ _ => rfl) (Node.sealed body))
    | «for» init test update body =>
      rw [Node.events]
      exact .scope (.append (Node.sealed init) (.append (Node.sealed test) (.append (.warnIf fun _ _ => rfl)
        (.append (Node.sealed update) (Node.sealed body))))) rfl
    | «return» argument | throw argument | unary _ argument =>
      rw [Node.events]
      exact Node.sealed argument
    | identifier =>
      rw [Node.events]
      exact Event.sealed_single rfl
    | template _ ns | array ns | sequence ns =>
      rw [Node.events]
      exact Node.sealed_all ns
    | assignment operator left right =>
      rw [Node.events]
      exact .append (Node.sealed right) (.eventsOr (fun _ => Event.sealed_single rfl) (Node.sealed left))
    | binary _ left right =>
      rw [Node.events]
      exact .append (Node.sealed left) (Node.sealed right)
    | logical _ left right =>
      rw [Node.events]
      exact .append (Node.sealed left) (.append (Node.sealed right) (.warnEither fun _ _ => rfl))
    | update _ _ argument =>
      rw [Node.events]
      exact .eventsOr (fun _ => Event.sealed_single rfl) (Node.sealed argument)
    | conditional test consequent alternate =>
      rw [Node.events]
      exact .append (Node.sealed test) (.append (Node.sealed consequent)
        (.append (Node.sealed alternate) (.warnEither fun _ _ => rfl)))
    | call callee ns =>
      rw [Node.events]
      exact .append (.eventsOr (fun _ => Event.sealed_single rfl) (Node.sealed callee)) (Node.sealed_all ns)
    | new callee ns =>
      rw [Node.events]
      exact .append (Node.sealed callee) (Node.sealed_all ns)
    | member computed object property =>
      rw [Node.events]
      exact .append (Node.sealed object) (.ite (Node.sealed property))
    | object properties =>
      rw [Node.events]
      exact Property.sealed_all properties
    | lambda params body =>
      rw [Node.events]
      exact Event.level_function (Param.level_all params) (Node.sealed_block body) (Node.sealed body) rfl
    | «break» _ | «continue» _ | empty | literal _ _ | this | unknown => exact .nil

theorem Node.sealed_all : ∀ ns : List Node, Event.Sealed (Node.eventsAll ns)
  | [] => .nil
  | n :: rest => .append (Node.sealed n) (Node.sealed_all rest)

theorem Node.sealed_statements (unreachable : Bool) : ∀ ns : List Node,
    Event.Sealed (Node.eventsStatements unreachable ns)
  | [] => .nil
  | n :: rest => .append (.warnIf fun _ _ => rfl) (.append (Node.sealed n) (Node.sealed_statements _ rest))

theorem Node.sealed_block : ∀ n : Node, Event.Sealed n.blockEvents
  | .absent => .nil
  | .fault _ => .nil
  | .mk mark form => by
    cases form with
    | block body => exact .append (.hoists (fun _ _ _ => rfl) body) (Node.sealed_statements false body)
    | _ => exact .nil

theorem Declarator.sealed_all (kind : DeclKind) : ∀ ds : List Declarator,
    Event.Sealed (Declarator.eventsAll kind ds)
  | [] => .nil
  | d :: rest => .append (Declarator.sealed kind d) (Declarator.sealed_all kind rest)

theorem Declarator.sealed (kind : DeclKind) : ∀ d : Declarator, Event.Sealed (d.events kind)
  | .fault _ => .nil
  | .mk _ _ _ init => .append (Node.sealed init) (.named fun _ => Event.sealed_single rfl)

theorem Param.level_all : ∀ ps : List Param, Level (fun _ => True) (Param.eventsAll ps)
  | [] => .nil
  | p :: rest => .append (Param.level p) (Param.level_all rest)

theorem Param.level : ∀ p : Param, Level (fun _ => True) p.events
  | .fault _ => .nil
  | .absent _ => .nil
  | .mk _ _ default =>
    .append ((Node.sealed default).mono fun _ _ => trivial) (.named fun _ => .single (by simp) (by simp) trivial)

theorem Property.sealed_all : ∀ ps : List Property, Event.Sealed (Property.eventsAll ps)
  | [] => .nil
  | p :: rest => .append (Property.sealed p) (Property.sealed_all rest)

theorem Property.sealed : ∀ p : Property, Event.Sealed p.events
  | .fault _ => .nil
  | .mk _ _ key value => .append (.ite (Node.sealed key)) (Node.sealed value)

end

theorem Site.sealed : ∀ s : Site, Event.Sealed s.events
  | .node n => n.sealed
  | .program ns => .append (.hoists (fun _ _ _ => rfl) ns) (Node.sealed_all ns)
  | .block ns => .append (.hoists (fun _ _ _ => rfl) ns) (Node.sealed_statements false ns)

end QuadScript
