import QuadScript.Proofs.Events
import QuadScript.Proofs.Lowering
import Mathlib.Data.List.Basic

/-!
# Programs that are read to the end

Where a tree is malformed its program has a fault, and the walk or the lowering fails when it comes there. A program
is readable if there is no fault in it and what it holds beside its nodes is of the right sort: names are texts,
operators are texts, positions can be told. The walk of a readable program succeeds and reports nothing fatal
(`Analyze.visit_safe`), and so does its lowering (`Lower.stmt_succeeds`), whatever the nodes are and wherever they
stand.
-/

namespace QuadScript

/-! ### Readable nodes -/

/-- A name, or nothing in its place. -/
def Tree.IsWord (t : Tree) : Prop := t = .null ∨ ∃ s, t = .str s

theorem Tree.IsWord.isName {t : Tree} (h : t.IsWord) : t.isName = true := by
  obtain rfl | ⟨s, rfl⟩ := h
  · rfl
  · rfl

theorem Tree.IsWord.append {t : Tree} (h : t.IsWord) (ht : t.truthy = true) (s : String) :
    ∃ u, Tree.append s t = .ok u := by
  obtain rfl | ⟨u, rfl⟩ := h
  · cases ht
  · exact ⟨_, rfl⟩

structure Mark.Readable (m : Mark) : Prop where
  kind : ∃ k, m.kind = some (.str k)
  name : ∀ t ∈ m.name, ∃ s, t = .str s
  position : ∃ p, m.position = .ok p

namespace Form

/-- The nodes that stand in a form, without those in parameters, declarators and properties; the body of a method only
if that counts. -/
def nodes (methods : Bool) : Form → List Node
  | .program body => body
  | .block body => body
  | .expression e => [e]
  | .declaration _ _ => []
  | .function id _ body => [id, body]
  | .classDecl id parent members => id :: parent :: members
  | .method _ key _ body => if methods then [key, body] else [key]
  | .if test consequent alternate => [test, consequent, alternate]
  | .while test body => [test, body]
  | .for init test step body => [init, test, step, body]
  | .return argument => [argument]
  | .break _ => []
  | .continue _ => []
  | .empty => []
  | .throw argument => [argument]
  | .identifier => []
  | .literal _ _ => []
  | .template _ expressions => expressions
  | .assignment _ left right => [left, right]
  | .binary _ left right => [left, right]
  | .logical _ left right => [left, right]
  | .unary _ argument => [argument]
  | .update _ _ argument => [argument]
  | .conditional test consequent alternate => [test, consequent, alternate]
  | .call callee arguments => callee :: arguments
  | .new callee arguments => callee :: arguments
  | .member _ obj property => [obj, property]
  | .array elements => elements
  | .object _ => []
  | .lambda _ body => [body]
  | .sequence expressions => expressions
  | .this => []
  | .unknown => []

def declarators : Form → List Declarator
  | .declaration _ ds => ds
  | _ => []

def params : Form → List Param
  | .function _ ps _ => ps
  | .method _ _ ps _ => ps
  | .lambda ps _ => ps
  | _ => []

def properties : Form → List Property
  | .object ps => ps
  | _ => []

/-- What a form holds beside nodes is of the right sort; an identifier has a name. -/
def Proper (mark : Mark) : Form → Prop
  | .identifier => mark.name.isSome = true
  | .literal _ value => value.isName = true
  | .template text _ => ∃ s, text = .ok s
  | .assignment operator _ _ => ∃ s, operator = .str s
  | .binary operator _ _ => operator.isName = true
  | .unary operator _ => operator.isName = true
  | _ => True

end Form

mutual

/-- Nothing in the node is a fault, and what it holds beside nodes is of the right sort. The lowering skips methods,
so that their bodies count only if `methods` says so. -/
inductive Node.Readable (methods : Bool) : Node → Prop
  | absent : Node.Readable methods .absent
  | mk {mark : Mark} {form : Form} (mark_readable : mark.Readable) (proper : form.Proper mark)
      (nodes : ∀ n ∈ form.nodes methods, Node.Readable methods n)
      (declarators : ∀ d ∈ form.declarators, Declarator.Readable methods d)
      (params : ∀ p ∈ form.params, Param.Readable methods p)
      (properties : ∀ p ∈ form.properties, Property.Readable methods p) : Node.Readable methods (.mk mark form)

inductive Declarator.Readable (methods : Bool) : Declarator → Prop
  | mk {mark : Mark} {id init : Node} {given : Bool} (position : ∃ p, mark.position = .ok p)
      (id_readable : Node.Readable methods id) (init_readable : Node.Readable methods init) :
      Declarator.Readable methods (.mk mark id given init)

inductive Param.Readable (methods : Bool) : Param → Prop
  | mk {position : Except Fault Position} {name : Tree} {default : Node} (position_ok : ∃ p, position = .ok p)
      (word : name.IsWord) (default_readable : Node.Readable methods default) :
      Param.Readable methods (.mk position (.ok name) default)

inductive Property.Readable (methods : Bool) : Property → Prop
  | mk {mark : Mark} {computed : Bool} {key value : Node} (position : ∃ p, mark.position = .ok p)
      (key_readable : Node.Readable methods key) (value_readable : Node.Readable methods value) :
      Property.Readable methods (.mk mark computed key value)

end

theorem Mark.place_ok {m : Mark} (h : ∃ p, m.position = .ok p) : ∃ p, m.place = .ok p := by
  obtain ⟨p, hp⟩ := h
  exact ⟨_, by rw [Mark.place, hp]; rfl⟩

theorem Mark.Readable.nameTree {m : Mark} (h : m.Readable) : m.nameTree.IsWord := by
  unfold Mark.nameTree
  cases hname : m.name with
  | none => exact .inl rfl
  | some t => exact .inr (h.name t hname)

theorem Node.Readable.mark? {methods : Bool} {n : Node} (h : n.Readable methods) : ∃ m, n.mark? = .ok m := by
  cases h with
  | absent => exact ⟨_, rfl⟩
  | mk => exact ⟨_, rfl⟩

theorem Node.Readable.nameTree {methods : Bool} {n : Node} (h : n.Readable methods) :
    ∃ t, n.nameTree = .ok t ∧ t.IsWord := by
  cases h with
  | absent => exact ⟨_, rfl, .inl rfl⟩
  | mk hmark => exact ⟨_, rfl, hmark.nameTree⟩

theorem Node.Readable.place {methods : Bool} {n : Node} (h : n.Readable methods) : ∃ p, n.place = .ok p := by
  cases h with
  | absent => exact ⟨_, rfl⟩
  | mk hmark => exact Mark.place_ok hmark.position

theorem Node.Readable.propertyName {methods : Bool} {key : Node} (h : key.Readable methods) (computed : Bool) :
    ∃ t, Analyze.propertyName computed key = .ok t ∧ t.isName = true := by
  unfold Analyze.propertyName
  split
  · cases h
  · cases h with
    | mk hmark => cases computed with
      | true => exact ⟨_, rfl, rfl⟩
      | false => exact ⟨_, rfl, hmark.nameTree.isName⟩
  · cases h with
    | mk _ proper => exact ⟨_, rfl, proper⟩
  · exact ⟨_, rfl, rfl⟩

theorem Key.ofTree_ok {t : Tree} (h : t.isName = true) (place : Nat) : ∃ k, Key.ofTree place t = .ok k := by
  cases t with
  | list => cases h
  | record => cases h
  | _ => exact ⟨_, rfl⟩

theorem mapM_ok {α β : Type} {f : α → Except Fault β} {l : List α} (h : ∀ a ∈ l, ∃ b, f a = .ok b) :
    ∃ bs, l.mapM f = .ok bs := by
  induction l with
  | nil => exact ⟨[], rfl⟩
  | cons a rest ih =>
    obtain ⟨b, hb⟩ := h a List.mem_cons_self
    obtain ⟨bs, hbs⟩ := ih fun a' ha' => h a' (List.mem_cons_of_mem _ ha')
    exact ⟨b :: bs, by rw [List.mapM_cons, hb, hbs]; rfl⟩

/-! ### The walk -/

namespace Analyze

variable {α β : Type}

/-- An action succeeds from every state, and what it reports is not fatal. -/
structure Safe (x : Analyze α) : Prop where
  run (σ : AnalysisState) : ∃ a τ, x σ = .ok (a, τ) ∧
    Diagnostic.fatalCount τ.diagnostics = Diagnostic.fatalCount σ.diagnostics

namespace Safe

theorem pure (a : α) : Safe (Pure.pure a) := ⟨fun _ => ⟨_, _, rfl, rfl⟩⟩

theorem bind {x : Analyze α} {f : α → Analyze β} (hx : Safe x) (hf : ∀ a, Safe (f a)) : Safe (x >>= f) where
  run σ := by
    obtain ⟨a, ρ, ha, hρ⟩ := hx.run σ
    obtain ⟨b, τ, hb, hτ⟩ := (hf a).run ρ
    refine ⟨b, τ, ?_, hτ.trans hρ⟩
    change (x σ >>= fun r => f r.1 r.2) = _
    rw [ha]
    exact hb

theorem lift {y : Except Fault α} {f : α → Analyze β} {a : α} (hy : y = .ok a) (hf : Safe (f a)) :
    Safe (liftM y >>= f) := by
  subst hy
  exact ⟨hf.run⟩

theorem ite {b : Prop} [Decidable b] {x y : Analyze α} (hx : Safe x) (hy : Safe y) : Safe (if b then x else y) := by
  split
  · exact hx
  · exact hy

theorem get : Safe (MonadState.get : Analyze AnalysisState) := ⟨fun _ => ⟨_, _, rfl, rfl⟩⟩

theorem change {f : AnalysisState → AnalysisState} (hf : ∀ σ, (f σ).diagnostics = σ.diagnostics) :
    Safe (modify f : Analyze Unit) :=
  ⟨fun σ => ⟨_, _, rfl, congrArg Diagnostic.fatalCount (hf σ)⟩⟩

theorem report (severity : Severity) (message : String) {place : Except Fault Place} (h : ∃ p, place = .ok p) :
    Safe (Analyze.report severity message place) := by
  obtain ⟨p, hp⟩ := h
  refine lift hp ⟨fun σ => ⟨_, _, rfl, ?_⟩⟩
  simp [Diagnostic.fatalCount]

theorem record (mark : Mark) (kind : Option Kind) : Safe (Analyze.record mark kind) := by
  cases kind with
  | none => exact .pure _
  | some k => exact .bind (.change fun _ => rfl) fun _ => .pure _

theorem result (mark : Mark) (kind : Option Kind) : Safe (do let kind ← Pure.pure kind; Analyze.record mark kind) :=
  .bind (.pure kind) fun _ => .record ..

theorem inScope {kind : ScopeKind} {x : Analyze α} (hx : Safe x) : Safe (Analyze.inScope kind x) :=
  .bind (.change fun _ => rfl) fun _ => .bind hx fun a => .bind (.change fun _ => rfl) fun _ => .pure a

theorem inFunction {owner : Option Nat} {x : Analyze Unit} (hx : Safe x) : Safe (Analyze.inFunction owner x) :=
  .inScope (.bind (.change fun _ => rfl) fun _ => .bind hx fun _ => .bind .get fun _ =>
    .bind (.change fun _ => rfl) fun _ => .pure _)

theorem modifySymbol (n : Nat) (f : Symbol → Symbol) : Safe (Analyze.modifySymbol n f) := .change fun _ => rfl

theorem define (scope : Nat) (y : Symbol) : Safe (Analyze.define scope y) :=
  .bind .get fun _ => .bind (.change fun _ => rfl) fun _ => .pure _

theorem markReturn : Safe Analyze.markReturn := .change fun _ => rfl

theorem keyAt {name : Tree} (h : name.isName = true) (place : Nat) : Safe (liftM (Key.ofTree place name)) := by
  obtain ⟨k, hk⟩ := Key.ofTree_ok h place
  rw [hk]
  exact .pure k

theorem key {mark : Mark} {name : Tree} (h : name.isName = true) : Safe (Analyze.key mark name) := .keyAt h _

theorem lookup {mark : Mark} (h : mark.nameTree.isName = true) : Safe (Analyze.lookup mark) :=
  .bind (.key h) fun _ => .bind .get fun _ => .pure _

theorem hoistFunction {mark : Mark} {id : Node} {params : List Param} (hm : mark.Readable) (hid : id.Readable true)
    (hp : ∀ p ∈ params, p.Readable true) : Safe (Analyze.hoistFunction mark id params) := by
  obtain ⟨name, hname, hword⟩ := hid.nameTree
  obtain ⟨position, hposition⟩ := hm.position
  obtain ⟨names, hnames⟩ : ∃ names, params.mapM Analyze.paramName = .ok names := by
    refine mapM_ok fun p h => ?_
    obtain ⟨-, -, -⟩ := hp p h
    exact ⟨_, rfl⟩
  refine .lift hname (.ite ?_ (.pure ()))
  refine .lift hposition (.lift hnames (.bind (.key hword.isName) fun _ => .bind .get fun _ => ?_))
  refine .bind (.define ..) fun conflict => ?_
  cases conflict with
  | none => exact .pure ()
  | some c => exact .report _ _ (Mark.place_ok hm.position)

theorem functionOwner {mark : Mark} {id : Node} {params : List Param} (hm : mark.Readable) (hid : id.Readable true)
    (hp : ∀ p ∈ params, p.Readable true) : Safe (Analyze.functionOwner mark id params) := by
  obtain ⟨name, hname, hword⟩ := hid.nameTree
  refine .lift hname (.ite (.pure none) (.bind (.key hword.isName) fun k => .bind .get fun σ => ?_))
  split
  · exact .pure _
  · exact .bind (.hoistFunction hm hid hp) fun _ => .bind .get fun _ => .pure _

theorem declareVariable {mark : Mark} {name : Tree} (hm : ∃ p, mark.position = .ok p) (hname : name.IsWord)
    (kind : DeclKind) (given : Bool) (inferred : Kind) :
    Safe (Analyze.declareVariable mark name kind given inferred) := by
  obtain ⟨position, hposition⟩ := hm
  have hplace := Mark.place_ok ⟨position, hposition⟩
  refine .lift hposition (.ite (.bind (.report _ _ hplace) fun _ => ?_) ?_)
  all_goals
    refine .bind .get fun σ => .bind (.key hname.isName) fun k => .bind (.define ..) fun conflict => ?_
    cases conflict with
    | none => exact .pure ()
    | some c => exact .bind .get fun _ => .ite (.report _ _ hplace) (.report _ _ hplace)

theorem declareParam {position : Except Fault Position} {name : Tree} (hp : ∃ p, position = .ok p)
    (hname : name.IsWord) : Safe (Analyze.declareParam position name) := by
  obtain ⟨p, hp⟩ := hp
  refine .ite (.lift hp (.bind (.bind .get fun _ => .keyAt hname.isName _) fun _ => .bind .get fun _ => ?_)) (.pure ())
  exact .bind (.define ..) fun _ => .pure ()

theorem declareClass {mark : Mark} {id : Node} (hm : mark.Readable) (hid : id.Readable true) :
    Safe (Analyze.declareClass mark id) := by
  obtain ⟨name, hname, hword⟩ := hid.nameTree
  obtain ⟨position, hposition⟩ := hm.position
  refine .lift hname (.ite ?_ (.pure ()))
  refine .lift hposition (.bind (.key hword.isName) fun _ => .bind .get fun _ => .bind (.define ..) fun conflict => ?_)
  cases conflict with
  | none => exact .pure ()
  | some c => exact .report _ _ (Mark.place_ok hm.position)

theorem visitIdentifier {mark : Mark} (hm : mark.Readable) : Safe (Analyze.visitIdentifier mark) := by
  have hplace := Mark.place_ok hm.position
  refine .bind (.lookup hm.nameTree.isName) fun found => ?_
  cases found with
  | none => exact .bind (.report _ _ hplace) fun _ => .pure _
  | some found =>
    exact .bind (.modifySymbol ..) fun _ => .ite (.bind (.report _ _ hplace) fun _ => .pure _) (.pure _)

theorem assignVariable {mark : Mark} (hm : mark.Readable) : Safe (Analyze.assignVariable mark) := by
  have hplace := Mark.place_ok hm.position
  refine .bind (.lookup hm.nameTree.isName) fun found => ?_
  cases found with
  | none => exact .report _ _ hplace
  | some found =>
    have hflag := Safe.ite (b := found.2.kind = .let || found.2.kind = .var || found.2.kind = .const)
      (.modifySymbol found.1 fun s => { s with initialized := true }) (.pure ())
    exact .ite (.bind (.report _ _ hplace) fun _ => hflag) hflag

theorem updateVariable {mark : Mark} (hm : mark.Readable) : Safe (Analyze.updateVariable mark) := by
  have hplace := Mark.place_ok hm.position
  refine .bind (.lookup hm.nameTree.isName) fun found => ?_
  cases found with
  | none => exact .report _ _ hplace
  | some found => exact .ite (.report _ _ hplace) (.modifySymbol ..)

theorem namedFunction {mark : Mark} (hm : mark.Readable) : Safe (Analyze.namedFunction mark) := by
  have hplace := Mark.place_ok hm.position
  refine .bind (.lookup hm.nameTree.isName) fun found => ?_
  cases found with
  | none => exact .bind (.report _ _ hplace) fun _ => .pure _
  | some found =>
    exact .bind (.modifySymbol ..) fun _ => .ite (.bind (.report _ _ hplace) fun _ => .pure _) (.pure _)

section Checks

variable {place : Except Fault Place}

theorem checkNumeric (operand : Node) (h : ∃ p, place = .ok p) : Safe (Analyze.checkNumeric operand place) :=
  .ite (.report _ _ h) (.pure ())

theorem checkAddition (left right : Node) (h : ∃ p, place = .ok p) : Safe (Analyze.checkAddition left right place) := by
  unfold Analyze.checkAddition
  split
  · exact .report _ _ h
  · exact .pure ()

theorem unaryKind (operator : Tree) (argument : Node) (h : ∃ p, place = .ok p) :
    Safe (Analyze.unaryKind operator argument place) := by
  refine .ite (.ite (.bind (.report _ _ h) fun _ => .pure _) (.pure _)) (.ite (.pure _) (.ite ?_ (.ite ?_ ?_)))
  · exact .bind (.checkNumeric _ h) fun _ => .pure _
  · split
    · exact .bind (.report _ _ h) fun _ => .pure _
    · exact .pure _
  · exact .ite (.pure _) (.pure _)

theorem callKind (called : Option Nat) (count : Nat) (h : ∃ p, place = .ok p) :
    Safe (Analyze.callKind called count place) := by
  refine .bind .get fun σ => ?_
  split
  · rename_i symbol _
    refine .bind ?_ fun _ => .pure _
    unfold Analyze.checkCount
    split
    · exact .ite (.pure ()) (.report _ _ h)
    · exact .pure ()
  · exact .pure _

theorem warnIf {b : Bool} {message : String} {x : Analyze α} (h : ∃ p, place = .ok p) (hx : Safe x) :
    Safe (if b then (do Analyze.warning message place; x) else x) :=
  .ite (.bind (.report _ _ h) fun _ => hx) hx

theorem warnEither {b b' : Bool} {message message' : String} {x : Analyze α} (h : ∃ p, place = .ok p) (hx : Safe x) :
    Safe (if b then (do Analyze.warning message place; x) else
      if b' then (do Analyze.warning message' place; x) else x) :=
  .ite (.bind (.report _ _ h) fun _ => hx) (.warnIf h hx)

theorem checkDuplicate (names : List Key) {name : Tree} (hname : name.isName = true) (h : ∃ p, place = .ok p) :
    Safe (Analyze.checkDuplicate names name place) := by
  unfold Analyze.checkDuplicate
  split
  · exact .pure _
  · obtain ⟨k, hk⟩ := Key.ofTree_ok hname names.length
    exact .lift hk (.warnIf h (.pure _))

end Checks

theorem checkConsole {mark : Mark} {object property : Node} (hm : mark.Readable) (hp : property.Readable true) :
    Safe (Analyze.checkConsole mark object property) := by
  obtain ⟨name, hname, -⟩ := hp.nameTree
  unfold Analyze.checkConsole
  split
  · exact .ite (.lift hname (.ite (.report _ _ (Mark.place_ok hm.position)) (.pure ()))) (.pure ())
  · exact .pure ()

theorem returned {mark : Mark} (hm : mark.Readable) (kind : Kind) : Safe (Analyze.returned mark kind) := by
  refine .bind .get fun σ => ?_
  split
  · exact .report _ _ (Mark.place_ok hm.position)
  · refine .bind .markReturn fun _ => ?_
    split
    · exact .modifySymbol ..
    · exact .pure ()

theorem variableOr {n : Node} {byName : Mark → Analyze Unit} {other : Analyze Unit} (hn : n.Readable true)
    (h : ∀ mark : Mark, mark.Readable → Safe (byName mark)) (ho : Safe other) :
    Safe (Analyze.variableOr n byName other) := by
  unfold Analyze.variableOr
  split
  · cases hn with
    | mk hmark => exact h _ hmark
  · exact ho

theorem calledSymbol {n : Node} {other : Analyze Unit} (hn : n.Readable true) (ho : Safe other) :
    Safe (Analyze.calledSymbol n other) := by
  unfold Analyze.calledSymbol
  split
  · cases hn with
    | mk hmark => exact .namedFunction hmark
  · exact .bind ho fun _ => .pure _

theorem function {owner : Option Nat} {params : List Param} {body : Node} (hp : Safe (visitParams params))
    (hb : Safe (visitBlock body)) (ho : Safe (visit body)) :
    Safe (Analyze.inFunction owner do
      visitParams params
      Analyze.functionBody body (visitBlock body) (do let _ ← visit body)) := by
  refine .inFunction (.bind hp fun _ => ?_)
  unfold Analyze.functionBody
  split
  · exact .pure ()
  · exact hb
  · exact .bind .markReturn fun _ => .bind ho fun _ => .pure ()

theorem hoistFunctions : ∀ ns : List Node, (∀ n ∈ ns, n.Readable true) → Safe (Analyze.hoistFunctions ns)
  | [], _ => .pure ()
  | n :: rest, h => by
    have hrest := hoistFunctions rest fun n hn => h n (List.mem_cons_of_mem _ hn)
    unfold Analyze.hoistFunctions
    split
    · cases h _ List.mem_cons_self
    · cases h _ List.mem_cons_self with
      | mk hmark _ nodes _ params _ =>
        exact .bind (.hoistFunction hmark (nodes _ List.mem_cons_self) params) fun _ => hrest
    · exact .bind (.pure ()) fun _ => hrest

end Safe

mutual

/-- The walk of a readable node succeeds. -/
theorem visit_safe : ∀ n : Node, n.Readable true → Safe (visit n)
  | .absent, _ => .pure none
  | .fault f, h => by cases h
  | .mk mark form, .mk hmark _ nodes declarators params properties => by
    have hplace := Mark.place_ok hmark.position
    have hnodes := List.forall_iff_forall_mem.2 nodes
    -- a walk fails only where a record cannot be read, which readability excludes for all that the form looks at
    cases form with
    | program body =>
      rw [visit]
      refine .bind (.change fun _ => rfl) fun _ => .bind (.hoistFunctions body nodes) fun _ => ?_
      exact .bind (visitAll_safe body nodes) fun _ => .result ..
    | block body =>
      rw [visit]
      refine .bind (.inScope (.bind (.hoistFunctions body nodes) fun _ => ?_)) fun _ => .result ..
      exact visitStatements_safe false body nodes
    | expression e =>
      rw [visit]
      exact .bind (visit_safe e hnodes) fun _ => .result ..
    | declaration kind ds =>
      rw [visit]
      exact .bind (visitDeclarators_safe kind ds declarators) fun _ => .result ..
    | function id ps body =>
      rw [visit]
      obtain ⟨hid, hbody⟩ := hnodes
      obtain ⟨name, hname, -⟩ := hid.nameTree
      refine .lift hname (.bind (.functionOwner hmark hid params) fun owner => ?_)
      refine .bind (.function (visitParams_safe ps params) (visitBlock_safe body hbody) (visit_safe body hbody)) fun _ => ?_
      exact .warnIf hplace (.result ..)
    | classDecl id parent members =>
      rw [visit]
      simp only [Form.nodes, List.forall_mem_cons] at nodes
      obtain ⟨hid, hparent, hmembers⟩ := nodes
      refine .bind (.declareClass hmark hid) fun _ => .bind (visit_safe parent hparent) fun _ => ?_
      exact .bind (.inScope (visitAll_safe members hmembers)) fun _ => .result ..
    | method computed key ps body =>
      rw [visit]
      obtain ⟨hkey, hbody⟩ := hnodes
      have hfunction := (@Safe.function none _ _ (visitParams_safe ps params) (visitBlock_safe body hbody)
        (visit_safe body hbody)).bind fun _ => .result mark none
      exact .ite (.bind (visit_safe key hkey) fun _ => hfunction) hfunction
    | «if» test consequent alternate =>
      rw [visit]
      obtain ⟨htest, hconsequent, halternate⟩ := hnodes
      refine .bind (visit_safe test htest) fun _ => .warnEither hplace ?_
      refine .bind (visit_safe consequent hconsequent) fun _ => ?_
      exact .bind (visit_safe alternate halternate) fun _ => .result ..
    | «while» test body =>
      rw [visit]
      obtain ⟨htest, hbody⟩ := hnodes
      refine .bind (visit_safe test htest) fun _ => .warnEither hplace ?_
      exact .bind (visit_safe body hbody) fun _ => .result ..
    | «for» init test update body =>
      rw [visit]
      obtain ⟨hinit, htest, hupdate, hbody⟩ := hnodes
      refine .bind (.inScope (.bind (visit_safe init hinit) fun _ => ?_)) fun _ =>
        .result ..
      refine .bind (visit_safe test htest) fun _ => .warnIf hplace ?_
      refine .bind (visit_safe update hupdate) fun _ => ?_
      exact .bind (visit_safe body hbody) fun _ => .pure ()
    | «return» argument =>
      rw [visit]
      refine .bind (visit_safe argument hnodes) fun kind => ?_
      exact .bind (.returned hmark _) fun _ => .result ..
    | throw argument =>
      rw [visit]
      exact .bind (visit_safe argument hnodes) fun _ => .result ..
    | identifier =>
      rw [visit]
      exact .bind (.visitIdentifier hmark) fun _ => .result ..
    | template text expressions =>
      rw [visit]
      exact .bind (visitAll_safe expressions nodes) fun _ => .result ..
    | assignment operator left right =>
      rw [visit]
      obtain ⟨hleft, hright⟩ := hnodes
      refine .bind (visit_safe right hright) fun kind => ?_
      refine .bind (.variableOr hleft (fun _ h => .assignVariable h) (.bind (visit_safe left hleft) fun _ => .pure ()))
        fun _ => ?_
      refine .ite (.bind (.checkAddition _ _ hplace) fun _ => .result ..) (.ite ?_ (.result ..))
      exact .bind (.checkNumeric _ hplace) fun _ => .bind (.checkNumeric _ hplace) fun _ => .result ..
    | binary operator left right =>
      rw [visit]
      obtain ⟨hleft, hright⟩ := hnodes
      refine .bind (visit_safe left hleft) fun _ => ?_
      exact .bind (visit_safe right hright) fun _ => .result ..
    | logical operator left right =>
      rw [visit]
      obtain ⟨hleft, hright⟩ := hnodes
      refine .bind (visit_safe left hleft) fun _ => ?_
      refine .bind (visit_safe right hright) fun _ => ?_
      exact .warnEither hplace (.result ..)
    | unary operator argument =>
      rw [visit]
      refine .bind (visit_safe argument hnodes) fun _ => ?_
      exact .bind (.unaryKind _ _ hplace) fun _ => .result ..
    | update operator leading argument =>
      rw [visit]
      exact .bind (.variableOr hnodes (fun _ h => .updateVariable h)
        (.bind (visit_safe argument hnodes) fun _ => .pure ())) fun _ => .result ..
    | conditional test consequent alternate =>
      rw [visit]
      obtain ⟨htest, hconsequent, halternate⟩ := hnodes
      refine .bind (visit_safe test htest) fun _ => ?_
      refine .bind (visit_safe consequent hconsequent) fun _ => ?_
      refine .bind (visit_safe alternate halternate) fun _ => ?_
      exact .warnEither hplace (.result ..)
    | call callee arguments =>
      rw [visit]
      obtain ⟨hcallee, harguments⟩ := List.forall_mem_cons.1 nodes
      refine .bind (.calledSymbol hcallee (.bind (visit_safe callee hcallee) fun _ => .pure ())) fun _ => ?_
      refine .bind (visitAll_safe arguments harguments) fun _ => ?_
      exact .bind (.callKind _ _ hplace) fun _ => .result ..
    | new callee arguments =>
      rw [visit]
      obtain ⟨hcallee, harguments⟩ := List.forall_mem_cons.1 nodes
      refine .bind (visit_safe callee hcallee) fun _ => ?_
      exact .bind (visitAll_safe arguments harguments) fun _ => .result ..
    | member computed object property =>
      rw [visit]
      obtain ⟨hobject, hproperty⟩ := hnodes
      refine .bind (visit_safe object hobject) fun _ => .ite ?_ ?_
      · exact .bind (visit_safe property hproperty) fun _ => .result ..
      · exact .bind (.checkConsole hmark hproperty) fun _ => .result ..
    | array elements =>
      rw [visit]
      exact .bind (visitAll_safe elements nodes) fun _ => .result ..
    | object ps =>
      rw [visit]
      exact .bind (visitProperties_safe [] ps properties) fun _ => .result ..
    | lambda ps body =>
      rw [visit]
      exact .bind (.function (visitParams_safe ps params) (visitBlock_safe body hnodes) (visit_safe body hnodes)) fun _ =>
        .result ..
    | sequence expressions =>
      rw [visit]
      exact .bind (visitLast_safe none expressions nodes) fun _ => .record ..
    | unknown =>
      rw [visit]
      obtain ⟨k, hk⟩ := hmark.kind
      simp only [hk, Option.getD_some, Tree.isName, Bool.not_true, Bool.false_eq_true, if_false]
      exact .bind (.report _ _ hplace) fun _ => .result ..
    | «break» | «continue» | empty | literal | this =>
      rw [visit]
      exact .result ..

theorem visitAll_safe : ∀ ns : List Node, (∀ n ∈ ns, n.Readable true) → Safe (visitAll ns)
  | [], _ => .pure ()
  | n :: rest, h =>
    .bind (visit_safe n (h n List.mem_cons_self)) fun _ =>
      visitAll_safe rest fun m hm => h m (List.mem_cons_of_mem _ hm)

theorem visitLast_safe (last : Option Kind) : ∀ ns : List Node, (∀ n ∈ ns, n.Readable true) → Safe (visitLast last ns)
  | [], _ => .pure last
  | n :: rest, h =>
    .bind (visit_safe n (h n List.mem_cons_self)) fun kind =>
      visitLast_safe kind rest fun m hm => h m (List.mem_cons_of_mem _ hm)

theorem visitStatements_safe (unreachable : Bool) : ∀ ns : List Node, (∀ n ∈ ns, n.Readable true) →
    Safe (visitStatements unreachable ns)
  | [], _ => .pure ()
  | n :: rest, h => by
    have hn := h n List.mem_cons_self
    refine .warnIf hn.place (.bind (visit_safe n hn) fun _ => ?_)
    exact visitStatements_safe _ rest fun m hm => h m (List.mem_cons_of_mem _ hm)

theorem visitBlock_safe : ∀ n : Node, n.Readable true → Safe (visitBlock n)
  | .absent, _ => .pure ()
  | .fault _, _ => .pure ()
  | .mk mark form, .mk _ _ nodes _ _ _ => by
    cases form with
    | block body =>
      exact .bind (.hoistFunctions body nodes) fun _ => visitStatements_safe false body nodes
    | _ => exact .pure ()

theorem visitDeclarators_safe (kind : DeclKind) : ∀ ds : List Declarator, (∀ d ∈ ds, d.Readable true) →
    Safe (visitDeclarators kind ds)
  | [], _ => .pure ()
  | d :: rest, h =>
    .bind (visitDeclarator_safe kind d (h d List.mem_cons_self)) fun _ =>
      visitDeclarators_safe kind rest fun d hd => h d (List.mem_cons_of_mem _ hd)

theorem visitDeclarator_safe (kind : DeclKind) : ∀ d : Declarator, d.Readable true → Safe (visitDeclarator kind d)
  | .fault f, h => by cases h
  | .mk mark id given init, h => by
    obtain ⟨hposition, hid, hinit⟩ := h
    obtain ⟨name, hname, hword⟩ := hid.nameTree
    rw [visitDeclarator]
    refine .lift hname (.bind (visit_safe init hinit) fun inferred => ?_)
    exact .ite (.declareVariable hposition hword ..) (.pure ())

theorem visitParams_safe : ∀ ps : List Param, (∀ p ∈ ps, p.Readable true) → Safe (visitParams ps)
  | [], _ => .pure ()
  | p :: rest, h =>
    .bind (visitParam_safe p (h p List.mem_cons_self)) fun _ =>
      visitParams_safe rest fun p hp => h p (List.mem_cons_of_mem _ hp)

theorem visitParam_safe : ∀ p : Param, p.Readable true → Safe (visitParam p)
  | .fault f, h => by cases h
  | .absent f, h => by cases h
  | .mk position name default, h => by
    obtain ⟨hposition, hword, hdefault⟩ := h
    rw [visitParam]
    exact .lift rfl (.bind (visit_safe default hdefault) fun _ => .declareParam hposition hword)

theorem visitProperties_safe (names : List Key) : ∀ ps : List Property, (∀ p ∈ ps, p.Readable true) →
    Safe (visitProperties names ps)
  | [], _ => .pure ()
  | p :: rest, h =>
    .bind (visitProperty_safe names p (h p List.mem_cons_self)) fun names =>
      visitProperties_safe names rest fun p hp => h p (List.mem_cons_of_mem _ hp)

theorem visitProperty_safe (names : List Key) : ∀ p : Property, p.Readable true → Safe (visitProperty names p)
  | .fault f, h => by cases h
  | .mk mark computed key value, h => by
    obtain ⟨hposition, hkey, hvalue⟩ := h
    obtain ⟨name, hname, hword⟩ := hkey.propertyName computed
    have hwalk : Safe (propertyValue value (visitLambda value) (do let _ ← visit value)) := by
      rcases value with _ | _ | ⟨mark, form⟩
      · exact .bind (visit_safe _ hvalue) fun _ => .pure ()
      · cases hvalue
      · cases form with
        | lambda ps body =>
          cases hvalue with
          | mk _ _ nodes _ params _ =>
          have hbody := List.forall_iff_forall_mem.2 nodes
          exact .bind (.function (visitParams_safe ps params) (visitBlock_safe body hbody) (visit_safe body hbody))
            fun _ => .pure ()
        | _ => exact .bind (visit_safe _ hvalue) fun _ => .pure ()
    rw [visitProperty]
    refine .lift hname (.bind (.checkDuplicate names hword (Mark.place_ok hposition)) fun names => ?_)
    refine .ite (.bind (visit_safe key hkey) fun _ => ?_) ?_
    · exact .bind hwalk fun _ => .pure names
    · exact .bind hwalk fun _ => .pure names

end

end Analyze

/-! ### The lowering -/

namespace Lower

variable {α β : Type}

/-- An action succeeds from every supply. -/
structure Succeeds (x : Lower α) : Prop where
  run (s : Supply) : ∃ r, x s = .ok r

namespace Succeeds

theorem pure (a : α) : Succeeds (Pure.pure a) := ⟨fun _ => ⟨_, rfl⟩⟩

theorem bind {x : Lower α} {f : α → Lower β} (hx : Succeeds x) (hf : ∀ a, Succeeds (f a)) : Succeeds (x >>= f) where
  run s := by
    obtain ⟨a, ha⟩ := hx.run s
    obtain ⟨b, hb⟩ := (hf a.value).run a.supply
    exact ⟨_, bind_eq_ok.2 ⟨a, b, ha, hb, rfl⟩⟩

theorem lift {y : Except Fault α} {f : α → Lower β} {a : α} (hy : y = .ok a) (hf : Succeeds (f a)) :
    Succeeds (Lower.lift y >>= f) where
  run s := by
    obtain ⟨b, hb⟩ := hf.run s
    exact ⟨_, bind_eq_ok.2 ⟨⟨a, [], s⟩, b, by rw [hy]; rfl, hb, rfl⟩⟩

theorem ite {b : Prop} [Decidable b] {x y : Lower α} (hx : Succeeds x) (hy : Succeeds y) :
    Succeeds (if b then x else y) := by
  split
  · exact hx
  · exact hy

theorem emit (q : Quad) : Succeeds (Lower.emit q) := ⟨fun _ => ⟨_, rfl⟩⟩

theorem warn (message : String) : Succeeds (Lower.warn message) := ⟨fun _ => ⟨_, rfl⟩⟩

theorem newTemp : Succeeds Lower.newTemp := ⟨fun _ => ⟨_, rfl⟩⟩

theorem newLabel : Succeeds Lower.newLabel := ⟨fun _ => ⟨_, rfl⟩⟩

theorem newJoin : Succeeds Lower.newJoin := ⟨fun _ => ⟨_, rfl⟩⟩

theorem declareFunction (name : String) : Succeeds (Lower.declareFunction name) where
  run s := by
    unfold Lower.declareFunction
    split
    · exact ⟨_, rfl⟩
    · exact ⟨_, rfl⟩

theorem operator (op : Operator) (a b : Operand) : Succeeds (Lower.operator op a b) :=
  .bind .newTemp fun _ => .bind (.emit _) fun _ => .pure _

theorem unsupportedNode {methods : Bool} {n : Node} (h : n.Readable methods) : Succeeds (Lower.unsupportedNode n) := by
  obtain ⟨m, hm⟩ := h.mark?
  refine .lift hm ?_
  cases m with
  | none => exact .warn _
  | some mark => exact .warn _

theorem skipped (message : String) : Succeeds (do Lower.warn message; return void : Lower Operand) :=
  .bind (.warn _) fun _ => .pure _

theorem skippedNode {methods : Bool} {n : Node} (h : n.Readable methods) :
    Succeeds (do Lower.unsupportedNode n; return void : Lower Operand) :=
  .bind (.unsupportedNode h) fun _ => .pure _

theorem emitParams (as : List Operand) : Succeeds (Lower.emitParams as) := by
  induction as with
  | nil => exact .pure ()
  | cons a rest ih => exact .bind (.emit _) fun _ => ih

theorem emitCall (c : Callee) (count : Nat) : Succeeds (Lower.emitCall c count) := by
  cases c with
  | console method => exact .bind (.emit _) fun _ => .pure _
  | _ => exact .bind .newTemp fun _ => .bind (.emit _) fun _ => .pure _

theorem receiveParams {methods : Bool} {ps : List Param} (h : ∀ p ∈ ps, p.Readable methods) :
    Succeeds (Lower.receiveParams ps) := by
  induction ps with
  | nil => exact .pure ()
  | cons p rest ih =>
    have hrest := ih fun q hq => h q (List.mem_cons_of_mem _ hq)
    cases h p List.mem_cons_self with
    | mk => exact .lift rfl (.bind (.emit _) fun _ => hrest)

end Succeeds

theorem requireName_ok {mark : Mark} (hm : mark.Readable) (hname : mark.name.isSome = true) :
    ∃ s, mark.requireName = .ok (.str s) := by
  obtain ⟨t, ht⟩ := Option.isSome_iff_exists.1 hname
  obtain ⟨s, rfl⟩ := hm.name t ht
  exact ⟨s, by rw [Mark.requireName, ht]⟩

theorem methodName_ok {methods : Bool} {property : Node} (h : property.Readable methods) :
    ∃ s, methodName property = .ok s := by
  cases h with
  | absent => exact ⟨_, rfl⟩
  | @mk mark form hmark =>
    simp only [methodName, Node.mark?]
    cases hname : mark.name with
    | none => exact ⟨"", by simp [bind, Except.bind, hname]; rfl⟩
    | some t =>
      obtain ⟨s, rfl⟩ := hmark.name t hname
      exact ⟨"" ++ s, by simp [bind, Except.bind, hname]; rfl⟩

theorem callee_ok {methods : Bool} {n : Node} (h : n.Readable methods) : ∃ c, callee n = .ok c := by
  cases h with
  | absent => exact ⟨_, rfl⟩
  | @mk mark form hmark proper nodes =>
    cases form with
    | identifier =>
      obtain ⟨s, hs⟩ := requireName_ok hmark proper
      exact ⟨_, by simp only [callee, hs]; rfl⟩
    | member computed object property =>
      cases computed with
      | true => exact ⟨_, rfl⟩
      | false =>
        obtain ⟨hobject, hproperty⟩ := List.forall_iff_forall_mem.2 nodes
        obtain ⟨name, hname, -⟩ := hobject.nameTree
        obtain ⟨method, hmethod⟩ := methodName_ok hproperty
        simp only [callee, hname, hmethod]
        change ∃ c, (if name.isText "console" = true then Except.ok (Callee.console method)
          else Except.ok .unsupported) = Except.ok c
        split
        · exact ⟨_, rfl⟩
        · exact ⟨_, rfl⟩
    | _ => exact ⟨_, rfl⟩

theorem assignee?_ok {methods : Bool} {n : Node} (h : n.Readable methods) : ∃ t, assignee? n = .ok t := by
  cases h with
  | absent => exact ⟨_, rfl⟩
  | @mk mark form hmark proper =>
    cases form with
    | identifier =>
      obtain ⟨s, hs⟩ := requireName_ok hmark proper
      exact ⟨_, by simp only [assignee?, hs]; rfl⟩
    | _ => exact ⟨_, rfl⟩

theorem binaryOp?_ok {t : Tree} (h : t.isName = true) : ∃ op, binaryOp? t = .ok op := by
  unfold binaryOp?
  split
  · exact ⟨_, rfl⟩
  · exact ⟨_, if_pos h⟩

theorem unaryOp?_ok {t : Tree} (h : t.isName = true) : ∃ op, unaryOp? t = .ok op := by
  unfold unaryOp?
  split
  · exact ⟨_, rfl⟩
  · exact ⟨_, if_pos h⟩

section

variable {methods : Bool}

mutual

/-- The lowering of a readable statement succeeds. -/
theorem stmt_succeeds : ∀ (n : Node) (loop : Option Loop), n.Readable methods → Succeeds (stmt loop n)
  | .absent, _, _ => .pure ()
  | .fault f, _, h => by cases h
  | .mk mark form, loop, .mk hmark _ nodes declarators params _ => by
    have hnodes := List.forall_iff_forall_mem.2 nodes
    -- the lowering asks for names and operators only, and warns of whatever it does not know
    cases form with
    | program body =>
      rw [stmt]
      exact stmts_succeeds body loop nodes
    | block body =>
      rw [stmt]
      exact stmts_succeeds body loop nodes
    | expression e =>
      rw [stmt]
      exact .bind (expr_succeeds e hnodes) fun _ => .pure ()
    | declaration kind ds =>
      rw [stmt]
      exact declarators_succeeds ds declarators
    | function id ps body =>
      rw [stmt]
      obtain ⟨hid, hbody⟩ := hnodes
      obtain ⟨name, hname, hword⟩ := hid.nameTree
      refine .lift hname ?_
      split
      · exact .warn _
      · rename_i htruthy
        obtain ⟨start, hstart⟩ := hword.append (by simpa using htruthy) functionMark
        obtain ⟨finish, hfinish⟩ := hword.append (by simpa using htruthy) endMark
        have hcode : Succeeds (do
            goto finish
            label start
            receiveParams ps
            stmt none body
            emit { op := .ret, arg1 := void }
            label finish) :=
          .bind (.emit _) fun _ => .bind (.emit _) fun _ => .bind (.receiveParams params) fun _ =>
            .bind (stmt_succeeds body none hbody) fun _ =>
              .bind (.emit _) fun _ => .emit _
        refine .lift hstart (.lift hfinish (.bind (.declareFunction _) fun again => ?_))
        exact .ite (.bind (.warn _) fun _ => hcode) hcode
    | «if» test consequent alternate =>
      rw [stmt]
      obtain ⟨htest, hconsequent, halternate⟩ := hnodes
      refine .bind .newLabel fun _ => .bind .newLabel fun _ => ?_
      refine .bind (expr_succeeds test htest) fun _ => .bind (.emit _) fun _ => ?_
      refine .bind (stmt_succeeds consequent loop hconsequent) fun _ => ?_
      refine .bind (.emit _) fun _ => .bind (.emit _) fun _ => ?_
      exact .bind (stmt_succeeds alternate loop halternate) fun _ => .emit _
    | «while» test body =>
      rw [stmt]
      obtain ⟨htest, hbody⟩ := hnodes
      refine .bind .newLabel fun _ => .bind .newLabel fun _ => .bind (.emit _) fun _ => ?_
      refine .bind (expr_succeeds test htest) fun _ => .bind (.emit _) fun _ => ?_
      refine .bind (stmt_succeeds body _ hbody) fun _ => ?_
      exact .bind (.emit _) fun _ => .emit _
    | «for» init test update body =>
      obtain ⟨hinit, htest, hupdate, hbody⟩ := hnodes
      have hstart : Succeeds (forInit init) := by
        rcases init with _ | _ | ⟨mark, form⟩
        · exact .bind (.pure void) fun _ => .pure ()
        · cases hinit
        · cases form with
          | declaration kind ds =>
            cases hinit with
            | mk _ _ _ declarators => exact declarators_succeeds ds declarators
          | _ => exact .bind (expr_succeeds _ hinit) fun _ => .pure ()
      have htest : ∀ exit, Succeeds (forTest test exit) := fun exit =>
        .ite (.pure ()) (.bind (expr_succeeds test htest) fun _ => .emit _)
      constructor
      intro s
      obtain ⟨i, hi⟩ := hstart.run s
      obtain ⟨t, ht⟩ := (htest (labelName (i.supply.labels + 2))).run (i.supply.drawLabels 3)
      obtain ⟨b, hb⟩ := (stmt_succeeds body (some ⟨labelName (i.supply.labels + 1), labelName (i.supply.labels + 2)⟩)
        hbody).run t.supply
      obtain ⟨u, hu⟩ := (expr_succeeds update hupdate).run b.supply
      exact ⟨_, stmt_for.2 ⟨i, hi, t, ht, b, hb, u, hu, rfl⟩⟩
    | «return» argument =>
      rw [stmt]
      exact .bind (expr_succeeds argument hnodes) fun _ => .emit _
    | «break» labelled =>
      simp only [stmt]
      split
      · exact .emit _
      · exact .warn _
    | «continue» labelled =>
      simp only [stmt]
      split
      · exact .emit _
      · exact .warn _
    | empty =>
      rw [stmt]
      exact .pure ()
    | _ =>
      simp only [stmt]
      exact .warn _

theorem stmts_succeeds : ∀ (ns : List Node) (loop : Option Loop), (∀ n ∈ ns, n.Readable methods) → Succeeds (stmts loop ns)
  | [], _, _ => .pure ()
  | n :: rest, loop, h =>
    .bind (stmt_succeeds n loop (h n List.mem_cons_self)) fun _ =>
      stmts_succeeds rest loop fun m hm => h m (List.mem_cons_of_mem _ hm)

theorem declarators_succeeds : ∀ ds : List Declarator, (∀ d ∈ ds, d.Readable methods) → Succeeds (declarators ds)
  | [], _ => .pure ()
  | d :: rest, h =>
    .bind (declarator_succeeds d (h d List.mem_cons_self)) fun _ =>
      declarators_succeeds rest fun e he => h e (List.mem_cons_of_mem _ he)

theorem declarator_succeeds : ∀ d : Declarator, d.Readable methods → Succeeds (declarator d)
  | .fault f, h => by cases h
  | .mk mark id given init, .mk _ hid hinit => by
    simp only [declarator]
    split
    · cases hid with
      | mk hmark proper =>
        obtain ⟨s, hs⟩ := requireName_ok hmark proper
        refine .ite (.bind (expr_succeeds init hinit) fun _ => ?_) (.pure ())
        exact .lift hs (.emit _)
    · exact .unsupportedNode hid

theorem expr_succeeds : ∀ n : Node, n.Readable methods → Succeeds (expr n)
  | .absent, _ => .pure void
  | .fault f, h => by cases h
  | .mk mark form, .mk hmark proper nodes _ _ _ => by
    have hnodes := List.forall_iff_forall_mem.2 nodes
    cases form with
    | literal regex value =>
      cases regex with
      | true =>
        rw [expr]
        exact .skipped _
      | false =>
        rw [expr]
        exact .pure _
    | template text expressions =>
      rw [expr]
      obtain ⟨s, rfl⟩ := proper
      exact .lift rfl (.pure _)
    | identifier =>
      rw [expr]
      exact .pure _
    | assignment operator left right =>
      rw [expr]
      obtain ⟨hleft, hright⟩ := hnodes
      have hright := expr_succeeds right hright
      obtain ⟨t, ht⟩ := assignee?_ok hleft
      obtain ⟨o, rfl⟩ := proper
      refine .lift ht ?_
      cases t with
      | none => exact .skippedNode hleft
      | some name =>
        refine .ite (.bind hright fun _ => .bind (.emit _) fun _ => .pure _) (.lift rfl ?_)
        split
        · exact .skipped _
        · exact .bind hright fun _ => .bind (.operator ..) fun _ => .bind (.emit _) fun _ => .pure _
    | binary operator left right =>
      rw [expr]
      obtain ⟨hleft, hright⟩ := hnodes
      obtain ⟨op, hop⟩ := binaryOp?_ok proper
      refine .lift hop ?_
      cases op with
      | none => exact .skipped _
      | some op =>
        refine .bind (expr_succeeds left hleft) fun _ => ?_
        exact .bind (expr_succeeds right hright) fun _ => .operator ..
    | unary operator argument =>
      rw [expr]
      have hnodes := expr_succeeds argument hnodes
      obtain ⟨op, hop⟩ := unaryOp?_ok proper
      refine .ite (.bind hnodes fun _ => .pure _) (.lift hop ?_)
      cases op with
      | none => exact .skipped _
      | some op => exact .bind hnodes fun _ => .operator ..
    | update operator leading argument =>
      rw [expr]
      obtain ⟨t, ht⟩ := assignee?_ok hnodes
      refine .lift ht ?_
      cases t with
      | none => exact .skippedNode hnodes
      | some name =>
        refine .ite (.bind (.operator ..) fun _ => .bind (.emit _) fun _ => .pure _) ?_
        exact .bind (.operator ..) fun _ => .bind (.operator ..) fun _ => .bind (.emit _) fun _ => .pure _
    | logical operator left right =>
      rw [expr]
      obtain ⟨hleft, hright⟩ := hnodes
      have hend : ∀ join finish : String, Succeeds (do
          assign (← expr right) (.name join)
          label finish
          return Operand.name join) := fun join finish =>
        .bind (expr_succeeds right hright) fun _ => .bind (.emit _) fun _ =>
          .bind (.emit _) fun _ => .pure _
      refine .bind .newJoin fun join => .bind .newLabel fun finish => ?_
      refine .bind (expr_succeeds left hleft) fun _ => .bind (.emit _) fun _ => ?_
      refine .ite (.bind (.emit _) fun _ => hend join finish) (.ite ?_ ?_)
      · exact .bind (.operator ..) fun _ => .bind (.emit _) fun _ => hend join finish
      · exact .bind (.operator ..) fun _ => .bind (.emit _) fun _ => hend join finish
    | conditional test consequent alternate =>
      rw [expr]
      obtain ⟨htest, hconsequent, halternate⟩ := hnodes
      refine .bind .newJoin fun _ => .bind .newLabel fun _ => .bind .newLabel fun _ => ?_
      refine .bind (expr_succeeds test htest) fun _ => .bind (.emit _) fun _ => ?_
      refine .bind (expr_succeeds consequent hconsequent) fun _ => ?_
      refine .bind (.emit _) fun _ => .bind (.emit _) fun _ => .bind (.emit _) fun _ => ?_
      refine .bind (expr_succeeds alternate halternate) fun _ => ?_
      exact .bind (.emit _) fun _ => .bind (.emit _) fun _ => .pure _
    | call called arguments =>
      rw [expr]
      obtain ⟨hcalled, harguments⟩ := List.forall_mem_cons.1 nodes
      obtain ⟨c, hc⟩ := callee_ok hcalled
      refine .lift hc ?_
      split
      · exact .skippedNode hcalled
      · refine .bind (exprs_succeeds arguments harguments) fun _ => ?_
        exact .bind (.emitParams _) fun _ => .emitCall ..
    | sequence es =>
      rw [expr]
      exact .bind (exprs_succeeds es nodes) fun _ => .pure _
    | _ =>
      simp only [expr]
      exact .skipped _

theorem exprs_succeeds : ∀ ns : List Node, (∀ n ∈ ns, n.Readable methods) → Succeeds (exprs ns)
  | [], _ => .pure []
  | n :: rest, h =>
    .bind (expr_succeeds n (h n List.mem_cons_self)) fun _ =>
      .bind (exprs_succeeds rest fun m hm => h m (List.mem_cons_of_mem _ hm)) fun _ => .pure _

end

end

end Lower

/-! ### Programs -/

namespace Node.Readable

variable {n : Node}

theorem isFatal_analyze (h : n.Readable true) : n.analyze.isFatal = false := by
  obtain ⟨k, τ, hτ, hcount⟩ := (Analyze.visit_safe n h).run .initial
  have hwalk : Diagnostic.fatalCount τ.diagnostics = 0 := hcount
  have hunused : Diagnostic.fatalCount τ.tree.unusedWarnings = 0 := by
    rw [Diagnostic.fatalCount, List.length_eq_zero_iff, List.filter_eq_nil_iff]
    intro d hd
    obtain ⟨i, -, hd⟩ := List.mem_flatMap.1 hd
    obtain ⟨y, -, rfl⟩ := List.mem_map.1 hd
    exact Bool.false_ne_true
  unfold Node.analyze
  rw [StateT.run, hτ]
  simp_all [Analysis.isFatal, Diagnostic.fatalCount]

theorem exists_lower {methods : Bool} (h : n.Readable methods) : ∃ l, n.lower = .ok l := by
  obtain ⟨l, hl⟩ := (Lower.stmt_succeeds n none h).run {}
  exact ⟨_, by rw [Node.lower, hl]; rfl⟩

end Node.Readable

end QuadScript
