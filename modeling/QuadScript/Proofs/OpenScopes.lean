import Mathlib.Data.List.Forall2
import QuadScript.Proofs.Emission
import QuadScript.Proofs.Symbols

/-!
# The functions of the open scopes

The events of a walk tell which functions are declared in the scopes that are open (`Event.scan`): a walk finds no
other function by a name (`Walk.Tracks`). What opens a scope closes it again, so that a node declares functions in the
scope around it only as a statement (`Node.balanced`), as long as functions are declared only where statements stand
(`Node.isPlaced`).
-/

namespace QuadScript

/-! ### Where functions are declared -/

mutual

/-- Whether functions are declared only where statements stand: in a list, in a branch or in the body of a loop.
`b` tells whether the node itself is such a place. -/
def Node.isPlaced (b : Bool) : Node → Bool
  | .absent => true
  | .fault _ => true
  | .mk _ form =>
    match form with
    | .program _ => false
    | .block body => Node.arePlaced true body
    | .expression e => e.isPlaced false
    | .declaration _ ds => Declarator.arePlaced ds
    | .function _ params body => b && Param.arePlaced params && body.isPlaced false
    | .classDecl _ parent members => parent.isPlaced false && Node.arePlaced false members
    | .method _ key params body => key.isPlaced false && Param.arePlaced params && body.isPlaced false
    | .if test consequent alternate => test.isPlaced false && consequent.isPlaced b && alternate.isPlaced b
    | .while test body => test.isPlaced false && body.isPlaced b
    | .for init test update body =>
      init.isPlaced false && test.isPlaced false && update.isPlaced false && body.isPlaced true
    | .return argument => argument.isPlaced false
    | .throw argument => argument.isPlaced false
    | .template _ expressions => Node.arePlaced false expressions
    | .assignment _ left right => left.isPlaced false && right.isPlaced false
    | .binary _ left right => left.isPlaced false && right.isPlaced false
    | .logical _ left right => left.isPlaced false && right.isPlaced false
    | .unary _ argument => argument.isPlaced false
    | .update _ _ argument => argument.isPlaced false
    | .conditional test consequent alternate =>
      test.isPlaced false && consequent.isPlaced false && alternate.isPlaced false
    | .call callee arguments => callee.isPlaced false && Node.arePlaced false arguments
    | .new callee arguments => callee.isPlaced false && Node.arePlaced false arguments
    | .member _ object property => object.isPlaced false && property.isPlaced false
    | .array elements => Node.arePlaced false elements
    | .object properties => Property.arePlaced properties
    | .lambda params body => Param.arePlaced params && body.isPlaced false
    | .sequence expressions => Node.arePlaced false expressions
    | _ => true

def Node.arePlaced (b : Bool) : List Node → Bool
  | [] => true
  | n :: rest => n.isPlaced b && Node.arePlaced b rest

def Declarator.arePlaced : List Declarator → Bool
  | [] => true
  | d :: rest => d.isPlaced && Declarator.arePlaced rest

def Declarator.isPlaced : Declarator → Bool
  | .fault _ => true
  | .mk _ _ _ init => init.isPlaced false

def Param.arePlaced : List Param → Bool
  | [] => true
  | p :: rest => p.isPlaced && Param.arePlaced rest

def Param.isPlaced : Param → Bool
  | .mk _ _ default => default.isPlaced false
  | _ => true

def Property.arePlaced : List Property → Bool
  | [] => true
  | p :: rest => p.isPlaced && Property.arePlaced rest

def Property.isPlaced : Property → Bool
  | .fault _ => true
  | .mk _ _ key value => key.isPlaced false && value.isPlaced false

end

/-! ### The functions of the open scopes -/

namespace Event

/-- The function that an event declares. -/
def function? (e : Event) : Option String :=
  if e.isFunction then
    match e.name? with
    | some (.str f) => if f = "" then none else some f
    | _ => none
  else none

/-- The functions that are declared in the open scopes, the innermost first, after an event. -/
def scan (scopes : List (List String)) (e : Event) : List (List String) :=
  match e with
  | .enter _ => [] :: scopes
  | .leave => scopes.tail
  | e =>
    match scopes with
    | [] => []
    | fs :: outer => (e.function?.toList ++ fs) :: outer

/-- Events that close what they open and declare functions `N` in the scope that is open around them. -/
def Balanced (N : String → Prop) (es : List Event) : Prop :=
  ∀ fs scopes, ∃ added : List String, es.foldl scan (fs :: scopes) = (added ++ fs) :: scopes ∧ ∀ f ∈ added, N f

namespace Balanced

variable {N N' : String → Prop} {es es' : List Event} {e : Event}

theorem nil : Balanced N [] := fun _ _ => ⟨[], rfl, by simp⟩

theorem append (h : Balanced N es) (h' : Balanced N es') : Balanced N (es ++ es') := by
  intro fs scopes
  obtain ⟨added, hadded, hN⟩ := h fs scopes
  obtain ⟨added', hadded', hN'⟩ := h' (added ++ fs) scopes
  refine ⟨added' ++ added, by rw [List.foldl_append, hadded, hadded', List.append_assoc], fun f hf => ?_⟩
  exact (List.mem_append.1 hf).elim (hN' f) (hN f)

theorem mono (h : Balanced N es) (hN : ∀ f, N f → N' f) : Balanced N' es := fun fs scopes =>
  (h fs scopes).imp fun _ hadded => ⟨hadded.1, fun f hf => hN f (hadded.2 f hf)⟩

theorem single (henter : ∀ kind, e ≠ .enter kind) (hleave : e ≠ .leave) (hN : ∀ f ∈ e.function?, N f) :
    Balanced N [e] := by
  intro fs scopes
  refine ⟨e.function?.toList, ?_, fun f hf => hN f (by simpa using hf)⟩
  cases e with
  | enter kind => exact absurd rfl (henter kind)
  | leave => exact absurd rfl hleave
  | _ => rfl

theorem cons (h : Balanced N [e]) (hes : Balanced N es) : Balanced N (e :: es) := append h hes

/-- What is declared in a scope that is closed again is gone. -/
theorem scope {kind : ScopeKind} (h : Balanced (fun _ => True) es) : Balanced N (.enter kind :: (es ++ [.leave])) := by
  intro fs scopes
  obtain ⟨added, hadded, -⟩ := h [] (fs :: scopes)
  refine ⟨[], ?_, by simp⟩
  rw [List.foldl_cons, List.foldl_append]
  exact congrArg (List.foldl scan · [Event.leave]) hadded

theorem warnIf {b : Bool} {message : String} {place : Except Fault Place} :
    Balanced N (Node.warnIf b message place) := by
  unfold Node.warnIf
  split
  · exact single nofun nofun nofun
  · exact nil

theorem warnEither {b b' : Bool} {message message' : String} {place : Except Fault Place} :
    Balanced N (Node.warnEither b b' message message' place) := by
  unfold Node.warnEither
  split
  · exact single nofun nofun nofun
  · exact warnIf

theorem eventsOr {n : Node} {byName : Mark → Event} (hname : ∀ mark, Balanced N [byName mark]) (h : Balanced N es) :
    Balanced N (n.eventsOr byName es) := by
  unfold Node.eventsOr
  split
  · exact hname _
  · exact h

theorem body {n : Node} (hblock : Balanced N n.blockEvents) (hother : Balanced N n.events) :
    Balanced N (n.bodyEvents n.blockEvents n.events) := by
  rw [Node.bodyEvents.eq_def]
  split
  · exact nil
  · exact hblock
  · exact hother

theorem named {name : Except Fault Tree} {event : Tree → Event} (h : ∀ t, Balanced N [event t]) :
    Balanced N (namedEvents name event) := by
  unfold namedEvents
  split
  · split
    · exact h _
    · exact nil
  · exact nil

end Balanced

end Event

open Event (Balanced)

theorem Event.function?_of_id {id : Node} {mark : Mark} {params : List Param} {body : Node} {e : Event} {f : String}
    (he : e.name? = id.nameTree.toOption) (hf : f ∈ e.function?) :
    f ∈ (Node.mk mark (.function id params body)).functions := by
  rw [Option.mem_def, Event.function?] at hf
  split at hf
  · rw [he] at hf
    split at hf
    · rename_i x hx
      have hid : id.nameTree = .ok (.str x) := by
        cases hname : id.nameTree with
        | error e => rw [hname] at hx; cases hx
        | ok t => rw [hname] at hx; cases hx; rfl
      rw [Node.functions, Form.functions, hid]
      split at hf
      · cases hf
      · rename_i hne
        cases hf
        simp [hne]
    · cases hf
  · cases hf

theorem Node.balanced_hoists (ns : List Node) : Balanced (· ∈ Node.functionsList ns) (Node.hoists ns) := by
  induction ns with
  | nil => exact .nil
  | cons n rest ih =>
    have hrest : Balanced (· ∈ Node.functionsList (n :: rest)) (Node.hoists rest) :=
      ih.mono fun f hf => List.mem_append_right _ hf
    unfold Node.hoists
    split
    · exact .nil
    · rename_i mark id params body _ heq
      cases heq
      refine .cons (.single nofun nofun fun f hf => ?_) hrest
      exact List.mem_append_left _ (Event.function?_of_id rfl hf)
    · rename_i heq
      cases heq
      exact hrest

mutual

/-- A node leaves no scope open, and it declares a function in the scope around it only if it is a statement that is
lowered there. -/
theorem Node.balanced (b : Bool) : ∀ n : Node, n.isPlaced b = true →
    Balanced (fun f => b = true ∧ f ∈ n.functions) n.events
  | .absent, _ => .nil
  | .fault _, _ => .nil
  | .mk mark form, h => by
    have none : ∀ {N : String → Prop} {es}, Balanced (fun f => false = true ∧ N f) es →
      Balanced (fun f => b = true ∧ f ∈ (Node.mk mark form).functions) es := fun h => h.mono nofun
    -- what is declared inside a scope is gone with it, so only the functions of the list itself are left
    cases form with
    | program body =>
      rw [Node.isPlaced] at h
      cases h
    | block body =>
      rw [Node.isPlaced] at h
      rw [Node.events]
      exact .scope (.append ((Node.balanced_hoists body).mono fun _ _ => trivial)
        ((Node.balanced_statements true false body h).mono fun _ _ => trivial))
    | expression e =>
      rw [Node.isPlaced] at h
      rw [Node.events]
      exact none (Node.balanced false e h)
    | declaration kind ds =>
      rw [Node.isPlaced] at h
      rw [Node.events]
      exact Declarator.balanced_all kind ds h
    | function id params body =>
      simp only [Node.isPlaced, Bool.and_eq_true] at h
      obtain ⟨⟨hb, hparams⟩, hbody⟩ := h
      rw [Node.events]
      refine .cons (.single nofun nofun fun f hf => ⟨hb, Event.function?_of_id rfl hf⟩) (.scope ?_)
      exact .append (Param.balanced_all params hparams)
        (.body (Node.balanced_block body hbody) ((Node.balanced false body hbody).mono fun _ _ => trivial))
    | classDecl id parent members =>
      simp only [Node.isPlaced, Bool.and_eq_true] at h
      rw [Node.events]
      exact .cons (.single nofun nofun nofun) (.append (none (Node.balanced false parent h.1))
        (.scope ((Node.balanced_all false members h.2).mono fun _ _ => trivial)))
    | method computed key params body =>
      simp only [Node.isPlaced, Bool.and_eq_true] at h
      obtain ⟨⟨hkey, hparams⟩, hbody⟩ := h
      rw [Node.events]
      refine .append ?_ (.scope (.append (Param.balanced_all params hparams)
        (.body (Node.balanced_block body hbody) ((Node.balanced false body hbody).mono fun _ _ => trivial))))
      split
      · exact none (Node.balanced false key hkey)
      · exact .nil
    | «if» test consequent alternate =>
      simp only [Node.isPlaced, Bool.and_eq_true] at h
      obtain ⟨⟨htest, hconsequent⟩, halternate⟩ := h
      rw [Node.events]
      refine .append (none (Node.balanced false test htest)) (.append .warnEither (.append ?_ ?_))
      · exact (Node.balanced b consequent hconsequent).mono fun f hf => ⟨hf.1, List.mem_append_left _ hf.2⟩
      · exact (Node.balanced b alternate halternate).mono fun f hf => ⟨hf.1, List.mem_append_right _ hf.2⟩
    | «while» test body =>
      simp only [Node.isPlaced, Bool.and_eq_true] at h
      rw [Node.events]
      exact .append (none (Node.balanced false test h.1)) (.append .warnEither (Node.balanced b body h.2))
    | «for» init test update body =>
      simp only [Node.isPlaced, Bool.and_eq_true] at h
      obtain ⟨⟨⟨hinit, htest⟩, hupdate⟩, hbody⟩ := h
      rw [Node.events]
      refine .scope (.append ?_ (.append ?_ (.append .warnIf (.append ?_ ?_))))
      · exact (Node.balanced false init hinit).mono fun _ _ => trivial
      · exact (Node.balanced false test htest).mono fun _ _ => trivial
      · exact (Node.balanced false update hupdate).mono fun _ _ => trivial
      · exact (Node.balanced true body hbody).mono fun _ _ => trivial
    | «return» argument | throw argument | unary _ argument =>
      rw [Node.isPlaced] at h
      rw [Node.events]
      exact none (Node.balanced false argument h)
    | template _ ns | array ns | sequence ns =>
      rw [Node.isPlaced] at h
      rw [Node.events]
      exact none (Node.balanced_all false ns h)
    | assignment operator left right =>
      simp only [Node.isPlaced, Bool.and_eq_true] at h
      rw [Node.events]
      exact .append (none (Node.balanced false right h.2))
        (.eventsOr (fun _ => .single nofun nofun nofun) (none (Node.balanced false left h.1)))
    | binary _ left right =>
      simp only [Node.isPlaced, Bool.and_eq_true] at h
      rw [Node.events]
      exact .append (none (Node.balanced false left h.1)) (none (Node.balanced false right h.2))
    | logical _ left right =>
      simp only [Node.isPlaced, Bool.and_eq_true] at h
      rw [Node.events]
      exact .append (none (Node.balanced false left h.1)) (.append (none (Node.balanced false right h.2)) .warnEither)
    | update _ _ argument =>
      rw [Node.isPlaced] at h
      rw [Node.events]
      exact .eventsOr (fun _ => .single nofun nofun nofun) (none (Node.balanced false argument h))
    | conditional test consequent alternate =>
      simp only [Node.isPlaced, Bool.and_eq_true] at h
      obtain ⟨⟨htest, hconsequent⟩, halternate⟩ := h
      rw [Node.events]
      exact .append (none (Node.balanced false test htest)) (.append (none (Node.balanced false consequent hconsequent))
        (.append (none (Node.balanced false alternate halternate)) .warnEither))
    | call callee ns =>
      simp only [Node.isPlaced, Bool.and_eq_true] at h
      rw [Node.events]
      exact .append (.eventsOr (fun _ => .single nofun nofun nofun) (none (Node.balanced false callee h.1)))
        (none (Node.balanced_all false ns h.2))
    | new callee ns =>
      simp only [Node.isPlaced, Bool.and_eq_true] at h
      rw [Node.events]
      exact .append (none (Node.balanced false callee h.1)) (none (Node.balanced_all false ns h.2))
    | member computed object property =>
      simp only [Node.isPlaced, Bool.and_eq_true] at h
      rw [Node.events]
      refine .append (none (Node.balanced false object h.1)) ?_
      split
      · exact none (Node.balanced false property h.2)
      · exact .nil
    | object properties =>
      rw [Node.isPlaced] at h
      rw [Node.events]
      exact Property.balanced_all properties h
    | lambda params body =>
      simp only [Node.isPlaced, Bool.and_eq_true] at h
      rw [Node.events]
      exact .scope (.append (Param.balanced_all params h.1)
        (.body (Node.balanced_block body h.2) ((Node.balanced false body h.2).mono fun _ _ => trivial)))
    | identifier =>
      rw [Node.events]
      exact .single nofun nofun nofun
    | «break» _ | «continue» _ | empty | literal _ _ | this | unknown => exact .nil

theorem Node.balanced_all (b : Bool) : ∀ ns : List Node, Node.arePlaced b ns = true →
    Balanced (fun f => b = true ∧ f ∈ Node.functionsList ns) (Node.eventsAll ns)
  | [], _ => .nil
  | n :: rest, h => by
    obtain ⟨hn, hrest⟩ := Bool.and_eq_true_iff.1 h
    refine .append ((Node.balanced b n hn).mono fun f hf => ⟨hf.1, List.mem_append_left _ hf.2⟩) ?_
    exact (Node.balanced_all b rest hrest).mono fun f hf => ⟨hf.1, List.mem_append_right _ hf.2⟩

theorem Node.balanced_statements (b unreachable : Bool) : ∀ ns : List Node, Node.arePlaced b ns = true →
    Balanced (fun f => b = true ∧ f ∈ Node.functionsList ns) (Node.eventsStatements unreachable ns)
  | [], _ => .nil
  | n :: rest, h => by
    obtain ⟨hn, hrest⟩ := Bool.and_eq_true_iff.1 h
    refine .append .warnIf (.append ((Node.balanced b n hn).mono fun f hf => ⟨hf.1, List.mem_append_left _ hf.2⟩) ?_)
    exact (Node.balanced_statements b _ rest hrest).mono fun f hf => ⟨hf.1, List.mem_append_right _ hf.2⟩

theorem Node.balanced_block : ∀ n : Node, n.isPlaced false = true → Balanced (fun _ => True) n.blockEvents
  | .absent, _ => .nil
  | .fault _, _ => .nil
  | .mk mark form, h => by
    cases form with
    | block body =>
      rw [Node.isPlaced] at h
      exact .append ((Node.balanced_hoists body).mono fun _ _ => trivial)
        ((Node.balanced_statements true false body h).mono fun _ _ => trivial)
    | _ => exact .nil

theorem Declarator.balanced_all {N : String → Prop} (kind : DeclKind) : ∀ ds : List Declarator,
    Declarator.arePlaced ds = true → Balanced N (Declarator.eventsAll kind ds)
  | [], _ => .nil
  | d :: rest, h => by
    obtain ⟨hd, hrest⟩ := Bool.and_eq_true_iff.1 h
    exact .append (Declarator.balanced kind d hd) (Declarator.balanced_all kind rest hrest)

theorem Declarator.balanced {N : String → Prop} (kind : DeclKind) : ∀ d : Declarator,
    d.isPlaced = true → Balanced N (d.events kind)
  | .fault _, _ => .nil
  | .mk _ _ _ init, h =>
    .append ((Node.balanced false init h).mono nofun) (.named fun _ => .single nofun nofun nofun)

theorem Param.balanced_all {N : String → Prop} : ∀ ps : List Param,
    Param.arePlaced ps = true → Balanced N (Param.eventsAll ps)
  | [], _ => .nil
  | p :: rest, h => by
    obtain ⟨hp, hrest⟩ := Bool.and_eq_true_iff.1 h
    exact .append (Param.balanced p hp) (Param.balanced_all rest hrest)

theorem Param.balanced {N : String → Prop} : ∀ p : Param, p.isPlaced = true → Balanced N p.events
  | .fault _, _ => .nil
  | .absent _, _ => .nil
  | .mk _ _ default, h =>
    .append ((Node.balanced false default h).mono nofun) (.named fun _ => .single nofun nofun nofun)

theorem Property.balanced_all {N : String → Prop} : ∀ ps : List Property,
    Property.arePlaced ps = true → Balanced N (Property.eventsAll ps)
  | [], _ => .nil
  | p :: rest, h => by
    obtain ⟨hp, hrest⟩ := Bool.and_eq_true_iff.1 h
    exact .append (Property.balanced p hp) (Property.balanced_all rest hrest)

theorem Property.balanced {N : String → Prop} : ∀ p : Property, p.isPlaced = true → Balanced N p.events
  | .fault _, _ => .nil
  | .mk mark computed key value, h => by
    obtain ⟨hkey, hvalue⟩ := Bool.and_eq_true_iff.1 h
    rw [Property.events]
    refine .append ?_ ((Node.balanced false value hvalue).mono nofun)
    split
    · exact (Node.balanced false key hkey).mono nofun
    · exact .nil

end

/-! ### Open scopes of a walk -/

namespace ScopeTree

variable {t t' : ScopeTree} {i j n : Nat} {is : List Nat} {fs : List String} {k : Key} {y : Symbol}

/-- Each of the scopes is inside the next, and the last one is in no other. -/
def Nested (t : ScopeTree) : List Nat → Prop
  | [] => False
  | [i] => t.parent? i = none
  | i :: j :: rest => t.parent? i = some j ∧ Nested t (j :: rest)

theorem Nested.congr (h : ∀ i ∈ is, t'.parent? i = t.parent? i) (hn : t.Nested is) : t'.Nested is := by
  induction is with
  | nil => exact hn
  | cons i rest ih =>
    cases rest with
    | nil => exact (h i List.mem_cons_self).trans hn
    | cons j rest =>
      exact ⟨(h i List.mem_cons_self).trans hn.1, ih (fun i hi => h i (List.mem_cons_of_mem _ hi)) hn.2⟩

theorem Nested.exists_findLocal? (hn : t.Nested (i :: is)) (h : t.find? i k = some n) :
    ∃ j ∈ i :: is, t.findLocal? j k = some n := by
  rw [find?] at h
  generalize t.size = fuel at h
  induction is generalizing i fuel with
  | nil =>
    cases fuel with
    | zero => cases h
    | succ fuel =>
      rw [findFrom, show t.parent? i = none from hn] at h
      cases hlocal : t.findLocal? i k with
      | none => simp [hlocal] at h
      | some m => exact ⟨i, List.mem_cons_self, by simpa [hlocal] using h⟩
  | cons j rest ih =>
    cases fuel with
    | zero => cases h
    | succ fuel =>
      rw [findFrom, hn.1] at h
      cases hlocal : t.findLocal? i k with
      | none =>
        obtain ⟨i', hi', hfound⟩ := ih hn.2 fuel (by simpa [hlocal] using h)
        exact ⟨i', List.mem_cons_of_mem _ hi', hfound⟩
      | some m => exact ⟨i, List.mem_cons_self, by simpa [hlocal] using h⟩

/-- The functions that are declared in a scope are among these. -/
def Knows (t : ScopeTree) (i : Nat) (fs : List String) : Prop :=
  ∀ f n y, t.findLocal? i (.text f) = some n → t.symbol? n = some y → y.params.isSome = true → f ∈ fs

theorem Knows.evolves (h : t.Knows i fs) (he : t.Evolves t') : t'.Knows i fs := by
  intro f n y hn hy hparams
  obtain ⟨y₀, hy₀, hlater⟩ := he.exists_symbol hy
  exact h f n y₀ (he.findLocal? ▸ hn) hy₀ (hlater.params ▸ hparams)

theorem Knows.child (h : t.Knows i fs) (kind : ScopeKind) : (t.child j kind).Knows i fs := by
  intro f n y hn hy hparams
  rw [findLocal?_child] at hn
  split at hn
  · cases hn
  · exact h f n y hn hy hparams

theorem knows_child_size (kind : ScopeKind) : (t.child j kind).Knows t.size fs := by
  intro f n y hn hy hparams
  rw [findLocal?_child, if_pos rfl] at hn
  cases hn

theorem Knows.bind (h : t.Knows i fs) (ht : t.Named)
    (hy : y.params = none ∨ j ≠ i ∨ ∀ f, y.name = .text f → f ∈ fs) : (t.bind j y).Knows i fs := by
  intro f n y' hn hy' hparams
  rw [findLocal?_bind] at hn
  split at hn
  · rename_i hnew
    obtain ⟨rfl, -, hname⟩ := hnew
    cases hn
    rw [symbol?_bind, if_pos rfl] at hy'
    cases hy'
    rcases hy with hnone | hne | hmem
    · rw [hnone] at hparams
      cases hparams
    · exact absurd rfl hne
    · exact hmem f hname
  · obtain ⟨y₀, hy₀, -⟩ := ht i f n hn
    have hlt := symbol?_lt hy₀
    rw [symbol?_bind, if_neg (by omega)] at hy'
    exact h f n y' hn hy' hparams

theorem Knows.mono {fs' : List String} (h : t.Knows i fs) (hfs : ∀ f ∈ fs, f ∈ fs') : t.Knows i fs' :=
  fun f n y hn hy hparams => hfs f (h f n y hn hy hparams)

end ScopeTree

theorem Key.eq_of_ofTree_text {place : Nat} {t : Tree} {s : String} (h : Key.ofTree place t = .ok (.text s)) :
    t = .str s := by
  cases t with
  | str x => cases h; rfl
  | num n =>
    rw [Key.ofTree] at h
    split at h <;> cases h
  | _ => cases h

/-- The scopes that are open, the innermost first. -/
def Walk.stack (w : Walk) : List Nat := w.state.current :: w.outer

/-- The functions of the open scopes are among these. -/
structure Walk.Tracks (w : Walk) (scopes : List (List String)) : Prop where
  named : w.state.tree.Named
  nested : w.state.tree.Nested w.stack
  small : ∀ i ∈ w.stack, i < w.state.tree.size
  nodup : w.stack.Nodup
  functions : List.Forall₂ w.state.tree.Knows w.stack scopes

namespace Walk.Tracks

variable {w w' : Walk} {scopes : List (List String)} {e : Event} {es : List Event}

theorem evolves (h : w.Tracks scopes) (hstack : w'.stack = w.stack) (he : w.state.tree.Evolves w'.state.tree) :
    w'.Tracks scopes := by
  refine ⟨h.named.evolves he, ?_, ?_, ?_, ?_⟩
  · rw [hstack]
    exact h.nested.congr fun i _ => he.parent i
  · rw [hstack, he.size]
    exact h.small
  · rw [hstack]
    exact h.nodup
  · rw [hstack]
    exact h.functions.imp fun i fs hk => hk.evolves he

theorem bind {fs : List String} {outer : List (List String)} {added : List String} {i : Nat} {y : Symbol}
    (h : w.Tracks (fs :: outer)) (hstack : w'.stack = w.stack) (htree : w'.state.tree = w.state.tree.bind i y)
    (hy : y.params = none ∨ (i = w.state.current ∧ ∀ f, y.name = .text f → f ∈ added)) :
    w'.Tracks ((added ++ fs) :: outer) := by
  obtain ⟨hhead, htail⟩ := List.forall₂_cons.1 h.functions
  obtain ⟨hnot, -⟩ := List.nodup_cons.1 h.nodup
  refine ⟨htree ▸ h.named.bind i y, ?_, ?_, hstack ▸ h.nodup, ?_⟩
  · rw [hstack, htree]
    exact h.nested.congr fun j _ => ScopeTree.parent?_bind
  · rw [hstack, htree, ScopeTree.size_bind]
    exact h.small
  · rw [hstack, htree]
    refine .cons ?_ (List.forall₂_iff_zip.2 ⟨htail.length_eq, fun {j gs} hmem => ?_⟩)
    · refine (hhead.mono fun f hf => List.mem_append_right added hf).bind h.named ?_
      exact hy.imp id fun hf => .inr fun f hname => List.mem_append_left fs (hf.2 f hname)
    · refine (List.forall₂_iff_zip.1 htail |>.2 hmem).bind h.named ?_
      refine hy.imp id fun hf => .inl fun heq => hnot ?_
      exact hf.1 ▸ heq ▸ (List.of_mem_zip hmem).1

theorem acts (h : w.Tracks scopes) (he : e.Acts w.state w'.state) (houter : w'.outer = w.outer) :
    w'.Tracks (Event.scan scopes e) := by
  obtain ⟨hchange, hcurrent, -⟩ := he.change
  have hstack : w'.stack = w.stack := by rw [stack, stack, hcurrent, houter]
  obtain ⟨fs, outer, -, -, rfl⟩ := List.forall₂_cons_left_iff.1 h.functions
  have hscan : Event.scan (fs :: outer) e = (e.function?.toList ++ fs) :: outer := by
    cases e with
    | enter | leave => cases he
    | _ => rfl
  rw [hscan]
  generalize htree : w'.state.tree = t at hchange
  cases hchange with
  | evolve hevolves =>
    have hw' := h.evolves hstack (htree ▸ hevolves)
    obtain ⟨hhead, htail⟩ := List.forall₂_cons.1 hw'.functions
    exact ⟨hw'.named, hw'.nested, hw'.small, hw'.nodup,
      .cons (hhead.mono fun f hf => List.mem_append_right _ hf) htail⟩
  | @bind name _ i y hname hkey _ _ hparams =>
    refine h.bind hstack htree (hparams.symm.imp id fun ⟨hfunction, htruthy, hi⟩ => ⟨hi, fun f hf => ?_⟩)
    have hstr : name = .str f := by
      rw [hf] at hkey
      exact Key.eq_of_ofTree_text hkey
    subst hstr
    have hne : f ≠ "" := by simpa [Tree.truthy] using htruthy
    simp [Event.function?, hfunction, hname, hne]

theorem does (h : w.Tracks scopes) (he : e.Does w w') : w'.Tracks (Event.scan scopes e) := by
  obtain ⟨kind, rfl, rfl⟩ | ⟨rfl, i, houter, hstate⟩ | ⟨hacts, houter⟩ := he.cases
  · have hfresh : ∀ i ∈ w.stack, i ≠ w.state.tree.size := fun i hi => Nat.ne_of_lt (h.small i hi)
    refine ⟨h.named.child _ _, ⟨?_, ?_⟩, ?_, ?_, ?_⟩
    · rw [ScopeTree.parent?_child, if_pos rfl]
    · refine h.nested.congr fun i hi => ?_
      rw [ScopeTree.parent?_child, if_neg (hfresh i hi)]
    · intro i hi
      rw [ScopeTree.size_child]
      rcases List.mem_cons.1 hi with rfl | hi
      · exact Nat.lt_succ_self _
      · exact Nat.lt_succ_of_lt (h.small i hi)
    · exact List.nodup_cons.2 ⟨fun hmem => hfresh _ hmem rfl, h.nodup⟩
    · exact .cons (ScopeTree.knows_child_size kind) (h.functions.imp fun i fs hk => hk.child kind)
  · have hstack : w'.stack = w.stack.tail := by rw [stack, stack, hstate, List.tail_cons, houter]
    have hlong : w.stack = w.state.current :: i :: w'.outer := by rw [stack, houter]
    obtain ⟨fs, outer, -, htail, rfl⟩ := List.forall₂_cons_left_iff.1 h.functions
    have htree : w'.state.tree = w.state.tree := by rw [hstate]
    refine ⟨htree ▸ h.named, ?_, ?_, ?_, ?_⟩
    · have hnested := h.nested
      rw [hlong] at hnested
      rw [hstack, hlong, htree]
      exact hnested.2
    · rw [hstack, htree]
      exact fun i hi => h.small i (List.mem_of_mem_tail hi)
    · rw [hstack]
      exact h.nodup.tail
    · rw [hstack, htree]
      exact htail
  · exact h.acts hacts houter

/-- A function that a name stands for is one of those of the open scopes. -/
theorem exists_mem {f : String} {n : Nat} {y : Symbol} (h : w.Tracks scopes)
    (hf : w.state.lookup? (.text f) = some (n, y)) (hy : y.params.isSome = true) : ∃ fs ∈ scopes, f ∈ fs := by
  obtain ⟨hfind, hsymbol⟩ := AnalysisState.lookup?_eq_some.1 hf
  obtain ⟨i, hi, hlocal⟩ := h.nested.exists_findLocal? hfind
  obtain ⟨⟨k, hk⟩, rfl⟩ := List.mem_iff_get.1 hi
  have hk' : k < scopes.length := h.functions.length_eq ▸ hk
  exact ⟨_, List.get_mem scopes ⟨k, hk'⟩, h.functions.get hk hk' f n y hlocal hsymbol hy⟩

end Walk.Tracks

theorem Performs.tracks {es : List Event} {w w' : Walk} {scopes : List (List String)} (h : Performs es w w')
    (hw : w.Tracks scopes) : w'.Tracks (es.foldl Event.scan scopes) := by
  induction h generalizing scopes with
  | done => exact hw
  | note hn _ ih => exact ih (hw.evolves (by rw [Walk.stack, Walk.stack, hn.current]) hn.evolves)
  | step he _ ih => exact ih (hw.does he)

theorem Walk.tracks_initial : Walk.Tracks ⟨.initial, []⟩ [[]] := by
  refine ⟨ScopeTree.named_global, rfl, by decide, by decide, .cons ?_ .nil⟩
  intro f n y hn hy hparams
  have hnone : ∀ y ∈ builtins, y.params = none := by decide
  rw [hnone y (List.mem_of_getElem? hy)] at hparams
  cases hparams

end QuadScript
