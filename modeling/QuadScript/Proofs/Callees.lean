import QuadScript.Proofs.Declarations
import QuadScript.Proofs.Jumps
import QuadScript.Proofs.Occurrences
import QuadScript.Proofs.OpenScopes

/-!
# The functions that are called

The analysis finds the function that a call means through the scopes that are open at the call, and lowering gives code
to the functions that it meets on its way. Both agree: where a call is lowered, the functions of the open scopes are
lowered too (`Part.Occurs.keeps`), so a call of a function that the analysis finds enters the code of one.
-/

namespace QuadScript

/-! ### Open scopes of what is lowered -/

namespace Node

/-- Whether functions are declared only where statements stand in a whole program, too. -/
def isProgram : Node → Bool
  | .mk _ (.program body) => Node.arePlaced true body
  | n => n.isPlaced true

theorem isPlaced_true : ∀ n : Node, n.isPlaced false = true → n.isPlaced true = true
  | .mk mark form, h => by
    cases form with
    | function id params body =>
      rw [isPlaced] at h
      cases h
    | «if» test consequent alternate =>
      simp only [isPlaced, Bool.and_eq_true] at h ⊢
      exact ⟨⟨h.1.1, isPlaced_true consequent h.1.2⟩, isPlaced_true alternate h.2⟩
    | «while» test body =>
      simp only [isPlaced, Bool.and_eq_true] at h ⊢
      exact ⟨h.1, isPlaced_true body h.2⟩
    | _ => exact h
  | .absent, _ => rfl
  | .fault _, _ => rfl

theorem isProgram_of_isPlaced {n : Node} (h : n.isPlaced true = true) : n.isProgram = true := by
  unfold isProgram
  split
  · rw [isPlaced] at h
    cases h
  · exact h

end Node

namespace Event

variable {F : List String} {es es' : List Event} {N : String → Prop}

/-- All functions of the open scopes are among these. -/
def Declares (F : List String) (scopes : List (List String)) : Prop :=
  scopes ≠ [] ∧ ∀ fs ∈ scopes, ∀ f ∈ fs, f ∈ F

/-- Events after which all functions of the open scopes are among these, if they were before. -/
def Opens (F : List String) (es : List Event) : Prop :=
  ∀ scopes, Declares F scopes → Declares F (es.foldl scan scopes)

theorem Balanced.opens (h : Balanced N es) (hN : ∀ f, N f → f ∈ F) : Opens F es := by
  rintro (_ | ⟨fs, scopes⟩) ⟨hne, hF⟩
  · exact absurd rfl hne
  · obtain ⟨added, hadded, hN'⟩ := h fs scopes
    rw [hadded]
    refine ⟨by simp, List.forall_mem_cons.2 ⟨fun f hf => ?_, fun fs' hfs' => hF fs' (List.mem_cons_of_mem _ hfs')⟩⟩
    rcases List.mem_append.1 hf with hf | hf
    · exact hN f (hN' f hf)
    · exact hF fs List.mem_cons_self f hf

namespace Opens

theorem nil : Opens F [] := fun _ h => h

theorem append (h : Opens F es) (h' : Opens F es') : Opens F (es ++ es') := by
  intro scopes hscopes
  rw [List.foldl_append]
  exact h' _ (h _ hscopes)

theorem enter {kind : ScopeKind} (h : Opens F es) : Opens F (.enter kind :: es) := by
  intro scopes hscopes
  exact h _ ⟨List.cons_ne_nil _ _, List.forall_mem_cons.2 ⟨by simp, hscopes.2⟩⟩

theorem node {n : Node} {b : Bool} (h : n.isPlaced b = true) (hfs : ∀ f ∈ n.functions, f ∈ F) : Opens F n.events :=
  (n.balanced b h).opens fun f hf => hfs f hf.2

theorem expr {n : Node} (h : n.isPlaced false = true) : Opens F n.events := (n.balanced false h).opens (by simp)

theorem hoists {ns : List Node} (hfs : ∀ f ∈ Node.functionsList ns, f ∈ F) : Opens F (Node.hoists ns) :=
  (Node.balanced_hoists ns).opens hfs

end Opens

end Event

open Event (Opens)

/-- Where functions are declared only where statements stand, and are among these. -/
def Part.Placed (F : List String) : Part → Prop
  | .stmt _ n => n.isProgram = true ∧ ∀ f ∈ n.functions, f ∈ F
  | .body n => n.isPlaced false = true ∧ ∀ f ∈ n.functions, f ∈ F
  | .stmts _ _ ns => Node.arePlaced true ns = true ∧ ∀ f ∈ Node.functionsList ns, f ∈ F
  | .round _ n update => n.isPlaced true = true ∧ update.isPlaced false = true ∧ ∀ f ∈ n.functions, f ∈ F
  | .expr n => n.isPlaced false = true
  | .exprs ns => Node.arePlaced false ns = true
  | .declarators _ ds => Declarator.arePlaced ds = true
  | .declarator _ d => d.isPlaced = true

/-- A piece whose part declares functions only where statements stand, and the same is true of what is walked before
it. -/
def Piece.Keeps (F : List String) : Piece → Prop
  | .code _ => True
  | .part _ es w _ => Opens F es ∧ w.Placed F

namespace Piece

variable {F : List String} {dead : Bool} {es : List Event} {w : Part} {s : Supply} {c : Code} {rest : List Piece}

theorem keeps_nil : ∀ piece ∈ ([] : List Piece), piece.Keeps F := by simp

theorem keeps_code (hrest : ∀ piece ∈ rest, piece.Keeps F) : ∀ piece ∈ code c :: rest, piece.Keeps F :=
  List.forall_mem_cons.2 ⟨trivial, hrest⟩

theorem keeps_part (hes : Opens F es) (hw : w.Placed F) (hrest : ∀ piece ∈ rest, piece.Keeps F) :
    ∀ piece ∈ part dead es w s :: rest, piece.Keeps F :=
  List.forall_mem_cons.2 ⟨⟨hes, hw⟩, hrest⟩

end Piece

namespace Node

variable {F : List String} {s : Supply} {n : Node}

open Piece

theorem placed_initPart {init : Node} (h : init.isPlaced false = true) : init.initPart.Placed F := by
  unfold initPart
  split
  · rwa [isPlaced] at h
  · exact h

theorem keeps_stmt (loop : Option Loop) (hn : n.isProgram = true) (hF : ∀ f ∈ n.functions, f ∈ F) :
    ∀ piece ∈ n.stmtPieces loop s, piece.Keeps F := by
  cases n with
  | mk mark form =>
    cases form with
    | program body =>
      have hglobal : Event.Balanced (fun _ => False) [Event.global] :=
        .single (by simp) (by simp) (by simp [Event.function?, Event.isFunction])
      exact keeps_part (.append (hglobal.opens (by simp)) (.hoists hF)) ⟨hn, hF⟩ keeps_nil
    | block body =>
      have hplaced : arePlaced true body = true := hn
      exact keeps_part (.enter (.hoists hF)) ⟨hplaced, hF⟩ keeps_nil
    | expression e =>
      have hplaced : e.isPlaced false = true := hn
      exact keeps_part .nil hplaced keeps_nil
    | declaration kind ds =>
      have hplaced : Declarator.arePlaced ds = true := hn
      exact keeps_part .nil hplaced keeps_nil
    | function id params body =>
      have hplaced : (Node.mk mark (.function id params body)).isPlaced true = true := hn
      simp only [isPlaced, Bool.and_eq_true] at hplaced
      obtain ⟨⟨-, hparams⟩, hbody⟩ := hplaced
      simp only [stmtPieces]
      split
      · rename_i f xs hf _
        split
        · exact keeps_nil
        · rename_i hne
          have hown : Event.Balanced (· ∈ F) [Event.own mark id params] :=
            .single (by simp) (by simp) fun g hg => hF g (Event.function?_of_id rfl hg)
          have hfs : ∀ g ∈ body.functions, g ∈ F := by
            intro g hg
            refine hF g ?_
            rw [functions, Form.functions, hf]
            simp [hne, hg]
          have hreceived : Opens F (Param.eventsAll params) :=
            (Param.balanced_all (N := fun _ => False) params hparams).opens (by simp)
          exact keeps_code (keeps_code (keeps_part (.append (hown.opens fun _ h => h) (.enter hreceived)) ⟨hbody, hfs⟩
            (keeps_code keeps_nil)))
      · exact keeps_nil
    | «if» test consequent alternate =>
      have hplaced : (Node.mk mark (.if test consequent alternate)).isPlaced true = true := hn
      simp only [isPlaced, Bool.and_eq_true] at hplaced
      obtain ⟨⟨htest, hconsequent⟩, halternate⟩ := hplaced
      have hF₁ : ∀ f ∈ consequent.functions, f ∈ F := fun f hf => hF f (List.mem_append_left _ hf)
      have hF₂ : ∀ f ∈ alternate.functions, f ∈ F := fun f hf => hF f (List.mem_append_right _ hf)
      have hwarn : ∀ {b b' m m' p}, Opens F (warnEither b b' m m' p) :=
        (Event.Balanced.warnEither (N := fun _ => False)).opens (by simp)
      exact keeps_part .nil htest (keeps_code (keeps_part (.append (.expr htest) hwarn)
        ⟨isProgram_of_isPlaced hconsequent, hF₁⟩ (keeps_code (keeps_part
          (.append (.expr htest) (.append hwarn (.node hconsequent hF₁))) ⟨isProgram_of_isPlaced halternate, hF₂⟩
          (keeps_code keeps_nil)))))
    | «while» test body =>
      have hplaced : (Node.mk mark (.while test body)).isPlaced true = true := hn
      simp only [isPlaced, Bool.and_eq_true] at hplaced
      have hwarn : ∀ {b b' m m' p}, Opens F (warnEither b b' m m' p) :=
        (Event.Balanced.warnEither (N := fun _ => False)).opens (by simp)
      exact keeps_code (keeps_part .nil hplaced.1 (keeps_code (keeps_part (.append (.expr hplaced.1) hwarn)
        ⟨isProgram_of_isPlaced hplaced.2, hF⟩ (keeps_code keeps_nil))))
    | «for» init test update body =>
      have hplaced : (Node.mk mark (.for init test update body)).isPlaced true = true := hn
      simp only [isPlaced, Bool.and_eq_true] at hplaced
      obtain ⟨⟨⟨hinit, htest⟩, hupdate⟩, hbody⟩ := hplaced
      have hwarn : ∀ {b m p}, Opens F (warnIf b m p) := (Event.Balanced.warnIf (N := fun _ => False)).opens (by simp)
      exact keeps_part (.enter .nil) (placed_initPart hinit) (keeps_code (keeps_part (.enter (.expr hinit)) htest
        (keeps_code (keeps_part (.enter (.append (.expr hinit) (.append (.expr htest) hwarn))) ⟨hbody, hupdate, hF⟩
          (keeps_code keeps_nil)))))
    | «return» argument =>
      have hplaced : argument.isPlaced false = true := hn
      exact keeps_part .nil hplaced (keeps_code keeps_nil)
    | «break» labelled | «continue» labelled =>
      simp only [stmtPieces]
      split
      · exact keeps_code keeps_nil
      · exact keeps_nil
    | _ => exact keeps_nil
  | _ => exact keeps_nil

theorem keeps_expr (hn : n.isPlaced false = true) : ∀ piece ∈ n.exprPieces s, piece.Keeps F := by
  cases n with
  | mk mark form =>
    cases form with
    | assignment operator left right =>
      simp only [isPlaced, Bool.and_eq_true] at hn
      simp only [exprPieces]
      split
      · split
        · exact keeps_part .nil hn.2 (keeps_code keeps_nil)
        · split
          · exact keeps_part .nil hn.2 (keeps_code keeps_nil)
          · exact keeps_nil
      · exact keeps_nil
    | binary operator left right =>
      simp only [isPlaced, Bool.and_eq_true] at hn
      simp only [exprPieces]
      split
      · exact keeps_part .nil hn.1 (keeps_part (.expr hn.1) hn.2 (keeps_code keeps_nil))
      · exact keeps_nil
    | unary operator argument =>
      rw [isPlaced] at hn
      simp only [exprPieces]
      split
      · exact keeps_part .nil hn keeps_nil
      · split
        · exact keeps_part .nil hn (keeps_code keeps_nil)
        · exact keeps_nil
    | update operator leading argument =>
      simp only [exprPieces]
      split
      · split <;> exact keeps_code keeps_nil
      · exact keeps_nil
    | logical operator left right =>
      simp only [isPlaced, Bool.and_eq_true] at hn
      simp only [exprPieces]
      split
      · exact keeps_part .nil hn.1 (keeps_code (keeps_code (keeps_code (keeps_part (.expr hn.1) hn.2
          (keeps_code keeps_nil)))))
      · exact keeps_nil
    | conditional test consequent alternate =>
      simp only [isPlaced, Bool.and_eq_true] at hn
      obtain ⟨⟨htest, hconsequent⟩, halternate⟩ := hn
      exact keeps_part .nil htest (keeps_code (keeps_part (.expr htest) hconsequent (keeps_code
        (keeps_part (.append (.expr htest) (.expr hconsequent)) halternate (keeps_code keeps_nil)))))
    | call called arguments =>
      simp only [isPlaced, Bool.and_eq_true] at hn
      have hevent : ∀ mark, Event.Balanced (fun f => false = true ∧ f ∈ called.functions) [Event.call mark] :=
        fun _ => .single (by simp) (by simp) (by simp [Event.function?, Event.isFunction])
      have hcalled : Opens F (called.eventsOr .call called.events) :=
        (Event.Balanced.eventsOr hevent (called.balanced false hn.1)).opens (by simp)
      simp only [exprPieces]
      split
      · exact keeps_part hcalled hn.2 (keeps_code keeps_nil)
      · exact keeps_part hcalled hn.2 (keeps_code keeps_nil)
      · exact keeps_nil
    | sequence es =>
      rw [isPlaced] at hn
      exact keeps_part .nil hn keeps_nil
    | _ => exact keeps_nil
  | _ => exact keeps_nil

end Node

open Piece in
theorem Part.keeps {F : List String} {w : Part} {s : Supply} (hw : w.Placed F) :
    ∀ piece ∈ w.pieces s, piece.Keeps F := by
  cases w with
  | stmt loop n => exact Node.keeps_stmt loop hw.1 hw.2
  | body n =>
    obtain ⟨hn, hF⟩ := hw
    -- the statements of a block are hoisted in the scope of the function, so its events are not those of a statement
    by_cases hblock : ∃ mark ns, n = .mk mark (.block ns)
    · obtain ⟨mark, ns, rfl⟩ := hblock
      exact keeps_part (.hoists hF) ⟨hn, hF⟩ keeps_nil
    · rw [pieces]
      · exact Node.keeps_stmt none (Node.isProgram_of_isPlaced (n.isPlaced_true hn)) hF
      · exact fun mark ns hn => hblock ⟨mark, ns, hn⟩
  | stmts loop unreachable ns =>
    cases ns with
    | nil => exact keeps_nil
    | cons n rest =>
      obtain ⟨hns, hF⟩ := hw
      obtain ⟨hn, hrest⟩ := Bool.and_eq_true_iff.1 hns
      have hF₁ : ∀ f ∈ n.functions, f ∈ F := fun f hf => hF f (List.mem_append_left _ hf)
      have hwarn : Opens F (n.unreached unreachable) := (Event.Balanced.warnIf (N := fun _ => False)).opens (by simp)
      exact keeps_part hwarn ⟨Node.isProgram_of_isPlaced hn, hF₁⟩ (keeps_part (.append hwarn (.node hn hF₁))
        ⟨hrest, fun f hf => hF f (List.mem_append_right _ hf)⟩ keeps_nil)
  | round loop n update =>
    obtain ⟨hn, hupdate, hF⟩ := hw
    exact keeps_part (.expr hupdate) ⟨Node.isProgram_of_isPlaced hn, hF⟩ (keeps_code (keeps_part .nil hupdate keeps_nil))
  | expr n => exact Node.keeps_expr hw
  | exprs ns =>
    cases ns with
    | nil => exact keeps_nil
    | cons n rest =>
      obtain ⟨hn, hrest⟩ := Bool.and_eq_true_iff.1 hw
      exact keeps_part .nil hn (keeps_part (.expr hn) hrest keeps_nil)
  | declarators kind ds =>
    cases ds with
    | nil => exact keeps_nil
    | cons d rest =>
      obtain ⟨hd, hrest⟩ := Bool.and_eq_true_iff.1 hw
      have hopens : Opens F (d.events kind) := (d.balanced (N := fun _ => False) kind hd).opens (by simp)
      exact keeps_part .nil hd (keeps_part hopens hrest keeps_nil)
  | declarator kind d =>
    rw [pieces, Declarator.pieces.eq_def]
    split
    · split
      · split
        · exact keeps_nil
        · exact keeps_part .nil hw (keeps_code keeps_nil)
      · exact keeps_nil
    · exact keeps_nil

theorem Part.Occurs.keeps {F : List String} {w₀ w : Part} {s₀ s : Supply} {es : List Event} {p : Nat}
    (hw₀ : w₀.Placed F) (h : Part.Occurs w₀ s₀ es p w s) : Opens F es ∧ w.Placed F := by
  induction h with
  | self => exact ⟨.nil, hw₀⟩
  | part h hi ih =>
    obtain ⟨hopens, hplaced⟩ := Part.keeps ih.2 _ (List.mem_of_getElem? hi)
    exact ⟨ih.1.append hopens, hplaced⟩

/-! ### Calls -/

/-- The function has a label, and each call of it goes there. -/
def Code.Enters (code : Code) (f : String) : Prop :=
  (∃ p, code.LabelAt p (functionMark ++ f)) ∧ ∀ m : Machine, code.CallAt m.pc f →
    ∃ m', m.advance code code.labels = some (.ok m') ∧ code.LabelAt m'.pc (functionMark ++ f)

theorem Code.enters_of_labelAt {code : Code} {p : Nat} {f : String} (hnamed : code.LabelsNamed)
    (hp : code.LabelAt p (functionMark ++ f)) : code.Enters f := by
  obtain ⟨r, hr⟩ := Option.isSome_iff_exists.1 (Code.labels_get?_isSome hnamed hp.exists_mem)
  refine ⟨⟨p, hp⟩, fun m ⟨q, hq, hop, harg⟩ => ⟨m.enter q r, ?_, ?_⟩⟩
  · rw [Machine.advance_of_getElem? hq, Machine.step_call_of_get? hop harg hr]
  · obtain ⟨q', hq', hop', hname⟩ := Code.labels_get?_eq_some hr
    obtain ⟨x, hx⟩ := hnamed q' (List.mem_of_getElem? hq') hop'
    have htree := hname _ rfl
    rw [hx] at htree
    cases htree
    exact Option.bind_eq_some_iff.2 ⟨q', hq', Quad.label?_eq_some.2 ⟨hop', hx⟩⟩

/-- The code of a call ends with an instruction that calls the function. -/
theorem Part.Occurs.callAt {w₀ : Part} {s₀ s : Supply} {r₀ : Lowered Unit} {es : List Event} {p : Nat}
    {mark mark' : Mark} {args : List Node} {f : String} (hl : w₀.lower s₀ = .ok r₀)
    (h : Part.Occurs w₀ s₀ es p (.expr (.mk mark (.call (.mk mark' .identifier) args))) s)
    (hname : mark'.name = some (.str f)) :
    ∃ i, i + 1 = p + (Part.code (.expr (.mk mark (.call (.mk mark' .identifier) args))) s).length ∧
      r₀.code.CallAt i f := by
  have hcallee : Lower.callee (.mk mark' .identifier) = .ok (.function f) := by
    simp [Lower.callee, Mark.requireName, hname, Tree.append, bind, Except.bind, pure, Except.pure]
  obtain ⟨r, hr⟩ := h.lowers hl
  have hplaced := h.placed hl
  rw [Part.code_eq hr, (Part.laid hr).code] at hplaced ⊢
  simp only [Part.pieces, Node.exprPieces, hcallee, List.flatMap_cons, List.flatMap_nil, Piece.emitted,
    List.append_nil, ← List.append_assoc] at hplaced ⊢
  refine ⟨_, ?_, _, hplaced.right.head, rfl, rfl⟩
  simp only [List.length_append, List.length_cons, List.length_nil]
  omega

theorem Node.enters_of_mem {n : Node} {l : Lowered Unit} {f : String} (hl : n.lower = .ok l) (hf : f ∈ n.functions) :
    l.code.Enters f ∧ ∀ maxPasses code', l.code.optimize maxPasses = .ok code' → code'.Enters f := by
  have hresolves := resolves_of_lower hl
  obtain ⟨c, hc, hemits⟩ := lower_emits (N := fun _ => True) (p := False) False.elim False.elim hl
  have hlabel : ∃ p, l.code.LabelAt p (functionMark ++ f) := by
    obtain ⟨m, -, hperm⟩ := hemits.places
    have hmem : functionMark ++ f ∈ c.filterMap Quad.label? :=
      hperm.mem_iff.2 (List.mem_append_right _ (List.mem_flatMap.2 ⟨f, hf, List.mem_cons_self⟩))
    obtain ⟨q, hq, hlabel⟩ := List.mem_filterMap.1 hmem
    obtain ⟨hop, hresult⟩ := Quad.label?_eq_some.1 hlabel
    obtain ⟨p, hp⟩ := Code.exists_labelAt hq hop hresult
    exact ⟨p, hc ▸ Code.labelAt_renumber.2 hp⟩
  obtain ⟨p, hp⟩ := hlabel
  refine ⟨Code.enters_of_labelAt hresolves.named hp, fun maxPasses code' h => ?_⟩
  have hthins := Code.thins_optimize (tempsComputed_of_lower hl) h
  obtain ⟨_, -, -, hkept⟩ := hthins.exists_labelPlace
  obtain ⟨j, -, hj⟩ := hkept hp
  exact Code.enters_of_labelAt (hresolves.thins hthins).named hj

/-- Where the analysis of a program comes to a call that is lowered and finds a declared function by the name that is
called, the code has a label of that function, and each call of it goes to one, also after the code was optimized. Only
functions that are declared know their parameters. -/
theorem Node.declared_entered {n : Node} {l : Lowered Unit} {es : List Event} {p : Nat} {mark mark' : Mark}
    {args : List Node} {s : Supply} {f : String} (hn : n.isProgram = true) (hl : n.lower = .ok l)
    (hw : (Part.stmt none n).Occurs {} es p (.expr (.mk mark (.call (.mk mark' .identifier) args))) s)
    (hname : mark'.name = some (.str f)) :
    es ++ [.call mark'] <+: n.events ∧ (n.analyze.isFatal = false → ∃ w, n.Passes es w) ∧
    ∀ w k y, Performs es ⟨.initial, []⟩ w → w.state.lookup? (.text f) = some (k, y) → y.params.isSome = true →
      (∃ i, i + 1 = p + (Part.code (.expr (.mk mark (.call (.mk mark' .identifier) args))) s).length ∧
        l.code.CallAt i f) ∧ l.code.Enters f ∧
        ∀ maxPasses code', l.code.optimize maxPasses = .ok code' → code'.Enters f := by
  have hbegins : es ++ [.call mark'] <+: n.events := by
    refine List.IsPrefix.trans ?_ hw.events_prefix
    rw [Part.events, Node.events]
    exact (List.prefix_append_right_inj es).2 (List.prefix_append _ _)
  refine ⟨hbegins, fun ha => exists_passes ha ((List.prefix_append _ _).trans hbegins), fun w k y hes hf hy => ?_⟩
  refine ⟨?_, enters_of_mem hl ?_⟩
  · obtain ⟨r, hr, hcode⟩ := except_bind_eq_ok hl
    cases hcode
    have hlower : (Part.stmt none n).lower {} = .ok r := hr
    obtain ⟨i, hi, q, hq, hop, harg⟩ := hw.callAt hlower hname
    exact ⟨i, hi, { q with index := i }, by rw [Code.getElem?_renumber, hq]; rfl, hop, harg⟩
  · have hroot : (Part.stmt none n).Placed n.functions := ⟨hn, fun f hf => hf⟩
    obtain ⟨hopens, -⟩ := hw.keeps hroot
    obtain ⟨fs, hfs, hmem⟩ := (hes.tracks Walk.tracks_initial).exists_mem hf hy
    exact (hopens [[]] ⟨by simp, by simp⟩).2 fs hfs f hmem

/-- A block with a function that is called in it. -/
def localProgram : Node := .bare (.program [.bare (.block [
  .bare (.function (.named "f") [] (.bare (.block [.bare (.return (.int 1))]))),
  .bare (.expression (.bare (.call (.named "f") [])))])])

def localMark : Mark := { path := "", kind := none, name := none, position := .ok .none }

def localSymbol : Symbol :=
  { name := .text "f", kind := .function, inferred := .function, initialized := true, position := .none,
    params := some [], returns := some .unknown }

/-- The scope of the block, with the function in it. -/
def localTree : ScopeTree := ((ScopeTree.global.setKind 0 .global).child 0 .block).bind 1 localSymbol

def localEvents : List Event := [.global, .enter .block, .hoist localMark (.named "f") [],
  .own localMark (.named "f") [], .enter .function, .leave]

theorem localProgram_occurs : (Part.stmt none localProgram).Occurs {} localEvents 5
    (.expr (.mk localMark (.call (.named "f") []))) { functions := ["f"] } := by
  have hself : (Part.stmt none localProgram).Occurs {} [] 0 (.stmt none localProgram) {} := .self
  have hprogram := Part.Occurs.part (i := 0) hself rfl
  have hblock := Part.Occurs.part (i := 0) hprogram rfl
  have hlist := Part.Occurs.part (i := 0) hblock rfl
  have hrest := Part.Occurs.part (i := 1) hlist rfl
  have hstmt := Part.Occurs.part (i := 0) hrest rfl
  exact Part.Occurs.part (i := 0) hstmt rfl

theorem localEvents_performs : Performs localEvents ⟨.initial, []⟩
    ⟨{ tree := localTree.child 1 .function, current := 1 }, [0]⟩ := by
  have hglobal : Event.global.Does ⟨.initial, []⟩ ⟨{ tree := ScopeTree.global.setKind 0 .global }, []⟩ := ⟨rfl, rfl⟩
  have henter : (Event.enter .block).Does ⟨{ tree := ScopeTree.global.setKind 0 .global }, []⟩
    ⟨{ tree := (ScopeTree.global.setKind 0 .global).child 0 .block, current := 1 }, [0]⟩ := rfl
  have hhoist : (Event.hoist localMark (.named "f") []).Does
    ⟨{ tree := (ScopeTree.global.setKind 0 .global).child 0 .block, current := 1 }, [0]⟩
    ⟨{ tree := localTree, current := 1 }, [0]⟩ := ⟨rfl, rfl⟩
  have hown : (Event.own localMark (.named "f") []).Does ⟨{ tree := localTree, current := 1 }, [0]⟩
    ⟨{ tree := localTree, current := 1 }, [0]⟩ := ⟨⟨_, rfl⟩, rfl⟩
  have hfunction : (Event.enter .function).Does ⟨{ tree := localTree, current := 1 }, [0]⟩
    ⟨{ tree := localTree.child 1 .function, current := 2 }, [1, 0]⟩ := rfl
  have hleave : Event.leave.Does ⟨{ tree := localTree.child 1 .function, current := 2 }, [1, 0]⟩
    ⟨{ tree := localTree.child 1 .function, current := 1 }, [0]⟩ := ⟨1, rfl, rfl⟩
  exact .step hglobal (.step henter (.step hhoist (.step hown (.step hfunction (.step hleave (.done _))))))

theorem Node.declared_entered_local : ∃ l, localProgram.lower = .ok l ∧ (∃ w, localProgram.Passes localEvents w) ∧
    l.code.CallAt 5 "f" ∧ l.code.Enters "f" := by
  obtain ⟨l, hl⟩ : ∃ l, localProgram.lower = .ok l := ⟨_, by cbv⟩
  obtain ⟨-, hpasses, hentered⟩ := declared_entered (by rfl) hl localProgram_occurs rfl
  obtain ⟨⟨i, hi, hcall⟩, henters, -⟩ := hentered _ _ _ localEvents_performs rfl rfl
  have hlength : (Part.code (.expr (.mk localMark (.call (.named "f") []))) { functions := ["f"] }).length = 1 := by cbv
  have hfive : i = 5 := by
    rw [show (Node.mk localMark (.call (.mk _ .identifier) [])) = .mk localMark (.call (.named "f") []) from rfl,
      hlength] at hi
    omega
  exact ⟨l, hl, hpasses (by decide +kernel), hfive ▸ hcall, henters⟩

end QuadScript
