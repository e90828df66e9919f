import QuadScript.Proofs.Parts
import QuadScript.Proofs.Placement
import QuadScript.Optimizer.Propagate

/-!
# Where a part stands

`Part.Occurs w₀ s₀ es p w s`: while `w₀` is lowered from the supply `s₀`, the part `w` is lowered from `s`; its code
stands at place `p` of the code of `w₀`, and the walk of `w₀` performs the events `es` before those of `w`. Every
instruction is one of the pieces of a part that occurs (`Part.exists_occurs_at`), so that what is true of the
instructions of each part is true of all code.
-/

namespace QuadScript

namespace Part

/-- The place of a piece in the code of its part. -/
def placeOf (w : Part) (s : Supply) (i : Nat) : Nat := (((w.pieces s).take i).flatMap Piece.emitted).length

inductive Occurs (w₀ : Part) (s₀ : Supply) : List Event → Nat → Part → Supply → Prop
  | self : Occurs w₀ s₀ [] 0 w₀ s₀
  | part {es es' : List Event} {p i : Nat} {w w' : Part} {s s' : Supply} {dead : Bool} (h : Occurs w₀ s₀ es p w s)
      (hi : (w.pieces s)[i]? = some (.part dead es' w' s')) :
      Occurs w₀ s₀ (es ++ es') (p + w.placeOf s i) w' s'

variable {w₀ w w' : Part} {s₀ s s' : Supply} {es es' : List Event} {p p' i : Nat} {dead : Bool} {r r₀ : Lowered Unit}

theorem pieces_eq {pieces : List Piece} {piece : Piece} (h : pieces[i]? = some piece) :
    pieces = pieces.take i ++ piece :: pieces.drop (i + 1) := by
  obtain ⟨hi, rfl⟩ := List.getElem?_eq_some_iff.1 h
  rw [List.getElem_cons_drop, List.take_append_drop]

theorem exists_piece {pieces : List Piece} {k : Nat} {q : Quad} (h : (pieces.flatMap Piece.emitted)[k]? = some q) :
    ∃ i piece j, pieces[i]? = some piece ∧ piece.emitted[j]? = some q ∧
      k = ((pieces.take i).flatMap Piece.emitted).length + j := by
  induction pieces generalizing k with
  | nil => cases h
  | cons piece pieces ih =>
    rw [List.flatMap_cons, List.getElem?_append] at h
    split at h
    · exact ⟨0, piece, k, rfl, h, by simp⟩
    · obtain ⟨i, piece', j, hi, hj, hk⟩ := ih h
      refine ⟨i + 1, piece', j, hi, hj, ?_⟩
      rw [List.take_succ_cons, List.flatMap_cons, List.length_append]
      omega

theorem lowers_of_getElem? (h : w.lower s = .ok r) (hi : (w.pieces s)[i]? = some (.part dead es w' s')) :
    ∃ r', w'.lower s' = .ok r' := (laid h).lowers (List.mem_of_getElem? hi)

theorem code_eq_pieces (h : w.lower s = .ok r) {piece : Piece} (hi : (w.pieces s)[i]? = some piece) :
    r.code = ((w.pieces s).take i).flatMap Piece.emitted ++ (piece.emitted ++
      ((w.pieces s).drop (i + 1)).flatMap Piece.emitted) := by
  conv => lhs; rw [(laid h).code, pieces_eq hi, List.flatMap_append, List.flatMap_cons]

theorem at_piece {code : Code} (h : w.lower s = .ok r) {piece : Piece} (hi : (w.pieces s)[i]? = some piece)
    (hat : code.At p (w.code s)) : code.At (p + w.placeOf s i) piece.emitted := by
  rw [code_eq h, code_eq_pieces h hi] at hat
  exact hat.right.left

namespace Occurs

theorem lowers (hl : w₀.lower s₀ = .ok r₀) (h : Occurs w₀ s₀ es p w s) : ∃ r, w.lower s = .ok r := by
  induction h with
  | self => exact ⟨r₀, hl⟩
  | part _ hi ih =>
    obtain ⟨r, hr⟩ := ih
    exact lowers_of_getElem? hr hi

theorem events_prefix (h : Occurs w₀ s₀ es p w s) : es ++ w.events <+: w₀.events := by
  induction h with
  | self => exact List.prefix_rfl
  | @part es es' _ _ w w' s s' _ _ hi ih =>
    obtain ⟨-, rest, hrest⟩ := inside w s _ (List.mem_of_getElem? hi)
    refine List.IsPrefix.trans ⟨rest, ?_⟩ ih
    rw [← hrest]
    simp only [List.append_assoc]

theorem placed (hl : w₀.lower s₀ = .ok r₀) (h : Occurs w₀ s₀ es p w s) : r₀.code.At p (w.code s) := by
  induction h with
  | self => rw [code_eq hl]; exact .self
  | @part es es' _ _ w w' s s' _ h hi ih =>
    obtain ⟨r, hr⟩ := h.lowers hl
    exact at_piece hr hi ih

theorem trans (h : Occurs w₀ s₀ es p w s) (h' : Occurs w s es' p' w' s') :
    Occurs w₀ s₀ (es ++ es') (p + p') w' s' := by
  induction h' with
  | self => rwa [List.append_nil]
  | part _ hi ih =>
    rw [← List.append_assoc, ← Nat.add_assoc]
    exact ih.part hi

theorem of_piece (hi : (w.pieces s)[i]? = some (.part dead es w' s')) :
    Occurs w s es (w.placeOf s i) w' s' := by
  simpa using Occurs.self.part hi

end Occurs

/-- Every instruction is one of the own ones of a part, and stands where the pieces of the part put it. -/
theorem exists_occurs_at (h : w.lower s = .ok r) {q : Quad} {k : Nat} (hq : r.code[k]? = some q) :
    ∃ es p w' s' i own j, Occurs w s es p w' s' ∧ (w'.pieces s')[i]? = some (.code own) ∧ own[j]? = some q ∧
      k = p + w'.placeOf s' i + j := by
  -- by induction on the size, as a part is lowered through smaller ones
  induction hn : w.size using Nat.strongRecOn generalizing w s r k with
  | ind n ih =>
    rw [(laid h).code] at hq
    obtain ⟨i, piece, j, hi, hj, rfl⟩ := exists_piece hq
    cases piece with
    | code c => exact ⟨[], 0, w, s, i, c, j, .self, hi, hj, by rw [placeOf, Nat.zero_add]⟩
    | part dead es w₁ s₁ =>
      obtain ⟨r₁, hr₁⟩ := lowers_of_getElem? h hi
      have hsize := (inside w s _ (List.mem_of_getElem? hi)).1
      have hq' : r₁.code[j]? = some q := code_eq hr₁ ▸ hj
      obtain ⟨es', p, w', s', i', c, j', hoccurs, hc, hqc, rfl⟩ := ih _ (hn ▸ hsize) hr₁ hq' rfl
      refine ⟨_, _, w', s', i', c, j', (Occurs.of_piece hi).trans hoccurs, hc, hqc, ?_⟩
      simp only [placeOf]
      omega

theorem exists_occurs (h : w.lower s = .ok r) {q : Quad} (hq : q ∈ r.code) :
    ∃ es p w' s' c, Occurs w s es p w' s' ∧ .code c ∈ w'.pieces s' ∧ q ∈ c := by
  obtain ⟨k, hk⟩ := List.getElem?_of_mem hq
  obtain ⟨es, p, w', s', i, c, j, hoccurs, hi, hj, -⟩ := exists_occurs_at h hk
  exact ⟨es, p, w', s', c, hoccurs, List.mem_of_getElem? hi, List.mem_of_getElem? hj⟩

/-! ### Labels and jumps -/

/-- The loop around a part. -/
def loop : Part → Option Loop
  | .stmt loop _ => loop
  | .stmts loop _ _ => loop
  | .round loop _ _ => some loop
  | _ => none

end Part

/-- A label of a loop. -/
def Loop.Has (loop : Option Loop) (x : String) : Prop := ∃ l ∈ loop, x = l.next ∨ x = l.exit

/-- A label that does not stand in a part, to which it may jump all the same: one of the loop around it. -/
def Part.Leaves : Part → String → Prop
  | .stmt loop _, x => Loop.Has loop x
  | .body _, x => Loop.Has none x
  | .stmts loop _ _, x => Loop.Has loop x
  | .round loop _ _, x => x = loop.exit
  | _, _ => False

/-- The instructions of a piece that is no smaller part. -/
def Piece.own : Piece → Code
  | .code c => c
  | .part _ _ _ _ => []

/-- A label that was drawn, or one of these functions. -/
def Quad.Marks (functions : List String) (q : Quad) : Prop :=
  (∃ k, q = Quad.label (labelName k)) ∨
    ∃ f ∈ functions, q = Quad.label (functionMark ++ f) ∨ q = Quad.label (endMark ++ f)

/-- Whether a part is a call. -/
def Part.isCall : Part → Bool
  | .expr (.mk _ (.call _ _)) => true
  | _ => false

/-- A piece of the part `w` jumps only to labels that `L` allows, has the labels of its functions only, and calls only
if the part is a call. -/
def Piece.Sits (w : Part) (L : String → Prop) : Piece → Prop
  | .code c => ∀ q ∈ c, (q.op = .goto ∨ q.op = .jumpIfFalse → ∃ x, q.result = .name x ∧ L x) ∧
      (q.op = .label → Loop.Drawn w.loop → q.Marks w.functions) ∧ (q.op = .call → w.isCall = true)
  | .part _ _ w' _ => (∀ x, w'.Leaves x → L x) ∧ (Loop.Drawn w.loop → Loop.Drawn w'.loop) ∧ w'.functions ⊆ w.functions

/-- The jumps in the pieces of a part go to labels of the part itself or of the loop around it. -/
def Part.Seated (w : Part) (pieces : List Piece) : Prop :=
  ∀ piece ∈ pieces, piece.Sits w fun x => Quad.label x ∈ pieces.flatMap Piece.own ∨ w.Leaves x

theorem Part.Seated.nil (w : Part) : w.Seated [] := List.forall_mem_nil _

section

theorem Loop.has_none (x : String) : ¬ Loop.Has none x := by simp [Has]

theorem Loop.has_some (l : Loop) (x : String) : Loop.Has (some l) x ↔ x = l.next ∨ x = l.exit := by simp [Has]

theorem Loop.drawn_some (j k : Nat) : Loop.Drawn (some ⟨labelName j, labelName k⟩) := by
  rintro lp ⟨⟩
  exact ⟨j, k, rfl⟩

theorem Quad.marks_labelName (functions : List String) (k : Nat) : (Quad.label (labelName k)).Marks functions :=
  .inl ⟨k, rfl⟩

theorem Quad.marks_function {functions : List String} {f : String} (h : f ∈ functions) :
    (Quad.label (functionMark ++ f)).Marks functions ∧ (Quad.label (endMark ++ f)).Marks functions :=
  ⟨.inr ⟨f, h, .inl rfl⟩, .inr ⟨f, h, .inr rfl⟩⟩

theorem Lower.operator_of_logicalTest {operator : Tree} {join : String} {s : Supply} {t : Lowered Operand}
    (h : logicalTest operator join s = .ok t) : ∀ q ∈ t.code, ∃ op a b k, q = Quad.operator op a b (tempName k) := by
  unfold logicalTest at h
  split at h
  · rw [pure_eq_ok.1 h]; simp
  · split at h <;> rw [operator_eq_ok.1 h] <;> exact List.forall_mem_singleton.2 ⟨_, _, _, _, rfl⟩

attribute [local simp] Part.Seated Piece.Sits Piece.own Part.Leaves Part.loop Part.functions Part.isCall Loop.has_none
  Loop.has_some Loop.drawn_none Loop.drawn_some Quad.marks_labelName

theorem Node.seated_expr (n : Node) (s : Supply) : (Part.expr n).Seated (n.exprPieces s) := by
  cases n with
  | mk mark form =>
    cases form with
    | assignment operator left right =>
      simp only [exprPieces]
      split
      · split
        · simp
        · split
          · simp
          · exact .nil _
      · exact .nil _
    | binary operator left right =>
      simp only [exprPieces]
      split
      · simp
      · exact .nil _
    | unary operator argument =>
      simp only [exprPieces]
      split
      · simp
      · split
        · simp
        · exact .nil _
    | update operator leading argument =>
      simp only [exprPieces]
      split
      · split <;> simp
      · exact .nil _
    | logical operator left right =>
      simp only [exprPieces]
      split
      · rename_i t ht
        have hop := Lower.operator_of_logicalTest ht
        simp
        intro q hq
        obtain ⟨op, a, b, k, rfl⟩ := hop q hq
        simp
      · exact .nil _
    | conditional test consequent alternate => simp [exprPieces]
    | call called arguments =>
      simp only [exprPieces]
      split
      · simp [or_imp, forall_and]
      · simp [or_imp, forall_and]
      · exact .nil _
    | sequence es => simp [exprPieces]
    | _ => exact .nil _
  | _ => exact .nil _

theorem Node.initPart_cases (init : Node) :
    (∃ kind ds, init.initPart = .declarators kind ds) ∨ init.initPart = .expr init := by
  unfold initPart
  split <;> simp

theorem Node.seated_stmt (loop : Option Loop) (n : Node) (s : Supply) :
    (Part.stmt loop n).Seated (n.stmtPieces loop s) := by
  cases n with
  | mk mark form =>
    cases form with
    | program body => simp +contextual [stmtPieces, Node.functions, Form.functions]
    | block body => simp +contextual [stmtPieces, Node.functions, Form.functions]
    | expression e => simp [stmtPieces]
    | declaration kind ds => simp [stmtPieces]
    | function id params body =>
      simp only [stmtPieces]
      split
      · split
        · simp
        · rename_i f xs hname hxs hf
          have hmem : f ∈ (Node.mk mark (.function id params body)).functions := by
            simp [Node.functions, Form.functions, hname, hf]
          have hsub : body.functions ⊆ (Node.mk mark (.function id params body)).functions := by
            simp [Node.functions, Form.functions, hname, hf]
          simp [Quad.marks_function hmem, hsub]
      · simp
    | «if» test consequent alternate => simp +contextual [stmtPieces, Node.functions, Form.functions]
    | «while» test body => simp [stmtPieces, Node.functions, Form.functions]
    | «for» init test update body =>
      obtain ⟨kind, ds, hinit⟩ | hinit := initPart_cases init <;>
      simp [stmtPieces, Node.functions, Form.functions, hinit]
    | «return» argument => simp [stmtPieces]
    | «break» labelled =>
      simp only [stmtPieces]
      split <;> simp
    | «continue» labelled =>
      simp only [stmtPieces]
      split <;> simp
    | _ => exact .nil _
  | _ => exact .nil _

theorem Part.seated (w : Part) (s : Supply) : w.Seated (w.pieces s) := by
  cases w with
  | stmt loop n => exact n.seated_stmt loop s
  | body n =>
    by_cases hblock : ∃ mark ns, n = .mk mark (.block ns)
    · obtain ⟨mark, ns, rfl⟩ := hblock
      simp [pieces, Node.functions, Form.functions]
    · rw [pieces]
      · exact n.seated_stmt none s
      · exact fun mark ns hn => hblock ⟨mark, ns, hn⟩
  | stmts loop unreachable ns =>
    cases ns with
    | nil => simp [pieces]
    | cons n rest => simp +contextual [pieces, Node.functionsList]
  | round loop n update =>
    have hnext : Loop.Drawn (some loop) → (Quad.label loop.next).Marks n.functions := by
      intro hdrawn
      obtain ⟨j, k, rfl⟩ := hdrawn _ rfl
      exact Quad.marks_labelName _ j
    simpa [pieces] using hnext
  | expr n => exact n.seated_expr s
  | exprs ns => cases ns <;> simp [pieces]
  | declarators kind ds => cases ds <;> simp [pieces]
  | declarator kind d =>
    rw [pieces, Declarator.pieces.eq_def]
    split
    · split
      · split <;> simp
      · simp
    · simp

end

/-! ### Code -/

namespace Part

variable {w : Part} {s : Supply} {r : Lowered Unit}

theorem jumps_of_lower (h : w.lower s = .ok r) {q : Quad} (hq : q ∈ r.code)
    (hj : q.op = .goto ∨ q.op = .jumpIfFalse) :
    ∃ x, q.result = .name x ∧ (Quad.label x ∈ r.code ∨ w.Leaves x) := by
  -- by induction on the size: a jump out of a smaller part goes to a label beside it, or further out
  induction hn : w.size using Nat.strongRecOn generalizing w s r with
  | ind n ih =>
    have hown : (w.pieces s).flatMap Piece.own ⊆ r.code := by
      rw [(laid h).code]
      intro q hq
      obtain ⟨piece, hpiece, hq⟩ := List.mem_flatMap.1 hq
      cases piece with
      | code c => exact List.mem_flatMap.2 ⟨_, hpiece, hq⟩
      | part => cases hq
    obtain ⟨piece, hpiece, hq⟩ := List.mem_flatMap.1 ((laid h).code ▸ hq)
    have hsits := seated w s piece hpiece
    cases piece with
    | code c =>
      obtain ⟨x, hx, hL⟩ := (hsits q hq).1 hj
      exact ⟨x, hx, hL.imp_left fun hmem => hown hmem⟩
    | part dead es w₁ s₁ =>
      obtain ⟨r₁, hr₁⟩ := (laid h).lowers hpiece
      have hq' : q ∈ r₁.code := code_eq hr₁ ▸ hq
      obtain ⟨x, hx, hmem | hout⟩ := ih _ (hn ▸ (inside w s _ hpiece).1) hr₁ hq' rfl
      · refine ⟨x, hx, .inl ?_⟩
        rw [(laid h).code]
        rw [← code_eq hr₁] at hmem
        exact List.mem_flatMap.2 ⟨_, hpiece, hmem⟩
      · exact ⟨x, hx, (hsits.1 x hout).imp_left fun hmem => hown hmem⟩

theorem marks_of_lower (h : w.lower s = .ok r) (hloop : Loop.Drawn w.loop) {q : Quad} (hq : q ∈ r.code)
    (hop : q.op = .label) : q.Marks w.functions := by
  induction hn : w.size using Nat.strongRecOn generalizing w s r with
  | ind n ih =>
    obtain ⟨piece, hpiece, hq⟩ := List.mem_flatMap.1 ((laid h).code ▸ hq)
    have hsits := seated w s piece hpiece
    cases piece with
    | code c => exact (hsits q hq).2.1 hop hloop
    | part dead es w₁ s₁ =>
      obtain ⟨r₁, hr₁⟩ := (laid h).lowers hpiece
      have hq' : q ∈ r₁.code := code_eq hr₁ ▸ hq
      refine (ih _ (hn ▸ (inside w s _ hpiece).1) hr₁ (hsits.2.1 hloop) hq' rfl).imp_right ?_
      rintro ⟨f, hf, hq⟩
      exact ⟨f, hsits.2.2 hf, hq⟩

/-- The code of the other pieces. -/
def beside (w : Part) (s : Supply) (i : Nat) : Code :=
  ((w.pieces s).take i).flatMap Piece.emitted ++ ((w.pieces s).drop (i + 1)).flatMap Piece.emitted

variable {w' : Part} {s' : Supply} {es : List Event} {dead : Bool} {i : Nat}

theorem mem_beside {q : Quad} : q ∈ w.beside s i ↔
    ∃ piece ∈ (w.pieces s).take i ++ (w.pieces s).drop (i + 1), q ∈ piece.emitted := by
  rw [beside, ← List.flatMap_append, List.mem_flatMap]

theorem mem_beside_of_own (hi : (w.pieces s)[i]? = some (.part dead es w' s')) {q : Quad}
    (hq : q ∈ (w.pieces s).flatMap Piece.own) : q ∈ w.beside s i := by
  rw [pieces_eq hi, List.flatMap_append, List.flatMap_cons, Piece.own, List.nil_append, ← List.flatMap_append] at hq
  obtain ⟨piece, hpiece, hq⟩ := List.mem_flatMap.1 hq
  cases piece with
  | code c => exact mem_beside.2 ⟨_, hpiece, hq⟩
  | part => cases hq

/-- The jumps beside a smaller part go to labels beside it, or out of the whole. -/
theorem jumps_beside (h : w.lower s = .ok r) (hi : (w.pieces s)[i]? = some (.part dead es w' s')) {q : Quad}
    (hq : q ∈ w.beside s i) (hj : q.op = .goto ∨ q.op = .jumpIfFalse) :
    ∃ x, q.result = .name x ∧ (Quad.label x ∈ w.beside s i ∨ w.Leaves x) := by
  obtain ⟨piece, hmem, hq⟩ := mem_beside.1 hq
  have hpiece : piece ∈ w.pieces s := by
    rcases List.mem_append.1 hmem with hmem | hmem
    · exact List.mem_of_mem_take hmem
    · exact List.mem_of_mem_drop hmem
  have hsits := seated w s piece hpiece
  cases piece with
  | code c =>
    obtain ⟨x, hx, hL⟩ := (hsits q hq).1 hj
    exact ⟨x, hx, hL.imp_left (mem_beside_of_own hi)⟩
  | part _ _ w₁ s₁ =>
    obtain ⟨r₁, hr₁⟩ := (laid h).lowers hpiece
    have hq' : q ∈ r₁.code := code_eq hr₁ ▸ hq
    obtain ⟨x, hx, hmem' | hout⟩ := jumps_of_lower hr₁ hq' hj
    · rw [← code_eq hr₁] at hmem'
      exact ⟨x, hx, .inl (mem_beside.2 ⟨_, hmem, hmem'⟩)⟩
    · exact ⟨x, hx, (hsits.1 x hout).imp_left (mem_beside_of_own hi)⟩

/-- Code around a part: its jumps go to labels of its own, and it has the labels that the part jumps out to. -/
structure Around (w : Part) (pre post : Code) : Prop where
  drawn : Loop.Drawn w.loop
  leaves : ∀ x, w.Leaves x → Quad.label x ∈ pre ++ post
  jumps : ∀ q ∈ pre ++ post, q.op = .goto ∨ q.op = .jumpIfFalse → ∃ x, q.result = .name x ∧ Quad.label x ∈ pre ++ post

theorem Around.part {pre post : Code} (h : w.Around pre post) (hr : w.lower s = .ok r)
    (hi : (w.pieces s)[i]? = some (.part dead es w' s')) :
    w'.Around (pre ++ ((w.pieces s).take i).flatMap Piece.emitted)
      (((w.pieces s).drop (i + 1)).flatMap Piece.emitted ++ post) := by
  obtain ⟨hleaves, hdrawn, -⟩ := seated w s _ (List.mem_of_getElem? hi)
  have hmem : ∀ q, q ∈ (pre ++ ((w.pieces s).take i).flatMap Piece.emitted) ++
      (((w.pieces s).drop (i + 1)).flatMap Piece.emitted ++ post) ↔ q ∈ w.beside s i ∨ q ∈ pre ++ post := by
    intro q
    simp only [beside, List.mem_append]
    tauto
  refine ⟨hdrawn h.drawn, fun x hx => ?_, fun q hq hj => ?_⟩
  · rw [hmem]
    exact (hleaves x hx).imp (mem_beside_of_own hi) (h.leaves x)
  · rcases (hmem q).1 hq with hq | hq
    · obtain ⟨x, hx, hL⟩ := jumps_beside hr hi hq hj
      exact ⟨x, hx, (hmem _).2 (hL.imp_right (h.leaves x))⟩
    · obtain ⟨x, hx, hL⟩ := h.jumps q hq hj
      exact ⟨x, hx, (hmem _).2 (.inr hL)⟩

theorem Occurs.exists_around {w₀ : Part} {s₀ : Supply} {r₀ : Lowered Unit} {p : Nat} (hl : w₀.lower s₀ = .ok r₀)
    (hw₀ : w₀.Around [] []) (h : Occurs w₀ s₀ es p w s) :
    ∃ pre post, r₀.code = pre ++ (w.code s ++ post) ∧ pre.length = p ∧ w.Around pre post := by
  induction h with
  | self => exact ⟨[], [], by simp [code_eq hl], rfl, hw₀⟩
  | part h hi ih =>
    obtain ⟨pre, post, hcode, rfl, haround⟩ := ih
    obtain ⟨r, hr⟩ := h.lowers hl
    refine ⟨_, _, ?_, by rw [List.length_append, placeOf], haround.part hr hi⟩
    rw [hcode, code_eq hr, code_eq_pieces hr hi]
    simp only [Piece.emitted, List.append_assoc]

end Part

/-! ### Written names -/

/-- The name that an event is about, where the program writes to it. -/
def Event.target? : Event → Option Tree
  | .declare _ name _ _ => some name
  | .param _ name => some name
  | .assign _ mark => mark.name
  | .update mark => mark.name
  | _ => none

/-- A name that code draws for itself, or one that an event is about. -/
def Target.From (es : List Event) (x : Target) : Prop :=
  (∃ k, x = .name (tempName k)) ∨ (∃ k, x = .name (joinName k)) ∨ x = .none ∨
    ∃ name, x = Lower.nameTarget name ∧ (name.truthy = true → ∃ e ∈ es, e.target? = some name)

namespace Target

variable {es es' : List Event} {x : Target}

theorem From.mono (h : x.From es) (hsub : es ⊆ es') : x.From es' :=
  h.imp_right <| Or.imp_right <| Or.imp_right fun ⟨y, hx, he⟩ =>
    ⟨y, hx, fun ht => let ⟨e, hmem, heq⟩ := he ht; ⟨e, hsub hmem, heq⟩⟩

theorem from_none : Target.none.From es := .inr (.inr (.inl rfl))

theorem from_temp (k : Nat) : (Target.name (tempName k)).From es := .inl ⟨k, rfl⟩

theorem from_join (k : Nat) : (Target.name (joinName k)).From es := .inr (.inl ⟨k, rfl⟩)

theorem from_event {name : Tree} {e : Event} (he : e ∈ es) (hname : e.target? = some name) :
    (Lower.nameTarget name).From es := .inr (.inr (.inr ⟨name, rfl, fun _ => ⟨e, he, hname⟩⟩))

end Target

/-- The targets of a piece are names of its own or of events. -/
def Piece.Aims (es : List Event) : Piece → Prop
  | .code c => ∀ q ∈ c, q.op.writes = true → q.result.From es
  | .part _ _ _ _ => True

section

attribute [local simp] Piece.Aims Op.writes Target.from_none Target.from_temp Target.from_join

theorem Node.aims_expr (n : Node) (s : Supply) : ∀ piece ∈ n.exprPieces s, piece.Aims n.events := by
  cases n with
  | mk mark form =>
    cases form with
    | assignment operator left right =>
      simp only [exprPieces]
      split
      · rename_i name hleft
        obtain ⟨mark', rfl, hname⟩ := Lower.assignee?_eq_some hleft
        have htarget : (Lower.nameTarget name).From
            (Node.mk mark (.assignment operator (.mk mark' .identifier) right)).events :=
          Target.from_event (e := .assign operator mark') (by simp [Node.events, eventsOr]) hname
        split
        · simp [htarget]
        · split <;> simp [htarget]
      · simp
    | binary operator left right =>
      simp only [exprPieces]
      split <;> simp
    | unary operator argument =>
      simp only [exprPieces]
      split
      · simp
      · split <;> simp
    | update operator leading argument =>
      simp only [exprPieces]
      split
      · rename_i name harg
        obtain ⟨mark', rfl, hname⟩ := Lower.assignee?_eq_some harg
        have htarget : (Lower.nameTarget name).From
            (Node.mk mark (.update operator leading (.mk mark' .identifier))).events :=
          Target.from_event (e := .update mark') (by simp [Node.events, eventsOr]) hname
        split <;> simp [htarget]
      · simp
    | logical operator left right =>
      simp only [exprPieces]
      split
      · rename_i t ht
        have hop := Lower.operator_of_logicalTest ht
        simp
        intro q hq
        obtain ⟨op, a, b, k, rfl⟩ := hop q hq
        simp
      · simp
    | conditional test consequent alternate => simp [exprPieces]
    | call called arguments =>
      simp only [exprPieces]
      split
      · simp [or_imp, forall_and]
      · simp [or_imp, forall_and]
      · simp
    | sequence es => simp [exprPieces]
    | _ => exact List.forall_mem_nil _
  | _ => exact List.forall_mem_nil _

theorem Param.from_received {params : List Param} {xs : List Target} (h : params.mapM Lower.receivedName = .ok xs) :
    ∀ x ∈ xs, x.From (Param.eventsAll params) := by
  induction params generalizing xs with
  | nil => cases h; simp
  | cons p rest ih =>
    rw [List.mapM_cons] at h
    obtain ⟨x, hx, h⟩ := except_bind_eq_ok h
    obtain ⟨ys, hys, h⟩ := except_bind_eq_ok h
    cases h
    have hrest := ih hys
    refine List.forall_mem_cons.2 ⟨?_, fun y hy => (hrest y hy).mono (by simp [Param.eventsAll])⟩
    cases p with
    | fault f => cases hx
    | absent f => cases hx; exact Target.from_none
    | mk position name default =>
      obtain ⟨t, rfl, hx⟩ := except_bind_eq_ok hx
      cases hx
      refine .inr (.inr (.inr ⟨t, rfl, fun ht => ⟨.param position t, ?_, rfl⟩⟩))
      simp [Param.eventsAll, Param.events, namedEvents, ht]

theorem Node.aims_stmt (loop : Option Loop) (n : Node) (s : Supply) :
    ∀ piece ∈ n.stmtPieces loop s, piece.Aims n.events := by
  cases n with
  | mk mark form =>
    cases form with
    | function id params body =>
      simp only [stmtPieces]
      split
      · split
        · simp
        · rename_i f xs hname hxs hf
          have hparams : ∀ x ∈ xs, x.From (Node.mk mark (.function id params body)).events := fun x hx =>
            (Param.from_received hxs x hx).mono fun e he => by simp [Node.events, he]
          simpa using hparams
      · simp
    | «for» init test update body =>
      simp only [stmtPieces]
      cases test.isAbsent <;> simp
    | «break» labelled =>
      simp only [stmtPieces]
      split <;> simp
    | «continue» labelled =>
      simp only [stmtPieces]
      split <;> simp
    | _ => simp [stmtPieces]
  | _ => simp [stmtPieces]

theorem Part.aims (w : Part) (s : Supply) : ∀ piece ∈ w.pieces s, piece.Aims w.events := by
  cases w with
  | stmt loop n => exact n.aims_stmt loop s
  | body n =>
    by_cases hblock : ∃ mark ns, n = .mk mark (.block ns)
    · obtain ⟨mark, ns, rfl⟩ := hblock
      simp [pieces]
    · rw [pieces]
      · rw [events_body_of_ne fun mark ns hn => hblock ⟨mark, ns, hn⟩]
        exact n.aims_stmt none s
      · exact fun mark ns hn => hblock ⟨mark, ns, hn⟩
  | stmts loop unreachable ns => cases ns <;> simp [pieces]
  | round loop n update => simp [pieces]
  | expr n => exact n.aims_expr s
  | exprs ns => cases ns <;> simp [pieces]
  | declarators kind ds => cases ds <;> simp [pieces]
  | declarator kind d =>
    rw [pieces, Declarator.pieces.eq_def]
    split
    · split
      · split
        · simp
        · rename_i mark mark' given init _ name hname hinit
          have hname' := Mark.requireName_eq_ok hname
          have htarget : (Lower.nameTarget name).From
              ((Declarator.mk mark (.mk mark' .identifier) given init).events kind) := by
            refine .inr (.inr (.inr ⟨name, rfl, fun ht => ⟨.declare mark name kind given, ?_, rfl⟩⟩))
            have hnamed : (Node.mk mark' .identifier).nameTree = .ok name := by
              change Except.ok (mark'.name.getD .null) = .ok name
              rw [hname']
              rfl
            simp [Declarator.events, hnamed, namedEvents, ht]
          simpa [events] using htarget
      · simp
    · simp

end

/-- Code writes to names of its own and to those that the walk of its program meets. -/
theorem Part.from_of_lower {w : Part} {s : Supply} {r : Lowered Unit} (h : w.lower s = .ok r) {q : Quad}
    (hq : q ∈ r.code) (hw : q.op.writes = true) : q.result.From w.events := by
  obtain ⟨es, p, w', s', c, hoccurs, hc, hqc⟩ := exists_occurs h hq
  exact (aims w' s' _ hc q hqc hw).mono fun e he =>
    hoccurs.events_prefix.subset (List.mem_append_right es he)

end QuadScript
