import QuadScript.Proofs.CallStack

/-!
# Jumping over declarations

The code of a function stands where the function is declared, after a jump to the label behind it. That label has
the name of the function, as has the label of every other function of that name, and of labels of one name the
last counts. So the jump goes to the end of the declaration at whose head it stands (`Code.closing`) exactly if no
function of that name ends later (`Node.declaration_skipped_iff`). A call goes to the function that starts last.
-/

namespace QuadScript

/-! ### Where a function ends -/

/-- Whether a function starts here. -/
def Quad.opens (q : Quad) : Bool := q.label?.any fun s => functionMark.toList.isPrefixOf s.toList

/-- Whether a function ends here. -/
def Quad.closes (q : Quad) : Bool := q.label?.any fun s => endMark.toList.isPrefixOf s.toList

theorem Quad.opens_functionMark (f : String) : (Quad.label (functionMark ++ f)).opens = true := by
  simp [opens]

theorem Quad.closes_endMark (f : String) : (Quad.label (endMark ++ f)).closes = true := by
  simp [closes]

theorem isPrefixOf_of_head {a b : String} {c d : Char} (ha : a.toList.head? = some c) (hb : b.toList.head? = some d)
    (h : c ≠ d) : a.toList.isPrefixOf b.toList = false := by
  cases hx : a.toList with
  | nil => rw [hx] at ha; cases ha
  | cons x xs =>
    cases hy : b.toList with
    | nil => rw [hy] at hb; cases hb
    | cons y ys =>
      rw [hx] at ha
      rw [hy] at hb
      cases ha
      cases hb
      simp [List.isPrefixOf, h]

theorem Quad.opens_of_head {s : String} {d : Char} (hs : s.toList.head? = some d) (h : 'F' ≠ d) :
    (Quad.label s).opens = false :=
  isPrefixOf_of_head (c := 'F') rfl hs h

theorem Quad.Inner.bracket {P : Operand → Prop} {Q : Target → Prop} {q : Quad} (hq : q.Inner) (h : q.Emitted P Q) :
    q.opens = false ∧ q.closes = false := by
  cases h with
  | @label k =>
    exact ⟨opens_of_head (head_labelName k) (by decide),
      isPrefixOf_of_head (c := 'E') rfl (head_labelName k) (by decide)⟩
  | @enter f => exact ((hq f).1 rfl).elim
  | @leave f => exact ((hq f).2 rfl).elim
  | _ => exact ⟨rfl, rfl⟩

namespace Code

/-- How far the end of the function around the code is, if this many functions inside of it are open. -/
def closingFrom (depth : Nat) : Code → Option Nat
  | [] => none
  | q :: rest =>
    if q.opens then (closingFrom (depth + 1) rest).map (· + 1)
    else if q.closes then
      match depth with
      | 0 => some 0
      | depth + 1 => (closingFrom depth rest).map (· + 1)
    else (closingFrom depth rest).map (· + 1)

/-- Where the function ends that starts at a position. -/
def closing (code : Code) (p : Nat) : Option Nat := (closingFrom 0 (code.drop (p + 1))).map (p + 1 + ·)

/-- The position is that of the last label of the name. -/
def LastLabel (code : Code) (p : Nat) (l : String) : Prop := code.LabelAt p l ∧ ∀ r, code.LabelAt r l → r ≤ p

/-- A jump to the label stands there. -/
def GotoAt (code : Code) (p : Nat) (l : String) : Prop :=
  ∃ q, code[p]? = some q ∧ q.op = .goto ∧ q.result = .name l

variable {P : Operand → Prop} {Q : Target → Prop} {code d : Code} {A : List Located} {S S' T D : List String}
  {f : String} {p : Nat} {q : Quad}

theorem closingFrom_of_scoped (hemit : ∀ q ∈ code, q.Emitted P Q) (h : Scoped T code A S') (hT : T = D ++ f :: S)
    (hS' : S'.length ≤ S.length) :
    ∃ k, closingFrom D.length code = some k ∧ code[k]? = some (Quad.label (endMark ++ f)) := by
  -- `D` is what was opened since the function and is still open, so its length is the count that the search keeps
  induction h generalizing D with
  | nil =>
    rw [hT, List.length_append, List.length_cons] at hS'
    omega
  | inner hq h ih =>
    obtain ⟨hemit₀, hemit⟩ := List.forall_mem_cons.1 hemit
    obtain ⟨k, hk, hlabel⟩ := ih hemit hT hS'
    obtain ⟨hopens, hcloses⟩ := hq.bracket hemit₀
    exact ⟨k + 1, by simp [closingFrom, hopens, hcloses, hk], hlabel⟩
  | @enter _ _ g _ _ h ih =>
    obtain ⟨-, hemit⟩ := List.forall_mem_cons.1 hemit
    obtain ⟨k, hk, hlabel⟩ := ih (D := g :: D) hemit (by rw [hT]; rfl) hS'
    rw [List.length_cons] at hk
    exact ⟨k + 1, by simp [closingFrom, Quad.opens_functionMark, hk], hlabel⟩
  | @leave _ _ g _ _ h ih =>
    obtain ⟨-, hemit⟩ := List.forall_mem_cons.1 hemit
    have hopens : (Quad.label (endMark ++ g)).opens = false := Quad.opens_of_head (head_endMark g) (by decide)
    cases D with
    | nil =>
      cases hT
      exact ⟨0, by simp [closingFrom, hopens, Quad.closes_endMark], rfl⟩
    | cons g' D =>
      cases hT
      obtain ⟨k, hk, hlabel⟩ := ih hemit rfl hS'
      exact ⟨k + 1, by simp [closingFrom, hopens, Quad.closes_endMark, hk], hlabel⟩

theorem closingFrom_congr {c' : Code} {depth : Nat} (h : c'.map Quad.label? = code.map Quad.label?) :
    closingFrom depth c' = closingFrom depth code := by
  induction code generalizing c' depth with
  | nil => rw [List.map_eq_nil_iff.1 h]
  | cons q rest ih =>
    obtain ⟨q', rest', rfl, hq, hrest⟩ := List.map_eq_cons_iff.1 h
    have hopens : q'.opens = q.opens := by unfold Quad.opens; rw [hq]
    have hcloses : q'.closes = q.closes := by unfold Quad.closes; rw [hq]
    simp only [closingFrom, hopens, hcloses, ih hrest]

/-! ### The head of a declaration -/

/-- After a jump over a function comes the first label of the function. -/
def Heads (q q' : Quad) : Prop := ∀ f, q = Quad.goto (endMark ++ f) → q' = Quad.label (functionMark ++ f)

/-- Code in which all heads are followed by their functions, whatever comes after it. -/
def Headed (code : Code) : Prop := ∀ d : Code, d.IsChain Heads → (code ++ d).IsChain Heads

namespace Headed

theorem nil : Headed [] := fun _ hd => hd

theorem append (hc : Headed code) (hd : Headed d) : Headed (code ++ d) := by
  intro e he
  rw [List.append_assoc]
  exact hc _ (hd e he)

theorem cons (hq : ∀ f, q ≠ Quad.goto (endMark ++ f)) (hc : Headed code) : Headed (q :: code) :=
  fun d hd => (hc d hd).cons fun _ _ f h => (hq f h).elim

theorem cons_of_op (hq : q.op ≠ .goto) (hc : Headed code) : Headed (q :: code) :=
  hc.cons fun f h => hq (by rw [h]; rfl)

theorem single (hq : q.op ≠ .goto) : Headed [q] := cons_of_op hq nil

theorem label (s : String) (hc : Headed code) : Headed (Quad.label s :: code) := hc.cons_of_op nofun

theorem jumpIfFalse (a : Operand) (s : String) (hc : Headed code) : Headed (Quad.jumpIfFalse a s :: code) :=
  hc.cons_of_op nofun

theorem goto (k : Nat) (hc : Headed code) : Headed (Quad.goto (labelName k) :: code) := by
  refine hc.cons fun f h => ?_
  exact ne_of_head (head_labelName k) (head_endMark f) (by decide) (Target.name.inj (congrArg Quad.result h))

theorem straights (h : ∀ q ∈ code, q.op ≠ .goto) : Headed code := by
  induction code with
  | nil => exact nil
  | cons q code ih =>
    obtain ⟨hq, h⟩ := List.forall_mem_cons.1 h
    exact cons_of_op hq (ih h)

theorem function (hc : Headed code) : Headed (Quad.goto (endMark ++ f) :: Quad.label (functionMark ++ f) :: code) := by
  intro d hd
  refine (hc.label _ d hd).cons fun q' hq' g hg => ?_
  cases hq'
  rw [endMark_injective (Target.name.inj (congrArg Quad.result hg))]

end Headed

end Code

section
variable {P : Operand → Prop} {Q : Target → Prop} {t l t' l' : Nat} {c : Code} {as : List Operand}
  {loop : Option Loop} {fs : List String}

open Code

theorem headed_params : Headed (as.map Quad.param) := .straights (List.forall_mem_map.2 fun _ _ => nofun)

theorem Evaluates.headed (h : Evaluates P Q t l c as t' l') : Headed c := by
  induction h with
  | nothing => exact .nil
  | operand => exact .nil
  | append _ _ ih₁ ih₂ => exact ih₁.append ih₂
  | forget _ _ ih => exact ih
  | assign _ _ _ _ ih => exact ih.append (.single nofun)
  | operator _ _ _ ih => exact ih.append (.single nofun)
  | print _ ih => exact ih.append (headed_params.append (.single nofun))
  | call _ ih => exact ih.append (headed_params.append (.single nofun))
  | skip _ _ _ ih₁ ih₂ => exact ih₁.append (.jumpIfFalse _ _ (ih₂.append (.label _ .nil)))
  | choose _ _ _ _ ih₁ ih₂ ih₃ =>
    exact ih₁.append (.jumpIfFalse _ _ (ih₂.append (.goto _ (.label _ (ih₃.append (.label _ .nil))))))

theorem Emits.headed (hloop : Loop.Drawn loop) (h : Emits P Q loop t l c fs t' l') : Headed c := by
  induction h with
  | expression h => exact h.headed
  | append _ _ ih₁ ih₂ => exact (ih₁ hloop).append (ih₂ hloop)
  | branch h _ _ _ ih₁ ih₂ =>
    exact h.headed.append (.jumpIfFalse _ _ ((ih₁ hloop).append (.goto _ (.label _
      ((ih₂ hloop).append (.label _ .nil))))))
  | «while» h _ _ ih =>
    have ih' := ih (by rintro lp ⟨⟩; exact ⟨_, _, rfl⟩)
    exact .label _ (h.headed.append (.jumpIfFalse _ _ (ih'.append (.goto _ (.label _ .nil)))))
  | @«for» _ _ _ _ _ _ _ _ _ _ _ _ _ _ _ a h _ _ h' ih =>
    have ih' := ih (by rintro lp ⟨⟩; exact ⟨_, _, rfl⟩)
    have htest : ∀ s, Headed (exitTest s a) := by
      intro s
      cases a with
      | none => exact .nil
      | some b => exact .jumpIfFalse b s .nil
    exact .label _ (h.headed.append ((htest _).append (ih'.append (.label _ (h'.headed.append
      (.goto _ (.label _ .nil)))))))
  | «break» =>
    obtain ⟨j, k, rfl⟩ := hloop _ rfl
    exact .goto k .nil
  | «continue» =>
    obtain ⟨j, k, rfl⟩ := hloop _ rfl
    exact .goto j .nil
  | «return» h _ => exact h.headed.append (.single nofun)
  | function _ _ _ ih =>
    have hreceive : ∀ xs : List Target, Headed (xs.map Quad.receive) :=
      fun xs => .straights (List.forall_mem_map.2 fun _ _ => nofun)
    exact .function ((hreceive _).append ((ih Loop.drawn_none).append (.cons_of_op nofun (.label _ .nil))))

end

/-! ### The jump and the calls -/

namespace Code

variable {P : Operand → Prop} {Q : Target → Prop} {code : Code} {A : List Located} {f : String} {p : Nat}

theorem Headed.label_after (h : Headed code) (hp : code[p]? = some (Quad.goto (endMark ++ f))) :
    code[p + 1]? = some (Quad.label (functionMark ++ f)) := by
  obtain ⟨hlt, hp⟩ := List.getElem?_eq_some_iff.1 hp
  -- some instruction after the code shows that the head is not its last one
  have hchain := List.isChain_iff_getElem.1 (h [Quad.ret void] (.singleton _)) p (by simp; omega) f
  rw [List.getElem_append_left hlt] at hchain
  have hnext := hchain hp
  by_cases hend : p + 1 < code.length
  · rw [List.getElem_append_left hend] at hnext
    rw [List.getElem?_eq_getElem hend, hnext]
  · rw [List.getElem_append_right (by omega), List.getElem_singleton] at hnext
    cases hnext

/-- A declaration has a first label after its head, and ends at a label of its name. -/
theorem exists_closing (hemit : ∀ q ∈ code, q.Emitted P Q) (hhead : Headed code) (h : Scoped [] code A [])
    (hp : code[p]? = some (Quad.goto (endMark ++ f))) : code[p + 1]? = some (Quad.label (functionMark ++ f)) ∧
      ∃ j, code.closing (p + 1) = some j ∧ code[j]? = some (Quad.label (endMark ++ f)) := by
  have hlabel := hhead.label_after hp
  refine ⟨hlabel, ?_⟩
  have hA := hlabel
  rw [← h.map_snd, List.getElem?_map] at hA
  obtain ⟨⟨S, _⟩, hx, rfl⟩ := Option.map_eq_some_iff.1 hA
  obtain ⟨B, rfl⟩ : ∃ B, S = f :: B := h.scope_label (List.mem_of_getElem? hx) rfl
  obtain ⟨-, _, hrest⟩ := h.cut hx
  obtain ⟨k, hk, hend⟩ := closingFrom_of_scoped (D := []) (fun q hq => hemit q (List.mem_of_mem_drop hq)) hrest rfl
    (Nat.zero_le _)
  refine ⟨p + 1 + 1 + k, by simp [closing, ← hk], ?_⟩
  rwa [List.getElem?_drop] at hend

theorem exists_lastLabel (hemit : ∀ q ∈ code, q.Emitted P Q) {l : String} (hp : code[p]? = some (Quad.label l)) :
    ∃ r, code.labels.get? (.text l) = some r ∧ code.LastLabel r l := by
  have hnamed : code.LabelsNamed := fun q hq hop => (hemit q hq).label_named hop
  obtain ⟨r, hr⟩ := Option.isSome_iff_exists.1
    (labels_get?_isSome hnamed ⟨_, List.mem_of_getElem? hp, rfl, rfl⟩)
  refine ⟨r, hr, (labelAt_iff hemit).2 (getElem?_of_labels hemit hr), fun i hi => ?_⟩
  exact le_of_labels_get? hnamed hr ((labelAt_iff hemit).1 hi) rfl rfl

theorem LastLabel.unique {l : String} {r : Nat} (hp : code.LastLabel p l) (hr : code.LastLabel r l) : p = r :=
  Nat.le_antisymm (hr.2 p hp.1) (hp.2 r hr.1)

theorem goto_of_emitted {q : Quad} (h : q.Emitted P Q) (hop : q.op = .goto) (hf : q.result = .name (endMark ++ f)) :
    q = Quad.goto (endMark ++ f) := by
  cases h with
  | @goto k =>
    exact (ne_of_head (head_labelName k) (head_endMark f) (by decide) (Target.name.inj hf)).elim
  | «over» => rw [endMark_injective (Target.name.inj hf)]
  | _ => cases hop

theorem lastLabel_renumber {l : String} : code.renumber.LastLabel p l ↔ code.LastLabel p l := by
  simp only [LastLabel, labelAt_renumber]

theorem closing_renumber : code.renumber.closing p = code.closing p := by
  unfold closing
  rw [closingFrom_congr]
  rw [List.map_drop, List.map_drop]
  refine congrArg (List.drop (p + 1)) (List.ext_getElem? fun i => ?_)
  rw [List.getElem?_map, List.getElem?_map, getElem?_renumber, Option.map_map]
  rfl

end Code

theorem consoleLead?_functionMark (f : String) : consoleLead? (functionMark ++ f) = none := by
  have hne : ∀ s : String, s.toList.head? = some 'c' → functionMark ++ f ≠ s :=
    fun s hs => ne_of_head (head_functionMark f) hs (by decide)
  unfold consoleLead?
  split
  case h_6 => rfl
  all_goals exact absurd ‹_› (hne _ rfl)

theorem Machine.step_call_of_get? {code : Code} {labels : Labels} {m : Machine} {q : Quad} {f : String} {p : Nat}
    (hop : q.op = .call) (harg : q.arg1 = .name (functionMark ++ f))
    (hp : labels.get? (.text (functionMark ++ f)) = some p) : m.step code labels q = .ok (m.enter q p) := by
  rw [step_call hop, call, harg]
  simp only [callNamed, consoleLead?_functionMark, hp]

open Machine

/-- At the head of a declaration the machine goes to the last label behind a function of that name. That is the end
of the declaration exactly if no function of the name ends later, so always if no two functions have one name. A
call goes to the last label before a function of the name. -/
theorem Node.declaration_skipped_iff {n : Node} {l : Lowered Unit} (hl : n.lower = .ok l) (m : Machine) (f : String) :
    (l.code.GotoAt m.pc (endMark ++ f) → ∃ j p, l.code.LabelAt (m.pc + 1) (functionMark ++ f) ∧
      l.code.closing (m.pc + 1) = some j ∧ l.code.LabelAt j (endMark ++ f) ∧
      m.advance l.code l.code.labels = some (.ok { m with pc := p }) ∧ l.code.LastLabel p (endMark ++ f) ∧
      (p = j ↔ l.code.LastLabel j (endMark ++ f)) ∧ (n.functions.Nodup → p = j)) ∧
    ∀ q i, l.code[m.pc]? = some q → q.op = .call → q.arg1 = .name (functionMark ++ f) →
      l.code.LabelAt i (functionMark ++ f) →
      ∃ p, m.advance l.code l.code.labels = some (.ok (m.enter q p)) ∧ l.code.LastLabel p (functionMark ++ f) := by
  obtain ⟨c, hc, hemits⟩ := Node.lower_emits (N := fun _ => True) (p := False) nofun nofun hl
  have hemitted := hemits.emitted (fun _ => nofun) nofun Loop.drawn_none
  obtain ⟨A, hA⟩ := hemits.nests []
  rw [hc]
  simp only [Code.labelAt_renumber, Code.lastLabel_renumber, Code.closing_renumber, advance_renumber,
    Code.labelAt_iff hemitted]
  -- jumps and calls both go to the last label of a name: a declaration is skipped to its own end only if that is it
  constructor
  · rintro ⟨q, hq, hop, hf⟩
    rw [Code.getElem?_renumber] at hq
    obtain ⟨q, hq₀, rfl⟩ := Option.map_eq_some_iff.1 hq
    obtain rfl : q = Quad.goto (endMark ++ f) := Code.goto_of_emitted (hemitted q (List.mem_of_getElem? hq₀)) hop hf
    obtain ⟨hstart, j, hj, hend⟩ := Code.exists_closing hemitted (hemits.headed Loop.drawn_none) hA.scope hq₀
    obtain ⟨p, hp, hlast⟩ := Code.exists_lastLabel hemitted hend
    refine ⟨j, p, hstart, hj, hend, ?_, hlast, ⟨fun h => h ▸ hlast, hlast.unique⟩, fun hfs => ?_⟩
    · rw [advance_of_getElem? hq₀, step_goto rfl]
      exact congrArg some (jump_of_get? hp)
    · have hlinked := Code.linked_of_places hfs hemitted hemits.places
      exact hlinked.unique ((Code.labelAt_iff hemitted).1 hlast.1) hend
  · intro q i hq hop hf hi
    rw [Code.getElem?_renumber] at hq
    obtain ⟨q, hq₀, rfl⟩ := Option.map_eq_some_iff.1 hq
    obtain ⟨p, hp, hlast⟩ := Code.exists_lastLabel hemitted hi
    refine ⟨p, ?_, hlast⟩
    rw [advance_of_getElem? hq₀]
    exact congrArg some (step_call_of_get? hop hf hp)

/-- Two functions of one name, with a line printed after each. -/
def repeatedProgram : Node := .bare (.program [
  .bare (.function (.named "f") [] (.bare (.block [.bare (.return (.int 1))]))),
  .bare (.expression (.print [.bare (.literal false (.str "a"))])),
  .bare (.function (.named "f") [] (.bare (.block [.bare (.return (.int 2))]))),
  .bare (.expression (.print [.bare (.literal false (.str "b"))]))])

def repeatedCode : Code := Code.renumber [
  Quad.goto "END_FUNC_f", Quad.label "FUNC_f", Quad.ret (.num (.int 1)), Quad.ret void, Quad.label "END_FUNC_f",
  Quad.param (.text "a"), Quad.call "console_log" 1 .none,
  Quad.goto "END_FUNC_f", Quad.label "FUNC_f", Quad.ret (.num (.int 2)), Quad.ret void, Quad.label "END_FUNC_f",
  Quad.param (.text "b"), Quad.call "console_log" 1 .none]

theorem repeatedProgram_lower : repeatedProgram.lower = .ok ⟨(), repeatedCode, { functions := ["f"], warnings :=
    ["Function 'f' is declared more than once; calls reach the last declaration"] }⟩ := by
  cbv

theorem Node.declaration_skipped_iff_repeated :
    repeatedCode.GotoAt 7 "END_FUNC_f" ∧ repeatedCode.closing 8 = some 11 ∧ repeatedCode.LastLabel 11 "END_FUNC_f" ∧
      ({ pc := 7 } : Machine).advance repeatedCode repeatedCode.labels = some (.ok { pc := 11 }) := by
  have hgoto : repeatedCode.GotoAt 7 "END_FUNC_f" := ⟨_, rfl, rfl, rfl⟩
  have hadvance : ({ pc := 7 } : Machine).advance repeatedCode repeatedCode.labels = some (.ok { pc := 11 }) := rfl
  obtain ⟨j, p, -, hj, -, hp, hlast, -⟩ := (declaration_skipped_iff repeatedProgram_lower { pc := 7 } "f").1 hgoto
  obtain rfl : p = 11 := congrArg Machine.pc (Except.ok.inj (Option.some.inj (hp.symm.trans hadvance)))
  exact ⟨hgoto, rfl, hlast, hadvance⟩

/-- At the head of the first function the machine goes to the end of the second one, so that the line between them is
not printed. -/
theorem Node.declaration_not_skipped :
    repeatedCode.GotoAt 0 "END_FUNC_f" ∧ repeatedCode.closing 1 = some 4 ∧
      (start .nobody).advance repeatedCode repeatedCode.labels = some (.ok { pc := 11 }) ∧
      (run repeatedCode 20 .nobody).output = ["b"] :=
  ⟨⟨_, rfl, rfl, rfl⟩, rfl, rfl, by decide +kernel⟩

end QuadScript
