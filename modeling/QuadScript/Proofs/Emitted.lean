import QuadScript.Proofs.Emission
import Mathlib.Data.List.Nodup
import Mathlib.Data.List.Range

/-!
# What emitted code consists of

Three facts about all code of the shapes `Evaluates` and `Emits`: it is made of a few sorts of instructions
(`Quad.Emitted`), it writes each temporary that it draws once and in order (`Emits.draws`), and it has each
label that it draws and the two labels of each of its functions once (`Emits.places`).
-/

namespace QuadScript

/-- The instructions that code is emitted from. -/
inductive Quad.Emitted (P : Operand → Prop) (Q : Target → Prop) : Quad → Prop
  | assign {a : Operand} {x : Target} (ha : P a) (hx : x.temp? = none) (hQ : Q x) : Emitted P Q (Quad.assign a x)
  | operator {o : Operator} {a b : Operand} {t : Nat} (ha : P a) (hb : P b) :
      Emitted P Q (Quad.operator o a b (tempName t))
  | param {a : Operand} (ha : P a) : Emitted P Q (Quad.param a)
  | print {f : String} {k : Nat} : Emitted P Q (Quad.call (consoleMark ++ f) k .none)
  | call {f : String} {k t : Nat} : Emitted P Q (Quad.call (functionMark ++ f) k (.name (tempName t)))
  | jumpIfFalse {a : Operand} {l : Nat} (ha : P a) : Emitted P Q (Quad.jumpIfFalse a (labelName l))
  | goto {l : Nat} : Emitted P Q (Quad.goto (labelName l))
  | label {l : Nat} : Emitted P Q (Quad.label (labelName l))
  | over {f : String} : Emitted P Q (Quad.goto (endMark ++ f))
  | enter {f : String} : Emitted P Q (Quad.label (functionMark ++ f))
  | leave {f : String} : Emitted P Q (Quad.label (endMark ++ f))
  | receive {x : Target} (hx : x.temp? = none) (hQ : Q x) : Emitted P Q (Quad.receive x)
  | ret {a : Operand} (ha : P a) : Emitted P Q (Quad.ret a)

/-- The labels of a loop are drawn ones. -/
def Loop.Drawn (loop : Option Loop) : Prop := ∀ lp ∈ loop, ∃ j k, lp = ⟨labelName j, labelName k⟩

theorem Loop.drawn_none : Loop.Drawn none := fun _ h => by cases h

/-- The name of a label. -/
def Quad.label? (q : Quad) : Option String :=
  match q.op, q.result with
  | .label, .name s => some s
  | _, _ => none

section
variable {P : Operand → Prop} {Q : Target → Prop} {t l t' l' : Nat} {c : Code} {as : List Operand}
  {loop : Option Loop} {fs : List String}

/-! ### Counters -/

theorem Evaluates.le (h : Evaluates P Q t l c as t' l') : t ≤ t' ∧ l ≤ l' := by
  induction h with
  | nothing => omega
  | operand => omega
  | append _ _ ih₁ ih₂ => omega
  | forget _ _ ih => exact ih
  | assign _ _ _ _ ih => exact ih
  | operator _ _ _ ih => omega
  | print _ ih => exact ih
  | call _ ih => omega
  | skip _ _ _ ih₁ ih₂ => omega
  | choose _ _ _ _ ih₁ ih₂ ih₃ => omega

theorem Emits.le (h : Emits P Q loop t l c fs t' l') : t ≤ t' ∧ l ≤ l' := by
  induction h with
  | expression h => exact h.le
  | append _ _ ih₁ ih₂ => omega
  | branch h _ _ _ ih₁ ih₂ => have := h.le; omega
  | «while» h _ _ ih => have := h.le; omega
  | «for» h _ _ h' ih => have := h.le; have := h'.le; omega
  | «break» => omega
  | «continue» => omega
  | «return» h => exact h.le
  | function _ _ _ ih => exact ih

/-! ### Instructions -/

theorem Evaluates.operands (hP : ∀ k, P (.name (tempName k))) (h : Evaluates P Q t l c as t' l') : ∀ a ∈ as, P a := by
  induction h with
  | nothing => simp
  | operand _ ha => simpa using ha
  | append _ _ ih₁ ih₂ => exact fun a ha => (List.mem_append.1 ha).elim (ih₁ a) (ih₂ a)
  | forget _ hsub ih => exact fun a ha => ih a (hsub ha)
  | assign _ _ _ _ ih => exact ih
  | operator _ _ _ ih => exact List.forall_mem_cons.2 ⟨hP _, ih⟩
  | print _ ih => exact ih
  | call _ ih => exact List.forall_mem_cons.2 ⟨hP _, ih⟩
  | skip _ _ _ ih => exact ih
  | choose _ _ _ _ ih => exact ih

theorem emitted_params (h : ∀ a ∈ as, P a) : ∀ q ∈ as.map Quad.param, q.Emitted P Q :=
  List.forall_mem_map.2 fun a ha => .param (h a ha)

theorem emitted_exitTest {a : Option Operand} (k : Nat) (h : ∀ b ∈ a, P b) :
    ∀ q ∈ exitTest (labelName k) a, q.Emitted P Q := by
  cases a with
  | none => simp [exitTest]
  | some b => exact List.forall_mem_singleton.2 (.jumpIfFalse (h b rfl))

theorem Evaluates.emitted (hP : ∀ k, P (.name (tempName k))) (h : Evaluates P Q t l c as t' l') :
    ∀ q ∈ c, q.Emitted P Q := by
  induction h with
  | nothing => simp
  | operand => simp
  | append _ _ ih₁ ih₂ => exact List.forall_mem_append.2 ⟨ih₁, ih₂⟩
  | forget _ _ ih => exact ih
  | assign h ha hx hQ ih =>
    exact List.forall_mem_append.2 ⟨ih, List.forall_mem_singleton.2 (.assign (h.operands hP _ ha) hx hQ)⟩
  | operator h ha hb ih =>
    exact List.forall_mem_append.2
      ⟨ih, List.forall_mem_singleton.2 (.operator (h.operands hP _ ha) (h.operands hP _ hb))⟩
  | print h ih =>
    exact List.forall_mem_append.2 ⟨ih, List.forall_mem_append.2
      ⟨emitted_params (h.operands hP), List.forall_mem_singleton.2 .print⟩⟩
  | call h ih =>
    exact List.forall_mem_append.2 ⟨ih, List.forall_mem_append.2
      ⟨emitted_params (h.operands hP), List.forall_mem_singleton.2 .call⟩⟩
  | skip h ha _ ih₁ ih₂ =>
    exact List.forall_mem_append.2 ⟨ih₁, List.forall_mem_cons.2 ⟨.jumpIfFalse (h.operands hP _ ha),
      List.forall_mem_append.2 ⟨ih₂, List.forall_mem_singleton.2 .label⟩⟩⟩
  | choose h ha _ _ ih₁ ih₂ ih₃ =>
    exact List.forall_mem_append.2 ⟨ih₁, List.forall_mem_cons.2 ⟨.jumpIfFalse (h.operands hP _ ha),
      List.forall_mem_append.2 ⟨ih₂, List.forall_mem_cons.2 ⟨.goto, List.forall_mem_cons.2 ⟨.label,
        List.forall_mem_append.2 ⟨ih₃, List.forall_mem_singleton.2 .label⟩⟩⟩⟩⟩⟩

theorem Emits.emitted (hP : ∀ k, P (.name (tempName k))) (hvoid : P void) (hloop : Loop.Drawn loop)
    (h : Emits P Q loop t l c fs t' l') : ∀ q ∈ c, q.Emitted P Q := by
  induction h with
  | expression h => exact h.emitted hP
  | append _ _ ih₁ ih₂ => exact List.forall_mem_append.2 ⟨ih₁ hloop, ih₂ hloop⟩
  | branch h ha _ _ ih₁ ih₂ =>
    exact List.forall_mem_append.2 ⟨h.emitted hP, List.forall_mem_cons.2 ⟨.jumpIfFalse (h.operands hP _ ha),
      List.forall_mem_append.2 ⟨ih₁ hloop, List.forall_mem_cons.2 ⟨.goto, List.forall_mem_cons.2 ⟨.label,
        List.forall_mem_append.2 ⟨ih₂ hloop, List.forall_mem_singleton.2 .label⟩⟩⟩⟩⟩⟩
  | «while» h ha _ ih =>
    have ih' := ih (by rintro lp ⟨⟩; exact ⟨_, _, rfl⟩)
    exact List.forall_mem_cons.2 ⟨.label, List.forall_mem_append.2 ⟨h.emitted hP,
      List.forall_mem_cons.2 ⟨.jumpIfFalse (h.operands hP _ ha), List.forall_mem_append.2 ⟨ih',
        List.forall_mem_cons.2 ⟨.goto, List.forall_mem_singleton.2 .label⟩⟩⟩⟩⟩
  | «for» h ha _ h' ih =>
    have ih' := ih (by rintro lp ⟨⟩; exact ⟨_, _, rfl⟩)
    exact List.forall_mem_cons.2 ⟨.label, List.forall_mem_append.2 ⟨h.emitted hP,
      List.forall_mem_append.2 ⟨emitted_exitTest _ fun b hb => h.operands hP b (ha b hb), List.forall_mem_append.2 ⟨ih',
      List.forall_mem_cons.2 ⟨.label, List.forall_mem_append.2 ⟨h'.emitted hP,
        List.forall_mem_cons.2 ⟨.goto, List.forall_mem_singleton.2 .label⟩⟩⟩⟩⟩⟩⟩
  | «break» =>
    obtain ⟨j, k, rfl⟩ := hloop _ rfl
    exact List.forall_mem_singleton.2 .goto
  | «continue» =>
    obtain ⟨j, k, rfl⟩ := hloop _ rfl
    exact List.forall_mem_singleton.2 .goto
  | «return» h ha =>
    exact List.forall_mem_append.2 ⟨h.emitted hP, List.forall_mem_singleton.2 (.ret (h.operands hP _ ha))⟩
  | function _ hxs _ ih =>
    exact List.forall_mem_cons.2 ⟨.over, List.forall_mem_cons.2 ⟨.enter, List.forall_mem_append.2
      ⟨List.forall_mem_map.2 fun x hx => .receive (hxs x hx).1 (hxs x hx).2, List.forall_mem_append.2
      ⟨ih (by rintro lp ⟨⟩), List.forall_mem_cons.2 ⟨.ret hvoid,
        List.forall_mem_singleton.2 .leave⟩⟩⟩⟩⟩

/-! ### Temporaries -/

/-- Code writes the temporaries from one number up to another, each once and in order. -/
def Code.Draws (t : Nat) (c : Code) (t' : Nat) : Prop :=
  ∃ n, t' = t + n ∧ c.filterMap (fun q => q.result.temp?) = (List.range' t n).map tempName

namespace Code.Draws

theorem nil : Draws t [] t := ⟨0, rfl, rfl⟩

theorem append {d : Code} {t₁ : Nat} (h : Draws t c t₁) (h' : Draws t₁ d t') : Draws t (c ++ d) t' := by
  obtain ⟨m, rfl, hc⟩ := h
  obtain ⟨n, rfl, hd⟩ := h'
  refine ⟨m + n, by omega, ?_⟩
  rw [List.filterMap_append, hc, hd, ← List.map_append, List.range'_append_1]

theorem of_none (h : ∀ q ∈ c, q.result.temp? = none) : Draws t c t :=
  ⟨0, rfl, List.filterMap_eq_nil_iff.2 h⟩

theorem cons {q : Quad} (hq : q.result.temp? = none) (h : Draws t c t') : Draws t (q :: c) t' :=
  (of_none (List.forall_mem_singleton.2 hq)).append h

theorem single {q : Quad} (hq : q.result = .name (tempName t)) : Draws t [q] (t + 1) := by
  refine ⟨1, rfl, ?_⟩
  simp [hq, Target.temp?, isTempName_tempName]

end Code.Draws

theorem temp?_labelName (k : Nat) : (Target.name (labelName k)).temp? = none := by
  have h := isTempName_eq_false (s := labelName k) (by rw [head_labelName]; decide)
  simp [Target.temp?, h]

theorem temp?_functionMark (f : String) : (Target.name (functionMark ++ f)).temp? = none := by
  have h := isTempName_eq_false (s := functionMark ++ f) (by rw [head_functionMark]; decide)
  simp [Target.temp?, h]

theorem temp?_endMark (f : String) : (Target.name (endMark ++ f)).temp? = none := by
  have h := isTempName_eq_false (s := endMark ++ f) (by rw [head_endMark]; decide)
  simp [Target.temp?, h]

theorem Quad.Emitted.writes {q : Quad} (h : q.Emitted P Q) (ht : q.result.temp? ≠ none) :
    q.op = .assign ∨ (∃ op, q.op = .operator op) ∨ q.op = .call := by
  cases h with
  | assign => exact .inl rfl
  | operator => exact .inr (.inl ⟨_, rfl⟩)
  | print => exact .inr (.inr rfl)
  | call => exact .inr (.inr rfl)
  | param => exact absurd rfl ht
  | ret => exact absurd rfl ht
  | receive hx => exact absurd hx ht
  | jumpIfFalse => exact absurd (temp?_labelName _) ht
  | goto => exact absurd (temp?_labelName _) ht
  | label => exact absurd (temp?_labelName _) ht
  | «over» => exact absurd (temp?_endMark _) ht
  | enter => exact absurd (temp?_functionMark _) ht
  | leave => exact absurd (temp?_endMark _) ht

theorem temp?_params : ∀ q ∈ as.map Quad.param, q.result.temp? = none :=
  List.forall_mem_map.2 fun _ _ => rfl

theorem Evaluates.draws (h : Evaluates P Q t l c as t' l') : c.Draws t t' := by
  induction h with
  | nothing => exact .nil
  | operand => exact .nil
  | append _ _ ih₁ ih₂ => exact ih₁.append ih₂
  | forget _ _ ih => exact ih
  | assign _ _ hx _ ih => exact ih.append (.cons hx .nil)
  | operator _ _ _ ih => exact ih.append (.single rfl)
  | print _ ih => exact ih.append ((Code.Draws.of_none temp?_params).append (.cons rfl .nil))
  | call _ ih => exact ih.append ((Code.Draws.of_none temp?_params).append (.single rfl))
  | skip _ _ _ ih₁ ih₂ =>
    exact ih₁.append (.cons (temp?_labelName _) (ih₂.append (.cons (temp?_labelName _) .nil)))
  | choose _ _ _ _ ih₁ ih₂ ih₃ =>
    exact ih₁.append (.cons (temp?_labelName _) (ih₂.append (.cons (temp?_labelName _) (.cons (temp?_labelName _)
      (ih₃.append (.cons (temp?_labelName _) .nil))))))

theorem Emits.draws (hloop : Loop.Drawn loop) (h : Emits P Q loop t l c fs t' l') : c.Draws t t' := by
  induction h with
  | expression h => exact h.draws
  | append _ _ ih₁ ih₂ => exact (ih₁ hloop).append (ih₂ hloop)
  | branch h _ _ _ ih₁ ih₂ =>
    exact h.draws.append (.cons (temp?_labelName _) ((ih₁ hloop).append (.cons (temp?_labelName _)
      (.cons (temp?_labelName _) ((ih₂ hloop).append (.cons (temp?_labelName _) .nil))))))
  | «while» h _ _ ih =>
    have ih' := ih (by rintro lp ⟨⟩; exact ⟨_, _, rfl⟩)
    exact .cons (temp?_labelName _) (h.draws.append (.cons (temp?_labelName _) (ih'.append
      (.cons (temp?_labelName _) (.cons (temp?_labelName _) .nil)))))
  | @«for» _ _ k _ _ _ _ _ _ _ _ _ _ _ _ a h _ _ h' ih =>
    have ih' := ih (by rintro lp ⟨⟩; exact ⟨_, _, rfl⟩)
    have htest : ∀ q ∈ exitTest (labelName (k + 2)) a, q.result.temp? = none := by
      cases a with
      | none => simp [exitTest]
      | some b => exact List.forall_mem_singleton.2 (temp?_labelName _)
    exact .cons (temp?_labelName _) (h.draws.append ((Code.Draws.of_none htest).append (ih'.append
      (.cons (temp?_labelName _) (h'.draws.append (.cons (temp?_labelName _) (.cons (temp?_labelName _) .nil)))))))
  | «break» =>
    obtain ⟨j, k, rfl⟩ := hloop _ rfl
    exact .cons (temp?_labelName _) .nil
  | «continue» =>
    obtain ⟨j, k, rfl⟩ := hloop _ rfl
    exact .cons (temp?_labelName _) .nil
  | «return» h _ => exact h.draws.append (.cons rfl .nil)
  | function _ hxs _ ih =>
    exact .cons (temp?_endMark _) (.cons (temp?_functionMark _) (Code.Draws.append
      (.of_none (List.forall_mem_map.2 fun x hx => (hxs x hx).1))
      ((ih (by rintro lp ⟨⟩)).append (.cons rfl (.cons (temp?_endMark _) .nil)))))

/-! ### Labels -/

@[simp] theorem Quad.label?_label (s : String) : (Quad.label s).label? = some s := rfl

theorem Quad.label?_eq_some {q : Quad} {s : String} :
    q.label? = some s ↔ q.op = .label ∧ q.result = .name s := by
  unfold label?
  split
  · rename_i hop hx
    rw [hop, hx]; simp
  · rename_i h
    simp only [reduceCtorEq, false_iff, not_and]
    exact h s

/-- The labels of a function. -/
def functionLabels (f : String) : List String := [functionMark ++ f, endMark ++ f]

/-- Code has the labels from one number up to another and those of some functions, each once. -/
def Code.Places (l : Nat) (c : Code) (fs : List String) (l' : Nat) : Prop :=
  ∃ n, l' = l + n ∧ (c.filterMap Quad.label?).Perm ((List.range' l n).map labelName ++ fs.flatMap functionLabels)

namespace Code.Places

variable {d e : Code} {gs : List String} {l₁ l₂ : Nat}

theorem of_none (h : ∀ q ∈ c, q.label? = none) : Places l c [] l := by
  refine ⟨0, rfl, ?_⟩
  rw [List.filterMap_eq_nil_iff.2 h]
  exact .nil

theorem append (h : Places l c fs l₁) (h' : Places l₁ d gs l') : Places l (c ++ d) (fs ++ gs) l' := by
  obtain ⟨m, rfl, hc⟩ := h
  obtain ⟨n, rfl, hd⟩ := h'
  refine ⟨m + n, by omega, ?_⟩
  rw [List.filterMap_append, ← List.range'_append_1, List.map_append, List.flatMap_append]
  refine (hc.append hd).trans ?_
  rw [List.perm_iff_count]
  intro s
  simp only [List.count_append]
  omega

theorem mark (h : Places (l + 1) (c ++ d) fs l') : Places l (c ++ Quad.label (labelName l) :: d) fs l' := by
  obtain ⟨n, rfl, h⟩ := h
  refine ⟨1 + n, by omega, ?_⟩
  rw [Nat.add_comm 1 n, List.range'_succ, List.map_cons, List.cons_append, List.filterMap_append,
    List.filterMap_cons_some (Quad.label?_label _)]
  rw [List.filterMap_append] at h
  exact List.perm_middle.trans (h.cons _)

theorem insert {q : Quad} (hq : q.label? = none) (h : Places l (c ++ d) fs l') : Places l (c ++ q :: d) fs l' := by
  obtain ⟨n, rfl, h⟩ := h
  refine ⟨n, rfl, ?_⟩
  rwa [List.filterMap_append, List.filterMap_cons_none hq, ← List.filterMap_append]

theorem skip {a : Operand} (hc : Places (l + 1) c fs l₁) (hd : Places l₁ d gs l') :
    Places l (c ++ Quad.jumpIfFalse a (labelName l) :: (d ++ [Quad.label (labelName l)])) (fs ++ gs) l' := by
  have h₁ : Places (l + 1) ((c ++ d) ++ []) (fs ++ gs) l' := by simpa using hc.append hd
  have h₂ : Places l (c ++ (d ++ [Quad.label (labelName l)])) (fs ++ gs) l' := by simpa using h₁.mark
  exact h₂.insert rfl

theorem choose {a : Operand} {hs : List String} (hc : Places (l + 2) c fs l₁) (hd : Places l₁ d gs l₂)
    (he : Places l₂ e hs l') :
    Places l (c ++ Quad.jumpIfFalse a (labelName l) :: (d ++ Quad.goto (labelName (l + 1)) ::
      Quad.label (labelName l) :: (e ++ [Quad.label (labelName (l + 1))]))) (fs ++ (gs ++ hs)) l' := by
  have h₁ : Places (l + 2) ((c ++ (d ++ e)) ++ []) (fs ++ (gs ++ hs)) l' := by
    simpa using hc.append (hd.append he)
  have h₂ : Places (l + 1) ((c ++ d) ++ (e ++ [Quad.label (labelName (l + 1))])) (fs ++ (gs ++ hs)) l' := by
    simpa using h₁.mark
  have h₃ := h₂.mark.insert (q := Quad.goto (labelName (l + 1))) rfl
  rw [List.append_assoc] at h₃
  exact h₃.insert rfl

theorem whileLoop {a : Operand} (hc : Places (l + 2) c fs l₁) (hd : Places l₁ d gs l') :
    Places l (Quad.label (labelName l) :: (c ++ Quad.jumpIfFalse a (labelName (l + 1)) :: (d ++
      [Quad.goto (labelName l), Quad.label (labelName (l + 1))]))) (fs ++ gs) l' := by
  have h₁ : Places (l + 2) ((c ++ d) ++ []) (fs ++ gs) l' := by simpa using hc.append hd
  have h₂ := h₁.mark.insert (q := Quad.goto (labelName l)) rfl
  rw [List.append_assoc] at h₂
  exact mark (c := []) (h₂.insert rfl)

theorem forLoop {r : Code} {hs : List String} (hc : Places (l + 3) c fs l₁) (hr : ∀ q ∈ r, q.label? = none)
    (hd : Places l₁ d gs l₂) (he : Places l₂ e hs l') :
    Places l (Quad.label (labelName l) :: (c ++ (r ++ (d ++ Quad.label (labelName (l + 1)) :: (e ++
      [Quad.goto (labelName l), Quad.label (labelName (l + 2))]))))) (fs ++ (gs ++ hs)) l' := by
  have h₁ : Places (l + 3) ((c ++ (r ++ (d ++ e))) ++ []) (fs ++ (gs ++ hs)) l' := by
    simpa using hc.append ((of_none hr).append (hd.append he))
  have h₂ := h₁.mark.insert (q := Quad.goto (labelName l)) rfl
  have h₃ : Places (l + 2) ((c ++ (r ++ d)) ++ (e ++ [Quad.goto (labelName l), Quad.label (labelName (l + 2))]))
      (fs ++ (gs ++ hs)) l' := by simpa using h₂
  have h₄ := mark (c := []) h₃.mark
  simpa using h₄

theorem function {r : Code} {f : String} {a : Operand} (hr : ∀ q ∈ r, q.label? = none) (hd : Places l d fs l') :
    Places l (Quad.goto (endMark ++ f) :: Quad.label (functionMark ++ f) :: (r ++ (d ++
      [Quad.ret a, Quad.label (endMark ++ f)]))) (f :: fs) l' := by
  obtain ⟨n, rfl, hd⟩ := hd
  refine ⟨n, rfl, ?_⟩
  have hnone := List.filterMap_eq_nil_iff.2 hr
  have hcode : (Quad.goto (endMark ++ f) :: Quad.label (functionMark ++ f) :: (r ++ (d ++
      [Quad.ret a, Quad.label (endMark ++ f)]))).filterMap Quad.label? =
      (functionMark ++ f) :: (d.filterMap Quad.label? ++ [endMark ++ f]) := by
    rw [List.filterMap_cons_none rfl, List.filterMap_cons_some (Quad.label?_label _), List.filterMap_append, hnone,
      List.filterMap_append, List.filterMap_cons_none rfl]
    rfl
  rw [hcode, List.perm_iff_count]
  intro s
  have hcount := hd.count_eq s
  simp only [List.flatMap_cons, functionLabels, List.count_append, List.count_cons, List.count_nil] at hcount ⊢
  omega

theorem nodup (hfs : fs.Nodup) (h : Places l c fs l') : (c.filterMap Quad.label?).Nodup := by
  obtain ⟨n, -, h⟩ := h
  refine h.nodup_iff.2 (List.nodup_append'.2 ⟨.map (numbered_injective _) List.nodup_range', ?_, ?_⟩)
  · refine List.nodup_flatMap.2 ⟨fun f _ => ?_, hfs.imp fun {f g} hne => ?_⟩
    · simpa [functionLabels] using ne_of_head (head_functionMark f) (head_endMark f) (by decide)
    · have h₁ := ne_of_head (head_functionMark f) (head_endMark g) (by decide)
      have h₂ := ne_of_head (head_endMark f) (head_functionMark g) (by decide)
      have h₃ := fun he => hne (functionMark_injective he)
      have h₄ := fun he => hne (endMark_injective he)
      simp only [Function.onFun, functionLabels, List.disjoint_cons_left, List.disjoint_nil_left, List.mem_cons,
        List.not_mem_nil, or_false, not_or, and_true]
      exact ⟨⟨h₃, h₁⟩, h₂, h₄⟩
  · rw [List.disjoint_left]
    intro s hs hs'
    obtain ⟨k, -, rfl⟩ := List.mem_map.1 hs
    obtain ⟨f, -, hf⟩ := List.mem_flatMap.1 hs'
    rcases List.mem_cons.1 hf with hf | hf
    · exact ne_of_head (head_labelName k) (head_functionMark f) (by decide) hf
    · exact ne_of_head (head_labelName k) (head_endMark f) (by decide) (List.mem_singleton.1 hf)

end Code.Places

theorem Quad.Emitted.label_named {q : Quad} (h : q.Emitted P Q) (hop : q.op = .label) : ∃ s, q.result = .name s := by
  cases h <;> first | exact ⟨_, rfl⟩ | cases hop

theorem label?_params : ∀ q ∈ as.map Quad.param, q.label? = none :=
  List.forall_mem_map.2 fun _ _ => rfl

theorem Evaluates.places (h : Evaluates P Q t l c as t' l') : c.Places l [] l' := by
  induction h with
  | nothing => exact .of_none (by simp)
  | operand => exact .of_none (by simp)
  | append _ _ ih₁ ih₂ => exact ih₁.append ih₂
  | forget _ _ ih => exact ih
  | assign _ _ _ _ ih => exact ih.append (.of_none (List.forall_mem_singleton.2 rfl))
  | operator _ _ _ ih => exact ih.append (.of_none (List.forall_mem_singleton.2 rfl))
  | print _ ih =>
    exact ih.append (.of_none (List.forall_mem_append.2 ⟨label?_params, List.forall_mem_singleton.2 rfl⟩))
  | call _ ih =>
    exact ih.append (.of_none (List.forall_mem_append.2 ⟨label?_params, List.forall_mem_singleton.2 rfl⟩))
  | skip _ _ _ ih₁ ih₂ => exact ih₁.skip ih₂
  | choose _ _ _ _ ih₁ ih₂ ih₃ => exact ih₁.choose ih₂ ih₃

theorem Emits.places (h : Emits P Q loop t l c fs t' l') : c.Places l fs l' := by
  induction h with
  | expression h => exact h.places
  | append _ _ ih₁ ih₂ => exact ih₁.append ih₂
  | branch h _ _ _ ih₁ ih₂ => exact h.places.choose ih₁ ih₂
  | «while» h _ _ ih => exact h.places.whileLoop ih
  | @«for» _ _ _ _ _ _ _ _ _ _ _ _ _ _ _ a h _ _ h' ih =>
    simpa using h.places.forLoop (by cases a <;> simp [exitTest, Quad.label?]) ih h'.places
  | «break» => exact .of_none (List.forall_mem_singleton.2 rfl)
  | «continue» => exact .of_none (List.forall_mem_singleton.2 rfl)
  | «return» h _ => simpa using h.places.append (.of_none (List.forall_mem_singleton.2 rfl))
  | function _ _ _ ih => exact .function (List.forall_mem_map.2 fun _ _ => rfl) ih

end

end QuadScript
