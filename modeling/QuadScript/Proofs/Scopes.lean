import QuadScript.Proofs.Placement

/-!
# The functions around an instruction

`Code.Scoped S c A S'` reads code from left to right with the functions that are open, the innermost first: a
function opens at its first label and closes at its second, and `A` is the code with the functions around each
instruction. All emitted code is nested (`Emits.nested`): it leaves the functions around it as they are, control
that goes from an instruction to the next stays in the same function, and a jump goes to a label with the same
functions around it.
-/

namespace QuadScript

/-- An instruction that opens and closes no function. -/
def Quad.Inner (q : Quad) : Prop := ∀ f, q ≠ Quad.label (functionMark ++ f) ∧ q ≠ Quad.label (endMark ++ f)

theorem Quad.inner_label (k : Nat) : (Quad.label (labelName k)).Inner := by
  intro f
  constructor
  · intro h
    exact ne_of_head (head_labelName k) (head_functionMark f) (by decide) (Target.name.inj (congrArg Quad.result h))
  · intro h
    exact ne_of_head (head_labelName k) (head_endMark f) (by decide) (Target.name.inj (congrArg Quad.result h))

theorem Quad.inner_of_op {q : Quad} (h : q.op ≠ .label) : q.Inner :=
  fun _ => ⟨fun he => h (by rw [he]; rfl), fun he => h (by rw [he]; rfl)⟩

/-- An instruction with the functions around it. -/
abbrev Located := List String × Quad

namespace Code

inductive Scoped : List String → Code → List Located → List String → Prop
  | nil {S : List String} : Scoped S [] [] S
  | inner {S S' : List String} {q : Quad} {c : Code} {A : List Located} (hq : q.Inner) (h : Scoped S c A S') :
      Scoped S (q :: c) ((S, q) :: A) S'
  | enter {S S' : List String} {f : String} {c : Code} {A : List Located} (h : Scoped (f :: S) c A S') :
      Scoped S (Quad.label (functionMark ++ f) :: c) ((f :: S, Quad.label (functionMark ++ f)) :: A) S'
  | leave {S S' : List String} {f : String} {c : Code} {A : List Located} (h : Scoped S c A S') :
      Scoped (f :: S) (Quad.label (endMark ++ f) :: c) ((S, Quad.label (endMark ++ f)) :: A) S'

variable {S S' S₁ : List String} {c d : Code} {A B : List Located} {f : String} {q : Quad}

namespace Scoped

theorem append (h : Scoped S c A S₁) (h' : Scoped S₁ d B S') : Scoped S (c ++ d) (A ++ B) S' := by
  induction h with
  | nil => exact h'
  | inner hq _ ih => exact .inner hq (ih h')
  | enter _ ih => exact .enter (ih h')
  | leave _ ih => exact .leave (ih h')

theorem map_snd (h : Scoped S c A S') : A.map Prod.snd = c := by
  induction h with
  | nil => rfl
  | inner _ _ ih => rw [List.map_cons, ih]
  | enter _ ih => rw [List.map_cons, ih]
  | leave _ ih => rw [List.map_cons, ih]

theorem last_cons (h : Scoped S c A S') (ih : ∀ x ∈ A.getLast?, x.1 = S') :
    ∀ x ∈ ((S, q) :: A : List Located).getLast?, x.1 = S' := by
  cases h with
  | nil => rintro _ ⟨⟩; rfl
  | _ => simpa using ih

theorem last (h : Scoped S c A S') : ∀ x ∈ A.getLast?, x.1 = S' := by
  induction h with
  | nil => intro _ hx; cases hx
  | inner _ h ih => exact last_cons h ih
  | enter h ih => exact last_cons h ih
  | leave h ih => exact last_cons h ih

theorem single (hq : q.Inner) : Scoped S [q] [(S, q)] S := .inner hq .nil

end Scoped

/-! ### Nested code -/

/-- A jump goes to a label with the same functions around it, or is one of those that `X` allows. -/
def Jumps (X : List String → String → Prop) (A : List Located) : Prop :=
  ∀ x ∈ A, x.2.op = .goto ∨ x.2.op = .jumpIfFalse →
    ∃ s, x.2.result = .name s ∧ ((x.1, Quad.label s) ∈ A ∨ X x.1 s)

/-- Control that goes on to the next instruction stays in its function. -/
def Falls (x y : Located) : Prop := x.2.op = .goto ∨ x.2.op = .ret ∨ y.1 = x.1

/-- Code inside of the functions `S` that leaves them as they are. -/
structure Nested (X : List String → String → Prop) (S : List String) (c : Code) (A : List Located) : Prop where
  scope : Scoped S c A S
  jumps : Jumps X A
  falls : A.IsChain Falls
  head : ∀ x ∈ A.head?, x.1 = S

/-- What `X` allows, and the jumps to a drawn label inside of the functions `S`. -/
def OrLabel (X : List String → String → Prop) (S : List String) (k : Nat) (T : List String) (u : String) : Prop :=
  X T u ∨ T = S ∧ u = labelName k

variable {X Y : List String → String → Prop} {s : String} {k : Nat}

theorem Jumps.imp (h : Jumps X A) (hX : ∀ T u, X T u → (T, Quad.label u) ∈ B ∨ Y T u) (hA : A ⊆ B) :
    ∀ x ∈ A, x.2.op = .goto ∨ x.2.op = .jumpIfFalse →
      ∃ s, x.2.result = .name s ∧ ((x.1, Quad.label s) ∈ B ∨ Y x.1 s) := by
  intro x hx hj
  obtain ⟨s, hs, hmem | hX'⟩ := h x hx hj
  · exact ⟨s, hs, .inl (hA hmem)⟩
  · exact ⟨s, hs, hX _ _ hX'⟩

namespace Nested

theorem nil : Nested X S [] [] := ⟨.nil, (fun _ h => by cases h), .nil, (fun _ h => by cases h)⟩

theorem mono (h : Nested X S c A) (hX : ∀ T u, X T u → Y T u) : Nested Y S c A :=
  { h with jumps := h.jumps.imp (fun T u hu => .inr (hX T u hu)) (List.Subset.refl A) }

theorem single (hq : q.Inner) (hj : q.op = .goto ∨ q.op = .jumpIfFalse → ∃ s, q.result = .name s ∧ X S s) :
    Nested X S [q] [(S, q)] := by
  refine ⟨.single hq, List.forall_mem_singleton.2 fun hj' => ?_, .singleton _, ?_⟩
  · obtain ⟨s, hs, hX⟩ := hj hj'
    exact ⟨s, hs, .inr hX⟩
  · rintro _ ⟨⟩; rfl

theorem append (h : Nested X S c A) (h' : Nested X S d B) : Nested X S (c ++ d) (A ++ B) := by
  refine ⟨h.scope.append h'.scope, ?_, ?_, ?_⟩
  · exact List.forall_mem_append.2 ⟨h.jumps.imp (fun _ _ => .inr) (List.subset_append_left A B),
      h'.jumps.imp (fun _ _ => .inr) (List.subset_append_right A B)⟩
  · refine List.isChain_append.2 ⟨h.falls, h'.falls, fun x hx y hy => .inr (.inr ?_)⟩
    rw [h'.head y hy, h.scope.last x hx]
  · intro x hx
    cases A with
    | nil => exact h'.head x hx
    | cons a A => exact h.head x hx

/-- Jumps to a label of the code itself need not be allowed. -/
theorem close (h : Nested (OrLabel X S k) S c A) (hs : (S, Quad.label (labelName k)) ∈ A) :
    Nested X S c A := by
  refine { h with jumps := h.jumps.imp (fun T u hu => ?_) (List.Subset.refl A) }
  rcases hu with hu | ⟨rfl, rfl⟩
  · exact .inr hu
  · exact .inl hs

theorem mark (h : Nested (OrLabel X S k) S c A) (h' : Nested (OrLabel X S k) S d B) :
    Nested X S (c ++ Quad.label (labelName k) :: d) (A ++ (S, Quad.label (labelName k)) :: B) := by
  have hl : Nested (OrLabel X S k) S [Quad.label (labelName k)] _ :=
    .single (Quad.inner_label k) nofun
  exact (h.append (hl.append h')).close (by simp)

theorem function {a : Operand} (h : Nested (fun _ _ => False) (f :: S) c A) :
    Nested X S (Quad.goto (endMark ++ f) :: Quad.label (functionMark ++ f) :: (c ++ [Quad.ret a, Quad.label (endMark ++ f)]))
      ((S, Quad.goto (endMark ++ f)) :: (f :: S, Quad.label (functionMark ++ f)) ::
        (A ++ [(f :: S, Quad.ret a), (S, Quad.label (endMark ++ f))])) := by
  have hret : Nested (fun _ _ => False) (f :: S) [Quad.ret a] [(f :: S, Quad.ret a)] :=
    .single (Quad.inner_of_op nofun) nofun
  have hend : Scoped (f :: S) [Quad.ret a, Quad.label (endMark ++ f)]
      [(f :: S, Quad.ret a), (S, Quad.label (endMark ++ f))] S := .inner (Quad.inner_of_op nofun) (.leave .nil)
  refine ⟨.inner (Quad.inner_of_op nofun) (.enter (h.scope.append hend)), ?_, ?_, ?_⟩
  · refine List.forall_mem_cons.2 ⟨fun _ => ⟨_, rfl, .inl (by simp)⟩, List.forall_mem_cons.2 ⟨nofun, ?_⟩⟩
    refine List.forall_mem_append.2 ⟨h.jumps.imp nofun fun x hx => by simp [hx], ?_⟩
    exact List.forall_mem_cons.2 ⟨nofun, List.forall_mem_singleton.2 nofun⟩
  · have hchain : (A ++ [(f :: S, Quad.ret a), (S, Quad.label (endMark ++ f))]).IsChain Falls := by
      refine List.isChain_append.2 ⟨h.falls, .cons_cons (.inr (.inl rfl)) (.singleton _), ?_⟩
      rintro x hx _ ⟨⟩
      exact .inr (.inr (h.scope.last x hx).symm)
    refine .cons_cons (.inl rfl) (hchain.cons fun y hy => .inr (.inr ?_))
    cases A with
    | nil => cases hy; rfl
    | cons b B => exact h.head y hy
  · rintro _ ⟨⟩; rfl

end Nested

/-- Code that is nested in some way. -/
def Nests (X : List String → String → Prop) (S : List String) (c : Code) : Prop := ∃ A, Nested X S c A

namespace Nests

variable {e : Code} {a : Operand} {m n : Nat}

theorem nil : Nests X S [] := ⟨_, .nil⟩

theorem mono (h : Nests X S c) (hX : ∀ T u, X T u → Y T u) : Nests Y S c :=
  let ⟨A, hA⟩ := h; ⟨A, hA.mono hX⟩

theorem append (h : Nests X S c) (h' : Nests X S d) : Nests X S (c ++ d) :=
  let ⟨A, hA⟩ := h; let ⟨B, hB⟩ := h'; ⟨A ++ B, hA.append hB⟩

theorem single (hq : q.Inner) (hj : q.op = .goto ∨ q.op = .jumpIfFalse → ∃ s, q.result = .name s ∧ X S s) :
    Nests X S [q] := ⟨_, .single hq hj⟩

theorem straight (hlabel : q.op ≠ .label) (hgoto : q.op ≠ .goto) (hjump : q.op ≠ .jumpIfFalse) : Nests X S [q] :=
  .single (Quad.inner_of_op hlabel) fun h => (h.elim hgoto hjump).elim

theorem mark (h : Nests (OrLabel X S k) S c) (h' : Nests (OrLabel X S k) S d) :
    Nests X S (c ++ Quad.label (labelName k) :: d) :=
  let ⟨_, hA⟩ := h; let ⟨_, hB⟩ := h'; ⟨_, hA.mark hB⟩

theorem goto (hX : X S s) : Nests X S [Quad.goto s] := .single (Quad.inner_of_op nofun) fun _ => ⟨s, rfl, hX⟩

theorem jumpIfFalse (hX : X S s) : Nests X S [Quad.jumpIfFalse a s] :=
  .single (Quad.inner_of_op nofun) fun _ => ⟨s, rfl, hX⟩

theorem skip (hc : Nests (OrLabel X S k) S c) (hd : Nests (OrLabel X S k) S d) :
    Nests X S (c ++ Quad.jumpIfFalse a (labelName k) :: (d ++ [Quad.label (labelName k)])) := by
  have h := ((hc.append (jumpIfFalse (a := a) (.inr ⟨rfl, rfl⟩))).append hd).mark nil
  simpa using h

theorem choose (hc : Nests (OrLabel (OrLabel X S n) S m) S c) (hd : Nests (OrLabel (OrLabel X S n) S m) S d)
    (he : Nests (OrLabel (OrLabel X S n) S m) S e) :
    Nests X S (c ++ Quad.jumpIfFalse a (labelName m) :: (d ++ Quad.goto (labelName n) ::
      Quad.label (labelName m) :: (e ++ [Quad.label (labelName n)]))) := by
  have hgoto : Nests (OrLabel (OrLabel X S n) S m) S [Quad.goto (labelName n)] := goto (.inl (.inr ⟨rfl, rfl⟩))
  have h := ((((hc.append (jumpIfFalse (a := a) (.inr ⟨rfl, rfl⟩))).append hd).append hgoto).mark he).mark nil
  simpa using h

theorem whileLoop (hc : Nests (OrLabel (OrLabel X S m) S n) S c) (hd : Nests (OrLabel (OrLabel X S m) S n) S d) :
    Nests X S (Quad.label (labelName m) :: (c ++ Quad.jumpIfFalse a (labelName n) :: (d ++
      [Quad.goto (labelName m), Quad.label (labelName n)]))) := by
  have hgoto : Nests (OrLabel (OrLabel X S m) S n) S [Quad.goto (labelName m)] := goto (.inl (.inr ⟨rfl, rfl⟩))
  have h := nil.mark ((((hc.append (jumpIfFalse (a := a) (.inr ⟨rfl, rfl⟩))).append hd).append hgoto).mark nil)
  simpa using h

theorem forLoop {r : Code} (hc : Nests (OrLabel (OrLabel (OrLabel X S m) S n) S k) S c)
    (hr : Nests (OrLabel (OrLabel (OrLabel X S m) S n) S k) S r)
    (hd : Nests (OrLabel (OrLabel (OrLabel X S m) S n) S k) S d)
    (he : Nests (OrLabel (OrLabel (OrLabel X S m) S n) S k) S e) :
    Nests X S (Quad.label (labelName m) :: (c ++ (r ++ (d ++ Quad.label (labelName k) :: (e ++
      [Quad.goto (labelName m), Quad.label (labelName n)]))))) := by
  have hgoto : Nests (OrLabel (OrLabel (OrLabel X S m) S n) S k) S [Quad.goto (labelName m)] :=
    goto (.inl (.inl (.inr ⟨rfl, rfl⟩)))
  have h := nil.mark (((hc.append (hr.append hd)).mark (he.append hgoto)).mark nil)
  simpa using h

theorem function {a : Operand} (h : Nests (fun _ _ => False) (f :: S) c) :
    Nests X S (Quad.goto (endMark ++ f) :: Quad.label (functionMark ++ f) ::
      (c ++ [Quad.ret a, Quad.label (endMark ++ f)])) :=
  let ⟨_, hA⟩ := h; ⟨_, hA.function⟩

theorem straights (h : ∀ q ∈ c, q.op ≠ .label ∧ q.op ≠ .goto ∧ q.op ≠ .jumpIfFalse) : Nests X S c := by
  induction c with
  | nil => exact nil
  | cons q c ih =>
    obtain ⟨⟨hlabel, hgoto, hjump⟩, h⟩ := List.forall_mem_cons.1 h
    exact (straight hlabel hgoto hjump).append (ih h)

end Nests

end Code

section
variable {P : Operand → Prop} {Q : Target → Prop} {t l t' l' : Nat} {c : Code} {as : List Operand}
  {loop : Option Loop} {fs : List String}

open Code

theorem nests_params {X : List String → String → Prop} {S : List String} : Nests X S (as.map Quad.param) :=
  .straights (List.forall_mem_map.2 fun _ _ => ⟨nofun, nofun, nofun⟩)

theorem Evaluates.nests (h : Evaluates P Q t l c as t' l') (X : List String → String → Prop) (S : List String) :
    Nests X S c := by
  induction h generalizing X with
  | nothing => exact .nil
  | operand => exact .nil
  | append _ _ ih₁ ih₂ => exact (ih₁ X).append (ih₂ X)
  | forget _ _ ih => exact ih X
  | assign _ _ _ _ ih => exact (ih X).append (.straight nofun nofun nofun)
  | operator _ _ _ ih => exact (ih X).append (.straight nofun nofun nofun)
  | print _ ih => exact (ih X).append (nests_params.append (.straight nofun nofun nofun))
  | call _ ih => exact (ih X).append (nests_params.append (.straight nofun nofun nofun))
  | skip _ _ _ ih₁ ih₂ => exact .skip (ih₁ _) (ih₂ _)
  | choose _ _ _ _ ih₁ ih₂ ih₃ => exact .choose (ih₁ _) (ih₂ _) (ih₃ _)

/-- The labels that code inside of a loop may jump to. -/
def Loop.Allows (loop : Option Loop) (S T : List String) (u : String) : Prop :=
  T = S ∧ ∃ l ∈ loop, u = l.next ∨ u = l.exit

theorem Emits.nests (h : Emits P Q loop t l c fs t' l') (S : List String) : Nests (Loop.Allows loop S) S c := by
  -- `S` lists the functions around the code; a loop allows the jumps to its two labels to its body only
  induction h generalizing S with
  | expression h => exact h.nests _ S
  | append _ _ ih₁ ih₂ => exact (ih₁ S).append (ih₂ S)
  | branch h _ _ _ ih₁ ih₂ =>
    exact .choose (h.nests _ S) ((ih₁ S).mono fun _ _ h => .inl (.inl h)) ((ih₂ S).mono fun _ _ h => .inl (.inl h))
  | «while» h _ _ ih =>
    refine .whileLoop (h.nests _ S) ((ih S).mono ?_)
    rintro T u ⟨rfl, _, ⟨⟩, rfl | rfl⟩
    · exact .inl (.inr ⟨rfl, rfl⟩)
    · exact .inr ⟨rfl, rfl⟩
  | @«for» _ _ _ _ _ _ _ _ _ _ _ _ _ _ _ a h _ _ h' ih =>
    refine .forLoop (h.nests _ S) ?_ ((ih S).mono ?_) (h'.nests _ S)
    · cases a with
      | none => exact .nil
      | some b => exact .jumpIfFalse (.inl (.inr ⟨rfl, rfl⟩))
    · rintro T u ⟨rfl, _, ⟨⟩, rfl | rfl⟩
      · exact .inr ⟨rfl, rfl⟩
      · exact .inl (.inr ⟨rfl, rfl⟩)
  | «break» => exact .goto ⟨rfl, _, rfl, .inr rfl⟩
  | «continue» => exact .goto ⟨rfl, _, rfl, .inl rfl⟩
  | «return» h _ => exact (h.nests _ S).append (.straight nofun nofun nofun)
  | @function _ _ _ _ _ d _ f xs _ _ _ ih =>
    have hreceive : Nests (fun _ _ => False) (f :: S) (xs.map Quad.receive) :=
      .straights (List.forall_mem_map.2 fun _ _ => ⟨nofun, nofun, nofun⟩)
    have hbody : Nests (fun _ _ => False) (f :: S) d := (ih (f :: S)).mono fun _ _ ⟨_, _, h, _⟩ => by cases h
    simpa [Lower.functionCode] using (hreceive.append hbody).function (a := void)

/-- Each jump of code outside of any loop goes to one of its labels. -/
theorem Emits.exists_label (h : Emits P Q none t l c fs t' l') {q : Quad} (hq : q ∈ c)
    (hj : q.op = .goto ∨ q.op = .jumpIfFalse) : ∃ s, q.result = .name s ∧ Quad.label s ∈ c := by
  obtain ⟨A, hA⟩ := h.nests []
  rw [← hA.scope.map_snd] at hq ⊢
  obtain ⟨x, hx, rfl⟩ := List.mem_map.1 hq
  obtain ⟨s, hs, hmem | ⟨-, _, hl, -⟩⟩ := hA.jumps x hx hj
  · exact ⟨s, hs, List.mem_map_of_mem hmem⟩
  · cases hl

theorem Emits.linkFault?_eq_none (hP : ∀ k, P (.name (tempName k))) (hvoid : P void)
    (h : Emits P Q none t l c fs t' l') : c.linkFault? = none := by
  have hemitted := h.emitted hP hvoid Loop.drawn_none
  refine Code.linkFault?_eq_none (fun q hq hop => (hemitted q hq).label_named hop) fun q hq hj => ?_
  obtain ⟨s, hs, hmem⟩ := h.exists_label hq hj
  exact ⟨s, hs, _, hmem, rfl, rfl⟩

end

end QuadScript
