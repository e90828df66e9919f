import QuadScript.Proofs.Scopes

/-!
# The call stack

`Code.InFunction code f p`: the position lies in the code of the function, which goes from the label where it
starts to the label where it ends. Functions are nested, so that a position in some function has an innermost
function around it (`Code.Innermost`). While a program runs, the frames of the stack fit the position
(`Code.Calls`): the position is in the function that the last call called, and each call was made in the function
that the call before it called.
-/

namespace QuadScript

namespace Code

def LabelAt (code : Code) (p : Nat) (l : String) : Prop := code[p]?.bind Quad.label? = some l

/-- A call of the function stands there. -/
def CallAt (code : Code) (p : Nat) (f : String) : Prop :=
  ∃ q, code[p]? = some q ∧ q.op = .call ∧ q.arg1 = .name (functionMark ++ f)

/-- The position lies in the function: its first label included, its second one not. -/
def InFunction (code : Code) (f : String) (p : Nat) : Prop :=
  ∃ i j, code.LabelAt i (functionMark ++ f) ∧ code.LabelAt j (endMark ++ f) ∧ i ≤ p ∧ p < j

/-- The function is around the position, and in every other one that is. -/
def Innermost (code : Code) (f : String) (p : Nat) : Prop :=
  code.InFunction f p ∧ ∀ g, code.InFunction g p → ∀ r, code.InFunction f r → code.InFunction g r

/-- The frames fit the position. Without frames it is in no function. Otherwise the last frame goes back to the
place after a call, the position is in the function called there and in no function inside of it, and the other
frames fit the place to go back to. -/
inductive Calls (code : Code) : Nat → List Frame → Prop
  | nil {p : Nat} (h : ∀ f, ¬code.InFunction f p) : Calls code p []
  | cons {p i : Nat} {f : String} {frame : Frame} {rest : List Frame} (hcall : code.CallAt i f)
      (hreturn : frame.returnIndex = i + 1) (hf : code.Innermost f p) (h : Calls code (i + 1) rest) :
      Calls code p (frame :: rest)

variable {code : Code} {p p' : Nat} {f g : String} {frames : List Frame}

theorem Calls.move (h : code.Calls p frames) (hp : ∀ g, code.InFunction g p' ↔ code.InFunction g p) :
    code.Calls p' frames := by
  cases h with
  | nil h => exact .nil fun f hf => h f ((hp f).1 hf)
  | cons hcall hreturn hf h =>
    exact .cons hcall hreturn ⟨(hp _).2 hf.1, fun g hg => hf.2 g ((hp g).1 hg)⟩ h

theorem Calls.eq_nil_iff (h : code.Calls p frames) : frames = [] ↔ ∀ f, ¬code.InFunction f p := by
  cases h with
  | nil h => simpa using h
  | cons _ _ hf _ => exact ⟨nofun, fun h => (h _ hf.1).elim⟩

/-! ### The functions around a position -/

/-- Around each of the functions, the innermost first, are those that `env` says. -/
def Around (env : String → List String) : List String → Prop
  | [] => True
  | f :: S => S = env f ∧ Around env S

theorem Around.mem {env : String → List String} {S : List String} (h : Around env S) (hf : f ∈ S)
    (hg : g ∈ f :: env f) : g ∈ S := by
  induction S with
  | nil => cases hf
  | cons a S ih =>
    obtain ⟨hS, h⟩ := h
    rcases List.mem_cons.1 hf with rfl | hf
    · rwa [hS]
    · exact List.mem_cons_of_mem a (ih h hf)

section
variable {S S' : List String} {A : List Located} {x : Located}

namespace Scoped

theorem cut (h : Scoped S code A S') (hp : A[p]? = some x) :
    (∃ B, Scoped S (code.take (p + 1)) B x.1) ∧ ∃ B, Scoped x.1 (code.drop (p + 1)) B S' := by
  induction h generalizing p with
  | nil => cases hp
  | inner hq h ih =>
    cases p with
    | zero => cases hp; exact ⟨⟨_, .inner hq .nil⟩, _, h⟩
    | succ p =>
      obtain ⟨⟨_, hleft⟩, hright⟩ := ih hp
      exact ⟨⟨_, .inner hq hleft⟩, hright⟩
  | enter h ih =>
    cases p with
    | zero => cases hp; exact ⟨⟨_, .enter .nil⟩, _, h⟩
    | succ p =>
      obtain ⟨⟨_, hleft⟩, hright⟩ := ih hp
      exact ⟨⟨_, .enter hleft⟩, hright⟩
  | leave h ih =>
    cases p with
    | zero => cases hp; exact ⟨⟨_, .leave .nil⟩, _, h⟩
    | succ p =>
      obtain ⟨⟨_, hleft⟩, hright⟩ := ih hp
      exact ⟨⟨_, .leave hleft⟩, hright⟩

theorem opened (h : Scoped S code A S') (hf : f ∈ S') : f ∈ S ∨ Quad.label (functionMark ++ f) ∈ code := by
  induction h with
  | nil => exact .inl hf
  | inner _ _ ih => exact (ih hf).imp_right (List.mem_cons_of_mem _)
  | enter _ ih =>
    rcases ih hf with hS | hc
    · rcases List.mem_cons.1 hS with rfl | hS
      · exact .inr List.mem_cons_self
      · exact .inl hS
    · exact .inr (List.mem_cons_of_mem _ hc)
  | leave _ ih => exact (ih hf).imp (List.mem_cons_of_mem _) (List.mem_cons_of_mem _)

theorem closed (h : Scoped S code A S') (hf : f ∈ S) : f ∈ S' ∨ Quad.label (endMark ++ f) ∈ code := by
  induction h with
  | nil => exact .inl hf
  | inner _ _ ih => exact (ih hf).imp_right (List.mem_cons_of_mem _)
  | enter _ ih => exact (ih (List.mem_cons_of_mem _ hf)).imp_right (List.mem_cons_of_mem _)
  | leave _ ih =>
    rcases List.mem_cons.1 hf with rfl | hf
    · exact .inr List.mem_cons_self
    · exact (ih hf).imp_right (List.mem_cons_of_mem _)

theorem opens (h : Scoped S code A S') (hf : Quad.label (functionMark ++ f) ∈ code) :
    f ∈ S' ∨ Quad.label (endMark ++ f) ∈ code := by
  induction h with
  | nil => cases hf
  | inner hq _ ih =>
    rcases List.mem_cons.1 hf with rfl | hf
    · exact ((hq f).1 rfl).elim
    · exact (ih hf).imp_right (List.mem_cons_of_mem _)
  | @enter _ _ g _ _ h ih =>
    rcases List.mem_cons.1 hf with he | hf
    · have hfg : f = g := functionMark_injective (Target.name.inj (congrArg Quad.result he))
      exact (h.closed (hfg ▸ List.mem_cons_self)).imp_right (List.mem_cons_of_mem _)
    · exact (ih hf).imp_right (List.mem_cons_of_mem _)
  | @leave _ _ g _ _ _ ih =>
    rcases List.mem_cons.1 hf with he | hf
    · exact (ne_of_head (head_functionMark f) (head_endMark g) (by decide)
        (Target.name.inj (congrArg Quad.result he))).elim
    · exact (ih hf).imp_right (List.mem_cons_of_mem _)

theorem scope_label (h : Scoped S code A S') (hx : x ∈ A) (hf : x.2 = Quad.label (functionMark ++ f)) :
    ∃ B, x.1 = f :: B := by
  induction h with
  | nil => cases hx
  | inner hq _ ih =>
    rcases List.mem_cons.1 hx with rfl | hx
    · exact ((hq f).1 hf).elim
    · exact ih hx
  | enter _ ih =>
    rcases List.mem_cons.1 hx with rfl | hx
    · exact ⟨_, by rw [functionMark_injective (Target.name.inj (congrArg Quad.result hf))]⟩
    · exact ih hx
  | @leave _ _ g _ _ _ ih =>
    rcases List.mem_cons.1 hx with rfl | hx
    · exact (ne_of_head (head_endMark g) (head_functionMark f) (by decide)
        (Target.name.inj (congrArg Quad.result hf))).elim
    · exact ih hx

theorem around {env : String → List String} (h : Scoped S code A S') (hS : Around env S)
    (henv : ∀ x ∈ A, ∀ f, x.2 = Quad.label (functionMark ++ f) → x.1 = f :: env f) : ∀ x ∈ A, Around env x.1 := by
  induction h with
  | nil => intro x hx; cases hx
  | inner _ _ ih =>
    obtain ⟨-, henv⟩ := List.forall_mem_cons.1 henv
    exact List.forall_mem_cons.2 ⟨hS, ih hS henv⟩
  | @enter S _ f _ _ _ ih =>
    obtain ⟨hf, henv⟩ := List.forall_mem_cons.1 henv
    have hS' : Around env (f :: S) := ⟨(List.cons.inj (hf f rfl)).2, hS⟩
    exact List.forall_mem_cons.2 ⟨hS', ih hS' henv⟩
  | leave _ ih =>
    obtain ⟨-, henv⟩ := List.forall_mem_cons.1 henv
    exact List.forall_mem_cons.2 ⟨hS.2, ih hS.2 henv⟩

theorem getElem?_snd (h : Scoped S code A S') (hp : A[p]? = some x) : code[p]? = some x.2 := by
  rw [← h.map_snd, List.getElem?_map, hp]
  rfl

theorem scope_unique {T : List String} {l : String} (h : Scoped S code A S') (hl : code.Linked) {B : List String}
    (hT : (T, Quad.label l) ∈ A) (hB : (B, Quad.label l) ∈ A) : T = B := by
  obtain ⟨i, hi⟩ := List.mem_iff_getElem?.1 hT
  obtain ⟨j, hj⟩ := List.mem_iff_getElem?.1 hB
  have hij : i = j := hl.unique (h.getElem?_snd hi) (h.getElem?_snd hj)
  rw [hij, hj] at hi
  exact congrArg Prod.fst (Option.some.inj hi.symm)

/-- In linked code every function is opened once, so that the functions around it are always the same. -/
theorem exists_around (h : Scoped [] code A S') (hl : code.Linked) : ∃ env, ∀ x ∈ A, Around env x.1 := by
  refine ⟨fun f => Classical.epsilon fun B => (f :: B, Quad.label (functionMark ++ f)) ∈ A, h.around trivial ?_⟩
  rintro ⟨S, q⟩ hx f rfl
  obtain ⟨B, hB⟩ := h.scope_label hx rfl
  rw [show S = f :: B from hB] at hx
  rw [show S = f :: B from hB]
  exact h.scope_unique hl hx (Classical.epsilon_spec (p := fun B => (f :: B, _) ∈ A) ⟨B, hx⟩)

end Scoped

/-- The functions around the instruction at a position, the innermost first. -/
def scopeAt (A : List Located) (p : Nat) : List String := (A[p]?.map Prod.fst).getD []

theorem scopeAt_of_getElem? (hx : A[p]? = some x) : scopeAt A p = x.1 := by rw [scopeAt, hx]; rfl

theorem scopeAt_of_length_le (h : A.length ≤ p) : scopeAt A p = [] := by
  rw [scopeAt, List.getElem?_eq_none h]; rfl

theorem Nested.scopeAt_zero {X : List String → String → Prop} (h : Nested X [] code A) : scopeAt A 0 = [] := by
  cases A with
  | nil => rfl
  | cons x A => exact h.head x rfl

theorem Nested.scopeAt_succ {X : List String → String → Prop} (h : Nested X [] code A) (hx : A[p]? = some x)
    (hgoto : x.2.op ≠ .goto) (hret : x.2.op ≠ .ret) : scopeAt A (p + 1) = scopeAt A p := by
  rw [scopeAt_of_getElem? hx]
  obtain ⟨hp, rfl⟩ := List.getElem?_eq_some_iff.1 hx
  by_cases hlast : p + 1 < A.length
  · rw [scopeAt_of_getElem? (List.getElem?_eq_getElem hlast)]
    rcases List.isChain_iff_getElem.1 h.falls p hlast with hop | hop | heq
    · exact absurd hop hgoto
    · exact absurd hop hret
    · exact heq
  · rw [scopeAt_of_length_le (by omega)]
    refine (h.scope.last _ ?_).symm
    rw [List.getLast?_eq_getElem?, show A.length - 1 = p by omega]
    exact hx

end

/-- Emitted code with its labels in their places and the functions around each of its instructions. -/
structure Layout (P : Operand → Prop) (Q : Target → Prop) (code : Code) (A : List Located) : Prop where
  emitted : ∀ q ∈ code, q.Emitted P Q
  linked : code.Linked
  nested : Nested (fun _ _ => False) [] code A

theorem labelAt_iff {P : Operand → Prop} {Q : Target → Prop} {l : String} (hemit : ∀ q ∈ code, q.Emitted P Q) :
    code.LabelAt p l ↔ code[p]? = some (Quad.label l) := by
  constructor
  · intro h
    obtain ⟨q, hq, hl⟩ := Option.bind_eq_some_iff.1 h
    cases hemit q (List.mem_of_getElem? hq) <;> cases hl <;> exact hq
  · intro h
    rw [LabelAt, h]
    rfl

theorem getElem?_of_labels {P : Operand → Prop} {Q : Target → Prop} {l : String} (hemit : ∀ q ∈ code, q.Emitted P Q)
    (h : code.labels.get? (.text l) = some p) : code[p]? = some (Quad.label l) := by
  obtain ⟨q, hq, hop, hl⟩ := labels_get?_eq_some h
  have hl := hl l rfl
  cases hemit q (List.mem_of_getElem? hq) <;> cases hop <;> cases hl <;> exact hq

namespace Layout

variable {P : Operand → Prop} {Q : Target → Prop} {A : List Located} {q : Quad} {S : List String}

theorem length (h : Layout P Q code A) : A.length = code.length := by
  rw [← h.nested.scope.map_snd, List.length_map]

theorem exists_located (h : Layout P Q code A) (hq : code[p]? = some q) : ∃ S, A[p]? = some (S, q) := by
  rw [← h.nested.scope.map_snd, List.getElem?_map] at hq
  obtain ⟨⟨S, _⟩, hx, rfl⟩ := Option.map_eq_some_iff.1 hq
  exact ⟨S, hx⟩

theorem mem_scopeAt (h : Layout P Q code A) : f ∈ scopeAt A p ↔ code.InFunction f p := by
  have hscope := h.nested.scope
  constructor
  · intro hf
    cases hx : A[p]? with
    | none => rw [scopeAt, hx] at hf; cases hf
    | some x =>
      rw [scopeAt_of_getElem? hx] at hf
      obtain ⟨⟨_, hleft⟩, _, hright⟩ := hscope.cut hx
      obtain ⟨i, hi⟩ := List.mem_iff_getElem?.1 ((hleft.opened hf).resolve_left List.not_mem_nil)
      obtain ⟨j, hj⟩ := List.mem_iff_getElem?.1 ((hright.closed hf).resolve_left List.not_mem_nil)
      rw [List.getElem?_take] at hi
      rw [List.getElem?_drop] at hj
      obtain ⟨hip, hi⟩ := Option.ite_none_right_eq_some.1 hi
      exact ⟨i, p + 1 + j, (labelAt_iff h.emitted).2 hi, (labelAt_iff h.emitted).2 hj, by omega, by omega⟩
  · rintro ⟨i, j, hi, hj, hip, hpj⟩
    rw [labelAt_iff h.emitted] at hi hj
    have hjc := (List.getElem?_eq_some_iff.1 hj).1
    have hx := List.getElem?_eq_getElem (l := A) (i := p) (by rw [h.length]; omega)
    obtain ⟨⟨_, hleft⟩, -⟩ := hscope.cut hx
    have hopen : Quad.label (functionMark ++ f) ∈ code.take (p + 1) :=
      List.mem_iff_getElem?.2 ⟨i, by rw [List.getElem?_take, if_pos (by omega), hi]⟩
    rw [scopeAt_of_getElem? hx]
    refine (hleft.opens hopen).resolve_right fun hclose => ?_
    -- the function would be closed before the position, but it has only one second label
    obtain ⟨k, hk⟩ := List.mem_iff_getElem?.1 hclose
    rw [List.getElem?_take] at hk
    obtain ⟨hkp, hk⟩ := Option.ite_none_right_eq_some.1 hk
    have hkj : k = j := h.linked.unique hk hj
    omega

theorem innermost (h : Layout P Q code A) (hS : scopeAt A p = f :: S) : code.Innermost f p := by
  obtain ⟨env, henv⟩ := h.nested.scope.exists_around h.linked
  have haround : ∀ r, Around env (scopeAt A r) := by
    intro r
    cases hx : A[r]? with
    | none => rw [scopeAt, hx]; trivial
    | some x => rw [scopeAt_of_getElem? hx]; exact henv x (List.mem_of_getElem? hx)
  refine ⟨h.mem_scopeAt.1 (by rw [hS]; exact List.mem_cons_self), fun g hg r hr => ?_⟩
  rw [← h.mem_scopeAt] at hg hr ⊢
  have hp := haround p
  rw [hS] at hp hg
  exact (haround r).mem hr (hp.1 ▸ hg)

/-! ### One step -/

theorem calls_move (h : Layout P Q code A) (hc : code.Calls p frames) (hp : scopeAt A p' = scopeAt A p) :
    code.Calls p' frames :=
  hc.move fun g => by rw [← h.mem_scopeAt, ← h.mem_scopeAt, hp]

theorem calls_next (h : Layout P Q code A) (hc : code.Calls p frames) (hq : code[p]? = some q) (hgoto : q.op ≠ .goto)
    (hret : q.op ≠ .ret) : code.Calls (p + 1) frames := by
  obtain ⟨S, hx⟩ := h.exists_located hq
  exact h.calls_move hc (h.nested.scopeAt_succ hx hgoto hret)

theorem calls_jump (h : Layout P Q code A) (hc : code.Calls p frames) (hq : code[p]? = some q)
    (hop : q.op = .goto ∨ q.op = .jumpIfFalse) {k : Key} {place : Nat} (hk : q.result.key place = .ok k)
    (hp : code.labels.getKey? k = some p') : code.Calls p' frames := by
  obtain ⟨S, hx⟩ := h.exists_located hq
  obtain ⟨s, hs, hl | hfalse⟩ := h.nested.jumps _ (List.mem_of_getElem? hx) hop
  · obtain ⟨i, hi⟩ := List.mem_iff_getElem?.1 hl
    have hs : q.result = .name s := hs
    rw [hs] at hk
    cases hk
    have hip : i = p' := h.linked.unique (h.nested.scope.getElem?_snd hi) (getElem?_of_labels h.emitted hp)
    refine h.calls_move hc ?_
    rw [← hip, scopeAt_of_getElem? hi, scopeAt_of_getElem? hx]
  · exact hfalse.elim

theorem calls_enter (h : Layout P Q code A) (hc : code.Calls p frames) (hq : code[p]? = some q) (hop : q.op = .call)
    {k : Key} {place : Nat} (hk : Key.ofTree place q.arg1.toTree = .ok k) (hp : code.labels.getKey? k = some p')
    {frame : Frame} (hframe : frame.returnIndex = p + 1) : code.Calls p' (frame :: frames) := by
  have hnext : code.Calls (p + 1) frames := h.calls_next hc hq (by rw [hop]; nofun) (by rw [hop]; nofun)
  cases h.emitted q (List.mem_of_getElem? hq) with
  | @print g =>
    -- no label has the name of the console
    cases hk
    cases h.emitted _ (List.mem_of_getElem? (getElem?_of_labels h.emitted hp))
  | @call f =>
    cases hk
    have hlabel := getElem?_of_labels h.emitted hp
    obtain ⟨S, hx⟩ := h.exists_located hlabel
    obtain ⟨B, hB⟩ := h.nested.scope.scope_label (List.mem_of_getElem? hx) rfl
    exact .cons ⟨_, hq, rfl, rfl⟩ hframe (h.innermost (by rw [scopeAt_of_getElem? hx]; exact hB)) hnext
  | _ => cases hop

/-- A step of the machine keeps the frames fitting. -/
theorem calls_step (h : Layout P Q code A) {m m' : Machine} (hc : code.Calls m.pc m.stack) (hq : code[m.pc]? = some q)
    (hs : m.step code code.labels q = .ok m') : code.Calls m'.pc m'.stack := by
  -- only jumps, calls and returns do not go on to the next instruction
  cases Machine.step_effect hs with
  | goto hop hk hp => exact h.calls_jump hc hq (.inl hop) hk hp
  | branch hop _ _ hk hp => exact h.calls_jump hc hq (.inr hop) hk hp
  | enter hop hk hp => exact h.calls_enter hc hq hop hk hp rfl
  | finish _ hstack =>
    have hend : scopeAt A code.length = [] := scopeAt_of_length_le (Nat.le_of_eq h.length)
    change code.Calls code.length m.stack
    rw [hstack]
    exact .nil fun f hf => by
      rw [← h.mem_scopeAt, hend] at hf
      cases hf
  | leave _ _ hstack =>
    rw [hstack] at hc
    cases hc with
    | cons _ hreturn _ hrest => exact hreturn ▸ hrest
  | assign hop => exact h.calls_next hc hq (by rw [hop]; nofun) (by rw [hop]; nofun)
  | operator hop => exact h.calls_next hc hq (by rw [hop]; nofun) (by rw [hop]; nofun)
  | pass hop => exact h.calls_next hc hq (by rw [hop]; nofun) (by rw [hop]; nofun)
  | param hop => exact h.calls_next hc hq (by rw [hop]; nofun) (by rw [hop]; nofun)
  | receive hop => exact h.calls_next hc hq (by rw [hop]; nofun) (by rw [hop]; nofun)
  | print hop => exact h.calls_next hc hq (by rw [hop]; nofun) (by rw [hop]; nofun)
  | intrinsic hop => exact h.calls_next hc hq (by rw [hop]; nofun) (by rw [hop]; nofun)
  | skip hop =>
    have hne : q.op ≠ .goto ∧ q.op ≠ .ret := by rcases hop with hop | ⟨_, hop⟩ <;> rw [hop] <;> exact ⟨nofun, nofun⟩
    exact h.calls_next hc hq hne.1 hne.2

theorem calls_of_reachable (h : Layout P Q code A) {answers : Answers} {m : Machine}
    (hm : Machine.Reachable code answers m) : code.Calls m.pc m.stack := by
  refine hm.induct (P := fun m => code.Calls m.pc m.stack) ?_ fun m m' _ hc hadv => ?_
  · refine .nil fun f hf => ?_
    have hstart : f ∈ scopeAt A 0 := h.mem_scopeAt.2 hf
    rw [h.nested.scopeAt_zero] at hstart
    cases hstart
  · obtain ⟨q, hq, hs⟩ := Machine.advance_eq_some hadv
    exact h.calls_step hc hq hs

end Layout

/-! ### Positions in the listing -/

theorem labelAt_renumber {l : String} : code.renumber.LabelAt p l ↔ code.LabelAt p l := by
  rw [LabelAt, getElem?_renumber, Option.bind_map]
  rfl

theorem inFunction_renumber : code.renumber.InFunction f p ↔ code.InFunction f p := by
  simp only [InFunction, labelAt_renumber]

theorem Calls.renumber (h : code.Calls p frames) : code.renumber.Calls p frames := by
  induction h with
  | nil h => exact .nil fun f hf => h f (inFunction_renumber.1 hf)
  | @cons _ i _ _ _ hcall hreturn hf _ ih =>
    obtain ⟨q, hq, hop, harg⟩ := hcall
    have hq' : code.renumber[i]? = some { q with index := i } := by rw [getElem?_renumber, hq]; rfl
    refine .cons ⟨_, hq', hop, harg⟩ hreturn ?_ ih
    exact ⟨inFunction_renumber.2 hf.1, fun g hg r hr =>
      inFunction_renumber.2 (hf.2 g (inFunction_renumber.1 hg) r (inFunction_renumber.1 hr))⟩

end Code

/-! ### Programs -/

open Machine

/-- While a program without two functions of one name runs, its call stack fits the place where it stands. The
stack is empty exactly outside of all functions. -/
theorem Node.calls_of_lower {n : Node} {l : Lowered Unit} (hfs : n.functions.Nodup) (hl : n.lower = .ok l)
    {answers : Answers} {m : Machine} (hm : Reachable l.code answers m) :
    (m.stack = [] ↔ ∀ f, ¬l.code.InFunction f m.pc) ∧ l.code.Calls m.pc m.stack := by
  obtain ⟨c, hc, hemits⟩ := Node.lower_emits (N := fun _ => True) (p := False) nofun nofun hl
  have hemitted := hemits.emitted (fun _ => nofun) nofun Loop.drawn_none
  obtain ⟨A, hA⟩ := hemits.nests []
  have hlayout : Code.Layout _ _ c A :=
    ⟨hemitted, Code.linked_of_places hfs hemitted hemits.places, hA.mono fun _ _ ⟨_, _, h, _⟩ => by cases h⟩
  rw [hc] at hm ⊢
  have hcalls := (hlayout.calls_of_reachable (reachable_renumber.1 hm)).renumber
  exact ⟨hcalls.eq_nil_iff, hcalls⟩

/-- A function inside of a function, which calls it. -/
def nestedProgram : Node := .bare (.program [
  .bare (.function (.named "outer") [] (.bare (.block [
    .bare (.function (.named "inner") [.mk (.ok .none) (.ok (.str "n")) .absent]
      (.bare (.block [.bare (.return (.named "n"))]))),
    .bare (.return (.bare (.call (.named "inner") [.int 1])))]))),
  .bare (.expression (.print [.bare (.call (.named "outer") [])]))])

def nestedCode : Code := Code.renumber [
  Quad.goto "END_FUNC_outer", Quad.label "FUNC_outer",
  Quad.goto "END_FUNC_inner", Quad.label "FUNC_inner", Quad.receive (.name "n"), Quad.ret (.name "n"),
  Quad.ret void, Quad.label "END_FUNC_inner",
  Quad.param (.num (.int 1)), Quad.call "FUNC_inner" 1 (.name "t0"), Quad.ret (.name "t0"),
  Quad.ret void, Quad.label "END_FUNC_outer",
  Quad.call "FUNC_outer" 0 (.name "t1"), Quad.param (.name "t1"), Quad.call "console_log" 1 .none]

theorem nestedProgram_lower : nestedProgram.lower =
    .ok ⟨(), nestedCode, { temps := 2, functions := ["outer", "inner"] }⟩ := by
  cbv

theorem Node.calls_of_lower_nested : nestedProgram.functions.Nodup ∧
    ∃ m, Reachable nestedCode .nobody m ∧ m.pc = 4 ∧ m.stack.map Frame.returnIndex = [10, 14] ∧
      nestedCode.Calls m.pc m.stack := by
  have hfs : nestedProgram.functions.Nodup := by decide +kernel
  obtain ⟨m, hm, hpc, hstack⟩ : ∃ m, after nestedCode 9 (start .nobody) = some m ∧ m.pc = 4 ∧
      m.stack.map Frame.returnIndex = [10, 14] := ⟨_, rfl, rfl, rfl⟩
  have hreach : Reachable nestedCode .nobody m := ⟨9, steps_of_after hm⟩
  exact ⟨hfs, m, hreach, hpc, hstack, (calls_of_lower hfs nestedProgram_lower hreach).2⟩

end QuadScript
