import QuadScript.Proofs.Initializers

/-!
# Code of programs that do not read a variable

A program takes the value of a variable where it names it, updates it or changes it by a compound assignment, and
where the value of a plain assignment to it is used. In the last case the value is that of the variable itself, which
waits for the operands that follow. If no function is called in them (`Node.settled`), two programs that differ in
the constant that the variable is declared with have parallel codes (`Lower.stmt_parallel`).

Which labels the two runs have to agree at is put together from the parts of the code (`Choosable`).
-/

namespace QuadScript

/-! ### Programs -/

def Event.isCall : Event → Bool
  | .call _ => true
  | _ => false

/-- An event that does not take the value of the variable. The names in it are such as a program may use. -/
def Event.Leaves (x : String) : Event → Prop
  | .read mark => ∀ y, mark.nameTree = .str y → isSourceName y = true ∧ y ≠ x
  | .update mark => ∀ y, mark.nameTree = .str y → isSourceName y = true ∧ y ≠ x
  | .assign operator mark =>
    ∀ y, mark.nameTree = .str y → isSourceName y = true ∧ (operator.isText "=" = false → y ≠ x)
  | _ => True

mutual

/-- Whether the value of an expression is that of the variable itself: a plain assignment to it, or a sequence that
ends in one. -/
def Node.standsFor (x : String) : Node → Bool
  | .mk _ (.assignment operator left _) => operator.isText "=" && left.isNamed x
  | .mk _ (.sequence es) => Node.lastStandsFor x es
  | _ => false

def Node.lastStandsFor (x : String) : List Node → Bool
  | [] => false
  | [n] => n.standsFor x
  | _ :: rest => Node.lastStandsFor x rest

end

/-- Whether a function is called in an expression. -/
def Node.calls (n : Node) : Bool := n.events.any Event.isCall

/-- No function is called between operands of which one has the value of the variable itself. -/
def Node.orderly (x : String) : List Node → Bool
  | [] => true
  | n :: rest => !(n.standsFor x && rest.any Node.calls) && Node.orderly x rest

mutual

/-- All operands in a program are orderly, where code is made from them. -/
def Node.settled (x : String) : Node → Bool
  | .mk _ form => form.settled x
  | _ => true

def Form.settled (x : String) : Form → Bool
  | .program body => Node.settledAll x body
  | .block body => Node.settledAll x body
  | .expression e => e.settled x
  | .declaration _ ds => Declarator.settledAll x ds
  | .function _ _ body => body.settled x
  | .if test consequent alternate => test.settled x && consequent.settled x && alternate.settled x
  | .while test body => test.settled x && body.settled x
  | .for init test update body => init.settled x && test.settled x && update.settled x && body.settled x
  | .return argument => argument.settled x
  | .assignment _ _ right => right.settled x
  | .binary _ left right => left.settled x && right.settled x && Node.orderly x [left, right]
  | .logical _ left right => left.settled x && right.settled x
  | .unary _ argument => argument.settled x
  | .conditional test consequent alternate => test.settled x && consequent.settled x && alternate.settled x
  | .call _ arguments => Node.settledAll x arguments && Node.orderly x arguments
  | .sequence es => Node.settledAll x es
  | _ => true

def Node.settledAll (x : String) : List Node → Bool
  | [] => true
  | n :: rest => n.settled x && Node.settledAll x rest

def Declarator.settledAll (x : String) : List Declarator → Bool
  | [] => true
  | d :: rest => d.settled x && Declarator.settledAll x rest

def Declarator.settled (x : String) : Declarator → Bool
  | .fault _ => true
  | .mk _ _ _ init => init.settled x

end

/-! ### Operands -/

namespace Operand

variable {x y : String} {t : Tree}

theorem not_reads {c : String} {s : String} (h : c ≠ s) : ¬(name s).Reads c := by
  rintro (h' | h')
  · exact h (Operand.name.inj h').symm
  · cases h'

theorem not_reads_none {c : String} : ¬none.Reads c := by
  rintro (h | h) <;> cases h

theorem not_reads_num {c : String} (n : Number) : ¬(num n).Reads c := by
  rintro (h | h) <;> cases h

theorem not_reads_text {c : String} (s : String) : ¬(text s).Reads c := by
  rintro (h | h) <;> cases h

theorem not_reads_temp (x : String) (k : Nat) : ¬(name (tempName k)).Reads (mangle x) :=
  not_reads (mangle_ne_tempName x k)

theorem not_reads_join (hx : isVariable x = true) (k : Nat) : ¬(name (joinName k)).Reads (mangle x) :=
  not_reads (mangle_ne_joinName (Bool.and_eq_true_iff.1 hx).1 k)

theorem not_reads_void (hx : isVariable x = true) : ¬void.Reads (mangle x) :=
  not_reads (mangle_ne_constant hx rfl)

theorem not_reads_null (hx : isVariable x = true) : ¬(name "null").Reads (mangle x) :=
  not_reads (mangle_ne_constant hx rfl)

theorem not_reads_literal (hx : isVariable x = true) (t : Tree) : ¬(Lower.literalOperand t).Reads (mangle x) := by
  rintro (h | h)
  · exact literalOperand_ne_variable hx t h.symm
  · cases t <;> cases h

theorem eq_of_reads_nameOperand (hx : isVariable x = true) (hy : ∀ y, t = .str y → isSourceName y = true)
    (h : (Lower.nameOperand t).Reads (mangle x)) : t = .str x := by
  cases t with
  | str y =>
    have hy := hy y rfl
    rw [Lower.nameOperand, ofSymbol_mangle hy] at h
    rcases h with h | h
    · rw [mangle_injective hy (Bool.and_eq_true_iff.1 hx).1 (Operand.name.inj h)]
    · cases h
  | _ => rcases h with h | h <;> cases h

end Operand

/-! ### Pieces of code -/

namespace Quad.Spares

variable {c s : String} {φ : Nat → Prop} {b : Prop} {q : Quad} {k : Nat}

theorem of_other (hc : q.control = .other) (hop : q.op ≠ .call) (h : ∀ a ∈ q.reads, a.Reads c → b) : q.Spares c φ b :=
  ⟨h, fun hne => absurd hc hne, fun hcall => absurd hcall hop⟩

theorem of_label (hop : q.op ≠ .call) (hres : q.result = .name (labelName k)) (hk : φ k → b)
    (h : ∀ a ∈ q.reads, a.Reads c → b) : q.Spares c φ b := by
  refine ⟨h, fun _ => ⟨labelName k, hres, ?_, fun hat => hk (at_labelName.1 hat)⟩, fun hcall => absurd hcall hop⟩
  rw [head_labelName]
  decide

theorem of_mark (hop : q.op ≠ .call) (hres : q.result = .name s) (hL : s.toList.head? ≠ some 'L')
    (hc : s.toList.head? ≠ some 'c') (h : ∀ a ∈ q.reads, a.Reads c → b) : q.Spares c φ b :=
  ⟨h, fun _ => ⟨s, hres, hc, fun hat => absurd hat (not_at hL)⟩, fun hcall => absurd hcall hop⟩

theorem of_call (hop : q.op = .call) (hs : q.arg1 = .name s) (hhead : s.toList.head? ≠ some 'L') : q.Spares c φ b := by
  refine ⟨?_, fun hc => ?_, fun _ => ⟨s, hs, not_at hhead⟩⟩
  · simp [Quad.reads, hop]
  · simp [Quad.control, hop] at hc

end Quad.Spares

namespace Code.Parallel

variable {c : String} {φ : Nat → Prop} {b b' : Prop} {a a' : Operand} {k : Nat} {q : Quad} {code code' : Code}

theorem single (hq : q.Spares c φ b) (h : b' → q.agreed c φ b) : Parallel c φ b [q] [q] b' := .same hq (.nil h)

theorem assign (ha : a.Reads c → b) (x : Target) :
    Parallel c φ b [Quad.assign a x] [Quad.assign a x] (b ∨ x = .name c) :=
  .single (.of_other rfl (by simp) (by simpa [Quad.reads] using ha)) id

theorem keep (x : Target) : Parallel c φ (b ∨ a.Reads c) [Quad.assign a x] [Quad.assign a x] b :=
  (Parallel.assign .inr x).forget fun hb => .inl (.inl hb)

theorem operator (o : Operator) (ha : a.Reads c → b) (ha' : a'.Reads c → b) (t : String) :
    Parallel c φ b [Quad.operator o a a' t] [Quad.operator o a a' t] b :=
  .single (.of_other rfl (by simp) (by simpa [Quad.reads] using ⟨ha, ha'⟩)) id

theorem jumpIfFalse (ha : a.Reads c → b) (hk : φ k → b) :
    Parallel c φ b [Quad.jumpIfFalse a (labelName k)] [Quad.jumpIfFalse a (labelName k)] b :=
  .single (.of_label (by simp) rfl hk (by simpa [Quad.reads] using ha)) id

theorem goto (hk : φ k → b) : Parallel c φ b [Quad.goto (labelName k)] [Quad.goto (labelName k)] b' :=
  .single (.of_label (by simp) rfl hk (by simp [Quad.reads])) fun _ => trivial

theorem label (hk : φ k → b) (hb : b' → φ k) :
    Parallel c φ b [Quad.label (labelName k)] [Quad.label (labelName k)] b' :=
  .single (.of_label (by simp) rfl hk (by simp [Quad.reads])) fun h => at_labelName.2 (hb h)

theorem params {as : List Operand} (h : ∀ a ∈ as, a.Reads c → b) :
    Parallel c φ b (as.map Quad.param) (as.map Quad.param) b := by
  induction as with
  | nil => exact .nil id
  | cons a as ih =>
    have ha := h a List.mem_cons_self
    refine .same (.of_other rfl (by simp) (by simpa [Quad.reads] using ha)) ?_
    exact ih fun d hd => h d (List.mem_cons_of_mem a hd)

theorem print (f : String) (count : Nat) (x : Target) :
    Parallel c φ b [Quad.call (consoleMark ++ f) count x] [Quad.call (consoleMark ++ f) count x] b :=
  .single (.of_call rfl rfl (by rw [head_consoleMark]; decide)) fun h => ⟨h, f, rfl⟩

theorem call (f : String) (count : Nat) (x : Target) :
    Parallel c φ b [Quad.call (functionMark ++ f) count x] [Quad.call (functionMark ++ f) count x] False :=
  .single (.of_call rfl rfl (by rw [head_functionMark]; decide)) False.elim

theorem ret (ha : a.Reads c → b) : Parallel c φ b [Quad.ret a] [Quad.ret a] b' :=
  .single (.of_other rfl (by simp) (by simpa [Quad.reads] using ha)) fun _ => trivial

theorem receives (xs : List Target) : Parallel c φ b (xs.map Quad.receive) (xs.map Quad.receive) b := by
  induction xs with
  | nil => exact .nil id
  | cons x xs ih => exact .same (.of_other rfl (by simp) (by simp [Quad.reads])) ih

theorem function (f : String) (xs : List Target) (hvoid : ¬void.Reads c) (h : Parallel c φ False code code' False) :
    Parallel c φ False (Lower.functionCode f xs code) (Lower.functionCode f xs code') False := by
  have hgoto : Parallel c φ False [Quad.goto (endMark ++ f)] [Quad.goto (endMark ++ f)] False :=
    .single (.of_mark (by simp) rfl (by rw [head_endMark]; decide) (by rw [head_endMark]; decide)
      (by simp [Quad.reads])) False.elim
  have hlabel : Parallel c φ False [Quad.label (functionMark ++ f)] [Quad.label (functionMark ++ f)] False :=
    .single (.of_mark (by simp) rfl (by rw [head_functionMark]; decide) (by rw [head_functionMark]; decide)
      (by simp [Quad.reads])) False.elim
  have hend : Parallel c φ False [Quad.label (endMark ++ f)] [Quad.label (endMark ++ f)] False :=
    .single (.of_mark (by simp) rfl (by rw [head_endMark]; decide) (by rw [head_endMark]; decide)
      (by simp [Quad.reads])) False.elim
  have hbody := h.append ((Parallel.ret (absurd · hvoid)).append hend)
  exact hgoto.append (hlabel.append ((Parallel.receives xs).append hbody))

theorem value {b₁ : Prop} (h : Parallel c φ b code code' b₁) (hb : b' → b₁) (ha : ¬a.Reads c) :
    Parallel c φ b code code' (b' ∨ a.Reads c) :=
  h.forget fun h' => hb (h'.resolve_right ha)

end Code.Parallel

/-! ### Choosing labels -/

/-- Something holds for some choice of the labels from `l` to `l'` at which the runs have to agree, whatever is chosen
for the others. -/
def Choosable (l l' : Nat) (J : (Nat → Prop) → Prop) : Prop :=
  ∃ φ : Nat → Prop, ∀ φ' : Nat → Prop, (∀ k, l ≤ k → k < l' → (φ' k ↔ φ k)) → J φ'

namespace Choosable

variable {l l₁ l' : Nat} {J K : (Nat → Prop) → Prop}

theorem of_forall (h : ∀ φ, J φ) : Choosable l l' J := ⟨fun _ => False, fun φ _ => h φ⟩

theorem imp (h : Choosable l l' J) (hJ : ∀ φ, J φ → K φ) : Choosable l l' K :=
  let ⟨φ, h⟩ := h; ⟨φ, fun φ' hφ => hJ φ' (h φ' hφ)⟩

theorem and (h : Choosable l l₁ J) (h' : Choosable l₁ l' K) (hl : l ≤ l₁) (hl' : l₁ ≤ l') :
    Choosable l l' fun φ => J φ ∧ K φ := by
  obtain ⟨φ₁, h₁⟩ := h
  obtain ⟨φ₂, h₂⟩ := h'
  refine ⟨fun k => if k < l₁ then φ₁ k else φ₂ k, fun φ' hφ => ⟨h₁ φ' ?_, h₂ φ' ?_⟩⟩
  · intro k hk hk'
    exact (hφ k hk (by omega)).trans (iff_of_eq (if_pos hk'))
  · intro k hk hk'
    exact (hφ k (by omega) hk').trans (iff_of_eq (if_neg (by omega)))

theorem draw (b : Prop) (h : Choosable (l + 1) l' fun φ => (φ l ↔ b) → J φ) (hl : l < l') : Choosable l l' J := by
  obtain ⟨φ, h⟩ := h
  refine ⟨fun k => if k = l then b else φ k, fun φ' hφ => h φ' (fun k hk hk' => ?_) ?_⟩
  · exact (hφ k (by omega) hk').trans (iff_of_eq (if_neg (by omega)))
  · exact (hφ l (Nat.le_refl l) hl).trans (iff_of_eq (if_pos rfl))

end Choosable

/-! ### Expressions -/

section
variable {x : String} {n : Node} {ns : List Node}

theorem Node.forall_eventsAll {p : Event → Prop} :
    (∀ e ∈ Node.eventsAll ns, p e) ↔ ∀ n ∈ ns, ∀ e ∈ n.events, p e := by
  induction ns with
  | nil => simp [Node.eventsAll]
  | cons n rest ih => rw [Node.eventsAll, List.forall_mem_append, ih, List.forall_mem_cons]

/-- No function is called after an operand that has the value of the variable. -/
theorem Node.orderly_cons (h : Node.orderly x (n :: ns) = true) :
    (n.standsFor x = true → ∀ e ∈ Node.eventsAll ns, e.isCall = false) ∧ Node.orderly x ns = true := by
  rw [Node.orderly, Bool.and_eq_true_iff] at h
  refine ⟨fun hn => Node.forall_eventsAll.2 fun m hm e he => ?_, h.2⟩
  have hcalls : ns.any Node.calls = false := by simpa [hn] using h.1
  have hm : ¬m.calls = true := List.any_eq_false.1 hcalls m hm
  rw [Node.calls, List.any_eq_true] at hm
  exact Bool.eq_false_iff.2 fun hcall => hm ⟨e, he, hcall⟩

namespace Lower

theorem expr_labels_le {s : Supply} {r : Lowered Operand} (h : expr n s = .ok r) : s.labels ≤ r.supply.labels :=
  (expr_evaluates (N := fun _ => True) (p := False) False.elim n False.elim h).le.2

theorem exprs_labels_le {s : Supply} {r : Lowered (List Operand)} (h : exprs ns s = .ok r) :
    s.labels ≤ r.supply.labels :=
  (exprs_evaluates (N := fun _ => True) (p := False) False.elim ns False.elim h).le.2

theorem callee_eq_function {f : String} (h : callee n = .ok (.function f)) : ∃ mark, n = .mk mark .identifier := by
  rcases n with _ | fault | ⟨mark, form⟩
  · cases h
  · cases h
  · cases form with
    | identifier => exact ⟨mark, rfl⟩
    | member computed object property =>
      cases computed with
      | true => cases h
      | false =>
        obtain ⟨name, -, h⟩ := except_bind_eq_ok h
        split at h
        · obtain ⟨method, -, h⟩ := except_bind_eq_ok h
          cases h
        · cases h
    | _ => cases h

section
variable {s : Supply} (hx : isVariable x = true)
include hx

theorem Skipped.not_reads {r : Lowered Operand} (h : Skipped s r) : ¬r.value.Reads (mangle x) := by
  obtain ⟨w, rfl⟩ := h
  exact Operand.not_reads_void hx

theorem eq_of_reads_assignee {operator t : Tree} {left right : Node} {mark : Mark}
    (hleaves : ∀ e ∈ (Node.mk mark (.assignment operator left right)).events, e.Leaves x)
    (hleft : assignee? left = .ok (some t)) (h : (nameOperand t).Reads (mangle x)) :
    t = .str x ∧ operator.isText "=" = true ∧ left.isNamed x = true := by
  obtain ⟨mark', rfl, hmark⟩ := assignee?_eq_some hleft
  obtain rfl := Mark.nameTree_of_name hmark
  rw [Node.events] at hleaves
  have he : (Event.assign operator mark').Leaves x := hleaves _ (by simp [Node.eventsOr])
  have hname := Operand.eq_of_reads_nameOperand hx (fun y hy => (he y hy).1) h
  refine ⟨hname, ?_, by rw [Node.isNamed, hname]; simp [Tree.isText]⟩
  by_contra hop
  exact (he x hname).2 (by simpa using hop) rfl

theorem not_reads_updated {operator t : Tree} {leading : Bool} {argument : Node} {mark : Mark}
    (hleaves : ∀ e ∈ (Node.mk mark (.update operator leading argument)).events, e.Leaves x)
    (harg : assignee? argument = .ok (some t)) : ¬(nameOperand t).Reads (mangle x) := by
  intro h
  obtain ⟨mark', rfl, hmark⟩ := assignee?_eq_some harg
  obtain rfl := Mark.nameTree_of_name hmark
  rw [Node.events] at hleaves
  have he : (Event.update mark').Leaves x := hleaves _ (by simp [Node.eventsOr])
  exact (he x (Operand.eq_of_reads_nameOperand hx (fun y hy => (he y hy).1) h)).2 rfl

mutual

/-- The value of an expression is that of the variable only if the expression stands for it. -/
theorem standsFor_of_reads : ∀ (n : Node) {s : Supply} {r : Lowered Operand}, (∀ e ∈ n.events, e.Leaves x) →
    expr n s = .ok r → r.value.Reads (mangle x) → n.standsFor x = true
  | .absent, s, r, _, h, hr => by
    rw [expr, pure_eq_ok] at h
    subst h
    exact absurd hr (Operand.not_reads_void hx)
  | .fault f, s, r, _, h, _ => by rw [expr] at h; cases h
  | .mk mark form, s, r, hleaves, h, hr => by
    -- most values are in temporaries or join variables, which no name of the program can be
    cases form with
    | literal regex value =>
      cases regex with
      | true =>
        rw [expr] at h
        exact absurd hr ((skipped_of_unsupported h).not_reads hx)
      | false =>
        rw [expr_literal.1 h] at hr
        exact absurd hr (Operand.not_reads_literal hx value)
    | template text es =>
      obtain ⟨t, -, rfl⟩ := expr_template.1 h
      exact absurd hr (Operand.not_reads_text t)
    | identifier =>
      rw [expr_identifier.1 h] at hr
      rw [Node.events] at hleaves
      have he : (Event.read mark).Leaves x := hleaves _ List.mem_cons_self
      exact absurd rfl (he x (Operand.eq_of_reads_nameOperand hx (fun y hy => (he y hy).1) hr)).2
    | assignment operator left right =>
      rcases expr_assignment_inv h with h' | ⟨name, hleft, hop | ⟨hop, op, hc⟩⟩
      · exact absurd hr (h'.not_reads hx)
      · obtain ⟨a, ha, rfl⟩ := (expr_assignment hleft hop).1 h
        rw [Node.standsFor, Bool.and_eq_true_iff]
        exact (eq_of_reads_assignee hx hleaves hleft hr).2
      · obtain ⟨a, ha, rfl⟩ := (expr_compound hleft hop hc).1 h
        rw [Node.standsFor, Bool.and_eq_true_iff]
        exact (eq_of_reads_assignee hx hleaves hleft hr).2
    | binary operator left right =>
      rcases expr_binary_inv h with h' | ⟨op, hop⟩
      · exact absurd hr (h'.not_reads hx)
      · obtain ⟨a, ha, d, hd, rfl⟩ := (expr_binary hop).1 h
        exact absurd hr (Operand.not_reads_temp x _)
    | unary operator argument =>
      rcases expr_unary_inv h with h' | hv | ⟨hv, op, hop⟩
      · exact absurd hr (h'.not_reads hx)
      · obtain ⟨a, ha, rfl⟩ := (expr_void hv).1 h
        exact absurd hr (Operand.not_reads_void hx)
      · obtain ⟨a, ha, rfl⟩ := (expr_unary hv hop).1 h
        exact absurd hr (Operand.not_reads_temp x _)
    | update operator leading argument =>
      rcases expr_update_inv h with h' | ⟨name, harg⟩
      · exact absurd hr (h'.not_reads hx)
      · cases leading with
        | false =>
          rw [(expr_update_trailing harg).1 h] at hr
          exact absurd hr (Operand.not_reads_temp x _)
        | true =>
          rw [(expr_update_leading harg).1 h] at hr
          exact absurd hr (not_reads_updated hx hleaves harg)
    | logical operator left right =>
      obtain ⟨a, ha, t, ht, d, hd, rfl⟩ := expr_logical.1 h
      exact absurd hr (Operand.not_reads_join hx _)
    | conditional test consequent alternate =>
      obtain ⟨a, ha, d, hd, e, he, rfl⟩ := expr_conditional.1 h
      exact absurd hr (Operand.not_reads_join hx _)
    | call called arguments =>
      rcases expr_call_inv h with h' | ⟨method, hc⟩ | ⟨f, hc⟩
      · exact absurd hr (h'.not_reads hx)
      · obtain ⟨as, has, rfl⟩ := (expr_print hc).1 h
        exact absurd hr (Operand.not_reads_void hx)
      · obtain ⟨as, has, rfl⟩ := (expr_call hc).1 h
        exact absurd hr (Operand.not_reads_temp x _)
    | sequence es =>
      obtain ⟨as, has, rfl⟩ := expr_sequence.1 h
      rw [Node.events] at hleaves
      rw [Node.standsFor]
      exact lastStandsFor_of_reads es hleaves has hr
    | _ => exact absurd hr ((skipped_of_unsupported h).not_reads hx)

theorem lastStandsFor_of_reads : ∀ (ns : List Node) {s : Supply} {r : Lowered (List Operand)},
    (∀ e ∈ Node.eventsAll ns, e.Leaves x) → exprs ns s = .ok r → (r.value.getLast?.getD void).Reads (mangle x) →
    Node.lastStandsFor x ns = true
  | [], s, r, _, h, hr => by
    rw [exprs_nil.1 h] at hr
    exact absurd hr (Operand.not_reads_void hx)
  | [n], s, r, hleaves, h, hr => by
    obtain ⟨a, ha, as, has, rfl⟩ := exprs_cons.1 h
    cases exprs_nil.1 has
    rw [Node.eventsAll] at hleaves
    rw [Node.lastStandsFor]
    exact standsFor_of_reads n (List.forall_mem_append.1 hleaves).1 ha hr
  | n :: m :: rest, s, r, hleaves, h, hr => by
    obtain ⟨a, ha, as, has, rfl⟩ := exprs_cons.1 h
    obtain ⟨d, -, ds, -, rfl⟩ := exprs_cons.1 has
    rw [Node.eventsAll] at hleaves
    rw [Node.lastStandsFor]
    · exact lastStandsFor_of_reads (m :: rest) (List.forall_mem_append.1 hleaves).2 has hr
    · simp

end

theorem logicalTest_parallel {operator : Tree} {k : Nat} {t : Lowered Operand} {φ : Nat → Prop} {b : Prop}
    (ht : logicalTest operator (joinName k) s = .ok t) :
    t.supply.labels = s.labels ∧ ¬t.value.Reads (mangle x) ∧ Code.Parallel (mangle x) φ b t.code t.code b := by
  have hjoin := Operand.not_reads_join hx k
  unfold logicalTest at ht
  split at ht
  · rw [pure_eq_ok.1 ht]
    exact ⟨rfl, hjoin, .nil id⟩
  · split at ht
    · rw [operator_eq_ok.1 ht]
      exact ⟨rfl, Operand.not_reads_temp x _, .operator _ (absurd · hjoin) (absurd · Operand.not_reads_none) _⟩
    · rw [operator_eq_ok.1 ht]
      exact ⟨rfl, Operand.not_reads_temp x _, .operator _ (absurd · hjoin) (absurd · (Operand.not_reads_null hx)) _⟩

theorem Skipped.parallel {r : Lowered Operand} {φ : Nat → Prop} {b : Prop} (h : Skipped s r) :
    Code.Parallel (mangle x) φ b r.code r.code (b ∨ r.value.Reads (mangle x)) := by
  obtain ⟨w, rfl⟩ := h
  exact Code.Parallel.value (.nil id) id (Operand.not_reads_void hx)

omit hx in
theorem update_parallel {operator name : Tree} {leading : Bool} {argument : Node} {mark : Mark} {r : Lowered Operand}
    {φ : Nat → Prop} {b : Prop} (hname : ¬(nameOperand name).Reads (mangle x))
    (harg : assignee? argument = .ok (some name))
    (h : expr (.mk mark (.update operator leading argument)) s = .ok r) :
    Code.Parallel (mangle x) φ b r.code r.code (b ∨ r.value.Reads (mangle x)) := by
  have hone : ¬(Operand.num (.int 1)).Reads (mangle x) := Operand.not_reads_num _
  have htemp := Operand.not_reads_temp x
  cases leading with
  | true =>
    rw [(expr_update_leading harg).1 h]
    refine Code.Parallel.value ((Code.Parallel.operator _ (absurd · hname) (absurd · hone) _).append
      (.assign (absurd · (htemp _)) _)) .inl hname
  | false =>
    rw [(expr_update_trailing harg).1 h]
    refine Code.Parallel.value ((Code.Parallel.operator _ (absurd · hname) (absurd · Operand.not_reads_none) _).append
      ((Code.Parallel.operator _ (absurd · hname) (absurd · hone) _).append (.assign (absurd · (htemp _)) _))) .inl
      (htemp _)

mutual

/-- The codes of an expression are parallel. If the runs agree in the variable before it and no function is called, they
agree after it; they agree also if the value is that of the variable. -/
theorem expr_parallel : ∀ (n : Node) {s : Supply} {r : Lowered Operand} {b : Prop}, (∀ e ∈ n.events, e.Leaves x) →
    n.settled x = true → (b → ∀ e ∈ n.events, e.isCall = false) → expr n s = .ok r →
    Choosable s.labels r.supply.labels fun φ =>
      Code.Parallel (mangle x) φ b r.code r.code (b ∨ r.value.Reads (mangle x))
  | .absent, s, r, b, _, _, _, h => by
    rw [expr, pure_eq_ok] at h
    subst h
    exact .of_forall fun φ => Code.Parallel.value (.nil id) id (Operand.not_reads_void hx)
  | .fault f, s, r, b, _, _, _, h => by rw [expr] at h; cases h
  | .mk mark form, s, r, b, hleaves, hsettled, hcalls, h => by
    cases form with
    | literal regex value =>
      cases regex with
      | true =>
        rw [expr] at h
        exact .of_forall fun φ => (skipped_of_unsupported h).parallel hx
      | false =>
        rw [expr_literal.1 h]
        exact .of_forall fun φ => Code.Parallel.value (.nil id) id (Operand.not_reads_literal hx value)
    | template text es =>
      obtain ⟨t, -, rfl⟩ := expr_template.1 h
      exact .of_forall fun φ => Code.Parallel.value (.nil id) id (Operand.not_reads_text t)
    | identifier =>
      have hno : ¬r.value.Reads (mangle x) := fun hr => by
        have hstands := standsFor_of_reads hx _ hleaves h hr
        rw [Node.standsFor] at hstands
        · cases hstands
        · simp
        · simp
      rw [expr_identifier.1 h] at hno ⊢
      exact .of_forall fun φ => Code.Parallel.value (.nil id) id hno
    | assignment operator left right =>
      rcases expr_assignment_inv h with h' | ⟨name, hleft, hop | ⟨hop, op, hc⟩⟩
      · exact .of_forall fun φ => h'.parallel hx
      · obtain ⟨a, ha, rfl⟩ := (expr_assignment hleft hop).1 h
        have hname := fun hr => (eq_of_reads_assignee hx hleaves hleft hr).1
        rw [Node.events] at hleaves hcalls
        rw [Node.settled, Form.settled] at hsettled
        have hright := expr_parallel right (List.forall_mem_append.1 hleaves).1 hsettled
          (fun hb => (List.forall_mem_append.1 (hcalls hb)).1) ha
        refine hright.imp fun φ hright => (hright.append (.assign .inr _)).forget fun hb => ?_
        rcases hb with hb | hb
        · exact .inl (.inl hb)
        · rw [hname hb]
          exact .inr rfl
      · obtain ⟨a, ha, rfl⟩ := (expr_compound hleft hop hc).1 h
        have hno : ¬(nameOperand name).Reads (mangle x) := fun hr => by
          have htrue := (eq_of_reads_assignee hx hleaves hleft hr).2.1
          rw [hop] at htrue
          cases htrue
        rw [Node.events] at hleaves hcalls
        rw [Node.settled, Form.settled] at hsettled
        have hright := expr_parallel right (List.forall_mem_append.1 hleaves).1 hsettled
          (fun hb => (List.forall_mem_append.1 (hcalls hb)).1) ha
        refine hright.imp fun φ hright => Code.Parallel.value (hright.append
          ((Code.Parallel.operator _ (absurd · hno) .inr _).append
            (.assign (absurd · (Operand.not_reads_temp x _)) _))) (fun hb => .inl (.inl hb)) hno
    | binary operator left right =>
      rcases expr_binary_inv h with h' | ⟨op, hop⟩
      · exact .of_forall fun φ => h'.parallel hx
      · obtain ⟨a, ha, d, hd, rfl⟩ := (expr_binary hop).1 h
        rw [Node.events] at hleaves hcalls
        simp only [Node.settled, Form.settled, Bool.and_eq_true] at hsettled
        obtain ⟨⟨hsettled₁, hsettled₂⟩, horderly⟩ := hsettled
        obtain ⟨hleaves₁, hleaves₂⟩ := List.forall_mem_append.1 hleaves
        have hleft := expr_parallel left hleaves₁ hsettled₁ (fun hb => (List.forall_mem_append.1 (hcalls hb)).1) ha
        have hright := expr_parallel right (b := b ∨ a.value.Reads (mangle x)) hleaves₂ hsettled₂ (fun hb => by
          rcases hb with hb | hb
          · exact (List.forall_mem_append.1 (hcalls hb)).2
          · have hafter := (Node.orderly_cons horderly).1 (standsFor_of_reads hx left hleaves₁ ha hb)
            rwa [Node.eventsAll, Node.eventsAll, List.append_nil] at hafter) hd
        refine (hleft.and hright (expr_labels_le ha) (expr_labels_le hd)).imp fun φ ⟨hleft, hright⟩ => ?_
        have hoperator := Code.Parallel.operator (φ := φ) (.binary op)
          (b := (b ∨ a.value.Reads (mangle x)) ∨ d.value.Reads (mangle x)) (a := a.value)
          (fun h => .inl (.inr h)) Or.inr (tempName d.supply.temps)
        exact (hleft.append (hright.append hoperator)).value (fun hb => .inl (.inl hb)) (Operand.not_reads_temp x _)
    | unary operator argument =>
      rw [Node.events] at hleaves hcalls
      rw [Node.settled, Form.settled] at hsettled
      rcases expr_unary_inv h with h' | hv | ⟨hv, op, hop⟩
      · exact .of_forall fun φ => h'.parallel hx
      · obtain ⟨a, ha, rfl⟩ := (expr_void hv).1 h
        exact (expr_parallel argument hleaves hsettled hcalls ha).imp fun φ hargument =>
          hargument.value .inl (Operand.not_reads_void hx)
      · obtain ⟨a, ha, rfl⟩ := (expr_unary hv hop).1 h
        exact (expr_parallel argument hleaves hsettled hcalls ha).imp fun φ hargument =>
          (hargument.append (.operator _ .inr (absurd · Operand.not_reads_none) _)).value .inl
            (Operand.not_reads_temp x _)
    | update operator leading argument =>
      rcases expr_update_inv h with h' | ⟨name, harg⟩
      · exact .of_forall fun φ => h'.parallel hx
      · have hlabels : r.supply.labels = s.labels := by
          cases leading with
          | true => rw [(expr_update_leading harg).1 h]; rfl
          | false => rw [(expr_update_trailing harg).1 h]; rfl
        exact .of_forall fun φ => update_parallel (not_reads_updated hx hleaves harg) harg h
    | logical operator left right =>
      obtain ⟨a, ha, t, ht, d, hd, rfl⟩ := expr_logical.1 h
      rw [Node.events] at hleaves hcalls
      simp only [Node.settled, Form.settled, Bool.and_eq_true] at hsettled
      simp only [List.forall_mem_append] at hleaves hcalls
      have hleft := expr_parallel left hleaves.1 hsettled.1 (fun hb => (hcalls hb).1) ha
      have hright := expr_parallel right hleaves.2.1 hsettled.2 (fun hb => (hcalls hb).2.1) hd
      have hjoin := Operand.not_reads_join hx s.joins
      have hle := expr_labels_le ha
      have hle' := expr_labels_le hd
      obtain ⟨hlabels, -, -⟩ := logicalTest_parallel (φ := fun _ => True) (b := True) hx ht
      rw [hlabels] at hright hle'
      rw [drawLabels_labels, drawJoin_labels] at hleft hle
      -- at the end of the skipped code the runs agree if they did before
      refine .draw b ((hleft.and hright hle hle').imp fun φ ⟨hleft, hright⟩ hφ => ?_) (Nat.lt_of_lt_of_le hle hle')
      obtain ⟨-, htest, hparallel⟩ := logicalTest_parallel (φ := φ) (b := b) hx ht
      have hend := hright.append ((Code.Parallel.keep (.name (joinName s.joins))).append
        (.label (k := s.labels) hφ.1 hφ.2))
      have hjump := (Code.Parallel.jumpIfFalse (k := s.labels) (absurd · htest) hφ.1).append hend
      have hall := hleft.append ((Code.Parallel.keep (.name (joinName s.joins))).append (hparallel.append hjump))
      exact hall.value id hjoin
    | conditional test consequent alternate =>
      obtain ⟨a, ha, d, hd, e, he, rfl⟩ := expr_conditional.1 h
      rw [Node.events] at hleaves hcalls
      simp only [Node.settled, Form.settled, Bool.and_eq_true] at hsettled
      simp only [List.forall_mem_append] at hleaves hcalls
      have htest := expr_parallel test hleaves.1 hsettled.1.1 (fun hb => (hcalls hb).1) ha
      have hconsequent := expr_parallel consequent hleaves.2.1 hsettled.1.2 (fun hb => (hcalls hb).2.1) hd
      have halternate := expr_parallel alternate hleaves.2.2.1 hsettled.2 (fun hb => (hcalls hb).2.2.1) he
      have hle := expr_labels_le ha
      have hle₁ := expr_labels_le hd
      have hle₂ := expr_labels_le he
      rw [drawLabels_labels, drawJoin_labels] at htest hle
      have hlt : s.labels + 1 < e.supply.labels := by omega
      refine .draw b (.draw b ((htest.and (hconsequent.and halternate hle₁ hle₂) hle (hle₁.trans hle₂)).imp
        fun φ ⟨htest, hconsequent, halternate⟩ hφ' hφ => ?_) hlt) (Nat.lt_of_succ_lt hlt)
      have hend := halternate.append ((Code.Parallel.keep (.name (joinName s.joins))).append
        (.label (k := s.labels + 1) hφ'.1 hφ'.2))
      have helse := (Code.Parallel.label (k := s.labels) (b := b) hφ.1 hφ.2).append hend
      have hthen := hconsequent.append ((Code.Parallel.keep (.name (joinName s.joins))).append
        ((Code.Parallel.goto hφ'.1).append helse))
      have hall := htest.append (((Code.Parallel.jumpIfFalse .inr fun hk => .inl (hφ.1 hk)).forget .inl).append hthen)
      exact hall.value id (Operand.not_reads_join hx s.joins)
    | call called arguments =>
      rw [Node.settled, Form.settled, Bool.and_eq_true_iff] at hsettled
      rw [Node.events] at hleaves hcalls
      have hleaves' := (List.forall_mem_append.1 hleaves).2
      rcases expr_call_inv h with h' | ⟨method, hc⟩ | ⟨f, hc⟩
      · exact .of_forall fun φ => h'.parallel hx
      · obtain ⟨as, has, rfl⟩ := (expr_print hc).1 h
        refine (exprs_parallel arguments hleaves' hsettled.1 hsettled.2
          (fun hb => (List.forall_mem_append.1 (hcalls hb)).2) has).imp fun φ harguments => ?_
        have hparams : Code.Parallel (mangle x) φ (b ∨ ∃ a ∈ as.value, a.Reads (mangle x)) _ _ _ :=
          .params fun a ha hr => .inr ⟨a, ha, hr⟩
        exact (harguments.append (hparams.append (.print ..))).value .inl (Operand.not_reads_void hx)
      · obtain ⟨as, has, rfl⟩ := (expr_call hc).1 h
        obtain ⟨mark', rfl⟩ := callee_eq_function hc
        -- after the call the runs agree only if there is none
        have hno : ¬b := fun hb => by
          have hfalse := hcalls hb (.call mark') (by simp [Node.eventsOr])
          cases hfalse
        refine (exprs_parallel arguments hleaves' hsettled.1 hsettled.2 (absurd · hno) has).imp fun φ harguments => ?_
        have hparams : Code.Parallel (mangle x) φ (b ∨ ∃ a ∈ as.value, a.Reads (mangle x)) _ _ _ :=
          .params fun a ha hr => .inr ⟨a, ha, hr⟩
        exact (harguments.append (hparams.append (.call ..))).value hno (Operand.not_reads_temp x _)
    | sequence es =>
      obtain ⟨as, has, rfl⟩ := expr_sequence.1 h
      rw [Node.events] at hleaves hcalls
      rw [Node.settled, Form.settled] at hsettled
      exact exprs_parallel_last es hleaves hsettled hcalls has
    | _ => exact .of_forall fun φ => (skipped_of_unsupported h).parallel hx

theorem exprs_parallel : ∀ (ns : List Node) {s : Supply} {r : Lowered (List Operand)} {b : Prop},
    (∀ e ∈ Node.eventsAll ns, e.Leaves x) → Node.settledAll x ns = true → Node.orderly x ns = true →
    (b → ∀ e ∈ Node.eventsAll ns, e.isCall = false) → exprs ns s = .ok r →
    Choosable s.labels r.supply.labels fun φ =>
      Code.Parallel (mangle x) φ b r.code r.code (b ∨ ∃ a ∈ r.value, a.Reads (mangle x))
  | [], s, r, b, _, _, _, _, h => by
    rw [exprs_nil.1 h]
    exact .of_forall fun φ => .nil fun hb => hb.resolve_right (by simp)
  | n :: rest, s, r, b, hleaves, hsettled, horderly, hcalls, h => by
    obtain ⟨a, ha, as, has, rfl⟩ := exprs_cons.1 h
    rw [Node.eventsAll] at hleaves hcalls
    rw [Node.settledAll, Bool.and_eq_true_iff] at hsettled
    obtain ⟨hleaves₁, hleaves₂⟩ := List.forall_mem_append.1 hleaves
    obtain ⟨hafter, horderly⟩ := Node.orderly_cons horderly
    have hfirst := expr_parallel n hleaves₁ hsettled.1 (fun hb => (List.forall_mem_append.1 (hcalls hb)).1) ha
    have hrest := exprs_parallel rest (b := b ∨ a.value.Reads (mangle x)) hleaves₂ hsettled.2 horderly (fun hb => by
      rcases hb with hb | hb
      · exact (List.forall_mem_append.1 (hcalls hb)).2
      · exact hafter (standsFor_of_reads hx n hleaves₁ ha hb)) has
    refine (hfirst.and hrest (expr_labels_le ha) (exprs_labels_le has)).imp fun φ ⟨hfirst, hrest⟩ =>
      (hfirst.append hrest).forget fun hb => ?_
    rw [List.exists_mem_cons_iff, ← or_assoc] at hb
    exact hb

/-- The code of expressions of which only the last has its value used. -/
theorem exprs_parallel_last : ∀ (ns : List Node) {s : Supply} {r : Lowered (List Operand)} {b : Prop},
    (∀ e ∈ Node.eventsAll ns, e.Leaves x) → Node.settledAll x ns = true →
    (b → ∀ e ∈ Node.eventsAll ns, e.isCall = false) → exprs ns s = .ok r →
    Choosable s.labels r.supply.labels fun φ =>
      Code.Parallel (mangle x) φ b r.code r.code (b ∨ (r.value.getLast?.getD void).Reads (mangle x))
  | [], s, r, b, _, _, _, h => by
    rw [exprs_nil.1 h]
    exact .of_forall fun φ => Code.Parallel.value (.nil id) id (Operand.not_reads_void hx)
  | n :: rest, s, r, b, hleaves, hsettled, hcalls, h => by
    obtain ⟨a, ha, as, has, rfl⟩ := exprs_cons.1 h
    rw [Node.eventsAll] at hleaves hcalls
    rw [Node.settledAll, Bool.and_eq_true_iff] at hsettled
    obtain ⟨hleaves₁, hleaves₂⟩ := List.forall_mem_append.1 hleaves
    have hfirst := expr_parallel n hleaves₁ hsettled.1 (fun hb => (List.forall_mem_append.1 (hcalls hb)).1) ha
    cases rest with
    | nil =>
      cases exprs_nil.1 has
      rw [List.append_nil]
      exact hfirst
    | cons m rest =>
      have hrest := exprs_parallel_last (m :: rest) hleaves₂ hsettled.2
        (fun hb => (List.forall_mem_append.1 (hcalls hb)).2) has
      refine (hfirst.and hrest (expr_labels_le ha) (exprs_labels_le has)).imp fun φ ⟨hfirst, hrest⟩ => ?_
      obtain ⟨d, -, ds, -, rfl⟩ := exprs_cons.1 has
      exact (hfirst.forget .inl).append hrest

end

end

end Lower

end

end QuadScript
