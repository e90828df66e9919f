import QuadScript.Proofs.Unread

/-!
# Replacing an initialiser that is not read

Statements of a program that does not read a variable, with one constant and with another in the place of the
initialiser: the codes pass (`Lower.stmt_parallel`), so the two programs print the same
(`Node.output_run_withInit`).
-/

namespace QuadScript

/-- The runs need not agree where a loop is continued or left. -/
def Loop.Free (φ : Nat → Prop) (loop : Option Loop) : Prop :=
  ∀ lp ∈ loop, ∃ j k, lp = ⟨labelName j, labelName k⟩ ∧ ¬φ j ∧ ¬φ k

theorem Loop.free_some {φ : Nat → Prop} {j k : Nat} (hj : φ j ↔ False) (hk : φ k ↔ False) :
    Loop.Free φ (some ⟨labelName j, labelName k⟩) := by
  rintro lp ⟨⟩
  exact ⟨j, k, rfl, hj.1, hk.1⟩

theorem Constant.isConstant_node (v : Constant) : v.node.isConstant = true := v.scalar

theorem Node.isAbsent_of_isConstant {n : Node} (h : n.isConstant = true) : n.isAbsent = false := by
  cases n with
  | absent => cases h
  | _ => rfl

theorem Supply.Even.symm {s s' : Supply} (hs : s.Even s') : s'.Even s := ⟨hs.temps.symm, hs.labels.symm, hs.joins.symm⟩

theorem Supply.Even.trans {s s' s₁ : Supply} (hs : s.Even s') (hs' : s'.Even s₁) : s.Even s₁ :=
  ⟨hs'.temps.trans hs.temps, hs'.labels.trans hs.labels, hs'.joins.trans hs.joins⟩

theorem Supply.Even.warned {s s' : Supply} (hs : s.Even s') (w w' : String) : (s.warned w).Even (s'.warned w') :=
  ⟨hs.temps, hs.labels, hs.joins⟩

theorem Supply.Even.drawLabels {s s' : Supply} (hs : s.Even s') (k : Nat) : (s.drawLabels k).Even (s'.drawLabels k) :=
  ⟨hs.temps, congrArg (· + k) hs.labels, hs.joins⟩

theorem Supply.Even.announce {s s' : Supply} (hs : s.Even s') (f : String) :
    (Lower.announce f s).Even (Lower.announce f s') := by
  obtain ⟨fs, ws, h⟩ := Lower.announce_eq f s
  obtain ⟨fs', ws', h'⟩ := Lower.announce_eq f s'
  rw [h, h']
  exact ⟨hs.temps, hs.labels, hs.joins⟩

/-! ### Branches and loops -/

namespace Code.Parallel

variable {c : String} {φ : Nat → Prop} {a : Operand} {i j k : Nat} {test body body' other other' update : Code}

theorem exit (hk : ¬φ k) : Parallel c φ (a.Reads c) [Quad.jumpIfFalse a (labelName k)]
    [Quad.jumpIfFalse a (labelName k)] False :=
  (Parallel.jumpIfFalse id fun h => (hk h).elim).forget False.elim

theorem mark (hk : ¬φ k) : Parallel c φ False [Quad.label (labelName k)] [Quad.label (labelName k)] False :=
  .label hk False.elim

theorem branch (hj : ¬φ j) (hk : ¬φ k) (htest : Parallel c φ False test test (a.Reads c))
    (hbody : Parallel c φ False body body' False) (hother : Parallel c φ False other other' False) :
    Parallel c φ False
      (test ++ Quad.jumpIfFalse a (labelName j) :: (body ++ Quad.goto (labelName k) ::
        Quad.label (labelName j) :: (other ++ [Quad.label (labelName k)])))
      (test ++ Quad.jumpIfFalse a (labelName j) :: (body' ++ Quad.goto (labelName k) ::
        Quad.label (labelName j) :: (other' ++ [Quad.label (labelName k)]))) False := by
  have helse := (Parallel.mark hj).append (hother.append (.mark hk))
  exact htest.append ((Parallel.exit hj).append (hbody.append ((Parallel.goto hk).append helse)))

theorem whileLoop (hj : ¬φ j) (hk : ¬φ k) (htest : Parallel c φ False test test (a.Reads c))
    (hbody : Parallel c φ False body body' False) :
    Parallel c φ False
      (Quad.label (labelName j) :: (test ++ Quad.jumpIfFalse a (labelName k) :: (body ++
        [Quad.goto (labelName j), Quad.label (labelName k)])))
      (Quad.label (labelName j) :: (test ++ Quad.jumpIfFalse a (labelName k) :: (body' ++
        [Quad.goto (labelName j), Quad.label (labelName k)]))) False := by
  have hend : Parallel c φ False [Quad.goto (labelName j), Quad.label (labelName k)]
      [Quad.goto (labelName j), Quad.label (labelName k)] False := (Parallel.goto hj).append (.mark hk)
  exact (Parallel.mark hj).append (htest.append ((Parallel.exit hk).append (hbody.append hend)))

theorem forLoop {b : Prop} (hi : ¬φ i) (hj : ¬φ j) (hk : ¬φ k) (htest : Parallel c φ False test test False)
    (hbody : Parallel c φ False body body' False) (hupdate : Parallel c φ False update update b) :
    Parallel c φ False
      (Quad.label (labelName i) :: (test ++ (body ++ Quad.label (labelName j) :: (update ++
        [Quad.goto (labelName i), Quad.label (labelName k)]))))
      (Quad.label (labelName i) :: (test ++ (body' ++ Quad.label (labelName j) :: (update ++
        [Quad.goto (labelName i), Quad.label (labelName k)])))) False := by
  have hend : Parallel c φ False [Quad.goto (labelName i), Quad.label (labelName k)]
      [Quad.goto (labelName i), Quad.label (labelName k)] False := (Parallel.goto hi).append (.mark hk)
  have hnext := (Parallel.mark hj).append ((hupdate.forget False.elim).append hend)
  exact (Parallel.mark hi).append (htest.append (hbody.append hnext))

end Code.Parallel

/-! ### Events of statements -/

section
variable {p : Event → Prop}

theorem Node.forall_eventsStatements {ns : List Node} {b : Bool} (h : ∀ e ∈ Node.eventsStatements b ns, p e) :
    ∀ n ∈ ns, ∀ e ∈ n.events, p e := by
  induction ns generalizing b with
  | nil => simp
  | cons n rest ih =>
    rw [Node.eventsStatements, List.forall_mem_append, List.forall_mem_append] at h
    exact List.forall_mem_cons.2 ⟨h.2.1, ih h.2.2⟩

theorem Node.forall_bodyEvents {x : String} {body : Node}
    (h : ∀ e ∈ body.bodyEvents body.blockEvents body.events, e.Leaves x) : ∀ e ∈ body.events, e.Leaves x := by
  rcases body with _ | f | ⟨mark, form⟩
  · simp [Node.events]
  · simp [Node.events]
  · cases form with
    | block ns =>
      rw [Node.bodyEvents, Node.blockEvents] at h
      rw [Node.events, List.forall_mem_cons]
      refine ⟨trivial, List.forall_mem_append.2 ⟨h, ?_⟩⟩
      simp [Event.Leaves]
    | _ => exact h

end

namespace Lower

variable {x : String} {v : Constant} {loop : Option Loop} {s s' : Supply} {r : Lowered Unit}

/-! ### Pairs of results -/

/-- Two results of lowering with the same names drawn, whose codes are parallel. -/
structure Pairs (x : String) (loop : Option Loop) (s : Supply) (r r' : Lowered Unit) : Prop where
  supply : r.supply.Even r'.supply
  le : s.labels ≤ r.supply.labels
  parallel : Choosable s.labels r.supply.labels fun φ => Loop.Free φ loop →
    Code.Parallel (mangle x) φ False r.code r'.code False

namespace Pairs

theorem nothing {s₁ s₁' : Supply} (hs : s₁.Even s₁') (hl : s₁.labels = s.labels) :
    Pairs x loop s ⟨(), [], s₁⟩ ⟨(), [], s₁'⟩ :=
  ⟨hs, hl.ge, .of_forall fun _ _ => .nil id⟩

theorem append {a a' d d' : Lowered Unit} (ha : Pairs x loop s a a') (hd : Pairs x loop a.supply d d') :
    Pairs x loop s ⟨(), a.code ++ d.code, d.supply⟩ ⟨(), a'.code ++ d'.code, d'.supply⟩ where
  supply := hd.supply
  le := ha.le.trans hd.le
  parallel := (ha.parallel.and hd.parallel ha.le hd.le).imp fun _ ⟨ha, hd⟩ hloop => (ha hloop).append (hd hloop)

end Pairs

theorem expr_pairs (hx : isVariable x = true) {e : Node} {a : Lowered Operand} (hleaves : ∀ e' ∈ e.events, e'.Leaves x)
    (hsettled : e.settled x = true) (hs : s.Even s') (ha : expr e s = .ok a) :
    ∃ s₁, expr (e.withInit x v) s' = .ok ⟨a.value, a.code, s₁⟩ ∧ a.supply.Even s₁ ∧
      Choosable s.labels a.supply.labels fun φ =>
        Code.Parallel (mangle x) φ False a.code a.code (a.value.Reads (mangle x)) := by
  obtain ⟨s₁, ha', hs₁⟩ := (expr_alike (x := x) (v := v) e).run hs ha
  refine ⟨s₁, ha', hs₁, (expr_parallel hx e hleaves hsettled False.elim ha).imp fun φ h => ?_⟩
  rwa [false_or] at h

/-! ### Declarations -/

theorem expr_constant {n : Node} (hn : n.isConstant = true) (s : Supply) :
    ∃ a s₁, expr n s = .ok ⟨a, [], s₁⟩ ∧ a.Total ∧ s.Even s₁ := by
  rcases n with _ | f | ⟨mark, form⟩
  · cases hn
  · cases hn
  · cases form with
    | literal regex value =>
      cases regex with
      | true =>
        rw [expr]
        exact ⟨void, _, rfl, fun memory => ⟨_, rfl⟩, rfl, rfl, rfl⟩
      | false =>
        refine ⟨_, s, expr_literal.2 rfl, fun memory => ?_, rfl, rfl, rfl⟩
        cases value with
        | list | record => cases hn
        | _ => exact ⟨_, rfl⟩
    | _ => cases hn

theorem requireName_of_isNamed {mark : Mark} {name : Tree} (h : (Node.mk mark .identifier).isNamed x = true)
    (hname : mark.requireName = .ok name) : name = .str x := by
  rw [Node.isNamed, Mark.nameTree_of_name (Mark.requireName_eq_ok hname)] at h
  cases name with
  | str y =>
    have hy : y = x := by simpa [Tree.isText] using h
    rw [hy]
  | _ => cases h

theorem declarator_of_expr {mark mark' : Mark} {given : Bool} {init : Node} {a : Lowered Operand} {name : Tree}
    (habsent : init.isAbsent = false) (ha : expr init s = .ok a) (hname : mark'.requireName = .ok name) :
    declarator (.mk mark (.mk mark' .identifier) given init) s =
      .ok ⟨(), a.code ++ [Quad.assign a.value (nameTarget name)], a.supply⟩ := by
  rw [declarator_identifier, habsent, if_neg Bool.false_ne_true]
  exact ⟨a, ha, name, hname, rfl⟩

/-! ### Functions -/

theorem receiveParams_of {params : List Param} {xs : List Target} (h : params.mapM receivedName = .ok xs) :
    receiveParams params s = .ok ⟨(), xs.map Quad.receive, s⟩ := by
  induction params generalizing xs with
  | nil =>
    cases h
    rfl
  | cons p rest ih =>
    rw [List.mapM_cons] at h
    obtain ⟨y, hy, h⟩ := except_bind_eq_ok h
    obtain ⟨ys, hys, h⟩ := except_bind_eq_ok h
    cases h
    rw [receiveParams, eq_ok_iff_yields]
    simp only [yields_bind, lift_eq_ok, emit_eq_ok, exists_eq_left, hy]
    exact ⟨_, ⟨y, rfl, rfl⟩, _, ih hys, rfl⟩

theorem lift_bind_of {α β : Type} {y : Except Fault β} {f : β → Lower α} {d : β} {r : Lowered α} (hy : y = .ok d)
    (h : f d s = .ok r) : (lift y >>= f) s = .ok r :=
  bind_eq_ok.2 ⟨⟨d, [], s⟩, r, by rw [hy]; rfl, h, rfl⟩

theorem declareFunction_bind_of {f : String} {y : Lower Unit} (h : y (announce f s) = .ok r) :
    (do
      if ← declareFunction f then
        warn (redeclared f)
      y) s = .ok r := by
  rw [eq_ok_iff_yields]
  simp only [yields_bind]
  unfold announce at h
  unfold declareFunction
  split at h
  · rename_i hf
    refine ⟨⟨true, [], s⟩, if_pos hf, ?_⟩
    simp only [if_true, yields_bind, warn_eq_ok, exists_eq_left, List.nil_append]
    exact eq_ok_iff_yields.1 h
  · rename_i hf
    refine ⟨⟨false, [], _⟩, if_neg hf, ?_⟩
    simp only [Bool.false_eq_true, if_false]
    exact eq_ok_iff_yields.1 h

theorem stmt_function_of {mark : Mark} {id body : Node} {params : List Param} {f : String} {xs : List Target}
    {b : Lowered Unit} (hname : id.nameTree = .ok (.str f)) (hf : f ≠ "") (hxs : params.mapM receivedName = .ok xs)
    (hb : stmt none body (announce f s) = .ok b) :
    stmt loop (.mk mark (.function id params body)) s = .ok ⟨(), functionCode f xs b.code, b.supply⟩ := by
  have hcode : (do
      goto (endMark ++ f)
      label (functionMark ++ f)
      receiveParams params
      stmt none body
      emit { op := .ret, arg1 := void }
      label (endMark ++ f) : Lower Unit) (announce f s) = .ok ⟨(), functionCode f xs b.code, b.supply⟩ := by
    rw [eq_ok_iff_yields]
    simp only [yields_bind, goto_eq_ok, label_eq_ok, emit_eq_ok, exists_eq_left, yields_label, receiveParams_of hxs,
      Except.ok.injEq, exists_eq_left', hb, functionCode, List.nil_append, List.cons_append, List.append_assoc]
    rfl
  have htrue : (Tree.str f).truthy = true := by simpa [Tree.truthy] using hf
  rw [stmt]
  refine lift_bind_of hname ?_
  rw [htrue]
  exact lift_bind_of rfl (lift_bind_of rfl (declareFunction_bind_of hcode))

theorem stmt_function_unnamed {mark : Mark} {id body : Node} {params : List Param} {name : Tree}
    (hname : id.nameTree = .ok name) (ht : name.truthy = false) :
    stmt loop (.mk mark (.function id params body)) s = .ok ⟨(), [], s.warned (unsupportedText mark.kindText)⟩ := by
  rw [stmt, eq_ok_iff_yields]
  simp only [yields_bind, lift_eq_ok, hname, Except.ok.injEq, exists_eq_left', exists_eq_left, ht, Bool.not_false,
    if_true]
  exact eq_ok_iff_yields.1 (unsupported_eq_ok.2 rfl)

section
variable (hx : isVariable x = true)
include hx

theorem declarator_parallel {d : Declarator} {kind : DeclKind} (hleaves : ∀ e ∈ d.events kind, e.Leaves x)
    (hsettled : d.settled x = true) (hs : s.Even s') (h : declarator d s = .ok r) :
    ∃ r', declarator (d.withInit x v) s' = .ok r' ∧ Pairs x loop s r r' := by
  cases d with
  | fault f => rw [declarator] at h; cases h
  | mk mark id given init =>
    rw [Declarator.withInit]
    by_cases hid : ∃ mark', id = .mk mark' .identifier
    · obtain ⟨mark', rfl⟩ := hid
      rw [declarator_identifier] at h
      by_cases hinit : ((Node.mk mark' .identifier).isNamed x && init.isConstant) = true
      · -- the constant that is replaced
        rw [if_pos hinit]
        obtain ⟨hnamed, hconstant⟩ := Bool.and_eq_true_iff.1 hinit
        obtain ⟨a, s₁, ha, htotal, hs₁⟩ := expr_constant hconstant s
        obtain ⟨a', s₁', ha', htotal', hs₁'⟩ := expr_constant v.isConstant_node s'
        rw [Node.isAbsent_of_isConstant hconstant, if_neg Bool.false_ne_true] at h
        obtain ⟨_, ha₁, name, hname, rfl⟩ := h
        cases ha.symm.trans ha₁
        obtain rfl := requireName_of_isNamed hnamed hname
        refine ⟨_, declarator_of_expr (Node.isAbsent_of_isConstant v.isConstant_node) ha' hname, ?_⟩
        exact ⟨hs₁.symm.trans (hs.trans hs₁'), hs₁.labels.ge, .of_forall fun φ _ => .constants htotal htotal' (.nil id)⟩
      · rw [if_neg hinit]
        rw [Declarator.events] at hleaves
        rw [Declarator.settled] at hsettled
        split at h
        · rename_i habsent
          refine ⟨⟨(), [], s'⟩, declarator_identifier.2 ?_, ?_⟩
          · rw [Node.isAbsent_withInit, if_pos habsent]
          · rw [h]
            exact .nothing hs rfl
        · rename_i habsent
          obtain ⟨a, ha, name, hname, rfl⟩ := h
          obtain ⟨s₁, ha', hs₁, hparallel⟩ := expr_pairs (v := v) hx (List.forall_mem_append.1 hleaves).1 hsettled hs ha
          have habsent' : (init.withInit x v).isAbsent = false := by rw [Node.isAbsent_withInit]; simpa using habsent
          refine ⟨_, declarator_of_expr habsent' ha' hname, hs₁, expr_labels_le ha, hparallel.imp fun φ h _ => ?_⟩
          exact (h.append (.assign id _)).forget False.elim
    · have hid' : ∀ mark', id = .mk mark' .identifier → False := fun mark' h' => hid ⟨mark', h'⟩
      rw [declarator] at h ⊢
      · obtain ⟨w, rfl⟩ := unsupportedNode_eq_ok h
        obtain ⟨s₁, h', hs₁⟩ := (Alike.unsupportedNode rfl).run hs h
        exact ⟨_, h', .nothing hs₁ rfl⟩
      · exact hid'
      · exact hid'

theorem declarators_parallel {kind : DeclKind} : ∀ {ds : List Declarator} {s s' : Supply} {r : Lowered Unit},
    (∀ e ∈ Declarator.eventsAll kind ds, e.Leaves x) → Declarator.settledAll x ds = true → s.Even s' →
    declarators ds s = .ok r →
    ∃ r', declarators (Declarator.withInitAll x v ds) s' = .ok r' ∧ Pairs x loop s r r'
  | [], s, s', r, _, _, hs, h => by
    rw [declarators_nil.1 h, Declarator.withInitAll]
    exact ⟨_, declarators_nil.2 rfl, .nothing hs rfl⟩
  | d :: rest, s, s', r, hleaves, hsettled, hs, h => by
    obtain ⟨a, ha, b, hb, rfl⟩ := declarators_cons.1 h
    rw [Declarator.eventsAll, List.forall_mem_append] at hleaves
    rw [Declarator.settledAll, Bool.and_eq_true_iff] at hsettled
    obtain ⟨a', ha', hpairs⟩ : ∃ a', declarator (d.withInit x v) s' = .ok a' ∧ Pairs x loop s a a' :=
      declarator_parallel hx hleaves.1 hsettled.1 hs ha
    obtain ⟨b', hb', hpairs'⟩ := declarators_parallel hleaves.2 hsettled.2 hpairs.supply hb
    rw [Declarator.withInitAll]
    exact ⟨_, declarators_cons.2 ⟨a', ha', b', hb', rfl⟩, hpairs.append hpairs'⟩

theorem forInit_parallel {init : Node} (hleaves : ∀ e ∈ init.events, e.Leaves x) (hsettled : init.settled x = true)
    (hs : s.Even s') (h : forInit init s = .ok r) :
    ∃ r', forInit (init.withInit x v) s' = .ok r' ∧ Pairs x loop s r r' := by
  by_cases hd : ∃ mark kind ds, init = .mk mark (.declaration kind ds)
  · obtain ⟨mark, kind, ds, rfl⟩ := hd
    rw [Node.events] at hleaves
    rw [Node.settled, Form.settled] at hsettled
    rw [Node.withInit, Form.withInit]
    exact declarators_parallel hx hleaves hsettled hs h
  · have hd' : ∀ mark kind ds, init ≠ .mk mark (.declaration kind ds) := fun mark kind ds hi => hd ⟨mark, kind, ds, hi⟩
    obtain ⟨a, ha, rfl⟩ := (forInit_eq_ok hd').1 h
    obtain ⟨s₁, ha', hs₁, hparallel⟩ := expr_pairs (v := v) hx hleaves hsettled hs ha
    have hd'' : ∀ mark kind ds, init.withInit x v ≠ .mk mark (.declaration kind ds) := by
      intro mark kind ds hi
      rcases init with _ | f | ⟨mark', form⟩
      · rw [Node.withInit] at hi; cases hi
      · rw [Node.withInit] at hi; cases hi
      · rw [Node.withInit] at hi
        cases form with
        | declaration kind' ds' => exact hd' _ _ _ rfl
        | _ => rw [Form.withInit] at hi; cases hi
    exact ⟨_, (forInit_eq_ok hd'').2 ⟨_, ha', rfl⟩, hs₁, expr_labels_le ha,
      hparallel.imp fun φ h _ => h.forget False.elim⟩

theorem forTest_parallel {test : Node} {k : Nat} (hleaves : ∀ e ∈ test.events, e.Leaves x)
    (hsettled : test.settled x = true) (hs : s.Even s') (h : forTest test (labelName k) s = .ok r) :
    ∃ s₁, forTest (test.withInit x v) (labelName k) s' = .ok ⟨(), r.code, s₁⟩ ∧ r.supply.Even s₁ ∧
      s.labels ≤ r.supply.labels ∧ Choosable s.labels r.supply.labels fun φ => (φ k ↔ False) →
        Code.Parallel (mangle x) φ False r.code r.code False := by
  rw [forTest_eq_ok] at h
  split at h
  · rename_i habsent
    rw [h]
    refine ⟨s', forTest_eq_ok.2 ?_, hs, Nat.le_refl _, .of_forall fun φ _ => .nil id⟩
    rw [Node.isAbsent_withInit, if_pos habsent]
  · rename_i habsent
    obtain ⟨a, ha, rfl⟩ := h
    obtain ⟨s₁, ha', hs₁, hparallel⟩ := expr_pairs (v := v) hx hleaves hsettled hs ha
    refine ⟨s₁, forTest_eq_ok.2 ?_, hs₁, expr_labels_le ha, hparallel.imp fun φ h hk => ?_⟩
    · rw [Node.isAbsent_withInit, if_neg habsent]
      exact ⟨_, ha', rfl⟩
    · exact (h.append (.jumpIfFalse id fun h => (hk.1 h).elim)).forget False.elim

end

mutual

/-- The code of a statement with the one constant and with the other. -/
theorem stmt_parallel (hx : isVariable x = true) : ∀ (n : Node) {loop : Option Loop} {s s' : Supply} {r : Lowered Unit},
    (∀ e ∈ n.events, e.Leaves x) → n.settled x = true → s.Even s' → stmt loop n s = .ok r →
    ∃ r', stmt loop (n.withInit x v) s' = .ok r' ∧ Pairs x loop s r r'
  | .absent, loop, s, s', r, _, _, hs, h => by
    rw [stmt, pure_eq_ok] at h
    rw [Node.withInit, stmt, h]
    exact ⟨_, pure_eq_ok.2 rfl, .nothing hs rfl⟩
  | .fault f, loop, s, s', r, _, _, _, h => by rw [stmt] at h; cases h
  | .mk mark form, loop, s, s', r, hleaves, hsettled, hs, h => by
    rw [Node.withInit]
    rw [Node.settled] at hsettled
    -- both programs are lowered side by side, from supplies that have drawn the same names
    cases form with
    | program body =>
      rw [stmt] at h
      rw [Form.withInit, stmt]
      rw [Form.settled] at hsettled
      rw [Node.events, List.forall_mem_cons, List.forall_mem_append, Node.forall_eventsAll] at hleaves
      exact stmts_parallel hx body hleaves.2.2 hsettled hs h
    | block body =>
      rw [stmt] at h
      rw [Form.withInit, stmt]
      rw [Form.settled] at hsettled
      rw [Node.events, List.forall_mem_cons, List.forall_mem_append, List.forall_mem_append] at hleaves
      exact stmts_parallel hx body (Node.forall_eventsStatements hleaves.2.1.2) hsettled hs h
    | expression e =>
      rw [Node.events] at hleaves
      rw [Form.settled] at hsettled
      obtain ⟨a, ha, rfl⟩ := stmt_expression.1 h
      obtain ⟨s₁, ha', hs₁, hparallel⟩ := expr_pairs (v := v) hx hleaves hsettled hs ha
      rw [Form.withInit]
      exact ⟨_, stmt_expression.2 ⟨_, ha', rfl⟩, hs₁, expr_labels_le ha, hparallel.imp fun φ h _ => h.forget False.elim⟩
    | declaration kind ds =>
      rw [stmt] at h
      rw [Form.withInit, stmt]
      rw [Form.settled] at hsettled
      rw [Node.events] at hleaves
      exact declarators_parallel hx hleaves hsettled hs h
    | function id params body =>
      rw [Form.withInit]
      rw [Form.settled] at hsettled
      rw [Node.events] at hleaves
      simp only [List.forall_mem_cons, List.forall_mem_append] at hleaves
      rcases stmt_function_eq h with ⟨name, w, hname, ht, rfl⟩ | ⟨f, xs, b, hname, hf, hxs, hb, rfl⟩
      · exact ⟨_, stmt_function_unnamed hname ht, .nothing (hs.warned _ _) rfl⟩
      · obtain ⟨b', hb', hpairs⟩ :=
          stmt_parallel hx body (Node.forall_bodyEvents hleaves.2.2.1.2) hsettled (hs.announce f) hb
        refine ⟨_, stmt_function_of hname hf ((receivedNames_withInit params).trans hxs) hb', ?_⟩
        have hlabels : (announce f s).labels = s.labels := by
          obtain ⟨fs, ws, hannounce⟩ := announce_eq f s
          rw [hannounce]
        refine ⟨hpairs.supply, hlabels ▸ hpairs.le, ?_⟩
        rw [← hlabels]
        exact hpairs.parallel.imp fun φ h _ => .function f xs (Operand.not_reads_void hx) (h fun _ hlp => by cases hlp)
    | «if» test consequent alternate =>
      rw [Form.withInit]
      simp only [Form.settled, Bool.and_eq_true] at hsettled
      rw [Node.events] at hleaves
      simp only [List.forall_mem_append] at hleaves
      obtain ⟨a, ha, b, hb, d, hd, rfl⟩ := stmt_if.1 h
      obtain ⟨s₁, ha', hs₁, htest⟩ := expr_pairs (v := v) hx hleaves.1 hsettled.1.1 (hs.drawLabels 2) ha
      obtain ⟨b', hb', hthen⟩ := stmt_parallel hx consequent hleaves.2.2.1 hsettled.1.2 hs₁ hb
      obtain ⟨d', hd', helse⟩ := stmt_parallel hx alternate hleaves.2.2.2 hsettled.2 hthen.supply hd
      have hle : s.labels + 2 ≤ a.supply.labels := expr_labels_le ha
      have hle' := hthen.le.trans helse.le
      have hlt : s.labels + 1 < d.supply.labels := Nat.lt_of_lt_of_le hle hle'
      refine ⟨_, stmt_if.2 ⟨_, ha', b', hb', d', hd', rfl⟩, helse.supply, Nat.le_of_lt (Nat.lt_of_succ_lt hlt), ?_⟩
      rw [hs.labels]
      refine .draw False (.draw False ((htest.and (hthen.parallel.and helse.parallel hthen.le helse.le) hle hle').imp
        fun φ ⟨htest, hthen, helse⟩ hφ' hφ hloop => ?_) hlt) (Nat.lt_of_succ_lt hlt)
      exact .branch hφ.1 hφ'.1 htest (hthen hloop) (helse hloop)
    | «while» test body =>
      rw [Form.withInit]
      simp only [Form.settled, Bool.and_eq_true] at hsettled
      rw [Node.events] at hleaves
      simp only [List.forall_mem_append] at hleaves
      obtain ⟨a, ha, b, hb, rfl⟩ := stmt_while.1 h
      obtain ⟨s₁, ha', hs₁, htest⟩ := expr_pairs (v := v) hx hleaves.1 hsettled.1 (hs.drawLabels 2) ha
      obtain ⟨b', hb', hbody⟩ := stmt_parallel hx body hleaves.2.2 hsettled.2 hs₁ hb
      rw [← hs.labels] at hb'
      have hle : s.labels + 2 ≤ a.supply.labels := expr_labels_le ha
      have hlt : s.labels + 1 < b.supply.labels := Nat.lt_of_lt_of_le hle hbody.le
      refine ⟨_, stmt_while.2 ⟨_, ha', b', hb', rfl⟩, hbody.supply, Nat.le_of_lt (Nat.lt_of_succ_lt hlt), ?_⟩
      rw [hs.labels]
      refine .draw False (.draw False ((htest.and hbody.parallel hle hbody.le).imp
        fun φ ⟨htest, hbody⟩ hφ' hφ _ => ?_) hlt) (Nat.lt_of_succ_lt hlt)
      exact .whileLoop hφ.1 hφ'.1 htest (hbody (Loop.free_some hφ hφ'))
    | «for» init test update body =>
      rw [Form.withInit]
      simp only [Form.settled, Bool.and_eq_true] at hsettled
      rw [Node.events] at hleaves
      simp only [List.forall_mem_cons, List.forall_mem_append] at hleaves
      obtain ⟨i, hi, t, ht, b, hb, u, hu, rfl⟩ := stmt_for.1 h
      obtain ⟨i', hi', hinit⟩ : ∃ i', forInit (init.withInit x v) s' = .ok i' ∧ Pairs x loop s i i' :=
        forInit_parallel hx hleaves.2.1.1 hsettled.1.1.1 hs hi
      obtain ⟨s₁, ht', hs₁, hle, htest⟩ :=
        forTest_parallel (v := v) hx hleaves.2.1.2.1 hsettled.1.1.2 (hinit.supply.drawLabels 3) ht
      obtain ⟨b', hb', hbody⟩ := stmt_parallel hx body hleaves.2.1.2.2.2.2 hsettled.2 hs₁ hb
      obtain ⟨s₂, hu', hs₂, hupdate⟩ := expr_pairs (v := v) hx hleaves.2.1.2.2.2.1 hsettled.1.2 hbody.supply hu
      rw [← hinit.supply.labels] at ht' hb'
      have hle : i.supply.labels + 3 ≤ t.supply.labels := hle
      have hle₂ := expr_labels_le hu
      have hle₁ := hbody.le.trans hle₂
      have hlt : i.supply.labels + 2 < u.supply.labels := Nat.lt_of_lt_of_le hle hle₁
      have hle₃ : i.supply.labels ≤ u.supply.labels := by omega
      refine ⟨_, stmt_for.2 ⟨i', hi', _, ht', b', hb', _, hu', rfl⟩, hs₂, hinit.le.trans hle₃, ?_⟩
      rw [hinit.supply.labels]
      have hrest := htest.and (hbody.parallel.and hupdate hbody.le hle₂) hle hle₁
      refine (hinit.parallel.and (.draw False (.draw False (.draw False (hrest.imp fun φ h hφ₂ hφ₁ hφ => ?_) hlt)
        (Nat.lt_of_succ_lt hlt)) (by omega)) hinit.le hle₃).imp fun φ h hloop => (h.1 hloop).append h.2
      obtain ⟨htest, hbody, hupdate⟩ := h
      exact .forLoop hφ.1 hφ₁.1 hφ₂.1 (htest hφ₂) (hbody (Loop.free_some hφ₁ hφ₂)) hupdate
    | «return» argument =>
      rw [Form.withInit]
      rw [Form.settled] at hsettled
      rw [Node.events] at hleaves
      obtain ⟨a, ha, rfl⟩ := stmt_return.1 h
      obtain ⟨s₁, ha', hs₁, hparallel⟩ := expr_pairs (v := v) hx hleaves hsettled hs ha
      exact ⟨_, stmt_return.2 ⟨_, ha', rfl⟩, hs₁, expr_labels_le ha, hparallel.imp fun φ h _ => h.append (.ret id)⟩
    | «break» labelled =>
      have halike : Alike (stmt loop (.mk mark (.break labelled))) (stmt loop (.mk mark (.break labelled))) := by
        simp only [stmt]
        split
        · exact .emit _
        · exact .warn _ _
      obtain ⟨s₁, h', hs₁⟩ := halike.run hs h
      rw [Form.withInit]
      rcases stmt_break_inv h with ⟨w, rfl⟩ | ⟨l, rfl, rfl⟩
      · exact ⟨_, h', .nothing hs₁ rfl⟩
      · refine ⟨_, h', hs₁, Nat.le_refl _, .of_forall fun φ hloop => ?_⟩
        obtain ⟨j, k, rfl, -, hk⟩ := hloop l rfl
        exact .goto hk
    | «continue» labelled =>
      have halike : Alike (stmt loop (.mk mark (.continue labelled))) (stmt loop (.mk mark (.continue labelled))) := by
        simp only [stmt]
        split
        · exact .emit _
        · exact .warn _ _
      obtain ⟨s₁, h', hs₁⟩ := halike.run hs h
      rw [Form.withInit]
      rcases stmt_continue_inv h with ⟨w, rfl⟩ | ⟨l, rfl, rfl⟩
      · exact ⟨_, h', .nothing hs₁ rfl⟩
      · refine ⟨_, h', hs₁, Nat.le_refl _, .of_forall fun φ hloop => ?_⟩
        obtain ⟨j, k, rfl, hj, -⟩ := hloop l rfl
        exact .goto hj
    | empty =>
      rw [stmt, pure_eq_ok] at h
      rw [Form.withInit, stmt, h]
      exact ⟨_, pure_eq_ok.2 rfl, .nothing hs rfl⟩
    | _ =>
      rw [Form.withInit]
      rw [unsupported_eq_ok.1 h]
      exact ⟨_, unsupported_eq_ok.2 rfl, .nothing (hs.warned _ _) rfl⟩

theorem stmts_parallel (hx : isVariable x = true) :
    ∀ (ns : List Node) {loop : Option Loop} {s s' : Supply} {r : Lowered Unit},
      (∀ n ∈ ns, ∀ e ∈ n.events, e.Leaves x) → Node.settledAll x ns = true → s.Even s' → stmts loop ns s = .ok r →
      ∃ r', stmts loop (Node.withInitAll x v ns) s' = .ok r' ∧ Pairs x loop s r r'
  | [], loop, s, s', r, _, _, hs, h => by
    rw [stmts_nil.1 h, Node.withInitAll]
    exact ⟨_, stmts_nil.2 rfl, .nothing hs rfl⟩
  | n :: rest, loop, s, s', r, hleaves, hsettled, hs, h => by
    obtain ⟨a, ha, b, hb, rfl⟩ := stmts_cons.1 h
    rw [Node.settledAll, Bool.and_eq_true_iff] at hsettled
    obtain ⟨hleaves₁, hleaves₂⟩ := List.forall_mem_cons.1 hleaves
    obtain ⟨a', ha', hpairs⟩ := stmt_parallel hx n hleaves₁ hsettled.1 hs ha
    obtain ⟨b', hb', hpairs'⟩ := stmts_parallel hx rest hleaves₂ hsettled.2 hpairs.supply hb
    rw [Node.withInitAll]
    exact ⟨_, stmts_cons.2 ⟨a', ha', b', hb', rfl⟩, hpairs.append hpairs'⟩

end

end Lower

/-- A program that does not read a variable prints the same with another constant to declare it with. -/
theorem Node.output_run_withInit {x : String} {n : Node} {l : Lowered Unit} (hx : isVariable x = true)
    (hleaves : ∀ e ∈ n.events, e.Leaves x) (hsettled : n.settled x = true) (hl : n.lower = .ok l) (v : Constant) :
    ∃ l', (n.withInit x v).lower = .ok l' ∧ ∀ maxSteps answers,
      (Machine.run l'.code maxSteps answers).output = (Machine.run l.code maxSteps answers).output := by
  obtain ⟨r, hr, hl⟩ := except_bind_eq_ok hl
  cases hl
  obtain ⟨r', hr', hpairs⟩ := Lower.stmt_parallel (v := v) hx n hleaves hsettled ⟨rfl, rfl, rfl⟩ hr
  refine ⟨{ r' with code := r'.code.renumber }, by rw [Node.lower, hr']; rfl, fun maxSteps answers => ?_⟩
  obtain ⟨φ, hφ⟩ := hpairs.parallel
  have hparallel := hφ φ (fun _ _ _ => Iff.rfl) fun lp hlp => by cases hlp
  have hrenumber : ∀ code : Code, Machine.run code.renumber maxSteps answers = Machine.run code maxSteps answers :=
    fun code => by rw [Machine.run, Machine.run, Machine.execute_renumber]
  rw [hrenumber, hrenumber]
  exact hparallel.output_run maxSteps answers

end QuadScript
