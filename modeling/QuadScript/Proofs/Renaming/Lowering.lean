import QuadScript.Proofs.Emitted
import QuadScript.Proofs.Renaming.Optimizer
import QuadScript.Proofs.Renaming.Program

/-!
# Programs under other names

`Lower.Renames ρ f x x'`: the action `x'` does what `x` does, under other names. Actions are built alike for a program
and for the renamed one, so the code of the renamed program is the renamed code (`Node.lower_rename`), and what
programs print, before and after optimization, does not depend on how their variables are called.
-/

namespace QuadScript

/-! ### Actions -/

/-- What an action gives, under other names. -/
def Lowered.rename {α β : Type} (ρ : String → String) (f : α → β) (a : Lowered α) : Lowered β :=
  ⟨f a.value, a.code.rename ρ, a.supply⟩

namespace Lower

/-- The second action does what the first does, under other names; `f` renames the value. -/
def Renames {α β : Type} (ρ : String → String) (f : α → β) (x : Lower α) (x' : Lower β) : Prop :=
  ∀ s, x' s = (x s).map (Lowered.rename ρ f)

variable {ρ : String → String} {α β γ δ : Type} {f : α → β} {g : γ → δ}

namespace Renames

theorem pure {a : α} {b : β} (h : f a = b) : Renames ρ f (Pure.pure a) (Pure.pure b) := fun _ => by
  rw [← h]
  rfl

theorem fail (fault : Fault) : Renames ρ f (Lower.fail fault) (Lower.fail fault) := fun _ => rfl

theorem bind {x : Lower α} {x' : Lower β} {k : α → Lower γ} {k' : β → Lower δ} (hx : Renames ρ f x x')
    (hk : ∀ s a, x s = .ok a → Renames ρ g (k a.value) (k' (f a.value))) : Renames ρ g (x >>= k) (x' >>= k') := by
  intro s
  change Lower.bind x' k' s = (Lower.bind x k s).map _
  unfold Lower.bind
  rw [hx s]
  cases h : x s with
  | error e => rfl
  | ok a =>
    have hk' := hk s a h a.supply
    simp only [Except.map, Lowered.rename] at hk' ⊢
    rw [hk']
    cases k a.value a.supply with
    | error e => rfl
    | ok b => simp [Code.rename]

theorem seq {x x' : Lower α} {k : α → Lower γ} {k' : α → Lower δ} (hx : Renames ρ id x x')
    (hk : ∀ a, Renames ρ g (k a) (k' a)) : Renames ρ g (x >>= k) (x' >>= k') :=
  hx.bind fun _ a _ => hk a.value

theorem lift {x : Except Fault α} {x' : Except Fault β} {k : α → Lower γ} {k' : β → Lower δ} (hx : x' = x.map f)
    (hk : ∀ a, x = .ok a → Renames ρ g (k a) (k' (f a))) : Renames ρ g (Lower.lift x >>= k) (Lower.lift x' >>= k') := by
  subst hx
  refine Renames.bind (f := f) (fun s => by cases x <;> rfl) fun s a ha => ?_
  cases x with
  | error e => cases ha
  | ok b => cases ha; exact hk b rfl

theorem lift_same {x : Except Fault α} {k : α → Lower γ} {k' : α → Lower δ}
    (hk : ∀ a, x = .ok a → Renames ρ g (k a) (k' a)) : Renames ρ g (Lower.lift x >>= k) (Lower.lift x >>= k') :=
  lift (f := id) (by cases x <;> rfl) hk

theorem emit (q : Quad) : Renames ρ id (Lower.emit q) (Lower.emit (q.rename ρ)) := fun _ => rfl

theorem assign (a : Operand) (x : Target) :
    Renames ρ id (Lower.assign a x) (Lower.assign (a.rename ρ) (x.rename ρ)) := fun _ => rfl

theorem label (l : String) : Renames ρ id (Lower.label l) (Lower.label l) := fun _ => rfl

theorem goto (l : String) : Renames ρ id (Lower.goto l) (Lower.goto l) := fun _ => rfl

theorem jumpIfFalse (a : Operand) (l : String) :
    Renames ρ id (Lower.jumpIfFalse a l) (Lower.jumpIfFalse (a.rename ρ) l) := fun _ => rfl

theorem newLabel : Renames ρ id Lower.newLabel Lower.newLabel := fun _ => rfl

theorem declareFunction (name : String) :
    Renames ρ id (Lower.declareFunction name) (Lower.declareFunction name) := fun s => by
  unfold Lower.declareFunction
  split <;> rfl

theorem warn (w : String) : Renames ρ id (Lower.warn w) (Lower.warn w) := fun _ => rfl

theorem unsupported (mark : Mark) : Renames ρ id (Lower.unsupported mark) (Lower.unsupported mark) := fun _ => rfl

theorem newTemp {k : String → Lower γ} {k' : String → Lower δ}
    (hk : ∀ t, isTempName t = true → Renames ρ g (k t) (k' t)) :
    Renames ρ g (Lower.newTemp >>= k) (Lower.newTemp >>= k') :=
  Renames.bind (f := id) (fun _ => rfl) fun s a ha => by
    cases ha
    exact hk _ (isTempName_tempName s.temps)

theorem newJoin {k : String → Lower γ} {k' : String → Lower δ}
    (hk : ∀ j, Renames ρ g (k (joinName j)) (k' (joinName j))) :
    Renames ρ g (Lower.newJoin >>= k) (Lower.newJoin >>= k') :=
  Renames.bind (f := id) (fun _ => rfl) fun s a ha => by
    cases ha
    exact hk s.joins

theorem result (hρ : NameMap ρ) {q q' : String → Quad} (hq : ∀ t, isTempName t = true → (q t).rename ρ = q' t) :
    Renames ρ (Operand.rename ρ) (do let dest ← Lower.newTemp; Lower.emit (q dest); return .name dest)
      (do let dest ← Lower.newTemp; Lower.emit (q' dest); return .name dest) := by
  refine newTemp fun t ht => ?_
  rw [← hq t ht]
  exact seq (emit _) fun _ => pure (congrArg Operand.name (hρ.temp t ht))

theorem operator (hρ : NameMap ρ) (op : Operator) (a b : Operand) :
    Renames ρ (Operand.rename ρ) (Lower.operator op a b) (Lower.operator op (a.rename ρ) (b.rename ρ)) :=
  result hρ fun t ht => by simp [Quad.rename, Op.writes, Target.rename, hρ.temp t ht]

end Renames

theorem emitParams_rename : ∀ as : List Operand,
    Renames ρ id (emitParams as) (emitParams (as.map (Operand.rename ρ)))
  | [] => .pure rfl
  | _ :: rest => .seq (.emit _) fun _ => emitParams_rename rest

theorem emitCall_rename (hρ : NameMap ρ) (hvoid : void.rename ρ = void) (c : Callee) (count : Nat) :
    Renames ρ (Operand.rename ρ) (emitCall c count) (emitCall c count) := by
  have hcall : ∀ t, isTempName t = true → Quad.rename ρ
      { op := .call, arg1 := .name c.name, arg2 := .num (.int count), result := .name t } =
      { op := .call, arg1 := .name c.name, arg2 := .num (.int count), result := .name t } := fun t ht => by
    simp [Quad.rename, Op.writes, Target.rename, hρ.temp t ht]
  cases c with
  | console method => exact .seq (.emit _) fun _ => .pure hvoid
  | function name => exact .result hρ hcall
  | unsupported => exact .result hρ hcall

/-! ### Variables in code -/

section
variable {r : Renaming} {t : Tree}

theorem void_rename : void.rename r.mangled = void := congrArg Operand.name (Renaming.mangled_constant rfl)

theorem ret_void_rename :
    Renames r.mangled id (emit { op := .ret, arg1 := void }) (emit { op := .ret, arg1 := void }) := by
  have h := Renames.emit (ρ := r.mangled) { op := .ret, arg1 := void }
  have hret : Quad.rename r.mangled { op := .ret, arg1 := void } = { op := .ret, arg1 := void } :=
    congrArg (fun a => ({ op := .ret, arg1 := a } : Quad)) void_rename
  rwa [hret] at h

theorem nameOperand_rename (ht : ∀ x ∈ t.names, isSourceName x = true) :
    nameOperand (t.rename r.toFun) = (nameOperand t).rename r.mangled := by
  cases t with
  | str x =>
    have hx := ht x List.mem_cons_self
    simp only [Tree.rename, nameOperand, ofSymbol_mangle hx, ofSymbol_mangle (r.source x hx), Operand.rename,
      Renaming.mangled_mangle hx]
  | _ => rfl

theorem nameTarget_rename (ht : ∀ x ∈ t.names, isSourceName x = true) :
    nameTarget (t.rename r.toFun) = (nameTarget t).rename r.mangled := by
  cases t with
  | str x =>
    have hx := ht x List.mem_cons_self
    simp only [Tree.rename, nameTarget, Target.rename, Renaming.mangled_mangle hx]
  | _ => rfl

theorem literalOperand_rename (t : Tree) : (literalOperand t).rename r.mangled = literalOperand t := by
  cases t with
  | null => exact congrArg Operand.name (Renaming.mangled_constant rfl)
  | _ => rfl

theorem nameTree_rename (f : String → String) (mark : Mark) : (mark.rename f).nameTree = mark.nameTree.rename f := by
  unfold Mark.nameTree Mark.rename
  cases mark.name <;> rfl

theorem requireName_rename (f : String → String) (mark : Mark) :
    (mark.rename f).requireName = mark.requireName.map (Tree.rename f) := by
  unfold Mark.requireName Mark.rename
  cases mark.name <;> rfl

theorem names_of_requireName {mark : Mark} (h : mark.requireName = .ok t) : t.names = mark.nameTree.names := by
  unfold Mark.requireName at h
  unfold Mark.nameTree
  split at h
  · rename_i hname; cases h; rw [hname]; rfl
  · cases h

theorem assignee?_rename (f : String → String) (n : Node) :
    assignee? (n.renameExpr f) = (assignee? n).map (Option.map (Tree.rename f)) := by
  cases n with
  | mk mark form =>
    cases form with
    | identifier =>
      rw [Node.renameExpr, assignee?, assignee?, requireName_rename]
      cases mark.requireName <;> rfl
    | _ => rfl
  | _ => rfl

theorem names_of_assignee? {n : Node} (h : assignee? n = .ok (some t)) : t.names = n.exprVariables := by
  cases n with
  | mk mark form =>
    cases form with
    | identifier =>
      obtain ⟨t', ht', h⟩ := except_bind_eq_ok h
      cases h
      exact names_of_requireName ht'
    | _ => cases h
  | _ => cases h

theorem unsupportedNode_rename (f : String → String) (n : Node) :
    unsupportedNode (n.renameExpr f) = unsupportedNode n := by
  cases n with
  | mk mark form => cases form <;> rfl
  | _ => rfl

theorem isAbsent_rename (f : String → String) (n : Node) : (n.renameExpr f).isAbsent = n.isAbsent := by
  cases n with
  | mk mark form => cases form <;> rfl
  | _ => rfl

/-- What is skipped with a warning is skipped under any names. -/
theorem skipped_rename {x : Lower Unit} (hx : Renames r.mangled id x x) :
    Renames r.mangled (Operand.rename r.mangled) (do x; return void) (do x; return void) :=
  hx.seq fun _ => .pure void_rename

theorem unsupportedNode_renames (n : Node) : Renames ρ id (unsupportedNode n) (unsupportedNode n) := by
  refine Renames.lift_same fun mark _ => ?_
  cases mark with
  | some mark => exact .unsupported mark
  | none => exact .warn _

theorem join_rename (j : Nat) : (Operand.name (joinName j)).rename r.mangled = .name (joinName j) :=
  congrArg Operand.name (Renaming.mangled_joinName j)

theorem assign_join_rename (a : Operand) (j : Nat) :
    Renames r.mangled id (assign a (.name (joinName j))) (assign (a.rename r.mangled) (.name (joinName j))) := by
  have h := Renames.assign (ρ := r.mangled) a (.name (joinName j))
  rwa [Target.rename, Renaming.mangled_joinName] at h

theorem jump_join_rename (j : Nat) (l : String) :
    Renames r.mangled id (jumpIfFalse (.name (joinName j)) l) (jumpIfFalse (.name (joinName j)) l) := by
  have h := Renames.jumpIfFalse (ρ := r.mangled) (.name (joinName j)) l
  rwa [join_rename] at h

theorem operator_join_rename (op : Operator) {b : Operand} (hb : b.rename r.mangled = b) (j : Nat) :
    Renames r.mangled (Operand.rename r.mangled) (Lower.operator op (.name (joinName j)) b)
      (Lower.operator op (.name (joinName j)) b) := by
  have h := Renames.operator r.nameMap op (.name (joinName j)) b
  rwa [join_rename, hb] at h

end

/-! ### Expressions -/

mutual

theorem expr_rename (r : Renaming) : ∀ n : Node, (∀ x ∈ n.exprVariables, isSourceName x = true) →
    Renames r.mangled (Operand.rename r.mangled) (expr n) (expr (n.renameExpr r.toFun))
  | .absent, _ => .pure void_rename
  | .fault f, _ => .fail f
  | .mk mark form, h => by
    cases form with
    | literal regex value =>
      cases regex with
      | true => exact skipped_rename (.unsupported mark)
      | false => exact .pure (literalOperand_rename value)
    | template text es => exact .lift_same fun t _ => .pure rfl
    | identifier =>
      refine .pure ?_
      rw [nameTree_rename, nameOperand_rename h]
    | assignment operator left right =>
      obtain ⟨hleft, hright⟩ := List.forall_mem_append.1 h
      refine .lift (assignee?_rename r.toFun left) fun name hname => ?_
      cases name with
      | none =>
        rw [unsupportedNode_rename]
        exact skipped_rename (unsupportedNode_renames left)
      | some name =>
        have hnames : ∀ x ∈ name.names, isSourceName x = true := names_of_assignee? hname ▸ hleft
        have hoperand := nameOperand_rename (r := r) hnames
        have htarget := nameTarget_rename (r := r) hnames
        dsimp only [Option.map]
        rw [htarget, hoperand]
        split
        · exact (expr_rename r right hright).bind fun _ a _ => .seq (.assign _ _) fun _ => .pure rfl
        · refine .lift_same fun op _ => ?_
          cases op with
          | none => exact skipped_rename (.unsupported mark)
          | some op =>
            exact (expr_rename r right hright).bind fun _ a _ => (Renames.operator r.nameMap _ _ _).bind fun _ b _ =>
              .seq (.assign _ _) fun _ => .pure rfl
    | binary operator left right =>
      obtain ⟨hleft, hright⟩ := List.forall_mem_append.1 h
      refine .lift_same fun op _ => ?_
      cases op with
      | none => exact skipped_rename (.unsupported mark)
      | some op =>
        exact (expr_rename r left hleft).bind fun _ a _ => (expr_rename r right hright).bind fun _ b _ =>
          .operator r.nameMap _ _ _
    | unary operator argument =>
      unfold Node.renameExpr expr
      dsimp only
      split
      · exact (expr_rename r argument h).bind fun _ _ _ => .pure void_rename
      · refine .lift_same fun op _ => ?_
        cases op with
        | none => exact skipped_rename (.unsupported mark)
        | some op => exact (expr_rename r argument h).bind fun _ a _ => .operator r.nameMap _ _ _
    | update operator leading argument =>
      refine .lift (assignee?_rename r.toFun argument) fun name hname => ?_
      cases name with
      | none =>
        rw [unsupportedNode_rename]
        exact skipped_rename (unsupportedNode_renames argument)
      | some name =>
        have hnames : ∀ x ∈ name.names, isSourceName x = true := names_of_assignee? hname ▸ h
        have hoperand := nameOperand_rename (r := r) hnames
        have htarget := nameTarget_rename (r := r) hnames
        dsimp only [Option.map]
        rw [htarget, hoperand]
        split
        · exact (Renames.operator r.nameMap _ _ _).bind fun _ a _ => .seq (.assign _ _) fun _ => .pure rfl
        · refine (Renames.operator r.nameMap _ _ _).bind fun _ p _ => ?_
          exact (Renames.operator r.nameMap _ _ _).bind fun _ a _ => .seq (.assign _ _) fun _ => .pure rfl
    | logical operator left right =>
      obtain ⟨hleft, hright⟩ := List.forall_mem_append.1 h
      refine .newJoin fun j => .seq .newLabel fun finish => (expr_rename r left hleft).bind fun _ a _ =>
        .seq (assign_join_rename _ _) fun _ => ?_
      -- What follows the test is the same for the three operators.
      have hrest : Renames r.mangled (Operand.rename r.mangled) (do
          assign (← expr right) (.name (joinName j))
          label finish
          return .name (joinName j)) (do
          assign (← expr (right.renameExpr r.toFun)) (.name (joinName j))
          label finish
          return .name (joinName j)) :=
        (expr_rename r right hright).bind fun _ b _ => .seq (assign_join_rename _ _) fun _ => .seq (.label _) fun _ =>
          .pure (join_rename j)
      dsimp only
      split
      · exact .seq (jump_join_rename j finish) fun _ => hrest
      · split
        · exact (operator_join_rename _ rfl j).bind fun _ t _ => .seq (.jumpIfFalse _ _) fun _ => hrest
        · exact (operator_join_rename _ (literalOperand_rename .null) j).bind fun _ t _ =>
            .seq (.jumpIfFalse _ _) fun _ => hrest
    | conditional test consequent alternate =>
      obtain ⟨htest, h⟩ := List.forall_mem_append.1 h
      obtain ⟨hthen, helse⟩ := List.forall_mem_append.1 h
      refine .newJoin fun j => .seq .newLabel fun otherwise => .seq .newLabel fun finish => ?_
      refine (expr_rename r test htest).bind fun _ t _ => .seq (.jumpIfFalse _ _) fun _ => ?_
      refine (expr_rename r consequent hthen).bind fun _ a _ => .seq (assign_join_rename _ _) fun _ => ?_
      refine .seq (.goto _) fun _ => .seq (.label _) fun _ => ?_
      refine (expr_rename r alternate helse).bind fun _ b _ => .seq (assign_join_rename _ _) fun _ => ?_
      exact .seq (.label _) fun _ => .pure (join_rename j)
    | call called arguments =>
      refine .lift_same fun c _ => ?_
      cases c with
      | unsupported => exact skipped_rename (unsupportedNode_renames called)
      | _ =>
        refine (exprs_rename r arguments h).bind fun _ as _ => .seq (emitParams_rename _) fun _ => ?_
        rw [List.length_map]
        exact emitCall_rename r.nameMap void_rename _ _
    | sequence es =>
      refine (exprs_rename r es h).bind fun _ as _ => .pure ?_
      rw [List.getLast?_map]
      cases as.value.getLast? with
      | none => exact void_rename
      | some a => rfl
    | _ => exact skipped_rename (.unsupported mark)

theorem exprs_rename (r : Renaming) : ∀ ns : List Node, (∀ x ∈ Node.exprsVariables ns, isSourceName x = true) →
    Renames r.mangled (List.map (Operand.rename r.mangled)) (exprs ns) (exprs (Node.renameExprs r.toFun ns))
  | [], _ => .pure rfl
  | n :: rest, h => by
    obtain ⟨hn, hrest⟩ := List.forall_mem_append.1 h
    exact (expr_rename r n hn).bind fun _ a _ => (exprs_rename r rest hrest).bind fun _ as _ => .pure rfl

end

/-! ### Statements -/

theorem receiveParams_rename (r : Renaming) : ∀ params : List Param,
    (∀ x ∈ params.flatMap Param.variables, isSourceName x = true) →
    Renames r.mangled id (receiveParams params) (receiveParams (params.map (Param.rename r.toFun)))
  | [], _ => .pure rfl
  | p :: rest, h => by
    rw [List.flatMap_cons] at h
    obtain ⟨hp, hrest⟩ := List.forall_mem_append.1 h
    have hname : receivedName (p.rename r.toFun) = (receivedName p).map (Target.rename r.mangled) := by
      rcases p with f | f | ⟨position, name, default⟩
      · rfl
      · rfl
      · cases name with
        | error f => rfl
        | ok t => exact congrArg Except.ok (nameTarget_rename hp)
    exact .lift hname fun x _ => .seq (.emit _) fun _ => receiveParams_rename r rest hrest

theorem declarator_rename (r : Renaming) (d : Declarator) (h : ∀ x ∈ d.variables, isSourceName x = true) :
    Renames r.mangled id (declarator d) (declarator (d.rename r.toFun)) := by
  rcases d with f | ⟨mark, declared, given, init⟩
  · exact .fail f
  · obtain ⟨hid, hinit⟩ := List.forall_mem_append.1 h
    have hskip : Renames r.mangled id (unsupportedNode declared) (unsupportedNode (declared.renameExpr r.toFun)) := by
      rw [unsupportedNode_rename]
      exact unsupportedNode_renames declared
    cases declared with
    | mk mark' form =>
      cases form with
      | identifier =>
        unfold Declarator.rename declarator
        dsimp only [Node.renameExpr]
        rw [isAbsent_rename]
        split
        · refine (expr_rename r init hinit).bind fun _ a _ => .lift (requireName_rename r.toFun mark') fun t ht => ?_
          rw [nameTarget_rename (names_of_requireName ht ▸ hid)]
          exact .assign _ _
        · exact .pure rfl
      | _ => exact hskip
    | _ => exact hskip

theorem declarators_rename (r : Renaming) : ∀ ds : List Declarator,
    (∀ x ∈ Declarator.variablesList ds, isSourceName x = true) →
    Renames r.mangled id (declarators ds) (declarators (Declarator.renameList r.toFun ds))
  | [], _ => .pure rfl
  | d :: rest, h => by
    obtain ⟨hd, hrest⟩ := List.forall_mem_append.1 h
    exact .seq (declarator_rename r d hd) fun _ => declarators_rename r rest hrest

/-- The rounds of a `for` loop. -/
def forRounds (test update : Node) (body : Option Loop → Lower Unit) : Lower Unit := do
  let start ← newLabel
  let next ← newLabel
  let finish ← newLabel
  label start
  if !test.isAbsent then jumpIfFalse (← expr test) finish
  body (some ⟨next, finish⟩)
  label next
  let _ ← expr update
  goto start
  label finish

theorem forRounds_rename (r : Renaming) {test update : Node} {body body' : Option Loop → Lower Unit}
    (htest : ∀ x ∈ test.exprVariables, isSourceName x = true)
    (hupdate : ∀ x ∈ update.exprVariables, isSourceName x = true)
    (hbody : ∀ loop, Renames r.mangled id (body loop) (body' loop)) : Renames r.mangled id (forRounds test update body)
      (forRounds (test.renameExpr r.toFun) (update.renameExpr r.toFun) body') := by
  refine .seq .newLabel fun start => .seq .newLabel fun next => .seq .newLabel fun finish => .seq (.label _) fun _ => ?_
  have hround : Renames r.mangled id (do
      body (some ⟨next, finish⟩)
      label next
      let _ ← expr update
      goto start
      label finish) (do
      body' (some ⟨next, finish⟩)
      label next
      let _ ← expr (update.renameExpr r.toFun)
      goto start
      label finish) := by
    refine .seq (hbody _) fun _ => .seq (.label _) fun _ => (expr_rename r update hupdate).bind fun _ _ _ => ?_
    exact .seq (.goto _) fun _ => .label _
  dsimp only
  rw [isAbsent_rename]
  split
  · exact (expr_rename r test htest).bind fun _ t _ => .seq (.jumpIfFalse _ _) fun _ => hround
  · exact hround

mutual

theorem stmt_rename (r : Renaming) : ∀ (n : Node) (loop : Option Loop), (∀ x ∈ n.stmtVariables, isSourceName x = true) →
    Renames r.mangled id (stmt loop n) (stmt loop (n.renameStmt r.toFun))
  | .absent, _, _ => .pure rfl
  | .fault f, _, _ => .fail f
  | .mk mark form, loop, h => by
    cases form with
    | program body => exact stmts_rename r body loop h
    | block body => exact stmts_rename r body loop h
    | expression e => exact (expr_rename r e h).bind fun _ _ _ => .pure rfl
    | declaration kind ds => exact declarators_rename r ds h
    | function declared params body =>
      obtain ⟨hparams, hbody⟩ := List.forall_mem_append.1 h
      refine .lift_same fun name _ => ?_
      dsimp only
      split
      · exact .unsupported mark
      · refine .lift_same fun start _ => ?_
        refine .lift_same fun finish _ => ?_
        have hcode : Renames r.mangled id (do
            goto finish
            label start
            receiveParams params
            stmt none body
            emit { op := .ret, arg1 := void }
            label finish) (do
            goto finish
            label start
            receiveParams (params.map (Param.rename r.toFun))
            stmt none (body.renameStmt r.toFun)
            emit { op := .ret, arg1 := void }
            label finish) := by
          refine .seq (.goto _) fun _ => .seq (.label _) fun _ => ?_
          refine .seq (receiveParams_rename r params hparams) fun _ => .seq (stmt_rename r body none hbody) fun _ => ?_
          exact .seq ret_void_rename fun _ => .label _
        refine .seq (.declareFunction _) fun declared => ?_
        split
        · exact .seq (.warn _) fun _ => hcode
        · exact hcode
    | «if» test consequent alternate =>
      obtain ⟨htest, h⟩ := List.forall_mem_append.1 h
      obtain ⟨hthen, helse⟩ := List.forall_mem_append.1 h
      refine .seq .newLabel fun otherwise => .seq .newLabel fun finish => ?_
      refine (expr_rename r test htest).bind fun _ t _ => .seq (.jumpIfFalse _ _) fun _ => ?_
      refine .seq (stmt_rename r consequent loop hthen) fun _ => .seq (.goto _) fun _ => .seq (.label _) fun _ => ?_
      exact .seq (stmt_rename r alternate loop helse) fun _ => .label _
    | «while» test body =>
      obtain ⟨htest, hbody⟩ := List.forall_mem_append.1 h
      refine .seq .newLabel fun start => .seq .newLabel fun finish => .seq (.label _) fun _ => ?_
      refine (expr_rename r test htest).bind fun _ t _ => .seq (.jumpIfFalse _ _) fun _ => ?_
      exact .seq (stmt_rename r body _ hbody) fun _ => .seq (.goto _) fun _ => .label _
    | «for» init test update body =>
      obtain ⟨hinit, h⟩ := List.forall_mem_append.1 h
      obtain ⟨htest, h⟩ := List.forall_mem_append.1 h
      obtain ⟨hupdate, hbody⟩ := List.forall_mem_append.1 h
      have hrounds := forRounds_rename r htest hupdate fun loop => stmt_rename r body loop hbody
      cases init with
      | mk mark' form =>
        cases form with
        | declaration kind ds => exact .seq (declarators_rename r ds hinit) fun _ => hrounds
        | _ => exact (expr_rename r _ hinit).bind fun _ _ _ => hrounds
      | _ => exact (expr_rename r _ hinit).bind fun _ _ _ => hrounds
    | «return» argument => exact (expr_rename r argument h).bind fun _ a _ => .emit _
    | «break» labelled =>
      rcases loop with _ | l
      · exact .unsupported mark
      · cases labelled with
        | false => exact .goto _
        | true => exact .unsupported mark
    | «continue» labelled =>
      rcases loop with _ | l
      · exact .unsupported mark
      · cases labelled with
        | false => exact .goto _
        | true => exact .unsupported mark
    | empty => exact .pure rfl
    | _ => exact .unsupported mark

theorem stmts_rename (r : Renaming) : ∀ (ns : List Node) (loop : Option Loop),
    (∀ x ∈ Node.stmtsVariables ns, isSourceName x = true) →
    Renames r.mangled id (stmts loop ns) (stmts loop (Node.renameStmts r.toFun ns))
  | [], _, _ => .pure rfl
  | n :: rest, loop, h => by
    obtain ⟨hn, hrest⟩ := List.forall_mem_append.1 h
    exact .seq (stmt_rename r n loop hn) fun _ => stmts_rename r rest loop hrest

end

end Lower

/-! ### Programs -/

open Machine

theorem Node.lower_rename (r : Renaming) {n : Node} (hn : ∀ x ∈ n.stmtVariables, isSourceName x = true) :
    (n.renameStmt r.toFun).lower = n.lower.map (Lowered.rename r.mangled id) := by
  unfold lower
  rw [Lower.stmt_rename r n none hn]
  refine except_map_bind fun l => ?_
  show Except.ok (Lowered.mk l.value (l.code.rename r.mangled).renumber l.supply) = _
  rw [Code.renumber_rename]
  rfl

theorem Node.callsDrawn_of_lower {n : Node} {l : Lowered Unit} (hl : n.lower = .ok l) : l.code.CallsDrawn := by
  obtain ⟨c, hc, hemits⟩ := n.lower_emits (N := fun _ => True) (p := False) nofun nofun hl
  have hemitted := hemits.emitted (fun _ => nofun) nofun Loop.drawn_none
  rw [hc]
  refine Code.CallsDrawn.renumber fun q hq hop => ?_
  cases hemitted q hq with
  | print => exact .inl rfl
  | @call f k t => exact .inr (by simp [Quad.call, Target.temp?, isTempName_tempName])
  | _ => cases hop

/-- What a program prints does not depend on how its variables are called, with or without optimization. -/
theorem Node.rename_keeps_output (r : Renaming) {n : Node} {l : Lowered Unit}
    (hn : ∀ x ∈ n.stmtVariables, isSourceName x = true) (hl : n.lower = .ok l) :
    ∃ l', (n.renameStmt r.toFun).lower = .ok l' ∧ ∀ (maxSteps : Int) (answers : Answers),
      (run l'.code maxSteps answers).output = (run l.code maxSteps answers).output ∧
      ∀ maxPasses : Int, (l'.code.optimize maxPasses).map (fun c => (run c maxSteps answers).output) =
        (l.code.optimize maxPasses).map fun c => (run c maxSteps answers).output := by
  have hcalls := callsDrawn_of_lower hl
  refine ⟨l.rename r.mangled id, by rw [lower_rename r hn, hl]; rfl, fun maxSteps answers => ⟨?_, fun maxPasses => ?_⟩⟩
  · exact run_rename r.nameMap hcalls maxSteps answers
  · exact Code.optimize_rename_output r.nameMap hcalls maxPasses maxSteps answers

/-- A function that adds up to its parameter in a loop. -/
def totalProgram : Node := .bare (.program [
  .bare (.function (.named "total") [.mk (.ok .none) (.ok (.str "n")) .absent] (.bare (.block [
    .bare (.declaration .let [.mk ⟨"", none, none, .ok .none⟩ (.named "s") true (.int 0)]),
    .bare (.for (.bare (.declaration .let [.mk ⟨"", none, none, .ok .none⟩ (.named "i") true (.int 1)]))
      (.binary "<=" (.named "i") (.named "n")) (.bare (.update (.str "++") false (.named "i")))
      (.bare (.expression (.bare (.assignment (.str "+=") (.named "s") (.named "i")))))),
    .bare (.return (.named "s"))]))),
  .bare (.expression (.print [.bare (.call (.named "total") [.int 3])]))])

def totalCode : Code := Code.renumber [
  Quad.goto "END_FUNC_total", Quad.label "FUNC_total", Quad.receive (.name "n"),
  Quad.assign (.num (.int 0)) (.name "s"), Quad.assign (.num (.int 1)) (.name "i"), Quad.label "L0",
  Quad.operator (.binary .le) (.name "i") (.name "n") "t0", Quad.jumpIfFalse (.name "t0") "L2",
  Quad.operator (.binary .add) (.name "s") (.name "i") "t1", Quad.assign (.name "t1") (.name "s"), Quad.label "L1",
  Quad.operator (.unary .pos) (.name "i") .none "t2",
  Quad.operator (.binary .add) (.name "i") (.num (.int 1)) "t3", Quad.assign (.name "t3") (.name "i"), Quad.goto "L0",
  Quad.label "L2", Quad.ret (.name "s"), Quad.ret void, Quad.label "END_FUNC_total",
  Quad.param (.num (.int 3)), Quad.call "FUNC_total" 1 (.name "t4"), Quad.param (.name "t4"),
  Quad.call "console_log" 1 .none]

theorem totalProgram_lower :
    totalProgram.lower = .ok ⟨(), totalCode, { temps := 5, labels := 3, functions := ["total"] }⟩ := by
  cbv

theorem Node.rename_keeps_output_total :
    ∃ l', (totalProgram.renameStmt (Renaming.swap "n" "t0" rfl rfl rfl rfl).toFun).lower = .ok l' ∧
      (run l'.code 60 (.scripted [])).output = ["6"] ∧
      (l'.code.optimize 10).map (fun c => (run c 60 (.scripted [])).output) = .ok ["6"] := by
  obtain ⟨l', hl', h⟩ := rename_keeps_output (Renaming.swap "n" "t0" rfl rfl rfl rfl) (by decide) totalProgram_lower
  obtain ⟨hrun, hopt⟩ := h 60 (.scripted [])
  refine ⟨l', hl', hrun.trans (by decide +kernel), (hopt 10).trans rfl⟩

end QuadScript
