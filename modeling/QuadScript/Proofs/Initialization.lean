import QuadScript.Proofs.ExpressionCode
import QuadScript.Proofs.Symbols

/-!
# Variables that are read before they have a value

In a straight-line program the code takes the value of a variable only after the walk has met a use of it, and code
whose variable is first set takes no value before that (`Opening`). The analysis reports a variable if it meets a
read of it before an assignment (`Performs.reported`). The two differ where the first use is an update or a compound
assignment: the code takes a value there, and the analysis reports none. For all other programs a variable that is
read while it is absent has been reported (`Node.StraightLine.absent_read_reported`).
-/

namespace QuadScript

/-! ### Uses of a variable -/

inductive Use
  | read
  /-- A plain assignment, or a declaration with an initialiser. -/
  | set
  /-- An assignment with an operator in it. -/
  | modify
  /-- An increment or a decrement. -/
  | update
deriving DecidableEq

/-- Whether the analysis still takes a variable to have no value after that use. -/
def Use.isBare : Use → Bool
  | .read => true
  | .update => true
  | _ => false

/-- The use of a variable that an event is. -/
def Event.use? (x : String) : Event → Option Use
  | .read mark => if mark.nameTree.isText x then some .read else none
  | .assign operator mark =>
    if mark.nameTree.isText x then some (if operator.isText "=" then .set else .modify) else none
  | .update mark => if mark.nameTree.isText x then some .update else none
  | .declare _ name _ given => if name.isText x && given then some .set else none
  | _ => none

/-- The uses of a variable, in the order in which a program is walked. -/
def Node.uses (n : Node) (x : String) : List Use := n.events.filterMap (Event.use? x)

theorem Mark.nameTree_of_name {mark : Mark} {t : Tree} (h : mark.name = some t) : mark.nameTree = t := by
  rw [Mark.nameTree, h]
  rfl

namespace Event

variable {mark : Mark} {x y : String} {t : Tree}

theorem uses_read (hm : mark.name = some (.str y)) :
    [read mark].filterMap (use? x) = if y = x then [.read] else [] := by
  by_cases hy : y = x <;> simp [use?, Mark.nameTree_of_name hm, Tree.isText, hy]

theorem uses_set (hm : mark.name = some (.str y)) :
    [assign (.str "=") mark].filterMap (use? x) = if y = x then [.set] else [] := by
  by_cases hy : y = x <;> simp [use?, Mark.nameTree_of_name hm, Tree.isText, hy]

theorem uses_modify (hm : mark.name = some (.str y)) (ht : t.isText "=" = false) :
    [assign t mark].filterMap (use? x) = if y = x then [.modify] else [] := by
  have huse : (assign t mark).use? x = if y = x then some .modify else none := by
    rw [use?, Mark.nameTree_of_name hm, ht]
    simp [Tree.isText]
  by_cases hy : y = x <;> simp [huse, hy]

theorem uses_update (hm : mark.name = some (.str y)) :
    [update mark].filterMap (use? x) = if y = x then [.update] else [] := by
  by_cases hy : y = x <;> simp [use?, Mark.nameTree_of_name hm, Tree.isText, hy]

end Event

/-! ### Straight-line programs -/

/-- A name that a program can declare: that of a variable, and of nothing that is there already. -/
structure IsFresh (x : String) : Prop where
  assignable : isVariable x = true
  ne_empty : x ≠ ""
  not_builtin : ∀ y ∈ builtins, y.name ≠ .text x

theorem IsFresh.ne_console {x : String} (h : IsFresh x) : x ≠ "console" := by
  rintro rfl
  exact h.not_builtin (builtin "console" .object) List.mem_cons_self rfl

/-- An expression over variables that is evaluated without a jump. -/
inductive Node.Straight (Γ : List String) : Node → Prop
  | literal {mark : Mark} {regex : Bool} {value : Tree} : Straight Γ (.mk mark (.literal regex value))
  | identifier {mark : Mark} {x : String} (hm : mark.name = some (.str x)) (hx : x ∈ Γ) :
      Straight Γ (.mk mark .identifier)
  | unary {mark : Mark} {t : Tree} {op : UnaryOp} {n : Node} (hop : Lower.unaryOp? t = .ok (some op))
      (h : Straight Γ n) : Straight Γ (.mk mark (.unary t n))
  | void {mark : Mark} {n : Node} (h : Straight Γ n) : Straight Γ (.mk mark (.unary (.str "void") n))
  | binary {mark : Mark} {t : Tree} {op : BinaryOp} {n₁ n₂ : Node} (hop : Lower.binaryOp? t = .ok (some op))
      (h₁ : Straight Γ n₁) (h₂ : Straight Γ n₂) : Straight Γ (.mk mark (.binary t n₁ n₂))
  | assign {mark mark' : Mark} {x : String} {n : Node} (hm : mark'.name = some (.str x)) (hx : x ∈ Γ)
      (h : Straight Γ n) : Straight Γ (.mk mark (.assignment (.str "=") (.mk mark' .identifier) n))
  | compound {mark mark' : Mark} {t : Tree} {op : BinaryOp} {x : String} {n : Node}
      (hm : mark'.name = some (.str x)) (hx : x ∈ Γ) (hop : Lower.compoundOp? t = .ok (some op))
      (h : Straight Γ n) : Straight Γ (.mk mark (.assignment t (.mk mark' .identifier) n))
  | update {mark mark' : Mark} {t : Tree} {leading : Bool} {x : String} (hm : mark'.name = some (.str x))
      (hx : x ∈ Γ) : Straight Γ (.mk mark (.update t leading (.mk mark' .identifier)))
  | print {mark mark₁ mark₂ : Mark} {method : Node} {ns : List Node} (hm : mark₂.name = some (.str "console"))
      (h : ∀ n ∈ ns, Straight Γ n) :
      Straight Γ (.mk mark (.call (.mk mark₁ (.member false (.mk mark₂ .identifier) method)) ns))

/-- Declarations of new variables, each with an initialiser over those before it, or without. -/
inductive Declarator.StraightLine : List String → List Declarator → List String → Prop
  | nil {Γ : List String} : StraightLine Γ [] Γ
  | bare {Γ Δ : List String} {mark mark' : Mark} {x : String} {ds : List Declarator}
      (hm : mark'.name = some (.str x)) (hx : IsFresh x) (hΓ : x ∉ Γ) (hs : StraightLine (x :: Γ) ds Δ) :
      StraightLine Γ (.mk mark (.mk mark' .identifier) false .absent :: ds) Δ
  | init {Γ Δ : List String} {mark mark' : Mark} {x : String} {n : Node} {ds : List Declarator}
      (hm : mark'.name = some (.str x)) (hx : IsFresh x) (hΓ : x ∉ Γ) (h : n.Straight Γ)
      (hs : StraightLine (x :: Γ) ds Δ) : StraightLine Γ (.mk mark (.mk mark' .identifier) true n :: ds) Δ

/-- `StraightLine Γ ns Δ`: the statements are expressions and declarations of new variables by `let`; before them
there are the variables `Γ`, and after them `Δ`. -/
inductive Node.StraightLine : List String → List Node → List String → Prop
  | nil {Γ : List String} : StraightLine Γ [] Γ
  | expression {Γ Δ : List String} {mark : Mark} {n : Node} {ns : List Node} (h : n.Straight Γ)
      (hs : StraightLine Γ ns Δ) : StraightLine Γ (.mk mark (.expression n) :: ns) Δ
  | declaration {Γ Γ' Δ : List String} {mark : Mark} {ds : List Declarator} {ns : List Node}
      (h : Declarator.StraightLine Γ ds Γ') (hs : StraightLine Γ' ns Δ) :
      StraightLine Γ (.mk mark (.declaration .let ds) :: ns) Δ

/-! ### Straight code -/

/-- Whether the next instruction runs after that one. -/
def Quad.isStraight (q : Quad) : Bool :=
  match q.op with
  | .assign => true
  | .operator _ => true
  | .param => true
  | .call => true
  | _ => false

/-- The instruction gives a name a value. -/
def Quad.Sets (q : Quad) (s : String) : Prop := (q.op = .assign ∨ ∃ o, q.op = .operator o) ∧ q.result = .name s

namespace Machine

variable {code : Code} {m m' : Machine} {q : Quad} {answers : Answers}

theorem straight_effect (hc : ∀ q ∈ code, q.isStraight = true) (hq : code[m.pc]? = some q)
    (h : Effect code code.labels m q m') : m'.pc = m.pc + 1 ∧ ∀ s, m'.memory.get? (.text s) = none →
      m.memory.get? (.text s) = none ∧ ¬q.Sets s := by
  have hstraight := hc q (List.mem_of_getElem? hq)
  have hset : ∀ {k : Key} {v : Value} {s : String}, (m.memory.setKey k v).get? (.text s) = none →
      m.memory.get? (.text s) = none ∧ k ≠ .text s := by
    intro k v s hs
    rw [Table.get?_setKey_text] at hs
    split at hs
    · cases hs
    · exact ⟨hs, by assumption⟩
  have hcall : q.op = .call → ∀ s, ¬q.Sets s := by
    rintro hop s ⟨hop' | ⟨o, hop'⟩, -⟩ <;> rw [hop] at hop' <;> cases hop'
  cases h with
  | assign hop hv hk =>
    refine ⟨rfl, fun s hs => ⟨(hset hs).1, fun hq => (hset hs).2 ?_⟩⟩
    rw [hq.2] at hk
    cases hk
    rfl
  | operator hop ha hb hv hk =>
    refine ⟨rfl, fun s hs => ⟨(hset hs).1, fun hq => (hset hs).2 ?_⟩⟩
    rw [hq.2] at hk
    cases hk
    rfl
  | param hop hv =>
    refine ⟨rfl, fun s hs => ⟨hs, ?_⟩⟩
    rintro ⟨hop' | ⟨o, hop'⟩, -⟩ <;> rw [hop] at hop' <;> cases hop'
  | print hop harg hlead => exact ⟨rfl, fun s hs => ⟨hs, hcall hop s⟩⟩
  -- straight code has no labels, so that no call enters a function
  | enter hop hk hp =>
    obtain ⟨q', hq', hlabel⟩ := Code.labels_getKey?_eq_some hp
    have := hc q' (List.mem_of_getElem? hq')
    simp [Quad.isStraight, hlabel] at this
  | intrinsic hop hmem hcount =>
    refine ⟨rfl, fun s hs => ⟨?_, hcall hop s⟩⟩
    obtain ⟨rfl, -⟩ | ⟨k, -, rfl⟩ := hmem
    · exact hs
    · exact (hset hs).1
  | goto hop | pass hop | branch hop | receive hop | finish hop | leave hop =>
    simp [Quad.isStraight, hop] at hstraight
  | skip hop => rcases hop with hop | ⟨word, hop⟩ <;> simp [Quad.isStraight, hop] at hstraight

theorem not_sets_of_absent (hc : ∀ q ∈ code, q.isStraight = true) (hm : Reachable code answers m) :
    ∀ s, m.memory.get? (.text s) = none → ∀ q ∈ code.take m.pc, ¬q.Sets s := by
  refine hm.induct (P := fun m => ∀ s, m.memory.get? (.text s) = none → ∀ q ∈ code.take m.pc, ¬q.Sets s) ?_
    fun m m' _ ih hs => ?_
  · rintro s - q hq
    simp [Machine.start] at hq
  · obtain ⟨q, hq, hstep⟩ := advance_eq_some hs
    obtain ⟨hpc, habsent⟩ := straight_effect hc hq (step_effect hstep)
    intro s hnone q' hq'
    obtain ⟨hbefore, hnot⟩ := habsent s hnone
    rw [hpc, List.take_add_one, hq, List.mem_append] at hq'
    rcases hq' with hq' | hq'
    · exact ih s hbefore q' hq'
    · cases List.mem_singleton.1 hq'
      exact hnot

end Machine

/-! ### How code starts with a variable -/

/-- The code up to the first use of a name: without a use there is no read of it, and if it is set first, no read
stands before that. -/
def Code.Opens (code : Code) (s : String) : Option Use → Prop
  | none => ∀ q ∈ code, .name s ∉ q.reads
  | some .set => ∃ before q after, code = before ++ q :: after ∧ (∀ q' ∈ before, .name s ∉ q'.reads) ∧
      .name s ∉ q.reads ∧ q.Sets s
  | some _ => True

theorem Code.Opens.extend {c d : Code} {s : String} {u : Option Use} (hc : c.Opens s u)
    (hd : u = none → ∀ q ∈ d, .name s ∉ q.reads) : Code.Opens (c ++ d) s u := by
  rcases u with _ | u
  · intro q hq
    exact (List.mem_append.1 hq).elim (hc q) (hd rfl q)
  · cases u with
    | set =>
      obtain ⟨before, q, after, rfl, hq⟩ := hc
      exact ⟨before, q, after ++ d, by simp, hq⟩
    | read | modify | update => trivial

theorem Code.Opens.append {c d : Code} {s : String} {u v : Option Use} (hc : c.Opens s u) (hd : d.Opens s v) :
    Code.Opens (c ++ d) s (u.or v) := by
  rcases u with _ | u
  · rcases v with _ | v
    · exact hc.extend fun _ => hd
    · cases v with
      | set =>
        obtain ⟨before, q, after, rfl, hbefore, hq⟩ := hd
        refine ⟨c ++ before, q, after, (List.append_assoc ..).symm, fun q' hq' => ?_, hq⟩
        exact (List.mem_append.1 hq').elim (hc q') (hbefore q')
      | read | modify | update => trivial
  · exact hc.extend nofun

/-- A read of an absent name comes after a use that is more than setting it. -/
theorem Code.Opens.of_absent {code : Code} {s : String} {u : Option Use} {m : Machine} {q : Quad} {answers : Answers}
    (h : code.Opens s u) (hc : ∀ q ∈ code, q.isStraight = true) (hm : Machine.Reachable code answers m)
    (hq : code[m.pc]? = some q) (hread : .name s ∈ q.reads) (habsent : m.memory.get? (.text s) = none) :
    u ≠ none ∧ u ≠ some .set := by
  constructor
  · rintro rfl
    exact h q (List.mem_of_getElem? hq) hread
  · rintro rfl
    obtain ⟨before, q₀, after, rfl, hbefore, hq₀, hsets⟩ := h
    rcases Nat.lt_trichotomy m.pc before.length with hlt | heq | hgt
    · rw [List.getElem?_append_left hlt] at hq
      exact hbefore q (List.mem_of_getElem? hq) hread
    · rw [heq, List.getElem?_append_right (Nat.le_refl _), Nat.sub_self] at hq
      cases hq
      exact hq₀ hread
    · refine Machine.not_sets_of_absent hc hm s habsent q₀ ?_ hsets
      rw [List.mem_take_iff_getElem]
      exact ⟨before.length, by simp; omega, by simp⟩

/-- Straight code with its operands, and the uses of a variable that it was made from. -/
structure Opening (x : String) (code : Code) (values : List Operand) (us : List Use) : Prop where
  straight : ∀ q ∈ code, q.isStraight = true
  opens : code.Opens (mangle x) us.head?
  used : .name (mangle x) ∈ values → us ≠ []

namespace Opening

variable {x : String} {c d : Code} {as bs : List Operand} {us vs : List Use} {q : Quad}

theorem nil (has : .name (mangle x) ∉ as) : Opening x [] as [] where
  straight _ hq := nomatch hq
  opens _ hq := nomatch hq
  used hx := absurd hx has

theorem read : Opening x [] as [.read] where
  straight _ hq := nomatch hq
  opens := trivial
  used _ := List.cons_ne_nil _ _

theorem append (h : Opening x c as us) (h' : Opening x d bs vs) : Opening x (c ++ d) (as ++ bs) (us ++ vs) where
  straight q hq := (List.mem_append.1 hq).elim (h.straight q) (h'.straight q)
  opens := by
    rw [List.head?_append]
    exact h.opens.append h'.opens
  used hx := by
    rcases List.mem_append.1 hx with hx | hx
    · simp [h.used hx]
    · simp [h'.used hx]

theorem imp (h : Opening x c as us) (hbs : .name (mangle x) ∈ bs → .name (mangle x) ∈ as) : Opening x c bs us :=
  ⟨h.straight, h.opens, fun hx => h.used (hbs hx)⟩

theorem emit (h : Opening x c as us) (hd : ∀ q ∈ d, q.isStraight = true)
    (hreads : ∀ q ∈ d, .name (mangle x) ∈ q.reads → .name (mangle x) ∈ as) : Opening x (c ++ d) as us where
  straight q hq := (List.mem_append.1 hq).elim (h.straight q) (hd q)
  opens := h.opens.extend fun hu q hq hx => h.used (hreads q hq hx) (List.head?_eq_none_iff.1 hu)
  used := h.used

theorem set {a : Operand} (h : Opening x c as us) (ha : a ∈ as) :
    Opening x (c ++ [Quad.assign a (.name (mangle x))]) [.name (mangle x)] (us ++ [.set]) := by
  refine ⟨fun q hq => ?_, ?_, fun _ => by simp⟩
  · rcases List.mem_append.1 hq with hq | hq
    · exact h.straight q hq
    · cases List.mem_singleton.1 hq
      rfl
  · cases us with
    | cons u us => exact h.opens.extend nofun
    | nil =>
      have ha' : a ≠ .name (mangle x) := by
        rintro rfl
        exact h.used ha rfl
      refine ⟨c, _, [], rfl, h.opens, ?_, .inl rfl, rfl⟩
      simpa [Quad.reads, Quad.assign] using ha'.symm

/-- The variable is set in dependence of its own value. -/
theorem modify {u : Use} {us vs : List Use} (h : Opening x c as us) (hu : u = .modify ∨ u = .update)
    (hd : ∀ q ∈ d, q.isStraight = true) : Opening x (c ++ d) bs (us ++ u :: vs) := by
  refine ⟨fun q hq => (List.mem_append.1 hq).elim (h.straight q) (hd q), ?_, fun _ => by simp⟩
  cases us with
  | cons u us => exact h.opens.extend nofun
  | nil => rcases hu with rfl | rfl <;> trivial

end Opening

/-! ### The code of a straight-line program -/

section
variable {x y : String}

theorem mangle_ne_constant {c : String} (hx : isVariable x = true) (hc : (namedConstant? c).isSome) :
    mangle x ≠ c := by
  rintro rfl
  rw [namedConstant?_mangle] at hc
  simp [isVariable, Option.isNone_iff_eq_none] at hx
  simp [hx.2] at hc

theorem mangle_ne_of_ne (hx : isVariable x = true) (hy : isVariable y = true) (h : y ≠ x) : mangle y ≠ mangle x :=
  fun he => h (mangle_injective (Bool.and_eq_true_iff.1 hy).1 (Bool.and_eq_true_iff.1 hx).1 he)

theorem nameOperand_of_variable (hy : isVariable y = true) : Lower.nameOperand (.str y) = .name (mangle y) :=
  ofSymbol_mangle (Bool.and_eq_true_iff.1 hy).1

theorem void_ne_variable (hx : isVariable x = true) : .name (mangle x) ≠ void := by
  intro h
  exact mangle_ne_constant (c := "undefined") hx rfl (Operand.name.inj h)

theorem literalOperand_ne_variable (hx : isVariable x = true) (t : Tree) :
    .name (mangle x) ≠ Lower.literalOperand t := by
  cases t with
  | null =>
    intro h
    exact mangle_ne_constant (c := "null") hx rfl (Operand.name.inj h)
  | _ => exact nofun

theorem temp_ne_variable (x : String) (k : Nat) : Operand.name (mangle x) ≠ .name (tempName k) := fun h =>
  mangle_ne_tempName x k (Operand.name.inj h)

end

namespace Opening

variable {x y : String} {c d : Code} {as : List Operand} {us : List Use}

theorem other (h : Opening x c as us) (hx : isVariable x = true) (hy : isVariable y = true) (hyx : y ≠ x)
    (hd : ∀ q ∈ d, q.isStraight = true)
    (hreads : ∀ q ∈ d, .name (mangle x) ∈ q.reads → mangle x = mangle y ∨ .name (mangle x) ∈ as) :
    Opening x (c ++ d) [.name (mangle y)] us := by
  have hne : mangle x ≠ mangle y := (mangle_ne_of_ne hx hy hyx).symm
  refine (h.emit hd fun q hq hxq => (hreads q hq hxq).resolve_left hne).imp fun hmem => ?_
  exact absurd (Operand.name.inj (List.mem_singleton.1 hmem)) hne

theorem assign {a : Operand} (h : Opening x c as us) (hx : isVariable x = true) (hy : isVariable y = true)
    (ha : a ∈ as) : Opening x (c ++ [Quad.assign a (.name (mangle y))]) [.name (mangle y)]
      (us ++ if y = x then [.set] else []) := by
  by_cases hyx : y = x
  · subst hyx
    rw [if_pos rfl]
    exact h.set ha
  · rw [if_neg hyx, List.append_nil]
    refine h.other hx hy hyx ?_ ?_
    · simp [Quad.isStraight, Quad.assign]
    · simp only [List.mem_singleton, forall_eq, Quad.reads, Quad.assign]
      exact fun hmem => .inr (hmem ▸ ha)

theorem change {u : Use} (h : Opening x c as us) (hx : isVariable x = true) (hy : isVariable y = true)
    (hu : u = .modify ∨ u = .update) (hd : ∀ q ∈ d, q.isStraight = true)
    (hreads : ∀ q ∈ d, .name (mangle x) ∈ q.reads → mangle x = mangle y ∨ .name (mangle x) ∈ as) :
    Opening x (c ++ d) [.name (mangle y)] (us ++ if y = x then [u] else []) := by
  by_cases hyx : y = x
  · rw [if_pos hyx]
    exact h.modify hu hd
  · rw [if_neg hyx, List.append_nil]
    exact h.other hx hy hyx hd hreads

end Opening

theorem Node.nameTree_of_name {mark : Mark} {form : Form} {t : Tree} (hm : mark.name = some t) :
    (Node.mk mark form).nameTree = .ok t := by
  show Except.ok (((some mark).bind (·.name)).getD .null) = _
  rw [Option.bind_some, hm]
  rfl

theorem Lower.exists_console {mark mark' : Mark} {method : Node} {called : Lower.Callee}
    (hm : mark'.name = some (.str "console"))
    (h : Lower.callee (.mk mark (.member false (.mk mark' .identifier) method)) = .ok called) :
    ∃ name, Lower.callee (.mk mark (.member false (.mk mark' .identifier) method)) = .ok (.console name) := by
  rw [h]
  simp only [Lower.callee, Node.nameTree_of_name hm] at h
  obtain ⟨object, hobject, h⟩ := except_bind_eq_ok h
  cases hobject
  obtain ⟨name, -, h⟩ := except_bind_eq_ok h
  cases h
  exact ⟨name, rfl⟩

namespace Node

variable {Γ Δ : List String} {n : Node} {x : String} {s : Supply}

/-- The uses in a list of expressions. -/
def usesAll (ns : List Node) (x : String) : List Use := (Node.eventsAll ns).filterMap (Event.use? x)

theorem usesAll_cons (n : Node) (ns : List Node) (x : String) : usesAll (n :: ns) x = n.uses x ++ usesAll ns x := by
  rw [usesAll, eventsAll, List.filterMap_append]
  rfl

theorem opening_exprs (hx : isVariable x = true) : ∀ {ns : List Node} {s : Supply} {r : Lowered (List Operand)},
    (∀ n ∈ ns, ∀ {s : Supply} {r : Lowered Operand}, Lower.expr n s = .ok r → Opening x r.code [r.value] (n.uses x)) →
    Lower.exprs ns s = .ok r → Opening x r.code r.value (usesAll ns x)
  | [], s, r, _, hr => by
    rw [Lower.exprs_nil.1 hr]
    exact .nil (by simp)
  | n :: ns, s, r, ih, hr => by
    obtain ⟨a, ha, as, has, rfl⟩ := Lower.exprs_cons.1 hr
    rw [usesAll_cons]
    exact (ih n List.mem_cons_self ha).append (opening_exprs hx (fun n' hn' => ih n' (List.mem_cons_of_mem _ hn')) has)

theorem Straight.opening (h : n.Straight Γ) (hΓ : ∀ y ∈ Γ, isVariable y = true) (hf : IsFresh x) :
    ∀ {s : Supply} {r : Lowered Operand}, Lower.expr n s = .ok r → Opening x r.code [r.value] (n.uses x) := by
  have hx := hf.assignable
  -- on the expression: code and walk go through its parts in the same order, so the first uses agree
  induction h with
  | @literal mark regex value =>
    intro s r hr
    cases regex with
    | false =>
      rw [Lower.expr_literal.1 hr]
      exact .nil (by simpa using literalOperand_ne_variable hx value)
    | true =>
      rw [Lower.expr] at hr
      obtain ⟨w, rfl⟩ := Lower.skipped_of_unsupported hr
      exact .nil (by simpa using void_ne_variable hx)
  | @identifier mark y hm hy =>
    intro s r hr
    rw [Lower.expr_identifier.1 hr, Mark.nameTree_of_name hm, nameOperand_of_variable (hΓ y hy), uses, events,
      Event.uses_read hm]
    by_cases hyx : y = x
    · rw [if_pos hyx]
      exact .read
    · rw [if_neg hyx]
      exact .nil (by simpa using (mangle_ne_of_ne hx (hΓ y hy) hyx).symm)
  | @unary mark t op n hop h ih =>
    intro s r hr
    obtain ⟨a, ha, rfl⟩ := (Lower.expr_unary (Lower.isText_of_unaryOp? hop) hop).1 hr
    rw [uses, events]
    refine ((ih ha).emit ?_ ?_).imp fun h => absurd (List.mem_singleton.1 h) (temp_ne_variable x _)
    · simp [Quad.isStraight, Quad.operator]
    · simp [Quad.reads, Quad.operator]
  | @void mark n h ih =>
    intro s r hr
    obtain ⟨a, ha, rfl⟩ := (Lower.expr_void rfl).1 hr
    rw [uses, events]
    exact (ih ha).imp fun h => absurd (List.mem_singleton.1 h) (void_ne_variable hx)
  | @binary mark t op n₁ n₂ hop h₁ h₂ ih₁ ih₂ =>
    intro s r hr
    obtain ⟨a, ha, b, hb, rfl⟩ := (Lower.expr_binary hop).1 hr
    rw [uses, events, List.filterMap_append, ← List.append_assoc]
    refine (((ih₁ ha).append (ih₂ hb)).emit ?_ ?_).imp fun h =>
      absurd (List.mem_singleton.1 h) (temp_ne_variable x _)
    · simp [Quad.isStraight, Quad.operator]
    · simp [Quad.reads, Quad.operator]
  | @assign mark mark' y n hm hy h ih =>
    intro s r hr
    obtain ⟨a, ha, rfl⟩ := (Lower.expr_assignment (Lower.assignee?_identifier hm) rfl).1 hr
    rw [nameOperand_of_variable (hΓ y hy), uses, events, eventsOr, List.filterMap_append, Event.uses_set hm]
    exact (ih ha).assign hx (hΓ y hy) List.mem_cons_self
  | @compound mark mark' t op y n hm hy hop h ih =>
    intro s r hr
    have ht := Lower.isText_of_compoundOp? hop
    obtain ⟨a, ha, rfl⟩ := (Lower.expr_compound (Lower.assignee?_identifier hm) ht hop).1 hr
    rw [nameOperand_of_variable (hΓ y hy), uses, events, eventsOr, List.filterMap_append, Event.uses_modify hm ht]
    refine (ih ha).change hx (hΓ y hy) (.inl rfl) ?_ ?_
    · simp [Quad.isStraight, Quad.operator, Quad.assign]
    · simp [Quad.reads, Quad.operator, Quad.assign, mangle_ne_tempName]
  | @update mark mark' t leading y hm hy =>
    intro s r hr
    have hnil : Opening x [] [] [] := .nil (by simp)
    rw [uses, events, eventsOr, Event.uses_update hm]
    cases leading with
    | true =>
      rw [(Lower.expr_update_leading (Lower.assignee?_identifier hm)).1 hr, nameOperand_of_variable (hΓ y hy)]
      refine hnil.change hx (hΓ y hy) (.inr rfl) ?_ ?_
      · simp [Quad.isStraight, Quad.operator, Quad.assign]
      · simp [Quad.reads, Quad.operator, Quad.assign, mangle_ne_tempName]
    | false =>
      rw [(Lower.expr_update_trailing (Lower.assignee?_identifier hm)).1 hr, nameOperand_of_variable (hΓ y hy)]
      refine (hnil.change hx (hΓ y hy) (.inr rfl) ?_ ?_).imp fun h =>
        absurd (List.mem_singleton.1 h) (temp_ne_variable x _)
      · simp [Quad.isStraight, Quad.operator, Quad.assign]
      · simp [Quad.reads, Quad.operator, Quad.assign, mangle_ne_tempName]
  | @print mark mark₁ mark₂ method ns hm h ih =>
    intro s r hr
    have hexists : ∃ name,
        Lower.callee (.mk mark₁ (.member false (.mk mark₂ .identifier) method)) = .ok (.console name) := by
      rw [Lower.expr] at hr
      obtain ⟨called, hcalled, -⟩ := Lower.lift_bind_eq_ok hr
      exact Lower.exists_console hm hcalled
    obtain ⟨name, hname⟩ := hexists
    obtain ⟨as, has, rfl⟩ := (Lower.expr_print hname).1 hr
    have huses : (Node.mk mark (.call (.mk mark₁ (.member false (.mk mark₂ .identifier) method)) ns)).uses x =
        usesAll ns x := by
      have hcallee : (Node.mk mark₁ (.member false (.mk mark₂ .identifier) method)).events = [.read mark₂] := by
        rw [events, events]
        rfl
      rw [uses, events, List.filterMap_append]
      show (Node.events _).filterMap (Event.use? x) ++ _ = _
      rw [hcallee, Event.uses_read hm, if_neg hf.ne_console.symm]
      rfl
    rw [huses]
    refine ((opening_exprs hx ih has).emit ?_ ?_).imp fun h => absurd (List.mem_singleton.1 h) (void_ne_variable hx)
    · simp only [List.mem_append, List.mem_map, List.mem_singleton]
      rintro q (⟨a, -, rfl⟩ | rfl) <;> rfl
    · simp only [List.mem_append, List.mem_map, List.mem_singleton]
      rintro q (⟨a, ha, rfl⟩ | rfl) hq
      · cases List.mem_singleton.1 hq
        exact ha
      · cases hq

theorem Straight.isAbsent (h : n.Straight Γ) : n.isAbsent = false := by cases h <;> rfl

end Node

/-- The uses in a list of declarators. -/
def Declarator.uses (ds : List Declarator) (x : String) : List Use :=
  (Declarator.eventsAll .let ds).filterMap (Event.use? x)

section
variable {Γ Δ : List String} {x y : String} {s : Supply} {r : Lowered Unit}

theorem Declarator.events_let {mark mark' : Mark} {given : Bool} {init : Node} (hm : mark'.name = some (.str y))
    (hy : y ≠ "") : (Declarator.mk mark (.mk mark' .identifier) given init).events .let =
      init.events ++ [.declare mark (.str y) .let given] := by
  have htrue : (Tree.str y).truthy = true := by simpa [Tree.truthy] using hy
  rw [Declarator.events, Node.nameTree_of_name hm, namedEvents, if_pos htrue]

theorem Event.uses_declare (mark : Mark) (given : Bool) :
    [Event.declare mark (.str y) .let given].filterMap (use? x) = if given then if y = x then [.set] else [] else [] := by
  cases given <;> by_cases hy : y = x <;> simp [use?, Tree.isText, hy]

theorem Declarator.StraightLine.variables {ds : List Declarator} (h : StraightLine Γ ds Δ)
    (hΓ : ∀ y ∈ Γ, isVariable y = true) : ∀ y ∈ Δ, isVariable y = true := by
  induction h with
  | nil => exact hΓ
  | bare _ hx _ _ ih => exact ih (List.forall_mem_cons.2 ⟨hx.assignable, hΓ⟩)
  | init _ hx _ _ _ ih => exact ih (List.forall_mem_cons.2 ⟨hx.assignable, hΓ⟩)

theorem Declarator.StraightLine.opening {ds : List Declarator} (h : StraightLine Γ ds Δ)
    (hΓ : ∀ y ∈ Γ, isVariable y = true) (hf : IsFresh x) (hr : Lower.declarators ds s = .ok r) :
    Opening x r.code [] (Declarator.uses ds x) := by
  induction h generalizing s r with
  | nil =>
    rw [Lower.declarators_nil.1 hr]
    exact .nil (by simp)
  | @bare Γ Δ mark mark' y ds hm hy hyΓ hs ih =>
    obtain ⟨a, ha, b, hb, rfl⟩ := Lower.declarators_cons.1 hr
    rw [Lower.declarator_identifier, Node.isAbsent, if_pos rfl] at ha
    subst ha
    rw [Declarator.uses, Declarator.eventsAll, List.filterMap_append, Declarator.events_let hm hy.ne_empty,
      List.filterMap_append, Event.uses_declare, Node.events]
    exact ih (List.forall_mem_cons.2 ⟨hy.assignable, hΓ⟩) hb
  | @init Γ Δ mark mark' y n ds hm hy hyΓ h hs ih =>
    obtain ⟨a, ha, b, hb, rfl⟩ := Lower.declarators_cons.1 hr
    rw [Lower.declarator_identifier, h.isAbsent, if_neg Bool.false_ne_true] at ha
    obtain ⟨e, he, name, hname, rfl⟩ := ha
    rw [Mark.requireName, hm] at hname
    cases hname
    rw [Declarator.uses, Declarator.eventsAll, List.filterMap_append, Declarator.events_let hm hy.ne_empty,
      List.filterMap_append, Event.uses_declare, if_pos rfl]
    have hfirst := ((h.opening hΓ hf he).assign hf.assignable hy.assignable List.mem_cons_self)
    exact (hfirst.append (ih (List.forall_mem_cons.2 ⟨hy.assignable, hΓ⟩) hb)).imp (by simp)

theorem Node.StraightLine.opening {ns : List Node} {loop : Option Loop} (h : Node.StraightLine Γ ns Δ)
    (hΓ : ∀ y ∈ Γ, isVariable y = true) (hf : IsFresh x) (hr : Lower.stmts loop ns s = .ok r) :
    Opening x r.code [] (Node.usesAll ns x) := by
  induction h generalizing s r with
  | nil =>
    rw [Lower.stmts_nil.1 hr]
    exact .nil (by simp)
  | expression h hs ih =>
    obtain ⟨a, ha, b, hb, rfl⟩ := Lower.stmts_cons.1 hr
    obtain ⟨e, he, rfl⟩ := Lower.stmt_expression.1 ha
    rw [Node.usesAll_cons, Node.uses, Node.events]
    exact ((h.opening hΓ hf he).append (ih hΓ hb)).imp (by simp)
  | declaration h hs ih =>
    obtain ⟨a, ha, b, hb, rfl⟩ := Lower.stmts_cons.1 hr
    rw [Lower.stmt] at ha
    rw [Node.usesAll_cons, Node.uses, Node.events]
    exact (h.opening hΓ hf ha).append (ih (h.variables hΓ) hb)

end

/-! ### What the analysis knows of a variable -/

/-- An event that names a variable and does not declare it. -/
inductive Event.IsUse : Event → String → Prop
  | read {mark : Mark} {y : String} (hm : mark.name = some (.str y)) : IsUse (.read mark) y
  | assign {t : Tree} {mark : Mark} {y : String} (hm : mark.name = some (.str y)) : IsUse (.assign t mark) y
  | update {mark : Mark} {y : String} (hm : mark.name = some (.str y)) : IsUse (.update mark) y

/-- An event of a straight-line program that does not declare this variable. -/
inductive Event.IsPlain (x : String) : Event → Prop
  | global : IsPlain x .global
  | use {e : Event} {y : String} (h : e.IsUse y) : IsPlain x e
  | declare {mark : Mark} {y : String} {given : Bool} (h : y ≠ x) : IsPlain x (.declare mark (.str y) .let given)

theorem Event.use?_assign (t : Tree) {mark : Mark} {x : String} (hm : mark.name = some (.str x)) :
    (assign t mark).use? x = some (if t.isText "=" then .set else .modify) := by
  rw [use?, Mark.nameTree_of_name hm, if_pos (by simp [Tree.isText])]

theorem Event.IsPlain.eq_read {e : Event} {x : String} (h : e.IsPlain x) (hu : e.use? x = some .read) :
    ∃ mark, e = .read mark ∧ mark.name = some (.str x) := by
  cases h with
  | global => cases hu
  | declare hy => simp [use?, Tree.isText, hy] at hu
  | use h =>
    cases h with
    | read hm =>
      rw [use?, Mark.nameTree_of_name hm] at hu
      obtain rfl : _ = x := by simpa [Tree.isText] using hu
      exact ⟨_, rfl, hm⟩
    | assign hm =>
      rw [use?] at hu
      split at hu
      · split at hu <;> cases hu
      · cases hu
    | update hm =>
      rw [use?] at hu
      split at hu <;> cases hu

theorem Event.IsUse.use?_of_ne {e : Event} {x y : String} (h : e.IsUse y) (hy : y ≠ x) : e.use? x = none := by
  cases h with
  | read hm | update hm | assign hm => simp [use?, Mark.nameTree_of_name hm, Tree.isText, hy]

/-- The walk is in the global scope. There a variable is declared and counts as initialised or not, or it is not
declared. -/
structure Standing (x : String) (o : Option Bool) (σ : AnalysisState) : Prop where
  current : σ.current = 0
  size : 0 < σ.tree.size
  parent : σ.tree.parent? 0 = none
  named : σ.tree.Named
  unbound : o = none → σ.tree.findLocal? 0 (.text x) = none
  bound : ∀ b, o = some b → ∃ n y, σ.tree.findLocal? 0 (.text x) = some n ∧ σ.tree.symbol? n = some y ∧
    y.kind = .let ∧ y.builtin = false ∧ y.initialized = b

/-- The variable was reported. -/
def AnalysisState.Reports (σ : AnalysisState) (x : String) : Prop :=
  ∃ d ∈ σ.diagnostics, d.severity = .error ∧ d.message = s!"Variable '{x}' is used before being initialized"

theorem ScopeTree.find?_root {t : ScopeTree} {k : Key} (hs : 0 < t.size) (hp : t.parent? 0 = none) :
    t.find? 0 k = t.findLocal? 0 k := by
  obtain ⟨n, hn⟩ := Nat.exists_eq_add_of_lt hs
  rw [Nat.zero_add] at hn
  rw [find?, hn, findFrom, hp]
  cases t.findLocal? 0 k <;> rfl

namespace Standing

variable {x : String} {o : Option Bool} {σ τ : AnalysisState}

theorem initial (hx : IsFresh x) : Standing x none .initial where
  current := rfl
  size := Nat.one_pos
  parent := rfl
  named := ScopeTree.named_global
  unbound _ := ScopeTree.findLocal?_global hx.not_builtin 0
  bound := nofun

theorem lookup? (h : Standing x o σ) {k : Key} {n : Nat} {y : Symbol} :
    σ.lookup? k = some (n, y) ↔ σ.tree.findLocal? 0 k = some n ∧ σ.tree.symbol? n = some y := by
  rw [AnalysisState.lookup?_eq_some, h.current, ScopeTree.find?_root h.size h.parent]

theorem evolve (h : Standing x o σ) (hcur : τ.current = σ.current) (he : σ.tree.Evolves τ.tree)
    (hflag : ∀ {n y y'}, σ.tree.findLocal? 0 (.text x) = some n → σ.tree.symbol? n = some y →
      τ.tree.symbol? n = some y' → y'.initialized = y.initialized) : Standing x o τ where
  current := hcur.trans h.current
  size := he.size ▸ h.size
  parent := (he.parent 0).trans h.parent
  named := h.named.evolves he
  unbound ho := he.findLocal?.trans (h.unbound ho)
  bound b hb := by
    obtain ⟨n, y, hn, hy, hkind, hbuiltin, hinit⟩ := h.bound b hb
    obtain ⟨y', hy', hlater⟩ := he.symbol hy
    exact ⟨n, y', he.findLocal?.trans hn, hy', hlater.kind.trans hkind, hlater.builtin.trans hbuiltin,
      (hflag hn hy hy').trans hinit⟩

theorem notes (h : Standing x o σ) (hn : Notes σ τ) : Standing x o τ := by
  refine h.evolve hn.current hn.evolves fun {n y y'} _ hy hy' => ?_
  obtain ⟨y'', hy'', hplain⟩ := hn.symbol hy
  cases hy'.symm.trans hy''
  have hinit : y'.plain.initialized = y.plain.initialized := by rw [hplain]
  exact hinit

theorem touch_use (h : Standing x o σ) (n : Nat) : Standing x o (σ.touch n Symbol.use) := by
  refine h.evolve rfl (.modifySymbol n Symbol.later_use) fun {m y y'} _ hy hy' => ?_
  rw [AnalysisState.touch, ScopeTree.symbol?_modifySymbol, hy] at hy'
  split at hy' <;> cases hy' <;> rfl

theorem tell (h : Standing x o σ) (d : Diagnostic) : Standing x o (σ.tell d) := by
  refine h.evolve rfl (.refl _) fun {m y y'} _ hy hy' => ?_
  cases hy.symm.trans hy'
  rfl

theorem read (h : Standing x o σ) {mark : Mark} (hr : (Event.read mark).Acts σ τ) : Standing x o τ := by
  obtain ⟨kind, hr⟩ := hr
  obtain ⟨k, -, ⟨-, p, rfl⟩ | ⟨n, y, -, ⟨-, rfl⟩ | ⟨-, p, rfl⟩⟩⟩ := Analyze.visitIdentifier_eq_ok hr
  · exact h.tell _
  · exact h.touch_use n
  · exact (h.touch_use n).tell _

theorem update (h : Standing x o σ) {mark : Mark} (hr : (Event.update mark).Acts σ τ) : Standing x o τ := by
  obtain ⟨k, -, ⟨-, p, rfl⟩ | ⟨n, y, -, ⟨-, p, rfl⟩ | ⟨-, rfl⟩⟩⟩ := Analyze.updateVariable_eq_ok hr
  · exact h.tell _
  · exact h.tell _
  · exact h.touch_use n

theorem assign (h : Standing x o σ) {t : Tree} {mark : Mark} {y : String} (hm : mark.name = some (.str y)) (hy : y ≠ x)
    (hr : (Event.assign t mark).Acts σ τ) : Standing x o τ := by
  obtain ⟨k, hk, hdiag, hcur, htree⟩ := Analyze.assignVariable_eq_ok hr
  rw [Mark.nameTree_of_name hm] at hk
  cases hk
  have hsame : τ.tree = σ.tree → Standing x o τ := fun htree =>
    h.evolve hcur (htree ▸ .refl _) fun _ hy hy' => by
      rw [htree, hy] at hy'
      cases hy'
      rfl
  obtain ⟨-, htree⟩ | ⟨n, s, hfound, htree⟩ := htree
  · exact hsame htree
  · split at htree
    · refine h.evolve hcur (htree ▸ .modifySymbol n Symbol.later_init) fun {m s' s''} hm' hs' hs'' => ?_
      obtain ⟨hlocal, hs⟩ := h.lookup?.1 hfound
      have hne : n ≠ m := by
        rintro rfl
        obtain ⟨s₁, hs₁, hname₁⟩ := h.named 0 y n hlocal
        obtain ⟨s₂, hs₂, hname₂⟩ := h.named 0 x n hm'
        rw [hs₁] at hs₂
        cases hs₂
        rw [hname₁] at hname₂
        cases hname₂
        exact hy rfl
      rw [htree, ScopeTree.symbol?_modifySymbol, if_neg hne, hs'] at hs''
      cases hs''
      rfl
    · exact hsame htree

theorem bind_other (h : Standing x o σ) {y : Symbol} (hy : y.name ≠ .text x) (hcur : τ.current = σ.current)
    (htree : τ.tree = σ.tree.bind 0 y) : Standing x o τ := by
  have hlocal : τ.tree.findLocal? 0 (.text x) = σ.tree.findLocal? 0 (.text x) := by
    rw [htree, ScopeTree.findLocal?_bind, if_neg fun hn => hy hn.2.2]
  refine ⟨hcur.trans h.current, ?_, ?_, ?_, fun ho => hlocal.trans (h.unbound ho), fun b hb => ?_⟩
  · rw [htree, ScopeTree.size_bind]
    exact h.size
  · rw [htree, ScopeTree.parent?_bind]
    exact h.parent
  · exact htree ▸ h.named.bind 0 y
  · obtain ⟨n, s, hn, hs, hrest⟩ := h.bound b hb
    have hlt := ScopeTree.symbol?_lt hs
    refine ⟨n, s, hlocal.trans hn, ?_, hrest⟩
    rw [htree, ScopeTree.symbol?_bind, if_neg (by omega), hs]

theorem bind_self (h : Standing x o σ) {y : Symbol} (hy : y.name = .text x) (hkind : y.kind = .let)
    (hbuiltin : y.builtin = false) (hcur : τ.current = σ.current) (htree : τ.tree = σ.tree.bind 0 y) :
    Standing x (some y.initialized) τ := by
  refine ⟨hcur.trans h.current, ?_, ?_, ?_, nofun, fun b hb => ?_⟩
  · rw [htree, ScopeTree.size_bind]
    exact h.size
  · rw [htree, ScopeTree.parent?_bind]
    exact h.parent
  · exact htree ▸ h.named.bind 0 y
  · refine ⟨σ.tree.declared.length, y, ?_, ?_, hkind, hbuiltin, Option.some.inj hb⟩
    · rw [htree, ScopeTree.findLocal?_bind, if_pos ⟨rfl, h.size, hy⟩]
    · rw [htree, ScopeTree.symbol?_bind, if_pos rfl]

/-- What a declaration by `let` in the global scope does. -/
theorem define_let (h : Standing x o σ) {mark : Mark} {y : String} {given : Bool}
    (hr : (Event.declare mark (.str y) .let given).Acts σ τ) :
    ∃ s : Symbol, s.name = .text y ∧ s.kind = .let ∧ s.initialized = given ∧ s.builtin = false ∧
      τ.current = σ.current ∧
      τ.tree = if (σ.tree.findLocal? 0 (.text y)).isSome then σ.tree else σ.tree.bind 0 s := by
  obtain ⟨inferred, hr⟩ := hr
  obtain ⟨k, s, hk, hname, hkind, hinit, -, hbuiltin, -, -, hcur, htree⟩ := Analyze.declareVariable_eq_ok hr
  cases hk
  refine ⟨s, hname, hkind, hinit, hbuiltin, hcur, ?_⟩
  rw [if_neg nofun, h.current] at htree
  rw [htree, ScopeTree.define, ScopeTree.conflict?, hkind]
  simp only [ScopeTree.binds, hname]
  split <;> simp_all

theorem declare_other (h : Standing x o σ) {mark : Mark} {y : String} {given : Bool} (hy : y ≠ x)
    (hr : (Event.declare mark (.str y) .let given).Acts σ τ) : Standing x o τ := by
  obtain ⟨s, hname, -, -, -, hcur, htree⟩ := h.define_let hr
  split at htree
  · refine h.evolve hcur (htree ▸ .refl _) fun _ hs hs' => ?_
    rw [htree, hs] at hs'
    cases hs'
    rfl
  · refine h.bind_other (fun hs => hy ?_) hcur htree
    cases hname.symm.trans hs
    rfl

theorem declare_self (h : Standing x none σ) {mark : Mark} {given : Bool}
    (hr : (Event.declare mark (.str x) .let given).Acts σ τ) : Standing x (some given) τ := by
  obtain ⟨s, hname, hkind, rfl, hbuiltin, hcur, htree⟩ := h.define_let hr
  rw [h.unbound rfl] at htree
  exact h.bind_self hname hkind hbuiltin hcur htree

theorem reports (h : Standing x (some false) σ) {mark : Mark} (hm : mark.name = some (.str x))
    (hr : (Event.read mark).Acts σ τ) : τ.Reports x := by
  obtain ⟨kind, hr⟩ := hr
  obtain ⟨n, y, hn, hy, hkind, hbuiltin, hinit⟩ := h.bound false rfl
  obtain ⟨k, hk, hcases⟩ := Analyze.visitIdentifier_eq_ok hr
  rw [Mark.nameTree_of_name hm] at hk hcases
  cases hk
  rw [h.lookup?.2 ⟨hn, hy⟩] at hcases
  have hearly : y.isEarly = true := by simp [Symbol.isEarly, hkind, hbuiltin, hinit]
  obtain ⟨hnone, -⟩ | ⟨n', y', hfound, hcases⟩ := hcases
  · cases hnone
  · cases hfound
    obtain ⟨hnot, -⟩ | ⟨-, p, rfl⟩ := hcases
    · rw [hearly] at hnot
      cases hnot
    · exact ⟨_, List.mem_append_right _ List.mem_cons_self, rfl, rfl⟩

theorem does (h : Standing x o σ) {e : Event} {outer : List Nat} {w : Walk} (hp : e.IsPlain x)
    (hu : ∀ u ∈ e.use? x, u.isBare = true) (he : e.Does ⟨σ, outer⟩ w) : Standing x o w.state := by
  cases hp with
  | global =>
    obtain ⟨he, -⟩ := he
    rw [show w.state = _ from he]
    exact h.evolve rfl (.setKind ..) fun _ hs hs' => by cases hs.symm.trans hs'; rfl
  | declare hy => exact h.declare_other hy he.1
  | use huse =>
    cases huse with
    | read hm => exact h.read he.1
    | update hm => exact h.update he.1
    | @assign t mark y hm =>
      refine h.assign hm ?_ he.1
      rintro rfl
      have hbare := hu _ (Event.use?_assign t hm)
      cases ht : t.isText "=" <;> rw [ht] at hbare <;> cases hbare

end Standing

theorem AnalysisState.Reports.mono {x : String} {σ τ : AnalysisState} (h : σ.Reports x)
    (hd : σ.diagnostics <+: τ.diagnostics) : τ.Reports x :=
  let ⟨d, hmem, hd'⟩ := h
  ⟨d, hd.subset hmem, hd'⟩

namespace Performs

variable {x : String} {es : List Event} {w w' : Walk}

theorem standing {o : Option Bool} (h : Performs es w w') (hes : ∀ e ∈ es, e.IsPlain x ∧ e.use? x = none)
    (hw : Standing x o w.state) : Standing x o w'.state :=
  h.induct (P := fun w => Standing x o w.state) (fun _ _ _ hn hw => hw.notes hn)
    (fun e he w _ hd hw => hw.does (hes e he).1 (by rw [(hes e he).2]; nofun) hd) hw

/-- A variable that is read before it counts as initialised is reported. -/
theorem reported (h : Performs es w w') (hes : ∀ e ∈ es, e.IsPlain x) (hw : Standing x (some false) w.state)
    (hread : .read ∈ (es.filterMap (Event.use? x)).takeWhile Use.isBare) : w'.state.Reports x := by
  induction h with
  | done => simp at hread
  | note hn _ ih => exact ih hes (hw.notes hn) hread
  | @step e es w w₁ w₂ he hs ih =>
    have hplain := hes e List.mem_cons_self
    have hrest := fun e' he' => hes e' (List.mem_cons_of_mem _ he')
    rw [List.filterMap_cons] at hread
    cases hu : e.use? x with
    | none =>
      rw [hu] at hread
      exact ih hrest (hw.does hplain (by rw [hu]; nofun) he) hread
    | some u =>
      rw [hu] at hread
      cases u with
      | read =>
        obtain ⟨mark, rfl, hm⟩ := hplain.eq_read hu
        exact (hw.reports hm he.1).mono hs.diagnostics
      | update =>
        have hw₁ := hw.does hplain (fun u hu' => by rw [hu] at hu'; cases hu'; rfl) he
        rw [List.takeWhile_cons_of_pos (by rfl), List.mem_cons] at hread
        exact ih hrest hw₁ (hread.resolve_left nofun)
      | set | modify => simp [Use.isBare] at hread

end Performs

/-! ### The events of a straight-line program -/

/-- Events that do not mention a variable. -/
def Event.AreSilent (x : String) (es : List Event) : Prop := ∀ e ∈ es, e.IsPlain x ∧ e.use? x = none

/-- Events that declare a variable once, before they mention it otherwise. -/
def Event.Introduce (x : String) (es : List Event) : Prop :=
  ∃ es₁ mark given es₂, es = es₁ ++ .declare mark (.str x) .let given :: es₂ ∧ AreSilent x es₁ ∧
    ∀ e ∈ es₂, e.IsPlain x

namespace Event

variable {x : String} {es es' : List Event}

theorem AreSilent.append (h : AreSilent x es) (h' : AreSilent x es') : AreSilent x (es ++ es') := fun e he =>
  (List.mem_append.1 he).elim (h e) (h' e)

theorem Introduce.append (h : Introduce x es) (h' : ∀ e ∈ es', e.IsPlain x) : Introduce x (es ++ es') := by
  obtain ⟨es₁, mark, given, es₂, rfl, hs, hp⟩ := h
  refine ⟨es₁, mark, given, es₂ ++ es', by simp, hs, fun e he => ?_⟩
  exact (List.mem_append.1 he).elim (hp e) (h' e)

theorem Introduce.after (h : AreSilent x es) (h' : Introduce x es') : Introduce x (es ++ es') := by
  obtain ⟨es₁, mark, given, es₂, rfl, hs, hp⟩ := h'
  exact ⟨es ++ es₁, mark, given, es₂, by simp, h.append hs, hp⟩

/-- How a list of events treats a variable, in dependence of whether it is declared before and after. -/
structure Treat (x : String) (Γ : List String) (es : List Event) (Δ : List String) : Prop where
  declared : x ∈ Γ → x ∈ Δ ∧ ∀ e ∈ es, e.IsPlain x
  silent : x ∉ Γ → x ∉ Δ → AreSilent x es
  introduce : x ∉ Γ → x ∈ Δ → Introduce x es

theorem Treat.nil {Γ : List String} : Treat x Γ [] Γ :=
  ⟨fun h => ⟨h, by simp⟩, fun _ _ => by simp [AreSilent], fun h h' => absurd h' h⟩

theorem Treat.append {Γ Γ' Δ : List String} (h : Treat x Γ es Γ') (h' : Treat x Γ' es' Δ) :
    Treat x Γ (es ++ es') Δ where
  declared hx :=
    let ⟨hΓ', hp⟩ := h.declared hx
    let ⟨hΔ, hp'⟩ := h'.declared hΓ'
    ⟨hΔ, fun e he => (List.mem_append.1 he).elim (hp e) (hp' e)⟩
  silent hx hΔ :=
    have hΓ' : x ∉ Γ' := fun hΓ' => hΔ (h'.declared hΓ').1
    (h.silent hx hΓ').append (h'.silent hΓ' hΔ)
  introduce hx hΔ := by
    by_cases hΓ' : x ∈ Γ'
    · exact (h.introduce hx hΓ').append (h'.declared hΓ').2
    · exact .after (h.silent hx hΓ') (h'.introduce hΓ' hΔ)

end Event

namespace Node

variable {Γ Δ : List String} {n : Node} {x : String}

theorem mem_eventsAll {e : Event} {ns : List Node} : e ∈ eventsAll ns ↔ ∃ n ∈ ns, e ∈ n.events := by
  induction ns with
  | nil => simp [eventsAll]
  | cons n ns ih => simp [eventsAll, ih]

theorem Straight.isUse (h : n.Straight Γ) : ∀ e ∈ n.events, ∃ y, (y ∈ Γ ∨ y = "console") ∧ e.IsUse y := by
  induction h with
  | literal => simp [events]
  | identifier hm hx =>
    simp only [events, List.mem_singleton, forall_eq]
    exact ⟨_, .inl hx, .read hm⟩
  | unary _ _ ih => simpa only [events] using ih
  | void _ ih => simpa only [events] using ih
  | binary _ _ _ ih₁ ih₂ =>
    simp only [events, List.mem_append]
    exact fun e he => he.elim (ih₁ e) (ih₂ e)
  | assign hm hx _ ih =>
    simp only [events, eventsOr, List.mem_append, List.mem_singleton]
    rintro e (he | rfl)
    · exact ih e he
    · exact ⟨_, .inl hx, .assign hm⟩
  | compound hm hx _ _ ih =>
    simp only [events, eventsOr, List.mem_append, List.mem_singleton]
    rintro e (he | rfl)
    · exact ih e he
    · exact ⟨_, .inl hx, .assign hm⟩
  | update hm hx =>
    simp only [events, eventsOr, List.mem_singleton, forall_eq]
    exact ⟨_, .inl hx, .update hm⟩
  | @print mark mark₁ mark₂ method ns hm _ ih =>
    rw [events]
    intro e he
    rcases List.mem_append.1 he with he | he
    · have hcallee : (Node.mk mark₁ (.member false (.mk mark₂ .identifier) method)).events = [.read mark₂] := by
        rw [events, events]
        rfl
      have he' : e ∈ (Node.mk mark₁ (.member false (.mk mark₂ .identifier) method)).events := he
      rw [hcallee] at he'
      cases List.mem_singleton.1 he'
      exact ⟨_, .inr rfl, .read hm⟩
    · obtain ⟨n, hn, he⟩ := mem_eventsAll.1 he
      exact ih n hn e he

theorem Straight.treat (h : n.Straight Γ) (hx : x ≠ "console") : Event.Treat x Γ n.events Γ where
  declared hΓ := ⟨hΓ, fun e he =>
    let ⟨_, _, huse⟩ := h.isUse e he
    .use huse⟩
  silent hΓ _ e he := by
    obtain ⟨y, hy, huse⟩ := h.isUse e he
    have hne : y ≠ x := by
      rintro rfl
      exact hy.elim hΓ hx
    exact ⟨.use huse, huse.use?_of_ne hne⟩
  introduce hΓ hΓ' := absurd hΓ' hΓ

end Node

theorem Event.treat_declare {x y : String} {Γ : List String} (mark : Mark) (given : Bool) (hy : y ∉ Γ) :
    Treat x Γ [.declare mark (.str y) .let given] (y :: Γ) where
  declared hx := by
    have hne : y ≠ x := by
      rintro rfl
      exact hy hx
    simp only [List.mem_singleton, forall_eq]
    exact ⟨List.mem_cons_of_mem _ hx, .declare hne⟩
  silent _ hx' := by
    have hne : y ≠ x := by
      rintro rfl
      exact hx' List.mem_cons_self
    simp only [AreSilent, List.mem_singleton, forall_eq]
    exact ⟨.declare hne, by simp [use?, Tree.isText, hne]⟩
  introduce hx hx' := by
    obtain rfl : x = y := (List.mem_cons.1 hx').resolve_right hx
    exact ⟨[], mark, given, [], rfl, by simp [AreSilent], by simp⟩

theorem Declarator.StraightLine.treat {x : String} {Γ Δ : List String} {ds : List Declarator}
    (h : StraightLine Γ ds Δ) (hx : x ≠ "console") : Event.Treat x Γ (Declarator.eventsAll .let ds) Δ := by
  induction h with
  | nil => exact .nil
  | @bare Γ Δ mark mark' y ds hm hy hΓ _ ih =>
    rw [Declarator.eventsAll, Declarator.events_let hm hy.ne_empty, Node.events]
    exact (Event.treat_declare mark false hΓ).append ih
  | @init Γ Δ mark mark' y n ds hm hy hΓ hn _ ih =>
    rw [Declarator.eventsAll, Declarator.events_let hm hy.ne_empty]
    exact ((hn.treat hx).append (Event.treat_declare mark true hΓ)).append ih

theorem Node.StraightLine.treat {x : String} {Γ Δ : List String} {ns : List Node} (h : Node.StraightLine Γ ns Δ)
    (hx : x ≠ "console") : Event.Treat x Γ (Node.eventsAll ns) Δ := by
  induction h with
  | nil => exact .nil
  | expression hn _ ih =>
    rw [Node.eventsAll, Node.events]
    exact (hn.treat hx).append ih
  | declaration hd _ ih =>
    rw [Node.eventsAll, Node.events]
    exact (hd.treat hx).append ih

theorem Declarator.StraightLine.fresh {Γ Δ : List String} {ds : List Declarator} (h : StraightLine Γ ds Δ)
    (hΓ : ∀ x ∈ Γ, IsFresh x) : ∀ x ∈ Δ, IsFresh x := by
  induction h with
  | nil => exact hΓ
  | bare _ hx _ _ ih => exact ih (List.forall_mem_cons.2 ⟨hx, hΓ⟩)
  | init _ hx _ _ _ ih => exact ih (List.forall_mem_cons.2 ⟨hx, hΓ⟩)

theorem Node.StraightLine.fresh {Γ Δ : List String} {ns : List Node} (h : Node.StraightLine Γ ns Δ)
    (hΓ : ∀ x ∈ Γ, IsFresh x) : ∀ x ∈ Δ, IsFresh x := by
  induction h with
  | nil => exact hΓ
  | expression _ _ ih => exact ih hΓ
  | declaration hd _ ih => exact ih (hd.fresh hΓ)

theorem Node.StraightLine.hoists {Γ Δ : List String} {ns : List Node} (h : Node.StraightLine Γ ns Δ) :
    Node.hoists ns = [] := by
  induction h with
  | nil => rfl
  | expression _ _ ih => exact ih
  | declaration _ _ ih => exact ih

/-! ### Reads that are reported -/

/-- A straight-line program whose variable is read early for the analysis reports it. -/
theorem Event.Introduce.reported {x : String} {es : List Event} {τ : AnalysisState} (hx : IsFresh x)
    (hes : Event.Introduce x es) (h : Performs (.global :: es) ⟨.initial, []⟩ ⟨τ, []⟩)
    (hread : .read ∈ (es.filterMap (Event.use? x)).takeWhile Use.isBare) : τ.Reports x := by
  obtain ⟨es₁, mark, given, es₂, rfl, hsilent, hplain⟩ := hes
  have hnone : es₁.filterMap (Event.use? x) = [] := List.filterMap_eq_nil_iff.2 fun e he => (hsilent e he).2
  rw [List.filterMap_append, hnone, List.nil_append, ← List.singleton_append, List.filterMap_append,
    Event.uses_declare] at hread
  have hbefore : ∀ e ∈ Event.global :: es₁, e.IsPlain x ∧ e.use? x = none :=
    List.forall_mem_cons.2 ⟨⟨.global, rfl⟩, hsilent⟩
  rw [← List.cons_append] at h
  obtain ⟨w₁, h₁, h⟩ := h.split
  obtain ⟨w₂, ⟨ρ, outer⟩, h₂, hdeclare, h₃⟩ := h.cons_inv
  have hw₂ := h₂.standing (by simp) (h₁.standing hbefore (.initial hx))
  have hρ : Standing x (some given) ρ := hw₂.declare_self hdeclare.1
  cases given with
  | false => exact h₃.reported hplain hρ (by simpa using hread)
  | true => simp [Use.isBare] at hread

theorem Node.StraightLine.absent_read_reported {mark : Mark} {ns : List Node} {Δ : List String} {l : Lowered Unit}
    {x : String} {answers : Answers} {m : Machine} {q : Quad} (h : Node.StraightLine [] ns Δ) (hx : x ∈ Δ)
    (hl : (Node.mk mark (.program ns)).lower = .ok l) (ha : (Node.mk mark (.program ns)).analyze.isFatal = false)
    (hm : Machine.Reachable l.code answers m) (hq : l.code[m.pc]? = some q) (hread : .name (mangle x) ∈ q.reads)
    (habsent : m.memory.get? (.text (mangle x)) = none)
    (hseen : .read ∈ ((Node.mk mark (.program ns)).uses x).takeWhile Use.isBare ∨
      ∀ u ∈ ((Node.mk mark (.program ns)).uses x).head?, u = .read ∨ u = .set) :
    ∃ d ∈ (Node.mk mark (.program ns)).analyze.errors,
      d.message = s!"Variable '{x}' is used before being initialized" := by
  have hf : IsFresh x := h.fresh (by simp) x hx
  have hevents : (Node.mk mark (.program ns)).events = .global :: Node.eventsAll ns := by
    rw [Node.events, h.hoists, List.nil_append]
  have huses : (Node.mk mark (.program ns)).uses x = Node.usesAll ns x := by
    rw [Node.uses, hevents]
    rfl
  obtain ⟨r, hr, hcode⟩ := except_bind_eq_ok hl
  cases hcode
  rw [Lower.stmt] at hr
  have hopening := h.opening (by simp) hf hr
  rw [Machine.reachable_renumber] at hm
  rw [Code.getElem?_renumber] at hq
  obtain ⟨q', hq', rfl⟩ := Option.map_eq_some_iff.1 hq
  obtain ⟨hne, hne'⟩ := hopening.opens.of_absent hopening.straight hm hq' hread habsent
  rw [huses] at hseen
  -- in the second case the first use is a read, as a variable that is set first would not be absent
  have hread' : .read ∈ (Node.usesAll ns x).takeWhile Use.isBare := by
    refine hseen.elim id fun hfirst => ?_
    cases hus : Node.usesAll ns x with
    | nil => exact absurd (by rw [hus]; rfl) hne
    | cons u us =>
      rw [hus] at hfirst hne'
      obtain rfl | rfl := hfirst u rfl
      · rw [List.takeWhile_cons_of_pos (by rfl)]
        exact List.mem_cons_self
      · exact absurd rfl hne'
  obtain ⟨τ, hperforms, -, hdiag⟩ := Node.exists_performs ha
  rw [hevents] at hperforms
  obtain ⟨d, hd, hsev, hmessage⟩ :=
    ((h.treat hf.ne_console).introduce (by simp) hx).reported hf hperforms hread'
  refine ⟨d, ?_, hmessage⟩
  rw [Analysis.errors, Diagnostic.errors, hdiag, List.mem_filter]
  exact ⟨List.mem_append_left _ hd, by simp [hsev]⟩

/-- A declaration by `let` of one variable. -/
def Node.letOne (x : String) (given : Bool) (init : Node) : Node :=
  .bare (.declaration .let [.mk { path := "", kind := none, name := none, position := .ok .none } (.named x) given init])

/-- Declares two variables, one without a value, which is then updated and printed. -/
def updateProgram : List Node := [
  .letOne "a" true (.int 1), .letOne "x" false .absent,
  .bare (.expression (.bare (.update (.str "++") false (.named "x")))),
  .bare (.expression (.print [.named "a", .named "x"]))]

def updateCode : Code := Code.renumber [
  Quad.assign (.num (.int 1)) (.name "a"),
  Quad.operator (.unary .pos) (.name "x") .none "t0",
  Quad.operator (.binary .add) (.name "x") (.num (.int 1)) "t1", Quad.assign (.name "t1") (.name "x"),
  Quad.param (.name "a"), Quad.param (.name "x"), Quad.call "console_log" 2 .none]

theorem updateProgram_lower : (Node.bare (.program updateProgram)).lower = .ok ⟨(), updateCode, { temps := 2 }⟩ := by
  cbv

theorem straightLine_updateProgram : Node.StraightLine [] updateProgram ["x", "a"] := by
  have ha : IsFresh "a" := ⟨by decide, by decide, by decide⟩
  have hx : IsFresh "x" := ⟨by decide, by decide, by decide⟩
  refine .declaration (.init rfl ha (by simp) .literal .nil) (.declaration (.bare rfl hx (by simp) .nil) ?_)
  refine .expression (.update rfl (by simp)) (.expression (.print rfl ?_) .nil)
  simp only [List.mem_cons, List.not_mem_nil, or_false, forall_eq_or_imp, forall_eq]
  exact ⟨.identifier rfl (by simp), .identifier rfl (by simp)⟩

theorem Node.StraightLine.absent_read_reported_update : Node.StraightLine [] updateProgram ["x", "a"] ∧
    (∃ m q, Machine.Reachable updateCode .nobody m ∧ updateCode[m.pc]? = some q ∧ .name (mangle "x") ∈ q.reads ∧
      m.memory.get? (.text (mangle "x")) = none) ∧
    ∃ d ∈ (Node.bare (.program updateProgram)).analyze.errors,
      d.message = "Variable 'x' is used before being initialized" := by
  obtain ⟨m, hm, hpc, habsent⟩ : ∃ m, Machine.after updateCode 1 (.start .nobody) = some m ∧ m.pc = 1 ∧
      m.memory.get? (.text (mangle "x")) = none := ⟨_, rfl, rfl, rfl⟩
  have hreach : Machine.Reachable updateCode .nobody m := ⟨1, Machine.steps_of_after hm⟩
  obtain ⟨q, hq, hread⟩ : ∃ q, updateCode[m.pc]? = some q ∧ .name (mangle "x") ∈ q.reads := by
    rw [hpc]
    exact ⟨_, rfl, List.mem_cons_self⟩
  refine ⟨straightLine_updateProgram, ⟨m, q, hreach, hq, hread, habsent⟩, ?_⟩
  exact straightLine_updateProgram.absent_read_reported (by simp) updateProgram_lower (by rfl) hreach hq hread habsent
    (.inl (by decide))

/-- Adds to a variable that has no value, and prints it. -/
def compoundProgram : List Node := [
  .letOne "x" false .absent,
  .bare (.expression (.bare (.assignment (.str "+=") (.named "x") (.int 1)))),
  .bare (.expression (.print [.named "x"]))]

def compoundCode : Code := Code.renumber [
  Quad.operator (.binary .add) (.name "x") (.num (.int 1)) "t0", Quad.assign (.name "t0") (.name "x"),
  Quad.param (.name "x"), Quad.call "console_log" 1 .none]

theorem compoundProgram_lower :
    (Node.bare (.program compoundProgram)).lower = .ok ⟨(), compoundCode, { temps := 1 }⟩ := by
  cbv

/-- The first instruction takes the value of a variable that is absent, and the analysis has found no error. -/
theorem Node.StraightLine.not_reported_compound : Node.StraightLine [] compoundProgram ["x"] ∧
    (Node.bare (.program compoundProgram)).lower = .ok ⟨(), compoundCode, { temps := 1 }⟩ ∧
    (∃ q, compoundCode[(Machine.start .nobody).pc]? = some q ∧ .name (mangle "x") ∈ q.reads ∧
      (Machine.start .nobody).memory.get? (.text (mangle "x")) = none) ∧
    (Node.bare (.program compoundProgram)).analyze.isFatal = false ∧
    (Node.bare (.program compoundProgram)).analyze.errors = [] := by
  have hx : IsFresh "x" := ⟨by decide, by decide, by decide⟩
  refine ⟨?_, compoundProgram_lower, ⟨_, rfl, List.mem_cons_self, rfl⟩, rfl, rfl⟩
  refine .declaration (.bare rfl hx (by simp) .nil) (.expression (.compound rfl (by simp) rfl .literal) ?_)
  refine .expression (.print rfl ?_) .nil
  simp only [List.mem_singleton, forall_eq]
  exact .identifier rfl (by simp)

end QuadScript
