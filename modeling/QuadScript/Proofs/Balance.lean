import QuadScript.Proofs.Placement

/-!
# Arguments and calls are balanced

`Code.Balanced n c`: when `n` arguments are waiting and control enters `c`, every call finds as many arguments as it
says it takes, as far as `c` is read from top to bottom. Arguments are pushed right before their call, with nothing
in between, and a function begins by receiving its parameters behind a jump around it. All emitted code is balanced
(`Emits.balanced`), and so is what is left of it after a boundary between two statements (`Lower.Boundary`).
-/

namespace QuadScript

/-- An instruction that leaves the waiting arguments alone and begins no function. -/
structure Quad.Idle (q : Quad) : Prop where
  param : q.op ≠ .param
  receive : q.op ≠ .receive
  call : q.op ≠ .call
  label : ∀ f, q ≠ Quad.label (functionMark ++ f)

namespace Quad.Idle

theorem of_op {q : Quad} (h : q.op ∉ [.param, .receive, .call, .label]) : q.Idle := by
  simp only [List.mem_cons, List.not_mem_nil, or_false, not_or] at h
  exact ⟨h.1, h.2.1, h.2.2.1, fun f hf => h.2.2.2 (by rw [hf]; rfl)⟩

theorem of_head {s : String} (hs : s.toList.head? ≠ some 'F') : (Quad.label s).Idle := by
  refine ⟨nofun, nofun, nofun, fun f hf => hs ?_⟩
  rw [Target.name.inj (congrArg Quad.result hf), head_functionMark]

theorem drawn (k : Nat) : (Quad.label (labelName k)).Idle := of_head (by rw [head_labelName]; decide)

theorem finish (f : String) : (Quad.label (endMark ++ f)).Idle := of_head (by rw [head_endMark]; decide)

end Quad.Idle

namespace Code

/-- Code that is entered with a number of waiting arguments, all of which its first call takes. -/
inductive Balanced : Nat → Code → Prop
  | nil : Balanced 0 []
  | idle {q : Quad} {c : Code} : q.Idle → Balanced 0 c → Balanced 0 (q :: c)
  | param {n : Nat} {a : Operand} {c : Code} : Balanced (n + 1) c → Balanced n (Quad.param a :: c)
  | call {n : Nat} {f : String} {x : Target} {c : Code} : Balanced 0 c → Balanced n (Quad.call f n x :: c)
  | function {f s : String} {xs : List Target} {c : Code} : Balanced 0 c →
      Balanced 0 (Quad.goto s :: Quad.label (functionMark ++ f) :: (xs.map Quad.receive ++ c))

variable {code c d : Code} {n n' : Nat} {as : List Operand} {q : Quad}

namespace Balanced

theorem append (h : Balanced n c) (hd : Balanced 0 d) : Balanced n (c ++ d) := by
  induction h with
  | nil => exact hd
  | idle hq _ ih => exact .idle hq ih
  | param _ ih => exact .param ih
  | call _ ih => exact .call ih
  | function _ ih =>
    rw [List.cons_append, List.cons_append, List.append_assoc]
    exact .function ih

theorem params (h : Balanced (n + as.length) c) : Balanced n (as.map Quad.param ++ c) := by
  induction as generalizing n with
  | nil => exact h
  | cons a as ih =>
    refine .param (ih ?_)
    rwa [List.length_cons, Nat.add_comm as.length 1, ← Nat.add_assoc] at h

theorem eq_zero (h : Balanced n (q :: c)) (hparam : q.op ≠ .param) (hcall : q.op ≠ .call) : n = 0 := by
  cases h with
  | idle => rfl
  | param => exact absurd rfl hparam
  | call => exact absurd rfl hcall
  | function => rfl

theorem of_idle (h : Balanced n (q :: c)) (hop : q.op ∉ [.param, .call, .goto]) : Balanced 0 c := by
  cases h with
  | idle _ h => exact h
  | _ => simp at hop

theorem of_param (h : Balanced n (q :: c)) (hq : q.op = .param) : Balanced (n + 1) c := by
  cases h with
  | idle hidle => exact absurd hq hidle.param
  | param h => exact h
  | call => cases hq
  | function => cases hq

theorem of_call (h : Balanced n (q :: c)) (hq : q.op = .call) : (∃ f x, q = Quad.call f n x) ∧ Balanced 0 c := by
  cases h with
  | idle hidle => exact absurd hq hidle.call
  | param => cases hq
  | @call _ f x _ h => exact ⟨⟨f, x, rfl⟩, h⟩
  | function => cases hq

theorem not_label {f : String} (h : Balanced n (q :: c)) : q ≠ Quad.label (functionMark ++ f) := by
  cases h with
  | idle hq => exact hq.label f
  | _ => rintro ⟨⟩

theorem not_receive (h : Balanced n (q :: c)) : q.op ≠ .receive := by
  cases h with
  | idle hq => exact hq.receive
  | _ => rintro ⟨⟩

theorem unique (h : Balanced n c) (h' : Balanced n' c) : n = n' := by
  induction h generalizing n' with
  | nil => cases h'; rfl
  | idle hq _ _ => exact (h'.eq_zero hq.param hq.call).symm
  | param _ ih => exact Nat.succ.inj (ih (h'.of_param rfl))
  | call _ _ =>
    obtain ⟨⟨f, x, hq⟩, -⟩ := h'.of_call rfl
    have hcount := congrArg Quad.arg2 hq
    simp only [Quad.call_arg2, Operand.num.injEq, Number.int.injEq] at hcount
    omega
  | function _ _ => exact (h'.eq_zero nofun nofun).symm

end Balanced

/-- The rest of the head of a function, with a number of parameters to be received. -/
inductive Receiving : Nat → Code → Prop
  | body {c : Code} : Balanced 0 c → Receiving 0 c
  | receive {k : Nat} {x : Target} {c : Code} : Receiving k c → Receiving (k + 1) (Quad.receive x :: c)

theorem Balanced.receiving (h : Balanced 0 c) (xs : List Target) : Receiving xs.length (xs.map Quad.receive ++ c) := by
  induction xs with
  | nil => exact .body h
  | cons x xs ih => exact .receive ih

/-- How balanced code goes on from one of its places. -/
inductive Resumes : Code → Prop
  | balanced {n : Nat} {c : Code} : Balanced n c → Resumes c
  | entering {k : Nat} {f : String} {c : Code} : Receiving k c → Resumes (Quad.label (functionMark ++ f) :: c)
  | receiving {k : Nat} {c : Code} : Receiving (k + 1) c → Resumes c

theorem Resumes.drop_receives (hc : ∀ p, Resumes (c.drop p)) (h : Balanced 0 c) (xs : List Target) (p : Nat) :
    Resumes ((xs.map Quad.receive ++ c).drop p) := by
  induction xs generalizing p with
  | nil => exact hc p
  | cons x xs ih =>
    cases p with
    | zero => exact .receiving (.receive (h.receiving xs))
    | succ p => exact ih p

theorem Balanced.drop (h : Balanced n c) (p : Nat) : Resumes (c.drop p) := by
  induction h generalizing p with
  | nil => rw [List.drop_nil]; exact .balanced .nil
  | idle hq h ih =>
    cases p with
    | zero => exact .balanced (.idle hq h)
    | succ p => exact ih p
  | param h ih =>
    cases p with
    | zero => exact .balanced (.param h)
    | succ p => exact ih p
  | call h ih =>
    cases p with
    | zero => exact .balanced (.call h)
    | succ p => exact ih p
  | @function f s xs c h ih =>
    rcases p with _ | _ | p
    · exact .balanced (.function h)
    · exact .entering (h.receiving xs)
    · exact .drop_receives ih h xs p

theorem drop_of_getElem? {p : Nat} (hq : code[p]? = some q) : code.drop p = q :: code.drop (p + 1) := by
  obtain ⟨hp, rfl⟩ := List.getElem?_eq_some_iff.1 hq
  exact List.drop_eq_getElem_cons hp

theorem Resumes.cons_inv (h : Resumes (q :: c)) : (∃ n, Balanced n (q :: c)) ∨
    (∃ f k, q = Quad.label (functionMark ++ f) ∧ Receiving k c) ∨ ∃ x k, q = Quad.receive x ∧ Receiving k c := by
  cases h with
  | balanced h => exact .inl ⟨_, h⟩
  | entering h => exact .inr (.inl ⟨_, _, rfl, h⟩)
  | receiving h =>
    cases h with
    | receive h => exact .inr (.inr ⟨_, _, rfl, h⟩)

theorem Balanced.at_place {p : Nat} (h : Balanced n code) (hp : code[p]? = some q) : Resumes (q :: code.drop (p + 1)) :=
  drop_of_getElem? hp ▸ h.drop p

/-- What follows a label: balanced code, or the parameters of the function that begins there. -/
theorem Balanced.of_label {p : Nat} {s : String} (h : Balanced n code) (hp : code[p]? = some (Quad.label s)) :
    Balanced 0 (code.drop p) ∨ ∃ f k, s = functionMark ++ f ∧ Receiving k (code.drop (p + 1)) := by
  rw [drop_of_getElem? hp]
  rcases (h.at_place hp).cons_inv with ⟨k, hbal⟩ | ⟨f, k, hs, hrec⟩ | ⟨x, k, hs, -⟩
  · rw [hbal.eq_zero nofun nofun] at hbal
    exact .inl hbal
  · exact .inr ⟨f, k, Target.name.inj (congrArg Quad.result hs), hrec⟩
  · cases hs

theorem Balanced.after_call {p : Nat} (h : Balanced n code) (hp : code[p]? = some q) (hq : q.op = .call) :
    Balanced 0 (code.drop (p + 1)) := by
  rcases (h.at_place hp).cons_inv with ⟨k, hbal⟩ | ⟨f, k, rfl, -⟩ | ⟨x, k, rfl, -⟩
  · exact (hbal.of_call hq).2
  · cases hq
  · cases hq

end Code

/-! ### Emitted code -/

section
variable {P : Operand → Prop} {Q : Target → Prop} {loop : Option Loop} {t l t' l' : Nat} {c : Code} {as : List Operand}
  {fs : List String}

open Code

theorem balanced_call (f : String) (x : Target) : Balanced 0 (as.map Quad.param ++ [Quad.call f as.length x]) := by
  refine .params ?_
  rw [Nat.zero_add]
  exact .call .nil

theorem Evaluates.balanced (h : Evaluates P Q t l c as t' l') : Balanced 0 c := by
  induction h with
  | nothing => exact .nil
  | operand => exact .nil
  | append _ _ ih₁ ih₂ => exact ih₁.append ih₂
  | forget _ _ ih => exact ih
  | assign _ _ _ _ ih => exact ih.append (.idle (.of_op (by simp)) .nil)
  | operator _ _ _ ih => exact ih.append (.idle (.of_op (by simp)) .nil)
  | print _ ih => exact ih.append (balanced_call _ _)
  | call _ ih => exact ih.append (balanced_call _ _)
  | skip _ _ _ ih₁ ih₂ =>
    exact ih₁.append (.idle (.of_op (by simp)) (ih₂.append (.idle (.drawn _) .nil)))
  | choose _ _ _ _ ih₁ ih₂ ih₃ =>
    exact ih₁.append (.idle (.of_op (by simp)) (ih₂.append (.idle (.of_op (by simp)) (.idle (.drawn _)
      (ih₃.append (.idle (.drawn _) .nil))))))

theorem balanced_exitTest (exit : String) (a : Option Operand) : Balanced 0 (exitTest exit a) := by
  cases a with
  | none => exact .nil
  | some b => exact .idle (.of_op (by simp)) .nil

theorem Emits.balanced (h : Emits P Q loop t l c fs t' l') : Balanced 0 c := by
  induction h with
  | expression h => exact h.balanced
  | append _ _ ih₁ ih₂ => exact ih₁.append ih₂
  | branch h _ _ _ ih₁ ih₂ =>
    exact h.balanced.append (.idle (.of_op (by simp)) (ih₁.append (.idle (.of_op (by simp)) (.idle (.drawn _)
      (ih₂.append (.idle (.drawn _) .nil))))))
  | «while» h _ _ ih =>
    exact .idle (.drawn _) (h.balanced.append (.idle (.of_op (by simp)) (ih.append
      (.idle (.of_op (by simp)) (.idle (.drawn _) .nil)))))
  | «for» h _ _ h' ih =>
    exact .idle (.drawn _) (h.balanced.append ((balanced_exitTest _ _).append (ih.append (.idle (.drawn _) (h'.balanced.append
      (.idle (.of_op (by simp)) (.idle (.drawn _) .nil)))))))
  | «break» => exact .idle (.of_op (by simp)) .nil
  | «continue» => exact .idle (.of_op (by simp)) .nil
  | «return» h _ => exact h.balanced.append (.idle (.of_op (by simp)) .nil)
  | function _ _ _ ih => exact .function (ih.append (.idle (.of_op (by simp)) (.idle (.finish _) .nil)))

end

/-! ### Boundaries of statements -/

namespace Lower

open Code

variable {loop : Option Loop} {s : Supply} {r : Lowered Unit} {n : Node} {ns : List Node}

theorem stmts_single : stmts loop [n] s = .ok r ↔ stmt loop n s = .ok r := by
  rw [stmts_cons]
  constructor
  · rintro ⟨a, ha, b, hb, rfl⟩
    cases stmts_nil.1 hb
    simpa using ha
  · exact fun h => ⟨r, h, _, stmts_nil.2 rfl, by simp⟩

theorem balanced_expr {r : Lowered Operand} (h : expr n s = .ok r) : Balanced 0 r.code :=
  (expr_evaluates (N := fun _ => True) (p := False) nofun n nofun h).balanced

theorem balanced_stmt (h : stmt loop n s = .ok r) : Balanced 0 r.code :=
  (stmt_emits (N := fun _ => True) (p := False) nofun n nofun h).balanced

theorem balanced_stmts (h : stmts loop ns s = .ok r) : Balanced 0 r.code :=
  (stmts_emits (N := fun _ => True) (p := False) nofun ns nofun h).balanced

/-- `Boundary loop ns s c`: the code `c` of the statements `ns` goes from their beginning to a place where one of them,
or one inside of them, begins or ends. -/
inductive Boundary : Option Loop → List Node → Supply → Code → Prop
  | first {loop : Option Loop} {ns : List Node} {s : Supply} : Boundary loop ns s []
  | next {loop : Option Loop} {n : Node} {ns : List Node} {s : Supply} {a : Lowered Unit} {c : Code} :
      stmt loop n s = .ok a → Boundary loop ns a.supply c → Boundary loop (n :: ns) s (a.code ++ c)
  | inside {loop : Option Loop} {n : Node} {ns : List Node} {s : Supply} {c : Code} :
      Boundary loop [n] s c → Boundary loop (n :: ns) s c
  | program {loop : Option Loop} {mark : Mark} {body : List Node} {s : Supply} {c : Code} :
      Boundary loop body s c → Boundary loop [.mk mark (.program body)] s c
  | block {loop : Option Loop} {mark : Mark} {body : List Node} {s : Supply} {c : Code} :
      Boundary loop body s c → Boundary loop [.mk mark (.block body)] s c
  | consequent {loop : Option Loop} {mark : Mark} {test consequent alternate : Node} {s : Supply}
      {a : Lowered Operand} {c : Code} :
      expr test (s.drawLabels 2) = .ok a → Boundary loop [consequent] a.supply c →
      Boundary loop [.mk mark (.if test consequent alternate)] s
        (a.code ++ Quad.jumpIfFalse a.value (labelName s.labels) :: c)
  | alternate {loop : Option Loop} {mark : Mark} {test consequent alternate : Node} {s : Supply}
      {a : Lowered Operand} {b : Lowered Unit} {c : Code} :
      expr test (s.drawLabels 2) = .ok a → stmt loop consequent a.supply = .ok b →
      Boundary loop [alternate] b.supply c →
      Boundary loop [.mk mark (.if test consequent alternate)] s
        (a.code ++ Quad.jumpIfFalse a.value (labelName s.labels) :: (b.code ++
          Quad.goto (labelName (s.labels + 1)) :: Quad.label (labelName s.labels) :: c))
  | while {loop : Option Loop} {mark : Mark} {test body : Node} {s : Supply} {a : Lowered Operand} {c : Code} :
      expr test (s.drawLabels 2) = .ok a →
      Boundary (some ⟨labelName s.labels, labelName (s.labels + 1)⟩) [body] a.supply c →
      Boundary loop [.mk mark (.while test body)] s
        (Quad.label (labelName s.labels) :: (a.code ++ Quad.jumpIfFalse a.value (labelName (s.labels + 1)) :: c))
  | for {loop : Option Loop} {mark : Mark} {init test update body : Node} {s : Supply} {i t : Lowered Unit} {c : Code} :
      forInit init s = .ok i → forTest test (labelName (i.supply.labels + 2)) (i.supply.drawLabels 3) = .ok t →
      Boundary (some ⟨labelName (i.supply.labels + 1), labelName (i.supply.labels + 2)⟩) [body] t.supply c →
      Boundary loop [.mk mark (.for init test update body)] s
        (i.code ++ Quad.label (labelName i.supply.labels) :: (t.code ++ c))
  | function {loop : Option Loop} {mark : Mark} {id : Node} {params : List Param} {body : Node} {s s' : Supply}
      {f : String} {xs : List Target} {b : Lowered Unit} {c : Code} :
      stmt loop (.mk mark (.function id params body)) s = .ok ⟨(), functionCode f xs b.code, b.supply⟩ →
      stmt none body s' = .ok b → Boundary none [body] s' c →
      Boundary loop [.mk mark (.function id params body)] s
        (Quad.goto (endMark ++ f) :: Quad.label (functionMark ++ f) :: (xs.map Quad.receive ++ c))

theorem Boundary.exists_rest {c : Code} (h : Boundary loop ns s c) (hr : stmts loop ns s = .ok r) :
    ∃ d, r.code = c ++ d ∧ Balanced 0 d := by
  -- along the boundary: the rest is that of the inner code, and what the statement around it emits behind it
  induction h generalizing r with
  | first => exact ⟨r.code, rfl, balanced_stmts hr⟩
  | next ha _ ih =>
    obtain ⟨a', ha', b, hb, rfl⟩ := stmts_cons.1 hr
    cases ha.symm.trans ha'
    obtain ⟨d, hd, hbal⟩ := ih hb
    exact ⟨d, by rw [hd, List.append_assoc], hbal⟩
  | inside _ ih =>
    obtain ⟨a, ha, b, hb, rfl⟩ := stmts_cons.1 hr
    obtain ⟨d, hd, hbal⟩ := ih (stmts_single.2 ha)
    exact ⟨d ++ b.code, by rw [hd, List.append_assoc], hbal.append (balanced_stmts hb)⟩
  | program _ ih =>
    rw [stmts_single, stmt] at hr
    exact ih hr
  | block _ ih =>
    rw [stmts_single, stmt] at hr
    exact ih hr
  | consequent ha _ ih =>
    rw [stmts_single] at hr
    obtain ⟨a', ha', b, hb, e, he, rfl⟩ := stmt_if.1 hr
    cases ha.symm.trans ha'
    obtain ⟨d, hd, hbal⟩ := ih (stmts_single.2 hb)
    refine ⟨_, by simp only [hd, List.append_assoc, List.cons_append]; rfl, hbal.append ?_⟩
    exact .idle (.of_op (by simp)) (.idle (.drawn _) ((balanced_stmt he).append (.idle (.drawn _) .nil)))
  | alternate ha hb _ ih =>
    rw [stmts_single] at hr
    obtain ⟨a', ha', b', hb', e, he, rfl⟩ := stmt_if.1 hr
    cases ha.symm.trans ha'
    cases hb.symm.trans hb'
    obtain ⟨d, hd, hbal⟩ := ih (stmts_single.2 he)
    refine ⟨_, by simp only [hd, List.append_assoc, List.cons_append]; rfl, hbal.append ?_⟩
    exact .idle (.drawn _) .nil
  | «while» ha _ ih =>
    rw [stmts_single] at hr
    obtain ⟨a', ha', b, hb, rfl⟩ := stmt_while.1 hr
    cases ha.symm.trans ha'
    obtain ⟨d, hd, hbal⟩ := ih (stmts_single.2 hb)
    refine ⟨_, by simp only [hd, List.append_assoc, List.cons_append]; rfl, hbal.append ?_⟩
    exact .idle (.of_op (by simp)) (.idle (.drawn _) .nil)
  | «for» hi ht _ ih =>
    rw [stmts_single] at hr
    obtain ⟨i', hi', t', ht', b, hb, u, hu, rfl⟩ := stmt_for.1 hr
    cases hi.symm.trans hi'
    cases ht.symm.trans ht'
    obtain ⟨d, hd, hbal⟩ := ih (stmts_single.2 hb)
    refine ⟨_, by simp only [hd, List.append_assoc, List.cons_append]; rfl, hbal.append ?_⟩
    exact .idle (.drawn _) ((balanced_expr hu).append (.idle (.of_op (by simp)) (.idle (.drawn _) .nil)))
  | function hf hb _ ih =>
    rw [stmts_single] at hr
    cases hf.symm.trans hr
    obtain ⟨d, hd, hbal⟩ := ih (stmts_single.2 hb)
    refine ⟨_, by simp only [functionCode, hd, List.append_assoc, List.cons_append]; rfl, hbal.append ?_⟩
    exact .idle (.of_op (by simp)) (.idle (.finish _) .nil)

end Lower

end QuadScript
