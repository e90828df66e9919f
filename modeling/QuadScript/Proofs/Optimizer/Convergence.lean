import QuadScript.Proofs.CallingConvention
import QuadScript.Proofs.Optimizer.Thinning

/-!
# Passes come to an end

Each of the three rewrites of a pass makes the code lighter or leaves it as it is, and its flag tells which
(`Code.Lightens`): a name that is replaced becomes a constant, an operator that is folded becomes an assignment, and an
instruction that is dropped is gone. An instruction weighs at most four, so after four times as many passes as there
are instructions the code is one that a pass leaves as it is. Passes do not look at the positions that instructions
know, so renumbering between two runs of the optimizer does not matter (`Code.optimize_renumber`), and two runs are
one run with the sum of their passes (`Code.optimize_bind_optimize`).
-/

namespace QuadScript

/-! ### Weights -/

def Operand.isName : Operand → Bool
  | .name _ => true
  | _ => false

def Op.isOperator : Op → Bool
  | .operator _ => true
  | _ => false

/-- What a pass can still do to an instruction: replace two names, fold an operator, drop it. -/
def Quad.weight (q : Quad) : Nat := 1 + q.arg1.isName.toNat + q.arg2.isName.toNat + q.op.isOperator.toNat

theorem Quad.weight_le (q : Quad) : q.weight ≤ 4 := by
  have h₁ := q.arg1.isName.toNat_le
  have h₂ := q.arg2.isName.toNat_le
  have h₃ := q.op.isOperator.toNat_le
  unfold weight
  omega

theorem Quad.weight_pos (q : Quad) : 0 < q.weight := by
  unfold weight
  omega

namespace Code

def weight (code : Code) : Nat := (code.map Quad.weight).sum

@[simp] theorem weight_nil : weight [] = 0 := rfl

@[simp] theorem weight_cons (q : Quad) (code : Code) : weight (q :: code) = q.weight + code.weight := rfl

theorem weight_le (code : Code) : code.weight ≤ 4 * code.length := by
  induction code with
  | nil => exact Nat.le_refl 0
  | cons q code ih =>
    have hq := q.weight_le
    rw [weight_cons, List.length_cons]
    omega

theorem eq_nil_of_weight {code : Code} (h : code.weight = 0) : code = [] := by
  cases code with
  | nil => rfl
  | cons q code =>
    have hq := q.weight_pos
    rw [weight_cons] at h
    omega

/-- A rewrite and its flag: without the flag the code is as it was, with it the code is lighter. -/
structure Lightens (code : Code) (r : Code × Bool) : Prop where
  same : r.2 = false → r.1 = code
  lighter : r.2 = true → r.1.weight < code.weight

namespace Lightens

variable {code : Code} {q q' : Quad} {b : Bool} {r r' : Code × Bool}

theorem weight_le (h : code.Lightens r) : r.1.weight ≤ code.weight := by
  cases hr : r.2 with
  | false => rw [h.same hr]
  | true => exact Nat.le_of_lt (h.lighter hr)

theorem trans (h : code.Lightens r) (h' : r.1.Lightens r') : code.Lightens (r'.1, r.2 || r'.2) where
  same hflag := by
    obtain ⟨hr, hr'⟩ := Bool.or_eq_false_iff.1 hflag
    exact (h'.same hr').trans (h.same hr)
  lighter hflag := by
    rcases Bool.or_eq_true_iff.1 hflag with hr | hr'
    · exact Nat.lt_of_le_of_lt h'.weight_le (h.lighter hr)
    · exact Nat.lt_of_lt_of_le (h'.lighter hr') h.weight_le

theorem nil : Lightens [] ([], false) := ⟨fun _ => rfl, fun h => by cases h⟩

theorem cons (hsame : b = false → q' = q) (hlighter : b = true → q'.weight < q.weight) (h : code.Lightens r) :
    Lightens (q :: code) (q' :: r.1, b || r.2) where
  same hflag := by
    obtain ⟨hb, hr⟩ := Bool.or_eq_false_iff.1 hflag
    rw [hsame hb, h.same hr]
  lighter hflag := by
    have hcode := h.weight_le
    have hq : q'.weight ≤ q.weight := by
      cases b with
      | false => rw [hsame rfl]
      | true => exact Nat.le_of_lt (hlighter rfl)
    rw [weight_cons, weight_cons]
    rcases Bool.or_eq_true_iff.1 hflag with hb | hr
    · have hlt := hlighter hb
      omega
    · have hlt := h.lighter hr
      omega

end Lightens

end Code

/-! ### Propagation -/

/-- What is known are constants. -/
structure Facts.Constant (facts : Facts) : Prop where
  temps : ∀ t a, facts.temps.get? t = some a → a.isLiteral = true
  names : ∀ x a, facts.names.get? (.text x) = some a → a.isLiteral = true

namespace Facts.Constant

variable {facts facts' : Facts} {a : Operand}

theorem empty : Constant {} where
  temps t a h := by cases h
  names x a h := by cases h

theorem after {place : Nat} {q : Quad} (hfacts : facts.Constant) (h : facts.after place q = .ok facts') :
    facts'.Constant where
  temps t a ht := by
    rcases Facts.temps_after h ht with ⟨-, -, hlit, -⟩ | ht
    · exact hlit
    · exact hfacts.temps t a ht
  names x a hx := by
    rcases Facts.names_after h hx with ⟨-, -, hlit, -⟩ | ⟨hx, -⟩
    · exact hlit
    · exact hfacts.names x a hx

theorem isName_eq_false (h : a.isLiteral = true) : a.isName = false := by
  cases a with
  | name s => cases h
  | _ => rfl

theorem replace (hfacts : facts.Constant) (a : Operand) :
    facts.replace a = (a, false) ∨
      a.isName = true ∧ ∃ b : Operand, b.isName = false ∧ facts.replace a = (b, true) := by
  cases a with
  | name s =>
    cases hs : facts.known? s with
    | none => exact .inl (by simp only [Facts.replace, hs])
    | some b =>
      have hlit : b.isLiteral = true := by
        rcases Facts.known?_eq_some hs with ht | hx
        · exact hfacts.temps s b ht
        · exact hfacts.names s b hx
      exact .inr ⟨rfl, b, isName_eq_false hlit, by simp only [Facts.replace, hs]⟩
  | _ => exact .inl rfl

theorem propagate (hfacts : facts.Constant) (q : Quad) :
    ((q.propagate facts).2 = false → (q.propagate facts).1 = q) ∧
      ((q.propagate facts).2 = true → (q.propagate facts).1.weight < q.weight) := by
  unfold Quad.propagate
  split
  · exact ⟨fun _ => rfl, fun h => by cases h⟩
  · rcases hfacts.replace q.arg1 with h₁ | ⟨hname₁, a, ha, h₁⟩ <;>
      rcases hfacts.replace q.arg2 with h₂ | ⟨hname₂, b, hb, h₂⟩ <;>
      simp [Quad.weight, *]

end Facts.Constant

/-! ### Folding -/

/-- A folded instruction has lost its operator, and its operand is none or the first one. -/
theorem Quad.weight_fold? {q q' : Quad} (h : q.fold? = .ok (some q')) : q'.weight < q.weight := by
  obtain ⟨op, a, hop, ha, rfl⟩ := fold?_eq_some h
  have hname : a.isName.toNat ≤ q.arg1.isName.toNat := by
    rcases folded_operand ha with rfl | ⟨v, hv⟩
    · exact Nat.le_refl _
    · cases a with
      | name s => cases hv
      | _ => exact Nat.zero_le _
  have hop' : q.op.isOperator = true := by rw [hop]; rfl
  calc weight { op := .assign, arg1 := a, result := q.result, index := q.index }
      = 1 + a.isName.toNat := rfl
    _ < 1 + q.arg1.isName.toNat + q.arg2.isName.toNat + q.op.isOperator.toNat := by
      rw [hop', Bool.toNat_true]
      omega

namespace Code

variable {code code' : Code} {r : Code × Bool}

theorem lightens_propagateFrom {facts : Facts} (hfacts : facts.Constant) (h : propagateFrom facts code = .ok r) :
    code.Lightens r := by
  induction code generalizing facts r with
  | nil =>
    cases h
    exact .nil
  | cons q code ih =>
    rw [propagateFrom_cons] at h
    obtain ⟨facts', hafter, h⟩ := except_bind_eq_ok h
    obtain ⟨r', hr', h⟩ := except_bind_eq_ok h
    cases h
    obtain ⟨hsame, hlighter⟩ := hfacts.propagate q
    exact .cons hsame hlighter (ih (hfacts.after hafter) hr')

theorem lightens_fold (h : code.fold = .ok r) : code.Lightens r := by
  induction code generalizing r with
  | nil =>
    cases h
    exact .nil
  | cons q code ih =>
    rw [fold_cons] at h
    obtain ⟨q', hq', h⟩ := except_bind_eq_ok h
    obtain ⟨r', hr', h⟩ := except_bind_eq_ok h
    cases h
    cases q' with
    | none => exact .cons (fun _ => rfl) (fun h => by cases h) (ih hr')
    | some q' => exact .cons (fun h => by cases h) (fun _ => Quad.weight_fold? hq') (ih hr')

/-! ### Dead temporaries -/

theorem filter_eq_or_weight_lt (p : Quad → Bool) (code : Code) :
    code.filter p = code ∨ (code.filter p).length < code.length ∧ weight (code.filter p) < code.weight := by
  induction code with
  | nil => exact .inl rfl
  | cons q code ih =>
    have hlength := List.length_filter_le p code
    have hq := q.weight_pos
    cases hp : p q with
    | true =>
      rw [List.filter_cons_of_pos hp]
      rcases ih with ih | ⟨hlt, hweight⟩
      · rw [ih]
        exact .inl rfl
      · simp only [List.length_cons, weight_cons]
        exact .inr (by omega)
    | false =>
      rw [List.filter_cons_of_neg (by simp [hp])]
      simp only [List.length_cons, weight_cons]
      rcases ih with ih | ⟨hlt, hweight⟩
      · rw [ih]
        exact .inr (by omega)
      · exact .inr (by omega)

theorem lightens_dropDead (code : Code) : code.Lightens code.dropDead := by
  unfold dropDead
  rcases filter_eq_or_weight_lt (Quad.isLive code.usedTemps) code with h | ⟨hlt, hweight⟩
  · exact ⟨fun _ => h, fun hflag => by simp [h] at hflag⟩
  · exact ⟨fun hflag => by simp [Nat.ne_of_lt hlt] at hflag, fun _ => hweight⟩

/-! ### Passes -/

theorem pass_eq (code : Code) : code.pass = code.propagate >>= fun p => p.1.fold >>= fun f =>
    .ok (f.1.dropDead.1, p.2 || f.2 || f.1.dropDead.2) := rfl

theorem lightens_pass (h : code.pass = .ok r) : code.Lightens r := by
  obtain ⟨p, hp, h⟩ := except_bind_eq_ok h
  obtain ⟨f, hf, h⟩ := except_bind_eq_ok h
  cases h
  exact ((lightens_propagateFrom .empty hp).trans (lightens_fold hf)).trans (lightens_dropDead f.1)

theorem eq_of_pass (h : code.pass = .ok (code', false)) : code' = code := (lightens_pass h).same rfl

theorem passes_succ (n : Nat) (code : Code) :
    passes (n + 1) code = code.pass >>= fun r => if r.2 then passes n r.1 else .ok r.1 := rfl

theorem passes_of_pass (h : code.pass = .ok (code, false)) (n : Nat) : passes n code = .ok code := by
  cases n with
  | zero => rfl
  | succ n =>
    rw [passes_succ, h]
    rfl

theorem passes_add (m n : Nat) (code : Code) : passes (m + n) code = passes m code >>= passes n := by
  induction m generalizing code with
  | zero =>
    rw [Nat.zero_add]
    rfl
  | succ m ih =>
    rw [Nat.succ_add, passes_succ, passes_succ]
    cases hr : code.pass with
    | error f => rfl
    | ok r =>
      obtain ⟨code₁, changed⟩ := r
      cases changed with
      | true => exact ih code₁
      | false =>
        obtain rfl := eq_of_pass hr
        exact (passes_of_pass hr n).symm

/-- As many passes as the code weighs are enough. -/
theorem pass_of_passes {n : Nat} (hn : code.weight ≤ n) (h : passes n code = .ok code') :
    code'.pass = .ok (code', false) := by
  induction n generalizing code with
  | zero =>
    cases h
    rw [eq_nil_of_weight (Nat.le_zero.1 hn)]
    rfl
  | succ n ih =>
    rw [passes_succ] at h
    obtain ⟨⟨code₁, changed⟩, hr, h⟩ := except_bind_eq_ok h
    cases changed with
    | true =>
      have hlt : code₁.weight < code.weight := (lightens_pass hr).lighter rfl
      exact ih (Nat.le_of_lt_succ (Nat.lt_of_lt_of_le hlt hn)) h
    | false =>
      obtain rfl : code₁ = code' := Except.ok.inj h
      obtain rfl := eq_of_pass hr
      exact hr

end Code

/-! ### Positions -/

theorem Quad.fold?_unnumbered (q : Quad) : q.unnumbered.fold? = Except.map (Option.map unnumbered) q.fold? := by
  unfold fold?
  cases hop : q.op with
  | operator op =>
    simp only [unnumbered, hop]
    cases op.folded? q.arg1 q.arg2 with
    | error f => rfl
    | ok c => cases c <;> rfl
  | _ => simp only [unnumbered, hop]; rfl

theorem Quad.propagate_unnumbered (facts : Facts) (q : Quad) :
    q.unnumbered.propagate facts = Prod.map unnumbered id (q.propagate facts) := by
  unfold propagate
  show (if q.op = .call then _ else _) = Prod.map unnumbered id (if q.op = .call then _ else _)
  split <;> rfl

namespace Code

theorem propagateFrom_unnumber (facts : Facts) (code : Code) :
    propagateFrom facts (unnumber code) = Except.map (Prod.map unnumber id) (propagateFrom facts code) := by
  induction code generalizing facts with
  | nil => rfl
  | cons q code ih =>
    rw [unnumber_cons, propagateFrom_cons, propagateFrom_cons, Quad.propagate_unnumbered]
    have hlength : (unnumber code).length = code.length := List.length_map ..
    rw [hlength]
    show (facts.after code.length (q.propagate facts).1 >>= _) = _
    cases facts.after code.length (q.propagate facts).1 with
    | error f => rfl
    | ok facts' =>
      rw [except_ok_bind, except_ok_bind, ih]
      cases propagateFrom facts' code <;> rfl

theorem fold_unnumber (code : Code) : fold code.unnumber = Except.map (Prod.map unnumber id) code.fold := by
  induction code with
  | nil => rfl
  | cons q code ih =>
    rw [unnumber_cons, fold_cons, fold_cons, Quad.fold?_unnumbered, ih]
    cases q.fold? with
    | error f => rfl
    | ok q' =>
      cases fold code with
      | error f => rfl
      | ok r => cases q' <;> rfl

theorem dropDead_unnumber (code : Code) : code.unnumber.dropDead = Prod.map unnumber id code.dropDead := by
  have hused : code.unnumber.usedTemps = code.usedTemps := List.flatMap_map ..
  have hkept : code.unnumber.filter (Quad.isLive code.usedTemps) =
      unnumber (code.filter (Quad.isLive code.usedTemps)) := List.filter_map
  unfold dropDead
  rw [hused, hkept]
  simp only [unnumber, List.length_map, Prod.map_apply, id]

theorem pass_unnumber (code : Code) : code.unnumber.pass = Except.map (Prod.map unnumber id) code.pass := by
  rw [pass_eq, pass_eq, propagate, propagateFrom_unnumber, ← propagate]
  cases code.propagate with
  | error f => rfl
  | ok p =>
    show (fold (unnumber p.1) >>= fun f => _) = Except.map _ (fold p.1 >>= fun f => _)
    rw [fold_unnumber]
    cases fold p.1 with
    | error f => rfl
    | ok f =>
      show Except.ok ((dropDead (unnumber f.1)).1, p.2 || f.2 || (dropDead (unnumber f.1)).2) = _
      rw [dropDead_unnumber]
      rfl

theorem passes_unnumber (n : Nat) (code : Code) : passes n code.unnumber = Except.map unnumber (passes n code) := by
  induction n generalizing code with
  | zero => rfl
  | succ n ih =>
    rw [passes_succ, passes_succ, pass_unnumber]
    cases code.pass with
    | error f => rfl
    | ok r =>
      obtain ⟨code₁, changed⟩ := r
      cases changed with
      | true => exact ih code₁
      | false => rfl

theorem optimize_eq (code : Code) (n : Nat) : code.optimize n = Except.map renumber (passes n code) := by
  unfold optimize
  rw [Int.toNat_natCast]
  cases passes n code <;> rfl

theorem optimize_unnumber (code : Code) (n : Nat) : code.unnumber.optimize n = code.optimize n := by
  rw [optimize_eq, optimize_eq, passes_unnumber]
  cases passes n code with
  | error f => rfl
  | ok code' => exact congrArg Except.ok (renumber_unnumber code')

theorem optimize_renumber (code : Code) (n : Nat) : code.renumber.optimize n = code.optimize n := by
  rw [← optimize_unnumber code.renumber, unnumber_renumber, optimize_unnumber]

/-! ### Runs of the optimizer -/

/-- Two runs are one run with the sum of their passes, also where one of them fails. -/
theorem optimize_bind_optimize (code : Code) (m n : Nat) :
    (code.optimize m >>= fun code' => code'.optimize n) = code.optimize (m + n : Nat) := by
  rw [optimize_eq, optimize_eq, passes_add]
  cases passes m code with
  | error f => rfl
  | ok code' =>
    show code'.renumber.optimize n = Except.map renumber (passes n code')
    rw [optimize_renumber, optimize_eq]

theorem optimize_of_pass {code : Code} (h : code.pass = .ok (code, false)) (n : Nat) :
    code.optimize n = .ok code.renumber := by
  rw [optimize_eq, passes_of_pass h]
  rfl

/-- No pass fails, however many are made. -/
def Passable (code : Code) : Prop := ∀ n, ∃ code', passes n code = .ok code'

/-- Two runs of the optimizer in a row make the passes of both, and four passes for each instruction are enough to
come to code that no further run changes. -/
theorem optimize_converges {code : Code} (hcode : code.Passable) :
    (∀ m n : Nat, ∃ code₁ code₂, code.optimize m = .ok code₁ ∧ code₁.optimize n = .ok code₂ ∧
      code.optimize (m + n : Nat) = .ok code₂) ∧
    ∃ fixed, (∀ m : Nat, 4 * code.length ≤ m → code.optimize m = .ok fixed) ∧
      ∀ cap : Int, fixed.optimize cap = .ok fixed := by
  refine ⟨fun m n => ?_, ?_⟩
  · obtain ⟨code₁, hcode₁⟩ := hcode m
    obtain ⟨code₂, hcode₂⟩ := hcode (m + n)
    have h₁ : code.optimize m = .ok code₁.renumber := by rw [optimize_eq, hcode₁]; rfl
    have h₂ : code.optimize (m + n : Nat) = .ok code₂.renumber := by rw [optimize_eq, hcode₂]; rfl
    refine ⟨code₁.renumber, code₂.renumber, h₁, ?_, h₂⟩
    rw [← h₂, ← optimize_bind_optimize, h₁]
    rfl
  · obtain ⟨last, hlast⟩ := hcode (4 * code.length)
    have hpass := pass_of_passes code.weight_le hlast
    refine ⟨last.renumber, fun m hm => ?_, fun cap => ?_⟩
    · obtain ⟨d, rfl⟩ := Nat.exists_eq_add_of_le hm
      rw [optimize_eq, passes_add, hlast]
      show Except.map renumber (passes d last) = _
      rw [passes_of_pass hpass]
      rfl
    · have hcap : last.renumber.optimize cap = last.renumber.optimize (cap.toNat : Nat) := by
        unfold optimize
        rw [Int.toNat_natCast]
      rw [hcap, optimize_renumber, optimize_of_pass hpass]

theorem passable_of_pass {code last : Code} {k : Nat} (hlast : passes k code = .ok last)
    (hpass : last.pass = .ok (last, false)) : code.Passable := by
  intro n
  rcases Nat.le_total k n with hn | hn <;> obtain ⟨d, rfl⟩ := Nat.exists_eq_add_of_le hn
  · exact ⟨last, by rw [passes_add, hlast]; exact passes_of_pass hpass d⟩
  · rw [passes_add] at hlast
    obtain ⟨code', hcode', -⟩ := except_bind_eq_ok hlast
    exact ⟨code', hcode'⟩

/-- Two passes put a known sum into the place where it is printed and drop its temporary, and the last of the sixteen
that are allowed leave this as it is. -/
theorem optimize_converges_sum : sumCode.Passable ∧ ∃ code₁ code₂ fixed : Code,
    sumCode.optimize 1 = .ok code₁ ∧ code₁.optimize 1 = .ok code₂ ∧ sumCode.optimize 2 = .ok code₂ ∧
    sumCode.length = 4 ∧ code₁.length = 4 ∧ code₂.length = 3 ∧
    sumCode.optimize 16 = .ok fixed ∧ ∀ cap : Int, fixed.optimize cap = .ok fixed := by
  have hcode : sumCode.Passable := passable_of_pass (k := 2) rfl rfl
  obtain ⟨hsum, fixed, hmany, hfixed⟩ := optimize_converges hcode
  obtain ⟨code₁, code₂, h₁, h₂, h₁₂⟩ := hsum 1 1
  have hlength₁ : code₁.length = 4 := by
    rw [← Except.ok.inj h₁]
    rfl
  have hlength₂ : code₂.length = 3 := by
    rw [← Except.ok.inj h₁₂]
    rfl
  exact ⟨hcode, code₁, code₂, fixed, h₁, h₂, h₁₂, rfl, hlength₁, hlength₂, hmany 16 (by decide), hfixed⟩

end Code

end QuadScript
