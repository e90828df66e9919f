import QuadScript.Proofs.Emission
import QuadScript.Proofs.Events

/-!
# Returns and their functions

A return belongs to the innermost function around it. `Node.stops` lists where the walk of a program has to do with
returns, each return with the number of functions around it; which these are and in which order depends on the program
alone. A walk keeps the functions that it is in on a stack, and marks the innermost at a return. The step lemmas below
say of each sort of action that it marks that function exactly if one of its stops is a return at the depth of the
stack (`Analyze.Credit`), so what an analysis says about returns is what its stops call for (`Node.returns_credited`).
-/

namespace QuadScript

/-! ### Returns in a program -/

/-- Where a walk has to do with returns. The depth is the number of functions around. -/
inductive Stop
  | return (mark : Mark) (depth : Nat)
  /-- The body of a function that is no block, and is the result itself. -/
  | result (depth : Nat)
  /-- The end of a function declaration, and whether the function returns. -/
  | function (mark : Mark) (name : Except Fault Tree) (returns : Bool)

namespace Stop

/-- Whether a function whose inside is at that depth returns here. -/
def returnsAt (d : Nat) : Stop → Bool
  | .return _ depth => depth == d
  | .result depth => depth == d
  | .function .. => false

/-- A function declaration with its inside. -/
def declared (mark : Mark) (name : Except Fault Tree) (d : Nat) (inside : List Stop) : List Stop :=
  inside ++ [.function mark name (inside.any (returnsAt (d + 1)))]

end Stop

/-- The stops in the body of a function. -/
def Node.bodyStops (body : Node) (d : Nat) (inside : List Stop) : List Stop :=
  match body with
  | .absent => inside
  | .mk _ (.block _) => inside
  | _ => .result d :: inside

mutual

/-- The stops of a node inside of `d` functions, in the order of the walk. The parameters and the body of a function, a
method or a lambda are one deeper; what else they hold, like the computed name of a method, is not. -/
def Node.stops (d : Nat) : Node → List Stop
  | .absent => []
  | .fault _ => []
  | .mk mark form =>
    match form with
    | .program body => Node.stopsAll d body
    | .block body => Node.stopsAll d body
    | .expression e => e.stops d
    | .declaration _ ds => Declarator.stopsAll d ds
    | .function id params body =>
      Stop.declared mark id.nameTree d
        (Param.stopsAll (d + 1) params ++ body.bodyStops (d + 1) (body.stops (d + 1)))
    | .classDecl _ parent members => parent.stops d ++ Node.stopsAll d members
    | .method computed key params body =>
      (if computed then key.stops d else []) ++
        (Param.stopsAll (d + 1) params ++ body.bodyStops (d + 1) (body.stops (d + 1)))
    | .if test consequent alternate => test.stops d ++ (consequent.stops d ++ alternate.stops d)
    | .while test body => test.stops d ++ body.stops d
    | .for init test update body => init.stops d ++ (test.stops d ++ (update.stops d ++ body.stops d))
    | .return argument => argument.stops d ++ [.return mark d]
    | .throw argument => argument.stops d
    | .template _ expressions => Node.stopsAll d expressions
    | .assignment _ left right => right.stops d ++ left.stops d
    | .binary _ left right => left.stops d ++ right.stops d
    | .logical _ left right => left.stops d ++ right.stops d
    | .unary _ argument => argument.stops d
    | .update _ _ argument => argument.stops d
    | .conditional test consequent alternate => test.stops d ++ (consequent.stops d ++ alternate.stops d)
    | .call callee arguments => callee.stops d ++ Node.stopsAll d arguments
    | .new callee arguments => callee.stops d ++ Node.stopsAll d arguments
    | .member computed object property => object.stops d ++ if computed then property.stops d else []
    | .array elements => Node.stopsAll d elements
    | .object properties => Property.stopsAll d properties
    | .lambda params body => Param.stopsAll (d + 1) params ++ body.bodyStops (d + 1) (body.stops (d + 1))
    | .sequence expressions => Node.stopsAll d expressions
    | .identifier => []
    | .break _ => []
    | .continue _ => []
    | .empty => []
    | .literal _ _ => []
    | .this => []
    | .unknown => []

def Node.stopsAll (d : Nat) : List Node → List Stop
  | [] => []
  | n :: rest => n.stops d ++ Node.stopsAll d rest

def Declarator.stopsAll (d : Nat) : List Declarator → List Stop
  | [] => []
  | x :: rest => x.stops d ++ Declarator.stopsAll d rest

def Declarator.stops (d : Nat) : Declarator → List Stop
  | .fault _ => []
  | .mk _ _ _ init => init.stops d

def Param.stopsAll (d : Nat) : List Param → List Stop
  | [] => []
  | p :: rest => p.stops d ++ Param.stopsAll d rest

def Param.stops (d : Nat) : Param → List Stop
  | .mk _ _ default => default.stops d
  | _ => []

def Property.stopsAll (d : Nat) : List Property → List Stop
  | [] => []
  | p :: rest => p.stops d ++ Property.stopsAll d rest

def Property.stops (d : Nat) : Property → List Stop
  | .fault _ => []
  | .mk _ computed key value => (if computed then key.stops d else []) ++ value.stops d

end

/-! ### What is said about returns -/

/-- What the stop calls for: a return needs a function around it, and a function with a name needs a return, unless
its name is `main`. -/
def Stop.findings : Stop → List (Except Fault Diagnostic)
  | .return mark depth => if depth = 0 then [return ⟨.error, strayReturnMessage, ← mark.place, false⟩] else []
  | .result _ => []
  | .function mark name returns =>
    match name with
    | .ok t =>
      if t.truthy && !t.isText "main" && !returns then
        [return ⟨.warning, noReturnMessage t.text, ← mark.place, false⟩]
      else []
    | .error _ => []

namespace AnalysisState

/-- What was said about returns so far. -/
def returnFindings (σ : AnalysisState) : List (Except Fault Diagnostic) :=
  (σ.diagnostics.filter fun d => concernsReturns d.message).map .ok

/-- What was said about unused declarations so far. -/
def unusedFindings (σ : AnalysisState) : List Diagnostic :=
  σ.diagnostics.filter fun d => concernsUnused d.message

end AnalysisState

namespace Analyze

variable {α β : Type}

section Findings

variable {σ τ : AnalysisState}

theorem returnFindings_tell (σ : AnalysisState) (d : Diagnostic) :
    (σ.tell d).returnFindings = σ.returnFindings ++ if concernsReturns d.message then [.ok d] else [] := by
  rw [AnalysisState.returnFindings, AnalysisState.tell, List.filter_append, List.map_append, List.filter_cons]
  cases concernsReturns d.message with
  | false => rfl
  | true => rfl

theorem unusedFindings_tell (σ : AnalysisState) {d : Diagnostic} (h : concernsUnused d.message = false) :
    (σ.tell d).unusedFindings = σ.unusedFindings := by
  rw [AnalysisState.unusedFindings, AnalysisState.tell, List.filter_append, List.filter_cons_of_neg (by simp [h]),
    List.filter_nil, List.append_nil]
  rfl

theorem Remarks.returnFindings (h : Remarks σ τ) : τ.returnFindings = σ.returnFindings :=
  congrArg (List.map Except.ok) (h.filter_eq fun _ => IsRemark.returns)

theorem Remarks.unusedFindings (h : Remarks σ τ) : τ.unusedFindings = σ.unusedFindings :=
  h.filter_eq fun _ => IsRemark.unused

end Findings

/-! ### Actions with stops -/

def markInnermost (fs : List Activation) : List Activation := fs.modifyHead fun f => { f with hasReturn := true }

/-- What happens to a walk, inside of `d` functions, where it has these stops: the innermost function has a return now
if there is one among them, and what the stops call for was said, but nothing about unused declarations. -/
structure Credit (d : Nat) (ss : List Stop) (σ τ : AnalysisState) : Prop where
  within : ∀ k < d, ss.any (Stop.returnsAt k) = false
  functions : τ.functions = if ss.any (Stop.returnsAt d) then markInnermost σ.functions else σ.functions
  findings : τ.returnFindings = σ.returnFindings ++ ss.flatMap Stop.findings
  unused : τ.unusedFindings = σ.unusedFindings

/-- An action has these stops, whenever it succeeds inside of `d` functions. -/
structure Credits (d : Nat) (x : Analyze α) (ss : List Stop) : Prop where
  credit {σ τ : AnalysisState} {a : α} (h : x σ = .ok (a, τ)) (hd : σ.functions.length = d) : Credit d ss σ τ

variable {d : Nat} {ss ss' : List Stop} {σ ρ τ : AnalysisState}

theorem markInnermost_twice (fs : List Activation) : markInnermost (markInnermost fs) = markInnermost fs := by
  cases fs <;> rfl

namespace Credit

theorem length_eq (h : Credit d ss σ τ) : τ.functions.length = σ.functions.length := by
  rw [h.functions]
  split
  · exact List.length_modifyHead
  · rfl

theorem trans (h : Credit d ss σ ρ) (h' : Credit d ss' ρ τ) : Credit d (ss ++ ss') σ τ where
  within k hk := by rw [List.any_append, h.within k hk, h'.within k hk]; rfl
  functions := by
    rw [h'.functions, h.functions, List.any_append]
    cases ss.any (Stop.returnsAt d) with
    | false => rfl
    | true =>
      rw [if_pos rfl, markInnermost_twice, ite_self]
      rfl
  findings := by rw [h'.findings, h.findings, List.flatMap_append, List.append_assoc]
  unused := h'.unused.trans h.unused

end Credit

namespace Credits

variable {x : Analyze α}

theorem of_eq (h : Credits d x ss) (hss : ss = ss') : Credits d x ss' := hss ▸ h

theorem aside (h : Aside x) : Credits d x [] where
  credit hx _ := by
    have hremarks := h.run hx
    have hfindings := hremarks.returnFindings.trans (List.append_nil _).symm
    exact ⟨fun _ _ => rfl, hremarks.functions, hfindings, hremarks.unusedFindings⟩

theorem pure (a : α) : Credits d (Pure.pure a) [] := aside (.pure a)

theorem throw (f : Fault) : Credits d (MonadExcept.throw f : Analyze α) ss where
  credit h := by cases h

theorem bind {f : α → Analyze β} (hx : Credits d x ss) (hf : ∀ a, Credits d (f a) ss') :
    Credits d (x >>= f) (ss ++ ss') where
  credit h hd := by
    obtain ⟨a, ρ, ha, hb⟩ := bind_eq_ok h
    have hfirst := hx.credit ha hd
    exact hfirst.trans ((hf a).credit hb (hfirst.length_eq.trans hd))

theorem after {f : α → Analyze β} (hx : Aside x) (hf : ∀ a, Credits d (f a) ss) : Credits d (x >>= f) ss :=
  (aside hx).bind hf

theorem before {f : α → Analyze β} (hx : Credits d x ss) (hf : ∀ a, Aside (f a)) : Credits d (x >>= f) ss :=
  (hx.bind fun a => aside (hf a)).of_eq (List.append_nil ss)

theorem lift {y : Except Fault α} {f : α → Analyze β} (hf : ∀ a, y = .ok a → Credits d (f a) ss) :
    Credits d (liftM y >>= f) ss where
  credit h hd := by
    obtain ⟨a, ρ, ha, hb⟩ := bind_eq_ok h
    obtain ⟨hy, rfl⟩ := liftM_eq_ok ha
    exact (hf a hy).credit hb hd

theorem markReturn : Credits d Analyze.markReturn [.result d] where
  credit := by
    rintro σ _ _ ⟨⟩ -
    refine ⟨?_, ?_, (List.append_nil _).symm, rfl⟩
    · intro k hk
      have hne : d ≠ k := Nat.ne_of_gt hk
      simp [Stop.returnsAt, hne]
    · simp only [List.any_cons, Stop.returnsAt, beq_self_eq_true, Bool.true_or, if_true]
      cases σ.functions <;> rfl

/-- A return marks the innermost function, or is reported if there is none. -/
theorem returned (mark : Mark) (kind : Kind) : Credits d (Analyze.returned mark kind) [.return mark d] where
  credit := by
    intro σ τ u h hd
    obtain ⟨_, _, ⟨⟩, h⟩ := bind_eq_ok h
    -- outside of all functions the return is reported, and marks nothing
    cases hfs : σ.functions with
    | nil =>
      rw [hfs] at h hd
      subst hd
      obtain ⟨p, hp, rfl⟩ := report_eq_ok h
      refine ⟨fun _ hk => absurd hk (Nat.not_lt_zero _), ?_, ?_, unusedFindings_tell σ not_concernsUnused_strayReturn⟩
      · rw [hfs]
        exact hfs
      · rw [returnFindings_tell, List.flatMap_singleton, Stop.findings, hp]
        rfl
    | cons f rest =>
      rw [hfs] at h
      have hpos : d ≠ 0 := by
        rw [← hd, hfs]
        exact Nat.succ_ne_zero _
      obtain ⟨_, ρ, hρ, h⟩ := bind_eq_ok h
      -- otherwise the mark is all that counts here: the kind goes to a symbol, of which `Credit` says nothing
      have hmark := markReturn.credit hρ hd
      have hrest : Credit d [] ρ τ := by
        cases howner : f.owner with
        | none =>
          rw [howner] at h
          exact (aside (.pure ())).credit h (hmark.length_eq.trans hd)
        | some n =>
          rw [howner] at h
          exact (aside (.modifySymbol ..)).credit h (hmark.length_eq.trans hd)
      obtain ⟨hwithin, hfunctions, hfindings, hunused⟩ := hmark.trans hrest
      refine ⟨hwithin, hfunctions, hfindings.trans ?_, hunused⟩
      simp [Stop.findings, hpos]

theorem inScope {kind : ScopeKind} (hx : Credits d x ss) : Credits d (Analyze.inScope kind x) ss where
  credit h hd := by
    obtain ⟨ρ, hρ, rfl⟩ := inScope_eq_ok h
    obtain ⟨hwithin, hfunctions, hfindings, hunused⟩ := hx.credit hρ hd
    exact ⟨hwithin, hfunctions, hfindings, hunused⟩

/-- A function that is opened and closed leaves those around it, and tells whether it returns. -/
theorem inFunction_credit {owner : Option Nat} {y : Analyze Unit} {b : Bool} (hy : Credits (d + 1) y ss)
    (hd : σ.functions.length = d) (h : Analyze.inFunction owner y σ = .ok (b, τ)) :
    b = ss.any (Stop.returnsAt (d + 1)) ∧ Credit d ss σ τ := by
  obtain ⟨ρ, hρ, rfl, rfl⟩ := inFunction_eq_ok h
  obtain ⟨hwithin, hfunctions, hfindings, hunused⟩ := hy.credit hρ (congrArg Nat.succ hd)
  have hnone := hwithin d (Nat.lt_succ_self d)
  refine ⟨?_, fun k hk => hwithin k (Nat.lt_succ_of_lt hk), ?_, hfindings, hunused⟩
  · rw [hfunctions]
    cases ss.any (Stop.returnsAt (d + 1)) <;> rfl
  · rw [hnone, if_neg Bool.false_ne_true]
    show ρ.functions.tail = σ.functions
    rw [hfunctions]
    cases ss.any (Stop.returnsAt (d + 1)) <;> rfl

theorem inFunction {owner : Option Nat} {y : Analyze Unit} (hy : Credits (d + 1) y ss) :
    Credits d (Analyze.inFunction owner y) ss where
  credit h hd := (inFunction_credit hy hd h).2

theorem inFunction_bind {owner : Option Nat} {y : Analyze Unit} {f : Bool → Analyze β} (hy : Credits (d + 1) y ss)
    (hf : Credits d (f (ss.any (Stop.returnsAt (d + 1)))) ss') :
    Credits d (Analyze.inFunction owner y >>= f) (ss ++ ss') where
  credit h hd := by
    obtain ⟨b, ρ, hb, h⟩ := bind_eq_ok h
    obtain ⟨rfl, hcredit⟩ := inFunction_credit hy hd hb
    exact hcredit.trans (hf.credit h (hcredit.length_eq.trans hd))

theorem declared (mark : Mark) {name : Except Fault Tree} {t : Tree} (ht : name = .ok t) (returns : Bool)
    {y : Analyze α} (hy : Aside y) :
    Credits d (if !returns && t.truthy && !t.isText "main" then
      (do Analyze.warning s!"Function '{t.text}' has no return statement" mark.place; y) else y)
      [.function mark name returns] where
  credit := by
    intro σ τ a h hd
    have hcond : (t.truthy && !t.isText "main" && !returns) = (!returns && t.truthy && !t.isText "main") := by
      rw [Bool.and_comm, Bool.and_assoc]
    subst ht
    by_cases hmissing : (!returns && t.truthy && !t.isText "main") = true
    · rw [if_pos hmissing] at h
      obtain ⟨_, ρ, hwarn, h⟩ := bind_eq_ok h
      obtain ⟨p, hp, rfl⟩ := report_eq_ok hwarn
      have hremarks := hy.run h
      refine ⟨fun _ _ => rfl, hremarks.functions, ?_, ?_⟩
      · rw [hremarks.returnFindings, returnFindings_tell, List.flatMap_singleton, Stop.findings, hcond, if_pos hmissing, hp]
        exact congrArg _ (if_pos (concernsReturns_noReturnMessage t.text))
      · exact hremarks.unusedFindings.trans (unusedFindings_tell σ (not_concernsUnused_noReturn t.text))
    · rw [if_neg hmissing] at h
      obtain ⟨hwithin, hfunctions, hfindings, hunused⟩ := (aside hy).credit h hd
      refine ⟨fun _ _ => rfl, hfunctions, hfindings.trans ?_, hunused⟩
      rw [List.flatMap_singleton, Stop.findings, hcond, if_neg hmissing]
      rfl

theorem warnIf {b : Bool} {message : String} {place : Except Fault Place} {y : Analyze α}
    (hm : IsRemark message) (hy : Credits d y ss) :
    Credits d (if b then (do Analyze.warning message place; y) else y) ss := by
  cases b with
  | false => exact hy
  | true => exact .after (.remark hm place) fun _ => hy

theorem warnEither {b b' : Bool} {c c' : Char} {l l' : List Char} {place : Except Fault Place} {y : Analyze α}
    (hc : opensOther c = true) (hc' : opensOther c' = true) (hy : Credits d y ss) :
    Credits d (if b then (do Analyze.warning (String.ofList (c :: l)) place; y) else
      if b' then (do Analyze.warning (String.ofList (c' :: l')) place; y) else y) ss := by
  cases b with
  | false => exact .warnIf (.literal hc') hy
  | true => exact .after (.literal hc place) fun _ => hy

theorem variableOr {n : Node} {byName : Mark → Analyze Unit} {other : Analyze Unit} (h : ∀ mark, Aside (byName mark))
    (ho : Credits d other (n.stops d)) : Credits d (Analyze.variableOr n byName other) (n.stops d) := by
  rcases n with _ | _ | ⟨mark, form⟩
  · exact ho
  · exact ho
  · cases form with
    | identifier => exact aside (h mark)
    | _ => exact ho

theorem calledSymbol {n : Node} {other : Analyze Unit} (ho : Credits d other (n.stops d)) :
    Credits d (Analyze.calledSymbol n other) (n.stops d) := by
  have hother : Credits d (do other; return none : Analyze (Option Nat)) (n.stops d) := ho.before fun _ => .pure none
  rcases n with _ | _ | ⟨mark, form⟩
  · exact hother
  · exact hother
  · cases form with
    | identifier => exact aside (.namedFunction mark)
    | _ => exact hother

theorem functionBody {n : Node} {block other : Analyze Unit}
    (hb : ∀ mark body, n = .mk mark (.block body) → Credits d block (n.stops d)) (ho : Credits d other (n.stops d)) :
    Credits d (Analyze.functionBody n block other) (n.bodyStops d (n.stops d)) := by
  have hother : Credits d (do Analyze.markReturn; other) (.result d :: n.stops d) := markReturn.bind fun _ => ho
  rcases n with _ | _ | ⟨mark, form⟩
  · exact .pure ()
  · exact hother
  · cases form with
    | block body => exact hb mark body rfl
    | _ => exact hother

theorem inside {params : List Param} {body : Node} (hp : Credits d (visitParams params) ss)
    (hb : ∀ mark stmts, body = .mk mark (.block stmts) → Credits d (visitBlock body) (body.stops d))
    (ho : Credits d (visit body) (body.stops d)) :
    Credits d (do
      visitParams params
      Analyze.functionBody body (visitBlock body) (do let _ ← visit body)) (ss ++ body.bodyStops d (body.stops d)) :=
  .bind hp fun _ => .functionBody hb (ho.before fun _ => .pure ())

end Credits

mutual

theorem visit_credits : ∀ (n : Node) (d : Nat), Credits d (visit n) (n.stops d)
  | .absent, _ => .pure none
  | .fault f, _ => .throw f
  | .mk mark form, d => by
    -- `d` counts the functions around; a function is walked one deeper and gets no credit for what is inside others
    cases form with
    | program body =>
      rw [visit, Node.stops]
      refine .after (.change fun _ => .of_eq (.of_parents rfl (ScopeTree.parents_setKind ..)) rfl rfl) fun _ => ?_
      refine .after (.hoistFunctions body) fun _ => ?_
      exact (visitAll_credits body d).before fun _ => .result mark none
    | block body =>
      rw [visit, Node.stops]
      refine .before (.inScope ?_) fun _ => .result mark none
      exact .after (.hoistFunctions body) fun _ => visitStatements_credits false body d
    | expression e =>
      rw [visit, Node.stops]
      exact (visit_credits e d).before fun _ => .result mark none
    | declaration kind ds =>
      rw [visit, Node.stops]
      exact (visitDeclarators_credits kind ds d).before fun _ => .result mark none
    | function id params body =>
      rw [visit, Node.stops]
      refine .lift fun name hname => .after (.functionOwner ..) fun owner => ?_
      refine .inFunction_bind (.inside (visitParams_credits params (d + 1))
        (fun _ _ h => visitBlock_credits body (d + 1) h) (visit_credits body (d + 1))) ?_
      exact .declared mark hname _ (.result mark none)
    | classDecl id parent members =>
      rw [visit, Node.stops]
      refine .after (.declareClass ..) fun _ => .bind (visit_credits parent d) fun _ => ?_
      exact .before (.inScope (visitAll_credits members d)) fun _ => .result mark none
    | method computed key params body =>
      rw [visit, Node.stops]
      have hinside := Credits.inside (visitParams_credits params (d + 1))
        (fun _ _ h => visitBlock_credits body (d + 1) h) (visit_credits body (d + 1))
      have hbody := (@Credits.inFunction _ _ none _ hinside).before fun _ => .result mark none
      cases computed with
      | true => exact .bind (visit_credits key d) fun _ => hbody
      | false => exact hbody
    | «if» test consequent alternate =>
      rw [visit, Node.stops]
      refine .bind (visit_credits test d) fun _ => .warnEither rfl rfl ?_
      exact .bind (visit_credits consequent d) fun _ => (visit_credits alternate d).before fun _ => .result mark none
    | «while» test body =>
      rw [visit, Node.stops]
      refine .bind (visit_credits test d) fun _ => .warnEither rfl rfl ?_
      exact (visit_credits body d).before fun _ => .result mark none
    | «for» init test update body =>
      rw [visit, Node.stops]
      refine .before (.inScope ?_) fun _ => .result mark none
      refine .bind (visit_credits init d) fun _ => .bind (visit_credits test d) fun _ => .warnIf ⟨rfl, rfl⟩ ?_
      exact .bind (visit_credits update d) fun _ => (visit_credits body d).before fun _ => .pure ()
    | «return» argument =>
      rw [visit, Node.stops]
      exact .bind (visit_credits argument d) fun _ => (Credits.returned mark _).before fun _ => .result mark none
    | throw argument =>
      rw [visit, Node.stops]
      exact (visit_credits argument d).before fun _ => .result mark none
    | identifier =>
      rw [visit, Node.stops]
      exact .aside (.bind (.visitIdentifier mark) fun _ => .result ..)
    | template text expressions =>
      rw [visit, Node.stops]
      exact (visitAll_credits expressions d).before fun _ => .result ..
    | assignment operator left right =>
      rw [visit, Node.stops]
      refine .bind (visit_credits right d) fun kind =>
        .before (.variableOr .assignVariable ((visit_credits left d).before fun _ => .pure ())) fun _ => ?_
      refine .ite (.bind (.checkAddition ..) fun _ => .result ..) (.ite ?_ (.result ..))
      exact .bind (.checkNumeric ..) fun _ => .bind (.checkNumeric ..) fun _ => .result ..
    | binary operator left right =>
      rw [visit, Node.stops]
      exact .bind (visit_credits left d) fun _ => (visit_credits right d).before fun _ => .result ..
    | logical operator left right =>
      rw [visit, Node.stops]
      refine .bind (visit_credits left d) fun a => .before (visit_credits right d) fun b => ?_
      refine .ite (.bind (.literal rfl _) fun _ => .result ..) (.ite ?_ (.result ..))
      exact .bind (.literal rfl _) fun _ => .result ..
    | unary operator argument =>
      rw [visit, Node.stops]
      exact (visit_credits argument d).before fun _ => .bind (.unaryKind ..) fun _ => .result ..
    | update operator leading argument =>
      rw [visit, Node.stops]
      refine .before (.variableOr .updateVariable ?_) fun _ => .result ..
      exact (visit_credits argument d).before fun _ => .pure ()
    | conditional test consequent alternate =>
      rw [visit, Node.stops]
      refine .bind (visit_credits test d) fun _ => .bind (visit_credits consequent d) fun a =>
        .before (visit_credits alternate d) fun b => ?_
      refine .ite (.bind (.literal rfl _) fun _ => .result ..) (.ite ?_ (.result ..))
      exact .bind (.literal rfl _) fun _ => .result ..
    | call callee arguments =>
      rw [visit, Node.stops]
      refine .bind (.calledSymbol ((visit_credits callee d).before fun _ => .pure ())) fun _ => ?_
      exact (visitAll_credits arguments d).before fun _ => .bind (.callKind ..) fun _ => .result ..
    | new callee arguments =>
      rw [visit, Node.stops]
      exact .bind (visit_credits callee d) fun _ => (visitAll_credits arguments d).before fun _ => .result ..
    | member computed object property =>
      rw [visit, Node.stops]
      refine .bind (visit_credits object d) fun _ => ?_
      cases computed with
      | true => exact (visit_credits property d).before fun _ => .result ..
      | false => exact .aside (.bind (.checkConsole ..) fun _ => .result ..)
    | array elements =>
      rw [visit, Node.stops]
      exact (visitAll_credits elements d).before fun _ => .result ..
    | object properties =>
      rw [visit, Node.stops]
      exact (visitProperties_credits [] properties d).before fun _ => .result ..
    | lambda params body =>
      rw [visit, Node.stops]
      refine .before (.inFunction (.inside (visitParams_credits params (d + 1)) ?_
        (visit_credits body (d + 1)))) fun _ => .result ..
      exact fun _ _ h => visitBlock_credits body (d + 1) h
    | sequence expressions =>
      rw [visit, Node.stops]
      exact (visitLast_credits expressions none d).before fun _ => .record ..
    | unknown =>
      rw [visit, Node.stops]
      dsimp only
      split
      · exact .aside (.throw_bind _ _)
      · exact .aside (.bind (.remark (.opening rfl) _) fun _ => .result ..)
    | «break» | «continue» | empty | literal | this =>
      rw [visit, Node.stops]
      exact .aside (.result ..)

theorem visitAll_credits : ∀ (ns : List Node) (d : Nat), Credits d (visitAll ns) (Node.stopsAll d ns)
  | [], _ => .pure ()
  | n :: rest, d => .bind (visit_credits n d) fun _ => visitAll_credits rest d

theorem visitLast_credits : ∀ (ns : List Node) (last : Option Kind) (d : Nat),
    Credits d (visitLast last ns) (Node.stopsAll d ns)
  | [], last, _ => .pure last
  | n :: rest, _, d => .bind (visit_credits n d) fun kind => visitLast_credits rest kind d

theorem visitStatements_credits (unreachable : Bool) : ∀ (ns : List Node) (d : Nat),
    Credits d (visitStatements unreachable ns) (Node.stopsAll d ns)
  | [], _ => .pure ()
  | n :: rest, d =>
    .warnIf (.literal rfl)
      (.bind (visit_credits n d) fun _ => visitStatements_credits (unreachable || n.isTerminator) rest d)

theorem visitBlock_credits : ∀ (n : Node) (d : Nat) {mark : Mark} {body : List Node}, n = .mk mark (.block body) →
    Credits d (visitBlock n) (n.stops d)
  | .absent, _, _, _, h => Node.noConfusion h
  | .fault _, _, _, _, h => Node.noConfusion h
  | .mk mark form, d, _, _, h => by
    cases form with
    | block body =>
      rw [visitBlock, Node.stops]
      exact .after (.hoistFunctions body) fun _ => visitStatements_credits false body d
    | _ => cases h

theorem visitDeclarators_credits (kind : DeclKind) : ∀ (ds : List Declarator) (d : Nat),
    Credits d (visitDeclarators kind ds) (Declarator.stopsAll d ds)
  | [], _ => .pure ()
  | x :: rest, d => .bind (visitDeclarator_credits kind x d) fun _ => visitDeclarators_credits kind rest d

theorem visitDeclarator_credits (kind : DeclKind) : ∀ (x : Declarator) (d : Nat),
    Credits d (visitDeclarator kind x) (x.stops d)
  | .fault f, _ => .throw f
  | .mk mark id given init, d => by
    rw [visitDeclarator, Declarator.stops]
    refine .after (.lift _) fun name => .before (visit_credits init d) fun inferred => ?_
    exact .ite (.declareVariable ..) (.pure ())

theorem visitParams_credits : ∀ (ps : List Param) (d : Nat), Credits d (visitParams ps) (Param.stopsAll d ps)
  | [], _ => .pure ()
  | p :: rest, d => .bind (visitParam_credits p d) fun _ => visitParams_credits rest d

theorem visitParam_credits : ∀ (p : Param) (d : Nat), Credits d (visitParam p) (p.stops d)
  | .fault f, _ => .throw f
  | .absent f, _ => .throw f
  | .mk position name default, d => by
    rw [visitParam, Param.stops]
    exact .after (.lift _) fun t => .before (visit_credits default d) fun _ => .declareParam ..

theorem visitProperties_credits (names : List Key) : ∀ (ps : List Property) (d : Nat),
    Credits d (visitProperties names ps) (Property.stopsAll d ps)
  | [], _ => .pure ()
  | p :: rest, d => .bind (visitProperty_credits names p d) fun names => visitProperties_credits names rest d

theorem visitProperty_credits (names : List Key) : ∀ (p : Property) (d : Nat),
    Credits d (visitProperty names p) (p.stops d)
  | .fault f, _ => .throw f
  | .mk mark computed key value, d => by
    rw [visitProperty, Property.stops]
    refine .after (.lift _) fun name => .after (.checkDuplicate ..) fun names => ?_
    have hvalue : Credits d (propertyValue value (visitLambda value) (do let _ ← visit value)) (value.stops d) := by
      have hother : Credits d (do let _ ← visit value) (value.stops d) :=
        (visit_credits value d).before fun _ => .pure ()
      rcases value with _ | _ | ⟨mark, form⟩
      · exact hother
      · exact hother
      · cases form with
        | lambda params body =>
          rw [Node.stops]
          refine .before (.inFunction (.inside (visitParams_credits params (d + 1)) ?_
            (visit_credits body (d + 1)))) fun _ => .pure ()
          exact fun _ _ h => visitBlock_credits body (d + 1) h
        | _ => exact hother
    cases computed with
    | true => exact .bind (visit_credits key d) fun _ => hvalue.before fun _ => .pure names
    | false => exact hvalue.before fun _ => .pure names

end

end Analyze

theorem ScopeTree.filter_unusedWarnings (t : ScopeTree) :
    t.unusedWarnings.filter (fun d => concernsReturns d.message) = [] := by
  rw [List.filter_eq_nil_iff]
  intro w hw
  obtain ⟨i, -, hw⟩ := List.mem_flatMap.1 hw
  obtain ⟨e, -, rfl⟩ := List.mem_map.1 hw
  have hother : concernsReturns (e.2.unusedWarning e.1).message = false := concernsReturns_append_right rfl rfl
  rw [hother]
  exact Bool.false_ne_true

/-- What an analysis without a fault says about returns is what the stops of its program call for, in their order: an
error for each return outside of all functions, and a warning for each function declaration, with a name other than
`main`, that has no return of its own. -/
theorem Node.returns_credited {n : Node} (h : n.analyze.isFatal = false) :
    (n.analyze.diagnostics.filter fun d => concernsReturns d.message).map .ok = (n.stops 0).flatMap Stop.findings := by
  unfold Node.analyze at h ⊢
  split at h
  · rename_i kind τ hτ
    have hcredit := (Analyze.visit_credits n 0).credit hτ rfl
    rw [List.filter_append, τ.tree.filter_unusedWarnings, List.append_nil]
    exact hcredit.findings
  · cases h

/-- Functions in functions: the outer one has no return of its own, and the last return has no function. -/
def nestedReturns : Node := .bare (.program [
  .bare (.function (.named "f") [.mk (.ok .none) (.ok (.str "a")) (.bare (.lambda [] (.int 1)))] (.bare (.block [
    .bare (.function (.named "g") [] (.bare (.block [
      .bare (.if (.named "a") (.bare (.return (.int 2))) .absent)])))]))),
  .bare (.return (.bare (.lambda [] (.bare (.block [.bare (.return .absent)])))))])

theorem Node.returns_credited_nested : nestedReturns.analyze.isFatal = false ∧
    (nestedReturns.analyze.diagnostics.filter fun d => concernsReturns d.message).map Except.ok =
      ([.ok ⟨.warning, noReturnMessage "f", .nowhere, false⟩, .ok ⟨.error, strayReturnMessage, .nowhere, false⟩] :
        List (Except Fault Diagnostic)) := by
  have hfatal : nestedReturns.analyze.isFatal = false := by decide +kernel
  refine ⟨hfatal, (Node.returns_credited hfatal).trans ?_⟩
  rfl

end QuadScript
