import QuadScript.Node.OfTree
import QuadScript.Proofs.Readable
import Mathlib.Data.List.Basic

/-!
# Trees in the shape of a program

A tree may be anything, and most trees are no programs. `Slot.fits` says which of them have the shape of one: each
node is a record that tells its kind, and each field that a node of this kind is read by holds what it should, a node,
a list of nodes, a name, an operator. Fields that are not read and kinds that are not known are free.

A program of that shape is walked and lowered without a fault, with one exception. A method has a function as its
value, and the body of a function is a node; but the body of a block is a list. If a block stands in the place of the
function its statements are read as one node, which they are not.
-/

namespace QuadScript

/-! ### The shape of a tree -/

/-- As what a record is read. -/
inductive Role
  | node
  | declarator
  | param
  | property
  /-- A part of the static text of a template. -/
  | quasi
  | classBody
  /-- The function of a method. -/
  | method

/-- What may stand in a field. -/
inductive Slot
  | text
  | scalar
  | location
  /-- A record with a piece of static text in it. -/
  | raw
  /-- A record, or null where one may be missing. -/
  | one (role : Role) (optional : Bool)
  /-- A list of records, with null in some places where there may be holes. -/
  | many (role : Role) (holes : Bool)
  /-- No more than an empty list. -/
  | empty

namespace Slot

abbrev node : Slot := .one .node true

abbrev nodes : Slot := .many .node true

abbrev params : Slot := .many .param false

end Slot

namespace Role

def admits : Role → String → Bool
  | .property, kind => kind = "Property" || kind = "SpreadElement"
  | .classBody, kind => kind = "ClassBody"
  | _, _ => true

/-- The fields that a record of some kind has to have. -/
def required : Role → String → List String
  | .node, "Identifier" => ["name"]
  | .quasi, _ => ["value"]
  | _, _ => []

/-- The fields by which a node of some kind is read. -/
def children : String → List (String × Slot)
  | "Program" => [("body", .nodes)]
  | "BlockStatement" => [("body", .nodes)]
  | "ExpressionStatement" => [("expression", .node)]
  | "VariableDeclaration" => [("declarations", .many .declarator false)]
  | "FunctionDeclaration" => [("id", .node), ("params", .params), ("body", .node)]
  | "ClassDeclaration" => [("id", .node), ("superClass", .node), ("body", .one .classBody true)]
  | "MethodDefinition" => [("key", .node), ("value", .one .method true)]
  | "IfStatement" => [("test", .node), ("consequent", .node), ("alternate", .node)]
  | "WhileStatement" => [("test", .node), ("body", .node)]
  | "ForStatement" => [("init", .node), ("test", .node), ("update", .node), ("body", .node)]
  | "ReturnStatement" => [("argument", .node)]
  | "ThrowStatement" => [("argument", .node)]
  | "Literal" => [("value", .scalar)]
  | "TemplateLiteral" => [("quasis", .many .quasi false), ("expressions", .nodes)]
  | "AssignmentExpression" => [("operator", .text), ("left", .node), ("right", .node)]
  | "BinaryExpression" => [("operator", .text), ("left", .node), ("right", .node)]
  | "LogicalExpression" => [("operator", .text), ("left", .node), ("right", .node)]
  | "UnaryExpression" => [("operator", .text), ("argument", .node)]
  | "UpdateExpression" => [("operator", .text), ("argument", .node)]
  | "ConditionalExpression" => [("test", .node), ("consequent", .node), ("alternate", .node)]
  | "CallExpression" => [("callee", .node), ("arguments", .nodes)]
  | "NewExpression" => [("callee", .node), ("arguments", .nodes)]
  | "MemberExpression" => [("object", .node), ("property", .node)]
  | "ArrayExpression" => [("elements", .nodes)]
  | "ObjectExpression" => [("properties", .many .property false)]
  | "ArrowFunctionExpression" => [("params", .params), ("body", .node)]
  | "FunctionExpression" => [("params", .params), ("body", .node)]
  | "SequenceExpression" => [("expressions", .nodes)]
  | _ => []

/-- The fields by which a parameter of some kind is read. -/
def paramFields : String → List (String × Slot)
  | "Identifier" => [("name", .text)]
  | "AssignmentPattern" => [("left", .one .param true), ("right", .node)]
  | "RestElement" => [("argument", .one .param true)]
  | _ => []

/-- The fields by which a record is read; `listed` is for the body of what stands in the place of a function and has
a list for its body. -/
def slots (listed : Slot) : Role → String → List (String × Slot)
  | .node, kind => ("name", .text) :: ("loc", .location) :: children kind
  | .declarator, _ => [("loc", .location), ("id", .node), ("init", .node)]
  | .param, kind => ("loc", .location) :: paramFields kind
  | .property, _ => [("loc", .location), ("key", .node), ("value", .node)]
  | .quasi, _ => [("value", .raw)]
  | .classBody, _ => [("body", .nodes)]
  | .method, kind =>
    [("params", .params), ("body", if kind ∈ ["Program", "BlockStatement", "ClassBody"] then listed else .node)]

end Role

/-- Whether a tree tells where in a text a node stands, or that this is not known. -/
def Tree.isLocation : Tree → Bool
  | .null => true
  | .record fields =>
    match field? "start" fields with
    | none => true
    | some .null => true
    | some (.record _) => true
    | some _ => false
  | _ => false

mutual

/-- Whether a tree is what may stand in a slot. -/
def Slot.fits (listed : Slot) (slot : Slot) (t : Tree) : Bool :=
  match slot, t with
  | .text, .str _ => true
  | .scalar, t => t.isName
  | .location, t => t.isLocation
  | .raw, .record fields =>
    match Tree.field? "raw" fields with
    | some (.str _) => true
    | _ => false
  | .one _ optional, .null => optional
  | .one role _, .record fields =>
    match Tree.field? "type" fields with
    | some (.str kind) =>
      role.admits kind && (role.required kind).all (fun name => (Tree.field? name fields).isSome) &&
        Slot.fieldsFit listed (role.slots listed kind) fields
    | _ => false
  | .many _ _, .null => true
  | .many role holes, .list items => Slot.allFit listed (.one role holes) items
  | .empty, .null => true
  | .empty, .list items => items.isEmpty
  | _, _ => false

/-- Whether the fields of a record hold what they should. -/
def Slot.fieldsFit (listed : Slot) (slots : List (String × Slot)) : List (String × Tree) → Bool
  | [] => true
  | (name, t) :: rest =>
    (match slots.lookup name with
    | some slot => Slot.fits listed slot t
    | none => true) && Slot.fieldsFit listed slots rest

def Slot.allFit (listed : Slot) (slot : Slot) : List Tree → Bool
  | [] => true
  | t :: rest => Slot.fits listed slot t && Slot.allFit listed slot rest

end

/-- Whether a tree has the shape of a program, with `listed` for the statements of a block in the place of a method's
function. -/
def Tree.isShaped (listed : Slot) (t : Tree) : Bool := Slot.fits listed (.one .node false) t

/-! ### What the shape says -/

namespace Slot

variable {listed slot : Slot} {t : Tree}

theorem fits_text (h : fits listed .text t = true) : ∃ s, t = .str s := by
  cases t with
  | str s => exact ⟨s, rfl⟩
  | _ => simp [fits] at h

theorem fits_raw (h : fits listed .raw t = true) : ∃ fields s, t = .record fields ∧
    Tree.field? "raw" fields = some (.str s) := by
  cases t with
  | record fields =>
    simp only [fits] at h
    split at h
    · rename_i s hs
      exact ⟨fields, s, rfl, hs⟩
    · cases h
  | _ => simp [fits] at h

theorem fits_empty (h : fits listed .empty t = true) : t = .null ∨ t = .list [] := by
  cases t with
  | null => exact .inl rfl
  | list items => exact .inr (by simpa [fits] using h)
  | _ => simp [fits] at h

theorem fits_one {role : Role} {optional : Bool} (h : fits listed (.one role optional) t = true) :
    t = .null ∧ optional = true ∨ ∃ fields kind, t = .record fields ∧ Tree.field? "type" fields = some (.str kind) ∧
      (∀ name ∈ role.required kind, (Tree.field? name fields).isSome = true) ∧
        fieldsFit listed (role.slots listed kind) fields = true := by
  cases t with
  | null => exact .inl ⟨rfl, by simpa [fits] using h⟩
  | record fields =>
    simp only [fits] at h
    split at h
    · rename_i kind hkind
      simp only [Bool.and_eq_true, List.all_eq_true] at h
      exact .inr ⟨fields, kind, rfl, hkind, h.1.2, h.2⟩
    · cases h
  | _ => simp [fits] at h

theorem allFit_iff {items : List Tree} : allFit listed slot items = true ↔ ∀ t ∈ items, fits listed slot t = true := by
  induction items with
  | nil => simp [allFit]
  | cons t rest ih => simp [allFit, ih]

theorem fits_many {role : Role} {holes : Bool} (h : fits listed (.many role holes) t = true) :
    t = .null ∨ ∃ items, t = .list items ∧ ∀ t ∈ items, fits listed (.one role holes) t = true := by
  cases t with
  | null => exact .inl rfl
  | list items => exact .inr ⟨items, rfl, allFit_iff.1 (by simpa [fits] using h)⟩
  | _ => simp [fits] at h

theorem fits_of_field? {slots : List (String × Slot)} {fields : List (String × Tree)} {name : String}
    (h : fieldsFit listed slots fields = true) (hs : slots.lookup name = some slot)
    (ht : Tree.field? name fields = some t) : fits listed slot t = true := by
  induction fields with
  | nil => cases ht
  | cons p rest ih =>
    simp only [fieldsFit, Bool.and_eq_true] at h
    rw [Tree.field?] at ht
    split at ht
    · rename_i hkey
      cases ht
      rw [hkey, hs] at h
      exact h.1
    · exact ih h.2 ht

end Slot

/-! ### What is read in a tree of that shape -/

theorem Tree.sizeOf_field? {name : String} {fields : List (String × Tree)} {t : Tree}
    (h : field? name fields = some t) : sizeOf t < sizeOf fields := by
  induction fields with
  | nil => cases h
  | cons p rest ih =>
    obtain ⟨key, u⟩ := p
    rw [field?] at h
    split at h
    · cases h
      simp
      omega
    · have := ih h
      simp
      omega

theorem Tree.locationStart?_ok {fields : List (String × Tree)}
    (h : ∀ t, field? "loc" fields = some t → t.isLocation = true) :
    ∃ start, (Tree.record fields).locationStart? = .ok start ∧ ∀ t ∈ start, ∃ gs, t = .record gs := by
  have hnone : ∀ loc : Tree, loc.truthy = false → (Tree.record fields).get "loc" = .ok loc →
      (Tree.record fields).locationStart? = .ok none := by
    intro loc hloc hget
    simp only [locationStart?, hget, bind, Except.bind, hloc]
    rfl
  cases hloc : field? "loc" fields with
  | none => exact ⟨none, hnone .null rfl (by simp only [get, get?, hloc]; rfl), by simp⟩
  | some loc =>
    have hget : (Tree.record fields).get "loc" = .ok loc := by simp only [get, get?, hloc]; rfl
    have hshape := h loc hloc
    cases loc with
    | null => exact ⟨none, hnone .null rfl hget, by simp⟩
    | record gs =>
      simp only [isLocation] at hshape
      by_cases htruthy : (Tree.record gs).truthy = true
      · obtain ⟨start, hstart, hrecord⟩ : ∃ start, (Tree.record gs).get "start" = .ok start ∧
            (start = .null ∨ ∃ fs, start = .record fs) := by
          simp only [get, get?]
          split at hshape
          · rename_i hs
            exact ⟨.null, by rw [hs]; rfl, .inl rfl⟩
          · rename_i hs
            exact ⟨.null, by rw [hs]; rfl, .inl rfl⟩
          · rename_i fs hs
            exact ⟨.record fs, by rw [hs]; rfl, .inr ⟨fs, rfl⟩⟩
          · cases hshape
        refine ⟨if start.truthy then some start else none, ?_, ?_⟩
        · simp only [locationStart?, hget, hstart, bind, Except.bind, htruthy]
          rfl
        · intro t ht
          split at ht
          · cases ht
            obtain rfl | hrecord := hrecord
            · contradiction
            · exact hrecord
          · cases ht
      · exact ⟨none, hnone _ (by simpa using htruthy) hget, by simp⟩
    | _ => cases hshape

theorem Tree.position_ok {fields : List (String × Tree)}
    (h : ∀ t, field? "loc" fields = some t → t.isLocation = true) : ∃ p, (Tree.record fields).position = .ok p := by
  obtain ⟨start, hstart, hrecord⟩ := locationStart?_ok h
  by_cases htruthy : (Tree.record fields).truthy = true
  · simp only [position, hstart, htruthy, bind, Except.bind]
    cases start with
    | none => exact ⟨_, rfl⟩
    | some start =>
      obtain ⟨gs, rfl⟩ := hrecord start rfl
      exact ⟨_, rfl⟩
  · refine ⟨Position.none, ?_⟩
    simp only [position, htruthy]
    rfl

namespace OfTree

variable {path name : String} {fields : List (String × Tree)}

theorem eq_elim_field? {α : Type} {f : List (String × Tree) → α} {a : α} {g : Tree → α} (hnil : f [] = a)
    (hcons : ∀ key t rest, f ((key, t) :: rest) = if key = name then g t else f rest) :
    f fields = (Tree.field? name fields).elim a g := by
  induction fields with
  | nil => exact hnil
  | cons p rest ih =>
    rw [hcons, Tree.field?]
    split
    · rfl
    · exact ih

theorem nodeAt_eq : nodeAt path name fields = (Tree.field? name fields).elim .absent (node (extend path name)) :=
  eq_elim_field? rfl fun _ _ _ => rfl

theorem nodesAt_eq : nodesAt path name fields = (Tree.field? name fields).elim [] (nodeList (extend path name)) :=
  eq_elim_field? rfl fun _ _ _ => rfl

theorem membersAt_eq : membersAt path name fields = (Tree.field? name fields).elim [] (members (extend path name)) :=
  eq_elim_field? rfl fun _ _ _ => rfl

theorem methodParamsAt_eq :
    methodParamsAt path name fields = (Tree.field? name fields).elim [] (methodParams (extend path name)) :=
  eq_elim_field? rfl fun _ _ _ => rfl

theorem methodBodyAt_eq :
    methodBodyAt path name fields = (Tree.field? name fields).elim .absent (methodBody (extend path name)) :=
  eq_elim_field? rfl fun _ _ _ => rfl

theorem declaratorsAt_eq :
    declaratorsAt path name fields = (Tree.field? name fields).elim [] (declaratorList (extend path name)) :=
  eq_elim_field? rfl fun _ _ _ => rfl

theorem paramsAt_eq : paramsAt path name fields = (Tree.field? name fields).elim [] (paramList (extend path name)) :=
  eq_elim_field? rfl fun _ _ _ => rfl

theorem propertiesAt_eq :
    propertiesAt path name fields = (Tree.field? name fields).elim [] (propertyList (extend path name)) :=
  eq_elim_field? rfl fun _ _ _ => rfl

theorem paramNameAt_eq : paramNameAt name fields = (Tree.field? name fields).elim (.ok .null) paramName :=
  eq_elim_field? rfl fun _ _ _ => rfl

theorem mem_of_items {α : Type} {f : Nat → List Tree → List α} {g : String → Tree → α} (hnil : ∀ i, f i [] = [])
    (hcons : ∀ i t ts, ∃ p, f i (t :: ts) = g p t :: f (i + 1) ts) {i : Nat} {items : List Tree} {a : α}
    (h : a ∈ f i items) : ∃ p, ∃ t ∈ items, a = g p t := by
  induction items generalizing i with
  | nil => rw [hnil] at h; cases h
  | cons t ts ih =>
    obtain ⟨p, hp⟩ := hcons i t ts
    rw [hp, List.mem_cons] at h
    obtain rfl | h := h
    · exact ⟨p, t, List.mem_cons_self, rfl⟩
    · obtain ⟨q, u, hu, rfl⟩ := ih h
      exact ⟨q, u, List.mem_cons_of_mem _ hu, rfl⟩

variable {listed : Slot} {slots : List (String × Slot)}

theorem forall_mem_field? {α : Type} {P : α → Prop} {list : Tree → List α} {f : Nat → List Tree → List α}
    {g : String → Tree → α} {role : Role} {holes : Bool} (hnull : list .null = [])
    (hlist : ∀ ts, list (.list ts) = f 0 ts) (hnil : ∀ i, f i [] = [])
    (hcons : ∀ i t ts, ∃ p, f i (t :: ts) = g p t :: f (i + 1) ts)
    (h : Slot.fieldsFit listed slots fields = true) (hs : slots.lookup name = some (.many role holes))
    (hitem : ∀ t p, sizeOf t < sizeOf fields → Slot.fits listed (.one role holes) t = true → P (g p t)) :
    ∀ a ∈ (Tree.field? name fields).elim [] list, P a := by
  intro a ha
  cases hfield : Tree.field? name fields with
  | none =>
    rw [hfield] at ha
    cases ha
  | some t =>
    rw [hfield] at ha
    obtain rfl | ⟨ts, rfl, hfits⟩ := Slot.fits_many (Slot.fits_of_field? h hs hfield)
    · rw [Option.elim_some, hnull] at ha
      cases ha
    · rw [Option.elim_some, hlist] at ha
      obtain ⟨p, t, ht, rfl⟩ := mem_of_items hnil hcons ha
      have hsize := Tree.sizeOf_field? hfield
      have hitems := List.sizeOf_lt_of_mem ht
      simp only [Tree.list.sizeOf_spec] at hsize
      exact hitem t p (by omega) (hfits t ht)

theorem isKind_eq {kind word : String} (h : Tree.field? "type" fields = some (.str kind)) :
    isKind word fields = decide (kind = word) := by
  rw [isKind, fieldD, h]
  rfl

theorem fieldD_isWord (h : Slot.fieldsFit listed slots fields = true) (hs : slots.lookup name = some .text) :
    (fieldD name fields).IsWord := by
  unfold fieldD
  cases ht : Tree.field? name fields with
  | none => exact .inl rfl
  | some t => exact .inr (Slot.fits_text (Slot.fits_of_field? h hs ht))

theorem paramName_isWord {optional : Bool} (k : Nat) (t : Tree) (hk : sizeOf t < k)
    (h : Slot.fits listed (.one .param optional) t = true) : ∃ name, paramName t = .ok name ∧ name.IsWord := by
  -- `k` bounds the size, as a pattern holds another parameter somewhere below
  induction k generalizing t optional with
  | zero => omega
  | succ k ih =>
  obtain ⟨rfl, -⟩ | ⟨fields, kind, rfl, hkind, -, hfields⟩ := Slot.fits_one h
  · exact ⟨_, rfl, .inl rfl⟩
  · have hinner : ∀ name, (Role.slots listed .param kind).lookup name = some (.one .param true) →
        ∃ t, paramNameAt name fields = .ok t ∧ t.IsWord := by
      intro name hs
      rw [paramNameAt_eq]
      cases ht : Tree.field? name fields with
      | none => exact ⟨_, rfl, .inl rfl⟩
      | some t =>
        have hsize := Tree.sizeOf_field? ht
        simp only [Tree.record.sizeOf_spec] at hk
        exact ih t (by omega) (Slot.fits_of_field? hfields hs ht)
    simp only [paramName, isKind_eq hkind, decide_eq_true_eq]
    split
    · rename_i hid
      subst hid
      exact ⟨_, rfl, fieldD_isWord hfields rfl⟩
    · split
      · rename_i hpattern
        subst hpattern
        exact hinner "left" rfl
      · split
        · rename_i hrest
          subst hrest
          exact hinner "argument" rfl
        · exact ⟨_, rfl, .inl rfl⟩

theorem position_ok (h : Slot.fieldsFit listed slots fields = true) (hs : slots.lookup "loc" = some .location) :
    ∃ p, (Tree.record fields).position = .ok p := by
  refine Tree.position_ok fun t ht => ?_
  simpa [Slot.fits] using Slot.fits_of_field? h hs ht

theorem quasiRaw_ok {t : Tree} (h : Slot.fits listed (.one .quasi false) t = true) :
    ∃ s, quasiRaw t = .ok (.str s) := by
  obtain ⟨-, hnull⟩ | ⟨fields, kind, rfl, -, hrequired, hfields⟩ := Slot.fits_one h
  · cases hnull
  · obtain ⟨value, hvalue⟩ := Option.isSome_iff_exists.1 (hrequired "value" (by simp [Role.required]))
    obtain ⟨gs, s, rfl, hs⟩ := Slot.fits_raw (Slot.fits_of_field? hfields rfl hvalue)
    refine ⟨s, ?_⟩
    simp only [quasiRaw, Tree.get?, hvalue, bind, Except.bind, Option.getD_some, hs]
    rfl

theorem joinTexts_ok (index : Nat) (texts : List String) : ∃ s, joinTexts index (texts.map .str) = .ok s := by
  induction texts generalizing index with
  | nil => exact ⟨_, rfl⟩
  | cons text rest ih =>
    obtain ⟨s, hs⟩ := ih (index + 1)
    exact ⟨text ++ s, by rw [List.map_cons, joinTexts, hs]; rfl⟩

theorem templateText_ok {t : Tree} (h : Slot.fits listed (.many .quasi false) t = true) :
    ∃ s, templateText t = .ok s := by
  obtain rfl | ⟨items, rfl, hitems⟩ := Slot.fits_many h
  · exact ⟨_, rfl⟩
  · have hparts : ∀ ts : List Tree, (∀ t ∈ ts, Slot.fits listed (.one .quasi false) t = true) →
        ∃ texts : List String, ts.mapM quasiRaw = .ok (texts.map .str) := by
      intro ts hts
      induction ts with
      | nil => exact ⟨[], rfl⟩
      | cons t rest ih =>
        obtain ⟨s, hs⟩ := quasiRaw_ok (hts t List.mem_cons_self)
        obtain ⟨texts, htexts⟩ := ih fun u hu => hts u (List.mem_cons_of_mem _ hu)
        exact ⟨s :: texts, by rw [List.mapM_cons, hs, htexts]; rfl⟩
    obtain ⟨texts, htexts⟩ := hparts items hitems
    obtain ⟨s, hs⟩ := joinTexts_ok 0 texts
    cases items with
    | nil => exact ⟨_, rfl⟩
    | cons t rest =>
      refine ⟨s, ?_⟩
      simp only [templateText, Tree.truthy, Tree.items, List.isEmpty_cons, Bool.not_false, if_true, bind, Except.bind]
      rw [htexts]
      exact hs

theorem mark_readable {kind : String} (hkind : Tree.field? "type" fields = some (.str kind))
    (h : Slot.fieldsFit listed (Role.slots listed .node kind) fields = true) : (mark path fields).Readable where
  kind := ⟨kind, hkind⟩
  name _ ht := Slot.fits_text (Slot.fits_of_field? h rfl ht)
  position := position_ok h rfl

theorem operator_isWord (h : Slot.fieldsFit listed slots fields = true) (hs : slots.lookup "operator" = some .text) :
    (fieldD "operator" fields).isName = true :=
  (fieldD_isWord h hs).isName

section Parts

-- the trees smaller than `k` are readable where they are read as nodes
variable {k : Nat} {methods : Bool} (ih : ∀ (t : Tree) (path : String) (optional : Bool), sizeOf t < k →
  Slot.fits listed (.one .node optional) t = true → (node path t).Readable methods)

include ih

theorem nodeAt_readable (hk : sizeOf fields ≤ k) (h : Slot.fieldsFit listed slots fields = true)
    (hs : slots.lookup name = some .node) : (nodeAt path name fields).Readable methods := by
  rw [nodeAt_eq]
  cases ht : Tree.field? name fields with
  | none => exact .absent
  | some t => exact ih t _ true (by have := Tree.sizeOf_field? ht; omega) (Slot.fits_of_field? h hs ht)

theorem nodesAt_readable (hk : sizeOf fields ≤ k) (h : Slot.fieldsFit listed slots fields = true)
    (hs : slots.lookup name = some .nodes) : ∀ n ∈ nodesAt path name fields, n.Readable methods := by
  rw [nodesAt_eq]
  refine forall_mem_field? (f := nodes _) (g := node) rfl (fun _ => rfl) (fun _ => rfl)
    (fun _ _ _ => ⟨_, rfl⟩) h hs fun t p ht hfits => ?_
  exact ih t p true (by omega) hfits

theorem declaratorsAt_readable (hk : sizeOf fields ≤ k) (h : Slot.fieldsFit listed slots fields = true)
    (hs : slots.lookup name = some (.many .declarator false)) :
    ∀ d ∈ declaratorsAt path name fields, d.Readable methods := by
  rw [declaratorsAt_eq]
  refine forall_mem_field? (f := declarators _) (g := declarator) rfl (fun _ => rfl) (fun _ => rfl)
    (fun _ _ _ => ⟨_, rfl⟩) h hs fun t p ht hfits => ?_
  obtain ⟨-, hnull⟩ | ⟨gs, kind, rfl, -, -, hgs⟩ := Slot.fits_one hfits
  · cases hnull
  · simp only [Tree.record.sizeOf_spec] at ht
    exact .mk (position_ok hgs rfl) (nodeAt_readable ih (by omega) hgs rfl) (nodeAt_readable ih (by omega) hgs rfl)

theorem paramsAt_readable (hk : sizeOf fields ≤ k) (h : Slot.fieldsFit listed slots fields = true)
    (hs : slots.lookup name = some .params) : ∀ p ∈ paramsAt path name fields, p.Readable methods := by
  rw [paramsAt_eq]
  refine forall_mem_field? (f := params _) (g := param) rfl (fun _ => rfl) (fun _ => rfl)
    (fun _ _ _ => ⟨_, rfl⟩) h hs fun t p ht hfits => ?_
  obtain ⟨name, hname, hword⟩ := paramName_isWord _ t (Nat.lt_succ_self _) hfits
  obtain ⟨-, hnull⟩ | ⟨gs, kind, rfl, hkind, -, hgs⟩ := Slot.fits_one hfits
  · cases hnull
  · simp only [Tree.record.sizeOf_spec] at ht
    rw [param, hname]
    refine .mk (position_ok hgs rfl) hword ?_
    rw [isKind_eq hkind]
    split
    · rename_i hpattern
      obtain rfl := of_decide_eq_true hpattern
      exact nodeAt_readable ih (by omega) hgs rfl
    · exact .absent

theorem propertiesAt_readable (hk : sizeOf fields ≤ k) (h : Slot.fieldsFit listed slots fields = true)
    (hs : slots.lookup name = some (.many .property false)) :
    ∀ p ∈ propertiesAt path name fields, p.Readable methods := by
  rw [propertiesAt_eq]
  refine forall_mem_field? (f := properties _) (g := property) rfl (fun _ => rfl) (fun _ => rfl)
    (fun _ _ _ => ⟨_, rfl⟩) h hs fun t p ht hfits => ?_
  obtain ⟨-, hnull⟩ | ⟨gs, kind, rfl, -, -, hgs⟩ := Slot.fits_one hfits
  · cases hnull
  · simp only [Tree.record.sizeOf_spec] at ht
    exact .mk (position_ok hgs rfl) (nodeAt_readable ih (by omega) hgs rfl) (nodeAt_readable ih (by omega) hgs rfl)

theorem membersAt_readable (hk : sizeOf fields ≤ k) (h : Slot.fieldsFit listed slots fields = true)
    (hs : slots.lookup name = some (.one .classBody true)) :
    ∀ n ∈ membersAt path name fields, n.Readable methods := by
  rw [membersAt_eq]
  cases ht : Tree.field? name fields with
  | none =>
    intro n hn
    cases hn
  | some t =>
    have hsize := Tree.sizeOf_field? ht
    obtain ⟨rfl, -⟩ | ⟨gs, kind, rfl, -, -, hgs⟩ := Slot.fits_one (Slot.fits_of_field? h hs ht)
    · intro n hn
      cases hn
    · simp only [Tree.record.sizeOf_spec] at hsize
      exact nodesAt_readable ih (by omega) hgs rfl

theorem methodParamsAt_readable (hk : sizeOf fields ≤ k) (h : Slot.fieldsFit listed slots fields = true)
    (hs : slots.lookup name = some (.one .method true)) :
    ∀ p ∈ methodParamsAt path name fields, p.Readable methods := by
  rw [methodParamsAt_eq]
  cases ht : Tree.field? name fields with
  | none =>
    intro p hp
    cases hp
  | some t =>
    have hsize := Tree.sizeOf_field? ht
    obtain ⟨rfl, -⟩ | ⟨gs, kind, rfl, -, -, hgs⟩ := Slot.fits_one (Slot.fits_of_field? h hs ht)
    · intro p hp
      cases hp
    · simp only [Tree.record.sizeOf_spec] at hsize
      exact paramsAt_readable ih (by omega) hgs rfl

/-- The body of a method's function is a node, if there are no statements in its place. -/
theorem methodBodyAt_readable (hl : listed = .empty) (hk : sizeOf fields ≤ k)
    (h : Slot.fieldsFit listed slots fields = true) (hs : slots.lookup name = some (.one .method true)) :
    (methodBodyAt path name fields).Readable methods := by
  subst hl
  rw [methodBodyAt_eq]
  cases ht : Tree.field? name fields with
  | none => exact .absent
  | some t =>
    have hsize := Tree.sizeOf_field? ht
    obtain ⟨rfl, -⟩ | ⟨gs, kind, rfl, -, -, hgs⟩ := Slot.fits_one (Slot.fits_of_field? h hs ht)
    · exact .absent
    · simp only [Tree.record.sizeOf_spec] at hsize
      change (nodeAt _ "body" gs).Readable methods
      by_cases hlisted : kind ∈ ["Program", "BlockStatement", "ClassBody"]
      · rw [nodeAt_eq]
        cases hbody : Tree.field? "body" gs with
        | none => exact .absent
        | some body =>
          have hslot : (Role.slots .empty .method kind).lookup "body" = some .empty := by
            simp [Role.slots, List.lookup_cons, hlisted]
          obtain rfl | rfl := Slot.fits_empty (Slot.fits_of_field? hgs hslot hbody)
          · exact .absent
          · exact .absent
      · exact nodeAt_readable ih (by omega) hgs (by simp [Role.slots, List.lookup_cons, hlisted])

end Parts

theorem readable_of_nodes {methods : Bool} {mark : Mark} {form : Form} (hmark : mark.Readable) (proper : form.Proper mark)
    (nodes : ∀ n ∈ form.nodes methods, n.Readable methods) (hd : form.declarators = []) (hp : form.params = [])
    (hq : form.properties = []) : (Node.mk mark form).Readable methods :=
  .mk hmark proper nodes (by simp [hd]) (by simp [hp]) (by simp [hq])

theorem readable_of_forall {methods : Bool} {mark : Mark} {form : Form} (hmark : mark.Readable)
    (proper : form.Proper mark) (nodes : (form.nodes methods).Forall (Node.Readable methods))
    (hd : form.declarators = []) (hp : form.params = []) (hq : form.properties = []) :
    (Node.mk mark form).Readable methods :=
  readable_of_nodes hmark proper (List.forall_iff_forall_mem.1 nodes) hd hp hq

/-- A tree in the shape of a node is a readable node, with its methods if no statements stand for their functions. -/
theorem node_readable {methods : Bool} (hm : methods = true → listed = .empty) (k : Nat) (t : Tree) (path : String)
    (optional : Bool) (hk : sizeOf t < k) (h : Slot.fits listed (.one .node optional) t = true) :
    (node path t).Readable methods := by
  induction k generalizing t path optional with
  | zero => omega
  | succ k ih =>
  obtain ⟨rfl, -⟩ | ⟨fields, kind, rfl, hkind, hrequired, hfields⟩ := Slot.fits_one h
  · exact .absent
  · simp only [Tree.record.sizeOf_spec] at hk
    have hmark : (mark path fields).Readable := mark_readable hkind hfields
    have hle : sizeOf fields ≤ k := by omega
    have hnode {name : String} (hs : (Role.slots listed .node kind).lookup name = some .node) :
        (nodeAt path name fields).Readable methods := nodeAt_readable ih hle hfields hs
    have hnodes {name : String} (hs : (Role.slots listed .node kind).lookup name = some .nodes) :
        ∀ n ∈ nodesAt path name fields, n.Readable methods := nodesAt_readable ih hle hfields hs
    have hne : fields.isEmpty = false := by
      cases fields with
      | nil => cases hkind
      | cons => rfl
    rw [node, hne, if_neg Bool.false_ne_true, hkind]
    split
    next hprogram =>
      cases hprogram
      exact readable_of_nodes hmark trivial (hnodes rfl) rfl rfl rfl
    next hblock =>
      cases hblock
      exact readable_of_nodes hmark trivial (hnodes rfl) rfl rfl rfl
    next hexpression =>
      cases hexpression
      exact readable_of_forall hmark trivial (hnode rfl) rfl rfl rfl
    next hdeclaration =>
      cases hdeclaration
      exact .mk hmark trivial (by simp [Form.nodes]) (declaratorsAt_readable ih hle hfields rfl)
        (by simp [Form.params]) (by simp [Form.properties])
    next hfunction =>
      cases hfunction
      exact .mk hmark trivial (List.forall_iff_forall_mem.1 ⟨hnode rfl, hnode rfl⟩) (by simp [Form.declarators])
        (paramsAt_readable ih hle hfields rfl) (by simp [Form.properties])
    next hclass =>
      cases hclass
      refine readable_of_nodes hmark trivial ?_ rfl rfl rfl
      simp only [Form.nodes, List.forall_mem_cons]
      exact ⟨hnode rfl, hnode rfl, membersAt_readable ih hle hfields rfl⟩
    next hmethod =>
      cases hmethod
      refine .mk hmark trivial (List.forall_iff_forall_mem.1 ?_) (by simp [Form.declarators])
        (methodParamsAt_readable ih hle hfields rfl) (by simp [Form.properties])
      cases methods with
      | true => exact ⟨hnode rfl, methodBodyAt_readable ih (hm rfl) hle hfields rfl⟩
      | false => exact hnode rfl
    next hif =>
      cases hif
      exact readable_of_forall hmark trivial ⟨hnode rfl, hnode rfl, hnode rfl⟩ rfl rfl rfl
    next hwhile =>
      cases hwhile
      exact readable_of_forall hmark trivial ⟨hnode rfl, hnode rfl⟩ rfl rfl rfl
    next hfor =>
      cases hfor
      exact readable_of_forall hmark trivial ⟨hnode rfl, hnode rfl, hnode rfl, hnode rfl⟩ rfl rfl rfl
    next hreturn =>
      cases hreturn
      exact readable_of_forall hmark trivial (hnode rfl) rfl rfl rfl
    next hbreak =>
      cases hbreak
      exact readable_of_forall hmark trivial trivial rfl rfl rfl
    next hcontinue =>
      cases hcontinue
      exact readable_of_forall hmark trivial trivial rfl rfl rfl
    next hempty =>
      cases hempty
      exact readable_of_forall hmark trivial trivial rfl rfl rfl
    next hthrow =>
      cases hthrow
      exact readable_of_forall hmark trivial (hnode rfl) rfl rfl rfl
    next hidentifier =>
      cases hidentifier
      exact readable_of_forall hmark (hrequired "name" (by simp [Role.required])) trivial rfl rfl rfl
    next hliteral =>
      cases hliteral
      refine readable_of_forall hmark ?_ trivial rfl rfl rfl
      unfold Form.Proper fieldD
      cases hvalue : Tree.field? "value" fields with
      | none => rfl
      | some t => simpa [Slot.fits] using Slot.fits_of_field? hfields rfl hvalue
    next htemplate =>
      cases htemplate
      have hquasis : Slot.fits listed (.many .quasi false) (fieldD "quasis" fields) = true := by
        unfold fieldD
        cases hfield : Tree.field? "quasis" fields with
        | none => rfl
        | some t => exact Slot.fits_of_field? hfields rfl hfield
      exact readable_of_nodes hmark (templateText_ok hquasis) (hnodes rfl) rfl rfl rfl
    next hassignment =>
      cases hassignment
      refine readable_of_forall hmark ?_ ?_ rfl rfl rfl
      · cases hop : Tree.field? "operator" fields with
        | none => exact ⟨"=", rfl⟩
        | some t => exact Slot.fits_text (Slot.fits_of_field? hfields rfl hop)
      · exact ⟨hnode rfl, hnode rfl⟩
    next hbinary =>
      cases hbinary
      exact readable_of_forall hmark (operator_isWord hfields rfl) ⟨hnode rfl, hnode rfl⟩ rfl rfl rfl
    next hlogical =>
      cases hlogical
      exact readable_of_forall hmark trivial ⟨hnode rfl, hnode rfl⟩ rfl rfl rfl
    next hunary =>
      cases hunary
      exact readable_of_forall hmark (operator_isWord hfields rfl) (hnode rfl) rfl rfl rfl
    next hupdate =>
      cases hupdate
      exact readable_of_forall hmark trivial (hnode rfl) rfl rfl rfl
    next hconditional =>
      cases hconditional
      exact readable_of_forall hmark trivial ⟨hnode rfl, hnode rfl, hnode rfl⟩ rfl rfl rfl
    next hcall =>
      cases hcall
      refine readable_of_nodes hmark trivial ?_ rfl rfl rfl
      simp only [Form.nodes, List.forall_mem_cons]
      exact ⟨hnode rfl, hnodes rfl⟩
    next hnew =>
      cases hnew
      refine readable_of_nodes hmark trivial ?_ rfl rfl rfl
      simp only [Form.nodes, List.forall_mem_cons]
      exact ⟨hnode rfl, hnodes rfl⟩
    next hmember =>
      cases hmember
      exact readable_of_forall hmark trivial ⟨hnode rfl, hnode rfl⟩ rfl rfl rfl
    next harray =>
      cases harray
      exact readable_of_nodes hmark trivial (hnodes rfl) rfl rfl rfl
    next hobject =>
      cases hobject
      exact .mk hmark trivial (by simp [Form.nodes]) (by simp [Form.declarators]) (by simp [Form.params])
        (propertiesAt_readable ih hle hfields rfl)
    next harrow =>
      cases harrow
      exact .mk hmark trivial (List.forall_iff_forall_mem.1 (hnode rfl)) (by simp [Form.declarators])
        (paramsAt_readable ih hle hfields rfl) (by simp [Form.properties])
    next hlambda =>
      cases hlambda
      exact .mk hmark trivial (List.forall_iff_forall_mem.1 (hnode rfl)) (by simp [Form.declarators])
        (paramsAt_readable ih hle hfields rfl) (by simp [Form.properties])
    next hsequence =>
      cases hsequence
      exact readable_of_nodes hmark trivial (hnodes rfl) rfl rfl rfl
    next hthis =>
      cases hthis
      exact readable_of_forall hmark trivial trivial rfl rfl rfl
    next => exact readable_of_forall hmark trivial trivial rfl rfl rfl

end OfTree

/-- A program in the shape of one is lowered, and it is walked without a fatal error unless statements stand in the
place of a method's function. -/
theorem Tree.isShaped_safe {t : Tree} (h : t.isShaped .nodes = true) :
    (∃ l, (Node.ofTree t).lower = .ok l) ∧ (t.isShaped .empty = true → (Node.ofTree t).analyze.isFatal = false) := by
  constructor
  · have hread : (Node.ofTree t).Readable false :=
      OfTree.node_readable (fun hm => by cases hm) _ t "" false (Nat.lt_succ_self _) h
    exact hread.exists_lower
  · intro hempty
    have hread : (Node.ofTree t).Readable true :=
      OfTree.node_readable (fun _ => rfl) _ t "" false (Nat.lt_succ_self _) hempty
    exact hread.isFatal_analyze

/-- A record that tells its kind. -/
def Tree.ofKind (kind : String) (fields : List (String × Tree)) : Tree := .record (("type", .str kind) :: fields)

/-- A class with one method whose value is the given tree. -/
def Tree.classWith (value : Tree) : Tree :=
  .ofKind "ClassDeclaration" [
    ("id", .ofKind "Identifier" [("name", .str "C")]),
    ("body", .ofKind "ClassBody" [("body", .list [.null, .ofKind "MethodDefinition" [
      ("key", .ofKind "Identifier" [("name", .str "m")]), ("value", value)]])])]

/-- A program with nodes in unusual places, and one of a kind that is not known. -/
def Tree.mixedProgram : Tree :=
  .ofKind "Program" [("body", .list [
    .classWith (.ofKind "FunctionExpression" [
      ("params", .list [.ofKind "AssignmentPattern" [
        ("left", .ofKind "Identifier" [("name", .str "p")]), ("right", .ofKind "ThisExpression" [])]]),
      ("body", .ofKind "BlockStatement" [("body", .list [.ofKind "ReturnStatement" [("argument", .null)]])])]),
    .ofKind "ExpressionStatement" [("expression", .ofKind "TemplateLiteral" [
      ("quasis", .list [.ofKind "TemplateElement" [("value", .record [("raw", .str "a")])]]),
      ("expressions", .list [.ofKind "ForStatement" [("test", .ofKind "BreakStatement" [])]])])],
    .ofKind "SwitchStatement" [("cases", .int 3), ("loc", .record [("start", .record [("line", .int 7)])])]])]

theorem Tree.isShaped_safe_mixedProgram :
    mixedProgram.isShaped .nodes = true ∧ mixedProgram.isShaped .empty = true ∧
      (∃ l, (Node.ofTree mixedProgram).lower = .ok l) ∧ (Node.ofTree mixedProgram).analyze.isFatal = false := by
  have hnodes : mixedProgram.isShaped .nodes = true := by decide +kernel
  have hempty : mixedProgram.isShaped .empty = true := by decide +kernel
  exact ⟨hnodes, hempty, (isShaped_safe hnodes).1, (isShaped_safe hnodes).2 hempty⟩

/-- The statements of a block that stands in the place of a method's function are no node. -/
theorem Tree.isFatal_blockMethod :
    (classWith (.ofKind "BlockStatement" [("body", .list [.ofKind "EmptyStatement" []])])).isShaped .nodes = true ∧
      (Node.ofTree (classWith (.ofKind "BlockStatement" [
        ("body", .list [.ofKind "EmptyStatement" []])]))).analyze.isFatal = true := by
  decide +kernel

end QuadScript
