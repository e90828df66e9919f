import QuadScript.Quad.Basic

/-!
# Lowering actions

An action of the lowering emits code and draws fresh names. The code that an action emits does not
depend on what was emitted before it, so the code of two actions in a row is one code after the
other.
-/

namespace QuadScript

/-- The fresh names drawn so far, the functions declared and the warnings given. -/
structure Supply where
  temps : Nat := 0
  labels : Nat := 0
  joins : Nat := 0
  functions : List String := []
  warnings : List String := []

/-- What an action gives: its value, the code it emits, and the supply after it. -/
structure Lowered (α : Type) where
  value : α
  code : Code
  supply : Supply

def Lower (α : Type) : Type := Supply → Except Fault (Lowered α)

namespace Lower

variable {α β : Type}

protected def pure (a : α) : Lower α := fun s => .ok ⟨a, [], s⟩

protected def bind (x : Lower α) (f : α → Lower β) : Lower β := fun s =>
  match x s with
  | .error e => .error e
  | .ok a =>
    match f a.value a.supply with
    | .error e => .error e
    | .ok b => .ok ⟨b.value, a.code ++ b.code, b.supply⟩

instance : Monad Lower where
  pure := Lower.pure
  bind := Lower.bind

/-- Two actions in a row succeed if both do; their code is one code after the other. -/
theorem bind_eq_ok {x : Lower α} {f : α → Lower β} {s : Supply} {r : Lowered β} :
    (x >>= f) s = .ok r ↔
      ∃ a b, x s = .ok a ∧ f a.value a.supply = .ok b ∧
        r = ⟨b.value, a.code ++ b.code, b.supply⟩ := by
  change Lower.bind x f s = .ok r ↔ _
  unfold Lower.bind
  cases hx : x s with
  | error e => simp
  | ok a =>
    cases hf : f a.value a.supply with
    | error e => simp [hf]
    | ok b => simp [hf, eq_comm]

def fail (e : Fault) : Lower α := fun _ => .error e

/-- The value of a computation that emits nothing. -/
def lift (x : Except Fault α) : Lower α := fun s =>
  match x with
  | .ok a => .ok ⟨a, [], s⟩
  | .error e => .error e

def emit (q : Quad) : Lower Unit := fun s => .ok ⟨(), [q], s⟩

def warn (message : String) : Lower Unit := fun s =>
  .ok ⟨(), [], { s with warnings := s.warnings ++ [message] }⟩

/-- A temporary that no other instruction writes to. -/
def newTemp : Lower String := fun s =>
  .ok ⟨"t" ++ toString s.temps, [], { s with temps := s.temps + 1 }⟩

def newLabel : Lower String := fun s =>
  .ok ⟨"L" ++ toString s.labels, [], { s with labels := s.labels + 1 }⟩

/-- A variable in which the values of two branches meet. No source name starts with its mark. -/
def newJoin : Lower String := fun s =>
  .ok ⟨"%j" ++ toString s.joins, [], { s with joins := s.joins + 1 }⟩

/-- Whether a function of that name was declared before; from now on it is. -/
def declareFunction (name : String) : Lower Bool := fun s =>
  if s.functions.contains name then .ok ⟨true, [], s⟩
  else .ok ⟨false, [], { s with functions := s.functions ++ [name] }⟩

/-! ### Instructions -/

def assign (value : Operand) (target : Target) : Lower Unit :=
  emit { op := .assign, arg1 := value, result := target }

def label (name : String) : Lower Unit := emit { op := .label, result := .name name }

def goto (name : String) : Lower Unit := emit { op := .goto, result := .name name }

def jumpIfFalse (value : Operand) (name : String) : Lower Unit :=
  emit { op := .jumpIfFalse, arg1 := value, result := .name name }

/-- An operator whose result goes to a fresh temporary. -/
def operator (op : Operator) (a b : Operand) : Lower Operand := do
  let dest ← newTemp
  emit { op := .operator op, arg1 := a, arg2 := b, result := .name dest }
  return .name dest

end Lower

end QuadScript
