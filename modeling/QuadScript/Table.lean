/-!
# Tables

Finite maps that keep their keys in the order in which they were first set. Setting a key again
changes its entry in place.
-/

namespace QuadScript

structure Table (κ α : Type) where
  entries : List (κ × α) := []
deriving Repr

namespace Table

variable {κ α : Type} [DecidableEq κ]

def empty : Table κ α := {}

instance : EmptyCollection (Table κ α) := ⟨empty⟩

instance : Inhabited (Table κ α) := ⟨empty⟩

def find? (k : κ) : List (κ × α) → Option α
  | [] => none
  | (k', a) :: rest => if k' = k then some a else find? k rest

def put (k : κ) (a : α) : List (κ × α) → List (κ × α)
  | [] => [(k, a)]
  | (k', b) :: rest => if k' = k then (k, a) :: rest else (k', b) :: put k a rest

def get? (t : Table κ α) (k : κ) : Option α := find? k t.entries

def set (t : Table κ α) (k : κ) (a : α) : Table κ α := ⟨put k a t.entries⟩

def erase (t : Table κ α) (k : κ) : Table κ α := ⟨t.entries.filter fun e => e.1 ≠ k⟩

def values (t : Table κ α) : List α := t.entries.map (·.2)

theorem find?_put (k k' : κ) (a : α) (es : List (κ × α)) :
    find? k' (put k a es) = if k = k' then some a else find? k' es := by
  induction es with
  | nil => simp [put, find?]
  | cons e rest ih =>
    obtain ⟨k₀, b⟩ := e
    by_cases h : k₀ = k
    · subst h; simp only [put, if_pos]; by_cases h' : k₀ = k' <;> simp [find?, h']
    · by_cases h' : k₀ = k'
      · subst h'; simp [put, find?, h, Ne.symm h]
      · simp [put, find?, h, h', ih]

@[simp] theorem get?_empty (k : κ) : (∅ : Table κ α).get? k = none := rfl

@[simp] theorem get?_set (t : Table κ α) (k k' : κ) (a : α) :
    (t.set k a).get? k' = if k = k' then some a else t.get? k' :=
  find?_put k k' a t.entries

theorem find?_filter (k k' : κ) (es : List (κ × α)) :
    find? k' (es.filter fun e => e.1 ≠ k) = if k = k' then none else find? k' es := by
  induction es with
  | nil => simp [find?]
  | cons e rest ih =>
    obtain ⟨k₀, b⟩ := e
    by_cases h : k₀ = k
    · subst h
      by_cases h' : k₀ = k' <;> simp_all [find?]
    · by_cases h' : k₀ = k'
      · subst h'; simp_all [find?, Ne.symm h]
      · simp_all [find?]

@[simp] theorem get?_erase (t : Table κ α) (k k' : κ) :
    (t.erase k).get? k' = if k = k' then none else t.get? k' :=
  find?_filter k k' t.entries

end Table

end QuadScript
