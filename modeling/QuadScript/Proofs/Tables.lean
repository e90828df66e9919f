import QuadScript.Key
import Mathlib.Logic.Function.Basic

/-!
# Tables that differ in keys and values

`Table.map g f` renames the keys of a table by an injection and changes its values, and `Table.only P` keeps the
keys that `P` allows. Both go through lookups and updates, also through those of `Key`s, where a number is found
under the spelling that was used first. `Table.Agree P f t t'`: on the keys that `P` allows, `t'` has what `t` has,
changed by `f`.
-/

namespace QuadScript

namespace Table

section
variable {κ κ' α β : Type} [DecidableEq κ] [DecidableEq κ'] {g : κ → κ'} {P : κ → Bool}

theorem find?_map (hg : g.Injective) (f : α → β) (k : κ) (es : List (κ × α)) :
    find? (g k) (es.map (Prod.map g f)) = (find? k es).map f := by
  induction es with
  | nil => rfl
  | cons e es ih =>
    by_cases h : e.1 = k
    · simp [find?, h]
    · simpa [find?, h, hg.eq_iff] using ih

theorem put_map (hg : g.Injective) (f : α → β) (k : κ) (a : α) (es : List (κ × α)) :
    put (g k) (f a) (es.map (Prod.map g f)) = (put k a es).map (Prod.map g f) := by
  induction es with
  | nil => rfl
  | cons e es ih =>
    obtain ⟨k₀, b⟩ := e
    show put (g k) (f a) ((g k₀, f b) :: es.map (Prod.map g f)) = _
    by_cases h : k₀ = k
    · simp [put, h]
    · simp [put, h, hg.eq_iff, ih]

theorem mem_put {k : κ} {a : α} {e : κ × α} {es : List (κ × α)} (h : e ∈ put k a es) : e = (k, a) ∨ e ∈ es := by
  induction es with
  | nil => exact .inl (List.mem_singleton.1 h)
  | cons e' rest ih =>
    unfold put at h
    split at h
    · rcases List.mem_cons.1 h with h | h
      · exact .inl h
      · exact .inr (List.mem_cons_of_mem _ h)
    · rcases List.mem_cons.1 h with rfl | h
      · exact .inr List.mem_cons_self
      · exact (ih h).imp_right (List.mem_cons_of_mem _)

theorem find?_only {k : κ} (hk : P k = true) (es : List (κ × α)) : find? k (es.filter (P ·.1)) = find? k es := by
  induction es with
  | nil => rfl
  | cons e es ih =>
    by_cases h : e.1 = k
    · simp [find?, h, hk]
    · by_cases hP : P e.1 = true <;> simp [find?, h, hP, ih]

theorem put_only {k : κ} (hk : P k = true) (a : α) (es : List (κ × α)) :
    (put k a es).filter (P ·.1) = put k a (es.filter (P ·.1)) := by
  induction es with
  | nil => simp [put, hk]
  | cons e es ih =>
    by_cases h : e.1 = k
    · simp [put, h, hk]
    · by_cases hP : P e.1 = true <;> simp [put, h, hP, ih]

theorem put_only_of_not {k : κ} (hk : P k = false) (a : α) (es : List (κ × α)) :
    (put k a es).filter (P ·.1) = es.filter (P ·.1) := by
  induction es with
  | nil => simp [put, hk]
  | cons e es ih =>
    by_cases h : e.1 = k
    · simp [put, h, hk]
    · by_cases hP : P e.1 = true <;> simp [put, h, hP, ih]

def map (g : κ → κ') (f : α → β) (t : Table κ α) : Table κ' β := ⟨t.entries.map (Prod.map g f)⟩

/-- The entries of the keys that a predicate allows. -/
def only (P : κ → Bool) (t : Table κ α) : Table κ α := ⟨t.entries.filter (P ·.1)⟩

theorem get?_map (hg : g.Injective) (f : α → β) (t : Table κ α) (k : κ) :
    (t.map g f).get? (g k) = (t.get? k).map f :=
  find?_map hg f k t.entries

theorem set_map (hg : g.Injective) (f : α → β) (t : Table κ α) (k : κ) (a : α) :
    (t.set k a).map g f = (t.map g f).set (g k) (f a) :=
  congrArg mk (put_map hg f k a t.entries).symm

theorem erase_map (hg : g.Injective) (f : α → β) (t : Table κ α) (k : κ) :
    (t.erase k).map g f = (t.map g f).erase (g k) := by
  have hkeep : (fun e => decide (e.1 ≠ g k)) ∘ Prod.map g f = fun e : κ × α => decide (e.1 ≠ k) :=
    funext fun e => by simp [hg.eq_iff]
  unfold erase map
  rw [List.filter_map, hkeep]

theorem get?_only {k : κ} (hk : P k = true) (t : Table κ α) : (t.only P).get? k = t.get? k := find?_only hk t.entries

theorem set_only {k : κ} (hk : P k = true) (t : Table κ α) (a : α) : (t.set k a).only P = (t.only P).set k a :=
  congrArg mk (put_only hk a t.entries)

theorem set_only_of_not {k : κ} (hk : P k = false) (t : Table κ α) (a : α) : (t.set k a).only P = t.only P :=
  congrArg mk (put_only_of_not hk a t.entries)

end

/-! ### Keys -/

variable {α β : Type} {P : Key → Bool} {f : α → β} {t : Table Key α} {t' : Table Key β} {k : Key}

theorem spelling_of_number?_eq_none (h : k.number? = none) : t.spelling k = k := by
  unfold spelling; rw [h]

theorem number?_of_same {k' : Key} (hk : k.number? ≠ none) (h : k'.same k = true) : k'.number? ≠ none := by
  intro hnone
  simp only [Key.same, hnone, decide_eq_true_eq] at h
  exact hk (h ▸ hnone)

theorem number?_spelling (hk : k.number? ≠ none) : (t.spelling k).number? ≠ none := by
  unfold spelling
  obtain ⟨n, hn⟩ := Option.ne_none_iff_exists'.1 hk
  rw [hn]
  cases hf : t.entries.find? fun e => e.1.same k with
  | none => exact hk
  | some e =>
    have hs := List.find?_some hf
    exact number?_of_same hk hs

/-- The keys that a predicate allows have their spelling among them, if it allows all numbers. -/
theorem spelling_allowed (hP : ∀ k : Key, k.number? ≠ none → P k = true) (hk : P k = true) :
    P (t.spelling k) = true := by
  by_cases hn : k.number? = none
  · rwa [spelling_of_number?_eq_none hn]
  · exact hP _ (number?_spelling hn)

theorem spelling_only (hP : ∀ k : Key, k.number? ≠ none → P k = true) : (t.only P).spelling k = t.spelling k := by
  by_cases hn : k.number? = none
  · rw [spelling_of_number?_eq_none hn, spelling_of_number?_eq_none hn]
  · have hfind : (t.entries.filter (P ·.1)).find? (fun e => e.1.same k) = t.entries.find? fun e => e.1.same k := by
      rw [List.find?_filter]
      refine congrArg (List.find? · t.entries) (funext fun e => ?_)
      cases hs : e.1.same k with
      | false => simp
      | true => simpa using hP _ (number?_of_same hn hs)
    simp only [spelling, only, hfind]

/-- A renaming of keys that keeps which of them are the same. -/
structure KeyMap (g : Key → Key) : Prop where
  injective : g.Injective
  number? : ∀ k : Key, (g k).number? = k.number?

theorem KeyMap.same {g : Key → Key} (hg : KeyMap g) (k k' : Key) : (g k).same (g k') = k.same k' := by
  unfold Key.same
  rw [hg.number?, hg.number?]
  split
  · rfl
  · exact decide_eq_decide.2 hg.injective.eq_iff

theorem KeyMap.id : KeyMap id := ⟨Function.injective_id, fun _ => rfl⟩

section
variable {g : Key → Key} (hg : KeyMap g)
include hg

theorem spelling_map : (t.map g f).spelling (g k) = g (t.spelling k) := by
  unfold spelling
  rw [hg.number?]
  split
  · have hfind : (t.map g f).entries.find? (fun e => e.1.same (g k)) =
        (t.entries.find? fun e => e.1.same k).map (Prod.map g f) := by
      unfold map
      rw [List.find?_map]
      refine congrArg (fun p => Option.map (Prod.map g f) (List.find? p t.entries)) (funext fun e => ?_)
      exact hg.same e.1 k
    rw [hfind]
    cases t.entries.find? fun e => e.1.same k <;> rfl
  · rfl

theorem getKey?_map : (t.map g f).getKey? (g k) = (t.getKey? k).map f := by
  unfold getKey?
  rw [spelling_map hg, get?_map hg.injective]

theorem setKey_map (a : α) : (t.setKey k a).map g f = (t.map g f).setKey (g k) (f a) := by
  unfold setKey
  rw [spelling_map hg, set_map hg.injective]

theorem eraseKey_map : (t.eraseKey k).map g f = (t.map g f).eraseKey (g k) := by
  unfold eraseKey
  rw [spelling_map hg, erase_map hg.injective]

end

/-! ### Agreement -/

/-- On the keys that the predicate allows, the second table has what the first has, changed by the function. -/
def Agree (P : Key → Bool) (f : α → β) (t : Table Key α) (t' : Table Key β) : Prop := t'.only P = (t.only P).map id f

namespace Agree

theorem refl (t : Table Key α) : Agree P id t t := by
  unfold Agree Table.map
  simp

variable (hP : ∀ k : Key, k.number? ≠ none → P k = true)
include hP

theorem getKey? (h : Agree P f t t') (hk : P k = true) : t'.getKey? k = (t.getKey? k).map f :=
  calc t'.getKey? k
    _ = (t'.only P).getKey? k := by
      unfold Table.getKey?
      rw [spelling_only hP, get?_only (spelling_allowed hP hk)]
    _ = ((t.only P).getKey? k).map f := by rw [h, ← getKey?_map .id]; rfl
    _ = (t.getKey? k).map f := by
      unfold Table.getKey?
      rw [spelling_only hP, get?_only (spelling_allowed hP hk)]

theorem only_setKey_of_not (hk : P k = false) (t : Table Key α) (a : α) : (t.setKey k a).only P = t.only P := by
  have hn : k.number? = none := by
    by_contra hn
    rw [hP k hn] at hk
    cases hk
  unfold Table.setKey
  rw [spelling_of_number?_eq_none hn, set_only_of_not hk]

theorem setKey_left (h : Agree P f t t') (hk : P k = false) (a : α) : Agree P f (t.setKey k a) t' := by
  unfold Agree
  rw [only_setKey_of_not hP hk]
  exact h

theorem setKey_right (h : Agree P f t t') (hk : P k = false) (b : β) : Agree P f t (t'.setKey k b) := by
  unfold Agree
  rw [only_setKey_of_not hP hk]
  exact h

theorem setKey (h : Agree P f t t') (k : Key) (a : α) : Agree P f (t.setKey k a) (t'.setKey k (f a)) := by
  cases hk : P k with
  | false => exact (h.setKey_left hP hk a).setKey_right hP hk (f a)
  | true =>
    have hset : ∀ {γ : Type} (t : Table Key γ) (c : γ), (t.setKey k c).only P = (t.only P).setKey k c := by
      intro γ t c
      unfold Table.setKey
      rw [spelling_only hP, set_only (spelling_allowed hP hk)]
    unfold Agree
    rw [hset, hset, setKey_map .id, h]
    rfl

end Agree

end Table

end QuadScript
