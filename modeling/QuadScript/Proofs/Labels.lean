import QuadScript.Proofs.Steps
import Mathlib.Data.List.Basic

/-!
# Where labels are

A label table maps a name to a place where a label of that name stands (`labels_get?_eq_some`), and
to the only such place if there is only one (`labels_get?_of_unique`). Labels and jumps are all that
linking looks at: codes that agree in them have the same table and the same link fault
(`labels_congr`, `linkFault?_congr`).
-/

namespace QuadScript

namespace Table

variable {α : Type}

theorem spelling_eq_text (t : Table Key α) (k : Key) (s : String) : t.spelling k = .text s ↔ k = .text s := by
  unfold spelling
  cases hk : k.number? with
  | none => rfl
  | some n =>
    have hne : k ≠ .text s := by rintro rfl; cases hk
    refine ⟨fun h => absurd h ?_, fun h => absurd h hne⟩
    cases hf : t.entries.find? fun e => e.1.same k with
    | none => exact hne
    | some e =>
      have hs := List.find?_some hf
      intro h
      have he : e.1 = .text s := h
      rw [he, Key.same, hk] at hs
      simp [Key.number?] at hs
      exact hne hs.symm

@[simp] theorem get?_setKey_text (t : Table Key α) (k : Key) (s : String) (a : α) :
    (t.setKey k a).get? (.text s) = if k = .text s then some a else t.get? (.text s) := by
  simp only [setKey, get?_set, spelling_eq_text]

@[simp] theorem get?_eraseKey_text (t : Table Key α) (k : Key) (s : String) :
    (t.eraseKey k).get? (.text s) = if k = .text s then none else t.get? (.text s) := by
  simp only [eraseKey, get?_erase, spelling_eq_text]

end Table

theorem Target.key_eq_text {x : Target} {place : Nat} {s : String} (hx : x.key place = .ok (.text s)) :
    x.toTree = .str s := by
  cases ht : x.toTree <;> simp_all [Target.key, Key.ofTree]
  split at hx <;> cases hx

namespace Code

variable {code code' : Code} {labels : Labels} {position : Nat}

/-! ### Entries of the table -/

theorem labelsFrom_get?_eq_some {k : Key} {p : Nat} (h : (labelsFrom position labels code).1.get? k = some p) :
    labels.get? k = some p ∨ ∃ i q, code[i]? = some q ∧ p = position + i ∧ q.op = .label ∧
      ∀ s, k = .text s → q.result.toTree = .str s := by
  -- on the code, with any table to begin with: an entry is from that table or from a label that comes later
  induction code generalizing position labels with
  | nil => exact .inl h
  | cons q rest ih =>
    have shift : (∃ i q', rest[i]? = some q' ∧ p = position + 1 + i ∧ q'.op = .label ∧
          ∀ s, k = .text s → q'.result.toTree = .str s) →
        ∃ i q', (q :: rest)[i]? = some q' ∧ p = position + i ∧ q'.op = .label ∧
          ∀ s, k = .text s → q'.result.toTree = .str s := by
      rintro ⟨i, q', hi, hp, hq'⟩
      exact ⟨i + 1, q', hi, by omega, hq'⟩
    unfold labelsFrom at h
    split at h
    · rename_i hop
      split at h
      · rename_i k' hk'
        rcases ih h with h' | h'
        · rw [Table.setKey, Table.get?_set] at h'
          split at h'
          · rename_i hk
            cases h'
            refine .inr ⟨0, q, rfl, rfl, hop, ?_⟩
            rintro s rfl
            rw [Table.spelling_eq_text] at hk
            exact Target.key_eq_text (hk ▸ hk')
          · exact .inl h'
        · exact .inr (shift h')
      · exact .inl h
    · exact (ih h).imp_right shift

theorem labels_get?_eq_some {k : Key} {p : Nat} (h : code.labels.get? k = some p) :
    ∃ q, code[p]? = some q ∧ q.op = .label ∧ ∀ s, k = .text s → q.result.toTree = .str s := by
  rcases labelsFrom_get?_eq_some h with h | ⟨i, q, hi, rfl, hq⟩
  · cases h
  · exact ⟨q, by rwa [Nat.zero_add], hq⟩

theorem labels_getKey?_eq_some {k : Key} {p : Nat} (h : code.labels.getKey? k = some p) :
    ∃ q, code[p]? = some q ∧ q.op = .label :=
  let ⟨q, hp, hop, _⟩ := labels_get?_eq_some h; ⟨q, hp, hop⟩

/-! ### Named labels -/

/-- Every label is a name. -/
def LabelsNamed (code : Code) : Prop := ∀ q ∈ code, q.op = .label → ∃ s, q.result = .name s

theorem labelsFrom_append (h : code.LabelsNamed) :
    labelsFrom position labels (code ++ code') =
      labelsFrom (position + code.length) (labelsFrom position labels code).1 code' := by
  induction code generalizing position labels with
  | nil => rfl
  | cons q rest ih =>
    have ih' := fun l => @ih l (position + 1) fun q' hq' => h q' (by simp [hq'])
    have hlen : position + (q :: rest).length = position + 1 + rest.length := by simp; omega
    rw [List.cons_append, labelsFrom, labelsFrom, hlen]
    by_cases hop : q.op = .label
    · obtain ⟨s, hs⟩ := h q (by simp) hop
      simp only [hop, if_true, hs, Target.key_name]
      exact ih' _
    · simp only [hop, if_false]
      exact ih' _

theorem labelsFrom_get?_of_forall {s : String} (h : ∀ q ∈ code, q.op = .label → q.result.toTree ≠ .str s) :
    (labelsFrom position labels code).1.get? (.text s) = labels.get? (.text s) := by
  induction code generalizing position labels with
  | nil => rfl
  | cons q rest ih =>
    have ih' := fun l => @ih l (position + 1) fun q' hq' => h q' (by simp [hq'])
    rw [labelsFrom]
    by_cases hop : q.op = .label
    · simp only [hop, if_true]
      split
      · rename_i k hk
        rw [ih', Table.get?_setKey_text, if_neg]
        rintro rfl
        exact h q (by simp) hop (Target.key_eq_text hk)
      · rfl
    · simp only [hop, if_false]
      exact ih' _

/-- Of several labels of one name the last counts. -/
theorem labels_get?_of_last {pre post : Code} {q : Quad} {s : String} (hcode : code = pre ++ q :: post)
    (hpre : pre.LabelsNamed) (hop : q.op = .label) (hq : q.result = .name s)
    (hpost : ∀ q' ∈ post, q'.op = .label → q'.result.toTree ≠ .str s) :
    code.labels.get? (.text s) = some pre.length := by
  subst hcode
  unfold labels
  rw [labelsFrom_append hpre, labelsFrom, if_pos hop, hq]
  simp only [Target.key_name]
  rw [labelsFrom_get?_of_forall hpost, Table.setKey_text, Table.get?_set, if_pos rfl, Nat.zero_add]

theorem le_of_labelsFrom_get? {s : String} {p i : Nat} {q : Quad} (hnamed : code.LabelsNamed)
    (h : (labelsFrom position labels code).1.get? (.text s) = some p) (hq : code[i]? = some q) (hop : q.op = .label)
    (hs : q.result = .name s) : position + i ≤ p := by
  induction code generalizing position labels i with
  | nil => cases hq
  | cons q' rest ih =>
    have ih' := fun l i => @ih l (position + 1) i fun q' hq' => hnamed q' (by simp [hq'])
    rw [labelsFrom] at h
    cases i with
    | zero =>
      cases hq
      simp only [hop, if_true, hs, Target.key_name] at h
      rcases labelsFrom_get?_eq_some h with h | ⟨i, -, -, rfl, -⟩
      · rw [Table.setKey_text, Table.get?_set, if_pos rfl] at h
        exact Nat.le_of_eq (Option.some.inj h)
      · omega
    | succ i =>
      have hi : position + 1 + i ≤ p := by
        by_cases hop' : q'.op = .label
        · obtain ⟨s', hs'⟩ := hnamed q' (by simp) hop'
          simp only [hop', if_true, hs', Target.key_name] at h
          exact ih' _ i h hq
        · simp only [hop', if_false] at h
          exact ih' _ i h hq
      omega

theorem le_of_labels_get? {s : String} {p i : Nat} {q : Quad} (hnamed : code.LabelsNamed)
    (h : code.labels.get? (.text s) = some p) (hq : code[i]? = some q) (hop : q.op = .label)
    (hs : q.result = .name s) : i ≤ p := by
  have hle := le_of_labelsFrom_get? hnamed h hq hop hs
  omega

theorem labelsFrom_get?_isSome {s : String} (hnamed : code.LabelsNamed)
    (h : (∃ q ∈ code, q.op = .label ∧ q.result = .name s) ∨ (labels.get? (.text s)).isSome) :
    ((labelsFrom position labels code).1.get? (.text s)).isSome := by
  induction code generalizing position labels with
  | nil => simpa [labelsFrom] using h
  | cons q rest ih =>
    have ih' := fun l => @ih l (position + 1) fun q' hq' => hnamed q' (by simp [hq'])
    rw [labelsFrom]
    by_cases hop : q.op = .label
    · obtain ⟨s', hs'⟩ := hnamed q (by simp) hop
      simp only [hop, if_true, hs', Target.key_name]
      apply ih'
      rw [Table.setKey_text, Table.get?_set]
      rcases h with ⟨q', hq', hop', hs⟩ | h
      · rcases List.mem_cons.1 hq' with rfl | hq'
        · rw [hs'] at hs; cases hs; exact .inr (by simp)
        · exact .inl ⟨q', hq', hop', hs⟩
      · right; split <;> simp_all
    · simp only [hop, if_false]
      apply ih'
      rcases h with ⟨q', hq', hop', hs⟩ | h
      · rcases List.mem_cons.1 hq' with rfl | hq'
        · exact absurd hop' hop
        · exact .inl ⟨q', hq', hop', hs⟩
      · exact .inr h

theorem labels_get?_isSome {s : String} (hnamed : code.LabelsNamed)
    (h : ∃ q ∈ code, q.op = .label ∧ q.result = .name s) : (code.labels.get? (.text s)).isSome :=
  labelsFrom_get?_isSome hnamed (.inl h)

theorem labelsFrom_fault (hnamed : code.LabelsNamed) : (labelsFrom position labels code).2 = none := by
  induction code generalizing position labels with
  | nil => rfl
  | cons q rest ih =>
    have ih' := fun l => @ih l (position + 1) fun q' hq' => hnamed q' (by simp [hq'])
    rw [labelsFrom]
    by_cases hop : q.op = .label
    · obtain ⟨s', hs'⟩ := hnamed q (by simp) hop
      simp only [hop, if_true, hs', Target.key_name]
      exact ih' _
    · simp only [hop, if_false]
      exact ih' _

theorem linkFault?_eq_none (hnamed : code.LabelsNamed)
    (hjump : ∀ q ∈ code, q.op = .goto ∨ q.op = .jumpIfFalse →
      ∃ s, q.result = .name s ∧ ∃ q' ∈ code, q'.op = .label ∧ q'.result = .name s) :
    code.linkFault? = none := by
  have hf : code.linkFault? = (code.labelsFrom 0 ∅).2.or
      (code.zipIdx.findSome? fun x => jumpFault? code.labels x.1 x.2) := rfl
  rw [hf, labelsFrom_fault hnamed, Option.none_or, List.findSome?_eq_none_iff]
  rintro ⟨q, position⟩ hq
  have hq' : q ∈ code := List.fst_mem_of_mem_zipIdx hq
  change jumpFault? code.labels q position = none
  unfold jumpFault?
  split
  · rename_i hop
    obtain ⟨s, hs, hlabel⟩ := hjump q hq' (by simpa using hop)
    simp [hs, Table.getKey?_text, labels_get?_isSome hnamed hlabel]
  · rfl

end Code

/-! ### Codes that agree in labels and jumps -/

/-- What linking looks at in an instruction: whether it is a label or a jump, and its name. -/
inductive Control
  | label (x : Target)
  | jump (x : Target)
  | other

def Quad.control (q : Quad) : Control :=
  match q.op with
  | .label => .label q.result
  | .goto => .jump q.result
  | .jumpIfFalse => .jump q.result
  | _ => .other

namespace Code

variable {code code' : Code} {labels : Labels} {position : Nat}

theorem labelsFrom_cons {q : Quad} : labelsFrom position labels (q :: code) =
    match q.control with
    | .label x =>
      match x.key position with
      | .ok k => labelsFrom (position + 1) (labels.setKey k position) code
      | .error fault => (labels, some fault)
    | _ => labelsFrom (position + 1) labels code := by
  rw [labelsFrom, Quad.control]
  cases q.op <;> rfl

theorem labelsFrom_congr (h : code'.map Quad.control = code.map Quad.control) :
    labelsFrom position labels code' = labelsFrom position labels code := by
  induction code generalizing code' position labels with
  | nil => rw [List.map_eq_nil_iff.1 h]
  | cons q rest ih =>
    obtain ⟨q', rest', rfl, hq, hrest⟩ := List.map_eq_cons_iff.1 h
    rw [labelsFrom_cons, labelsFrom_cons, hq]
    simp only [ih hrest]

theorem labels_congr (h : code'.map Quad.control = code.map Quad.control) : code'.labels = code.labels := by
  unfold Code.labels; rw [labelsFrom_congr h]

theorem jumpFault?_eq {q : Quad} : jumpFault? labels q position =
    match q.control with
    | .jump x =>
      match x.key position with
      | .ok k => if (labels.getKey? k).isSome then none else some (.undefinedLabel x.display)
      | .error fault => some fault
    | _ => none := by
  rw [jumpFault?, Quad.control]
  cases q.op <;> rfl

theorem findSome?_jumpFault?_congr (h : code'.map Quad.control = code.map Quad.control) :
    ((code'.zipIdx position).findSome? fun (q, place) => jumpFault? labels q place) =
      (code.zipIdx position).findSome? fun (q, place) => jumpFault? labels q place := by
  induction code generalizing code' position with
  | nil => rw [List.map_eq_nil_iff.1 h]
  | cons q rest ih =>
    obtain ⟨q', rest', rfl, hq, hrest⟩ := List.map_eq_cons_iff.1 h
    simp only [List.zipIdx_cons, List.findSome?_cons, jumpFault?_eq, hq]
    simp only [jumpFault?_eq] at ih
    rw [ih hrest]

theorem linkFault?_congr (h : code'.map Quad.control = code.map Quad.control) :
    code'.linkFault? = code.linkFault? := by
  unfold linkFault?
  rw [labelsFrom_congr h]
  simp only [findSome?_jumpFault?_congr h]

end Code

end QuadScript
