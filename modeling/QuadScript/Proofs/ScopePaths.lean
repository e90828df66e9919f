import QuadScript.Analysis.Report
import QuadScript.Proofs.Names
import QuadScript.Proofs.OpenScopes
import Mathlib.Data.List.Nodup
import Mathlib.Data.List.Sigma
import Mathlib.Logic.Relation

/-!
# The scopes of a program and their paths

The scopes that a walk opens form one tree: each scope but the first is directly inside an earlier one
(`ScopeTree.Rooted`), so the scopes inside of the first, each before those inside it, are all scopes, each once
(`ScopeTree.Rooted.walk_perm`).

A path names a scope by the kinds and the indices of the scopes around it. An index ends where the path goes on or
ends, so it is read back from the path, and no two scopes have the same path (`ScopeTree.nodup_paths`).
-/

namespace QuadScript

/-! ### The tree of a walk -/

namespace ScopeTree

variable {t t' : ScopeTree} {i j p fuel : Nat}

/-- Each scope but the first is directly inside an earlier one. -/
structure Rooted (t : ScopeTree) : Prop where
  nonempty : 0 < t.size
  root : t.parent? 0 = none
  parent : ∀ i < t.size, i ≠ 0 → ∃ p < i, t.parent? i = some p

theorem lt_size_of_parent? (h : t.parent? i = some p) : i < t.size := by
  by_contra hi
  rw [parent?, List.getElem?_eq_none (Nat.le_of_not_lt hi)] at h
  cases h

namespace Rooted

theorem congr (h : t.Rooted) (hsize : t'.size = t.size) (hparent : ∀ i, t'.parent? i = t.parent? i) : t'.Rooted where
  nonempty := hsize ▸ h.nonempty
  root := (hparent 0).trans h.root
  parent i hi hne := by
    rw [hparent]
    exact h.parent i (hsize ▸ hi) hne

theorem child (h : t.Rooted) (hi : i < t.size) (kind : ScopeKind) : (t.child i kind).Rooted where
  nonempty := by
    rw [size_child]
    exact Nat.succ_pos _
  root := by
    rw [parent?_child, if_neg (Nat.ne_of_lt h.nonempty)]
    exact h.root
  parent j hj hne := by
    rw [size_child] at hj
    rw [parent?_child]
    split
    · rename_i heq
      exact ⟨i, heq ▸ hi, rfl⟩
    · rename_i hold
      exact h.parent j (Nat.lt_of_le_of_ne (Nat.le_of_lt_succ hj) hold) hne

theorem lt_of_parent? (h : t.Rooted) (hp : t.parent? i = some p) : p < i := by
  have hne : i ≠ 0 := by
    rintro rfl
    rw [h.root] at hp
    cases hp
  obtain ⟨q, hlt, hq⟩ := h.parent i (lt_size_of_parent? hp) hne
  cases hp.symm.trans hq
  exact hlt

end Rooted

end ScopeTree

/-- The scopes form a tree, and those that are open belong to it. -/
structure Walk.Rooted (w : Walk) : Prop where
  tree : w.state.tree.Rooted
  small : ∀ i ∈ w.stack, i < w.state.tree.size

theorem Walk.Rooted.congr {w w' : Walk} (h : w.Rooted) (hstack : w'.stack = w.stack)
    (hsize : w'.state.tree.size = w.state.tree.size)
    (hparent : ∀ i, w'.state.tree.parent? i = w.state.tree.parent? i) : w'.Rooted where
  tree := h.tree.congr hsize hparent
  small i hi := hsize ▸ h.small i (hstack ▸ hi)

theorem Event.Does.rooted {e : Event} {w w' : Walk} (he : e.Does w w') (h : w.Rooted) : w'.Rooted := by
  obtain ⟨kind, rfl, rfl⟩ | ⟨rfl, i, houter, hstate⟩ | ⟨hacts, houter⟩ := he.cases
  · refine ⟨h.tree.child (h.small _ List.mem_cons_self) kind, fun i hi => ?_⟩
    rw [ScopeTree.size_child]
    rcases List.mem_cons.1 hi with rfl | hi
    · exact Nat.lt_succ_self _
    · exact Nat.lt_succ_of_lt (h.small i hi)
  · have hstack : w.stack = w.state.current :: w'.stack := by rw [Walk.stack, houter, Walk.stack, hstate]
    have htree : w'.state.tree = w.state.tree := by rw [hstate]
    refine ⟨htree ▸ h.tree, fun j hj => ?_⟩
    rw [htree]
    exact h.small j (hstack ▸ List.mem_cons_of_mem _ hj)
  · obtain ⟨hchange, hcurrent, -⟩ := hacts.change
    have hstack : w'.stack = w.stack := by rw [Walk.stack, Walk.stack, hcurrent, houter]
    generalize htree : w'.state.tree = t at hchange
    cases hchange with
    | evolve hevolves => exact h.congr hstack (htree ▸ hevolves.size) (htree ▸ hevolves.parent)
    | bind => exact h.congr hstack (htree ▸ ScopeTree.size_bind) (htree ▸ fun _ => ScopeTree.parent?_bind)

theorem Walk.rooted_initial : Walk.Rooted ⟨.initial, []⟩ where
  tree := by
    refine ⟨by decide, rfl, fun i hi hne => ?_⟩
    have hone : i < 1 := hi
    omega
  small := by decide

theorem Performs.rooted {es : List Event} {w w' : Walk} (h : Performs es w w') (hw : w.Rooted) : w'.Rooted :=
  h.induct (P := Walk.Rooted)
    (fun σ τ outer hn hw => hw.congr (by rw [Walk.stack, Walk.stack, hn.current]) hn.evolves.size hn.evolves.parent)
    (fun _ _ _ _ he hw => he.rooted hw) hw

/-! ### The order of the scopes -/

namespace ScopeTree

variable {t : ScopeTree} {i j k p c c' fuel fuel' : Nat}

/-- A scope is another or, at whatever depth, inside it. -/
def Inside (t : ScopeTree) : Nat → Nat → Prop := Relation.ReflTransGen fun c p => t.parent? c = some p

theorem mem_children : c ∈ t.children i ↔ t.parent? c = some i := by
  rw [children, List.mem_filter, List.mem_range, decide_eq_true_eq]
  exact ⟨And.right, fun h => ⟨lt_size_of_parent? h, h⟩⟩

theorem nodup_children : (t.children i).Nodup := List.nodup_range.filter _

theorem inside_of_mem_walkFrom (h : j ∈ t.walkFrom fuel i) : t.Inside j i := by
  induction fuel generalizing i with
  | zero => cases h
  | succ fuel ih =>
    rcases List.mem_cons.1 h with rfl | h
    · exact .refl
    · obtain ⟨c, hc, hj⟩ := List.mem_flatMap.1 h
      exact (ih hj).tail (mem_children.1 hc)

theorem walkFrom_mono (hfuel : fuel ≤ fuel') (h : j ∈ t.walkFrom fuel i) : j ∈ t.walkFrom fuel' i := by
  induction fuel generalizing i fuel' with
  | zero => cases h
  | succ fuel ih =>
    obtain ⟨fuel', rfl⟩ := Nat.exists_eq_add_one_of_ne_zero (Nat.ne_of_gt (Nat.lt_of_lt_of_le fuel.succ_pos hfuel))
    rcases List.mem_cons.1 h with rfl | h
    · exact List.mem_cons_self
    · obtain ⟨c, hc, hj⟩ := List.mem_flatMap.1 h
      exact List.mem_cons_of_mem _ (List.mem_flatMap.2 ⟨c, hc, ih (Nat.le_of_succ_le_succ hfuel) hj⟩)

theorem mem_walkFrom_of_parent? (hj : j ∈ t.walkFrom fuel i) (hk : t.parent? k = some j) :
    k ∈ t.walkFrom (fuel + 1) i := by
  induction fuel generalizing i with
  | zero => cases hj
  | succ fuel ih =>
    refine List.mem_cons_of_mem _ (List.mem_flatMap.2 ?_)
    rcases List.mem_cons.1 hj with rfl | hj
    · exact ⟨k, mem_children.2 hk, List.mem_cons_self⟩
    · obtain ⟨c, hc, hj⟩ := List.mem_flatMap.1 hj
      exact ⟨c, hc, ih hj⟩

namespace Rooted

theorem le_of_inside (ht : t.Rooted) (h : t.Inside j i) : i ≤ j := by
  induction h with
  | refl => exact Nat.le_refl _
  | tail _ hp ih => exact Nat.le_trans (Nat.le_of_lt (ht.lt_of_parent? hp)) ih

theorem eq_of_inside (ht : t.Rooted) (hc : t.parent? c = some i) (hc' : t.parent? c' = some i) (h : t.Inside j c)
    (h' : t.Inside j c') : c = c' := by
  have hone : ∀ {c c'}, t.parent? c = some i → t.parent? c' = some i → t.Inside c c' → c = c' := by
    intro c c' hc hc' hinside
    rcases Relation.ReflTransGen.cases_head hinside with heq | ⟨q, hq, hq'⟩
    · exact heq
    · cases hc.symm.trans hq
      exact absurd (ht.le_of_inside hq') (Nat.not_le_of_lt (ht.lt_of_parent? hc'))
  have hunique : Relator.RightUnique fun c p => t.parent? c = some p := fun _ _ _ h h' =>
    Option.some.inj (h.symm.trans h')
  rcases Relation.ReflTransGen.total_of_right_unique hunique h h' with hinside | hinside
  · exact hone hc hc' hinside
  · exact (hone hc' hc hinside).symm

theorem nodup_walkFrom (ht : t.Rooted) : (t.walkFrom fuel i).Nodup := by
  induction fuel generalizing i with
  | zero => exact .nil
  | succ fuel ih =>
    refine List.nodup_cons.2 ⟨fun hself => ?_, List.nodup_flatMap.2 ⟨fun c _ => ih, ?_⟩⟩
    · obtain ⟨c, hc, hi⟩ := List.mem_flatMap.1 hself
      have hle : c ≤ i := ht.le_of_inside (inside_of_mem_walkFrom hi)
      exact Nat.not_le_of_lt (ht.lt_of_parent? (mem_children.1 hc)) hle
    · refine nodup_children.pairwise_of_forall_ne fun c hc c' hc' hne => ?_
      intro j hj hj'
      exact hne (ht.eq_of_inside (mem_children.1 hc) (mem_children.1 hc') (inside_of_mem_walkFrom hj)
        (inside_of_mem_walkFrom hj'))

theorem mem_walk (ht : t.Rooted) (hj : j < t.size) : j ∈ t.walk 0 := by
  -- A scope is at most as deep as its number says.
  have hdepth : ∀ j < t.size, j ∈ t.walkFrom (j + 1) 0 := by
    intro j
    induction j using Nat.strongRecOn with
    | _ j ih =>
      intro hj
      by_cases hzero : j = 0
      · subst hzero
        exact List.mem_cons_self
      · obtain ⟨p, hlt, hp⟩ := ht.parent j hj hzero
        exact walkFrom_mono (Nat.succ_le_succ hlt) (mem_walkFrom_of_parent? (ih p hlt (Nat.lt_trans hlt hj)) hp)
  exact walkFrom_mono hj (hdepth j hj)

/-- The walk from the first scope comes to every scope once. -/
theorem walk_perm (ht : t.Rooted) : (t.walk 0).Perm (List.range t.size) := by
  refine (List.perm_ext_iff_of_nodup ht.nodup_walkFrom List.nodup_range).2 fun j => ?_
  rw [List.mem_range]
  refine ⟨fun h => ?_, ht.mem_walk⟩
  rcases Relation.ReflTransGen.cases_head (inside_of_mem_walkFrom h) with rfl | ⟨p, hp, -⟩
  · exact ht.nonempty
  · exact lt_size_of_parent? hp

end Rooted

end ScopeTree

/-! ### Paths -/

/-- A scope with its path and its depth. -/
structure ScopeSite where
  scope : Nat
  path : String
  depth : Nat

namespace ScopeTree

variable {t : ScopeTree} {i j k fuel depth : Nat} {path s : String}

def sitesFrom (t : ScopeTree) : Nat → Nat → String → Nat → List ScopeSite
  | 0, _, _, _ => []
  | fuel + 1, i, path, depth =>
    ⟨i, path, depth⟩ :: (t.children i).zipIdx.flatMap fun x =>
      sitesFrom t fuel x.1 (t.childPath path x.1 x.2) (depth + 1)

/-- All scopes, in the order of the walk. -/
def sites (t : ScopeTree) : List ScopeSite := t.sitesFrom t.size 0 ScopeKind.global.word 0

theorem map_scope_sitesFrom : (t.sitesFrom fuel i path depth).map (·.scope) = t.walkFrom fuel i := by
  induction fuel generalizing i path depth with
  | zero => rfl
  | succ fuel ih =>
    rw [sitesFrom, walkFrom, List.map_cons, List.map_flatMap]
    simp only [ih]
    rw [← List.flatMap_map Prod.fst, List.zipIdx_map_fst]

theorem map_scope_sites (t : ScopeTree) : t.sites.map (·.scope) = t.walk 0 := map_scope_sitesFrom

/-- A path is another or goes on from it. -/
def Extends (s path : String) : Prop := ∃ l, s.toList = path.toList ++ l ∧ ∀ c ∈ l.head?, c = '.'

theorem toList_childPath (t : ScopeTree) (path : String) (child index : Nat) : ∃ kind : ScopeKind,
    (t.childPath path child index).toList = path.toList ++ '.' :: (kind.word.toList ++ Nat.toDigits 10 index) := by
  refine ⟨((t.scopes[child]?).map (·.kind)).getD .block, ?_⟩
  have hnumbered : (t.childPath path child index).toList = _ := toList_numbered _ index
  rw [hnumbered, String.toList_append, String.toList_append, List.append_assoc, List.append_assoc]
  rfl

theorem extends_of_mem_sitesFrom {x : ScopeSite} (h : x ∈ t.sitesFrom fuel i path depth) : Extends x.path path := by
  induction fuel generalizing i path depth with
  | zero => cases h
  | succ fuel ih =>
    rcases List.mem_cons.1 h with rfl | h
    · exact ⟨[], (List.append_nil _).symm, by simp⟩
    · obtain ⟨⟨child, index⟩, -, hx⟩ := List.mem_flatMap.1 h
      obtain ⟨l, hl, -⟩ := ih hx
      obtain ⟨kind, hpath⟩ := t.toList_childPath path child index
      refine ⟨_, hl.trans (by rw [hpath, List.append_assoc]), ?_⟩
      simp

/-- The digits that come first in a text. -/
def firstDigits (l : List Char) : List Char := (l.dropWhile (!·.isDigit)).takeWhile (·.isDigit)

theorem firstDigits_word (kind : ScopeKind) (index : Nat) {l : List Char} (hl : ∀ c ∈ l.head?, c = '.') :
    firstDigits (kind.word.toList ++ (Nat.toDigits 10 index ++ l)) = Nat.toDigits 10 index := by
  have hword : kind.word.toList.all (!·.isDigit) = true := by cases kind <;> rfl
  have hdigits : ∀ c ∈ Nat.toDigits 10 index, c.isDigit = true := fun c hc =>
    Nat.isDigit_of_mem_toDigits (by decide) (by decide) hc
  have hrest : l.takeWhile (·.isDigit) = [] := by
    cases l with
    | nil => rfl
    | cons c l =>
      rw [hl c rfl]
      rfl
  have hstart : (Nat.toDigits 10 index ++ l).dropWhile (!·.isDigit) = Nat.toDigits 10 index ++ l := by
    obtain ⟨c, cs, hcs⟩ := List.exists_cons_of_ne_nil (Nat.toDigits_ne_nil (b := 10) (n := index))
    rw [hcs, List.cons_append]
    exact List.dropWhile_cons_of_neg (by simp [hdigits c (hcs ▸ List.mem_cons_self)])
  rw [firstDigits, List.dropWhile_append_of_pos (List.all_eq_true.1 hword), hstart, List.takeWhile_append_of_pos hdigits, hrest,
    List.append_nil]

theorem Extends.index_eq {child child' index index' : Nat} (h : Extends s (t.childPath path child index))
    (h' : Extends s (t.childPath path child' index')) : index = index' := by
  obtain ⟨l, hl, hend⟩ := h
  obtain ⟨l', hl', hend'⟩ := h'
  obtain ⟨kind, hpath⟩ := t.toList_childPath path child index
  obtain ⟨kind', hpath'⟩ := t.toList_childPath path child' index'
  rw [hpath, List.append_assoc, List.cons_append, List.append_assoc] at hl
  rw [hpath', List.append_assoc, List.cons_append, List.append_assoc, hl, List.append_cancel_left_eq,
    List.cons_inj_right] at hl'
  have hdigits := congrArg firstDigits hl'
  rw [firstDigits_word kind index hend, firstDigits_word kind' index' hend'] at hdigits
  rw [← Nat.ofDigitChars_ten_toDigits (n := index), hdigits, Nat.ofDigitChars_ten_toDigits]

theorem nodup_pathsFrom : ((t.sitesFrom fuel i path depth).map (·.path)).Nodup := by
  induction fuel generalizing i path depth with
  | zero => exact .nil
  | succ fuel ih =>
    rw [sitesFrom, List.map_cons, List.map_flatMap]
    refine List.nodup_cons.2 ⟨fun hself => ?_, List.nodup_flatMap.2 ⟨fun x _ => ih, ?_⟩⟩
    · -- A path inside is longer.
      obtain ⟨⟨child, index⟩, -, hx⟩ := List.mem_flatMap.1 hself
      obtain ⟨x, hx, hpath⟩ := List.mem_map.1 hx
      obtain ⟨l, hl, -⟩ := extends_of_mem_sitesFrom hx
      obtain ⟨kind, hchild⟩ := t.toList_childPath path child index
      have hlength := congrArg List.length hl
      rw [hpath, hchild] at hlength
      simp only [List.length_append, List.length_cons] at hlength
      omega
    · have hindices : (t.children i).zipIdx.Pairwise fun x y => x.2 ≠ y.2 :=
        List.pairwise_map.1 (List.nodup_zipIdx_map_snd (t.children i))
      refine hindices.imp fun {x y} hne => ?_
      intro p hp hp'
      obtain ⟨a, ha, rfl⟩ := List.mem_map.1 hp
      obtain ⟨b, hb, hba⟩ := List.mem_map.1 hp'
      have hextends := extends_of_mem_sitesFrom hb
      rw [hba] at hextends
      exact hne ((extends_of_mem_sitesFrom ha).index_eq hextends)

/-- No two scopes have the same path. -/
theorem nodup_paths (t : ScopeTree) : (t.sites.map (·.path)).Nodup := nodup_pathsFrom

end ScopeTree

end QuadScript
