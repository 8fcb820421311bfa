import Mathlib.Data.Set.Insert

/-!
Two-level page tables, over any kinds of frames, slots and entries: a frame is a table of entries,
an entry points to a frame, and the directory is a frame like the others.
-/

namespace PageTable

structure Format (F E : Type) where
  present : E → Bool
  frame : E → F

abbrev Tables (F I E : Type) := F → I → E

variable {F I E : Type}

def walk (A : Format F E) (T : Tables F I E) (d : F) (i j : I) : Option (E × E) :=
  if A.present (T d i) ∧ A.present (T (A.frame (T d i)) j) then some (T d i, T (A.frame (T d i)) j) else none

def linked (A : Format F E) (T : Tables F I E) (d : F) (i : I) (link : E) : E :=
  if A.present (T d i) then T d i else link

def leafOf (A : Format F E) (T : Tables F I E) (d : F) (q : I × I) : E := T (A.frame (T d q.1)) q.2

/-- `pages` have tables of their own, and frames that no other page, no table and no directory lies
in. All of these are in `used`. -/
structure Unshared (A : Format F E) (T : Tables F I E) (d : F) (used : Set F)
    (pages : Set (I × I)) : Prop where
  directory : d ∈ used
  links : ∀ i, A.present (T d i) → A.frame (T d i) ∈ used
  tables : ∀ q ∈ pages, A.present (T d q.1) ∧ A.frame (T d q.1) ≠ d
  own : ∀ q ∈ pages, ∀ i, A.present (T d i) → A.frame (T d i) = A.frame (T d q.1) → i = q.1
  leaves : ∀ q ∈ pages, A.present (leafOf A T d q) ∧ A.frame (leafOf A T d q) ∈ used
  apart : ∀ q ∈ pages, A.frame (leafOf A T d q) ≠ d ∧
    ∀ i, A.present (T d i) → A.frame (T d i) ≠ A.frame (leafOf A T d q)
  distinct : ∀ q ∈ pages, ∀ q' ∈ pages, A.frame (leafOf A T d q) = A.frame (leafOf A T d q') → q = q'

section Walk

variable {A : Format F E} {T T' : Tables F I E} {d : F} {i j k : I} {link : E} {used : Set F}
  {pages : Set (I × I)}

theorem walk_of_present (hi : A.present (T d i)) (hj : A.present (T (A.frame (T d i)) j)) :
    walk A T d i j = some (T d i, T (A.frame (T d i)) j) :=
  if_pos ⟨hi, hj⟩

theorem walk_congr (hi : T' d i = T d i)
    (hj : A.present (T d i) → T' (A.frame (T d i)) j = T (A.frame (T d i)) j) :
    walk A T' d i j = walk A T d i j := by
  by_cases hp : A.present (T d i)
  · simp only [walk, hi, hj hp]
  · simp only [walk, hi, hp, Bool.false_eq_true, false_and, ↓reduceIte]

theorem walk_isSome : (walk A T d i j).isSome ↔ A.present (T d i) ∧ A.present (T (A.frame (T d i)) j) := by
  rw [walk]
  split_ifs with h
  · exact iff_of_true rfl h
  · exact iff_of_false (by simp) h

theorem walk_eq_some {x : E × E} : walk A T d i j = some x ↔
    A.present x.1 ∧ A.present x.2 ∧ T d i = x.1 ∧ T (A.frame x.1) j = x.2 := by
  constructor
  · intro h
    obtain ⟨hi, hj⟩ := walk_isSome.mp (Option.isSome_of_eq_some h)
    rw [walk_of_present hi hj, Option.some.injEq] at h
    subst h
    exact ⟨hi, hj, rfl, rfl⟩
  · rintro ⟨hi, hj, hpde, hpte⟩
    rw [← hpde] at hi hpte
    rw [← hpte] at hj
    rw [walk_of_present hi hj, hpte, hpde]

theorem walk_kept {x : E × E} (h : walk A T d i j = some x) (hi : A.present (T d i) → T' d i = T d i)
    (hj : A.present (T (A.frame (T d i)) j) → T' (A.frame (T d i)) j = T (A.frame (T d i)) j) :
    walk A T' d i j = some x := by
  obtain ⟨hpi, hpj⟩ := walk_isSome.mp (Option.isSome_of_eq_some h)
  rw [← h]
  exact walk_congr (hi hpi) fun _ => hj hpj

theorem linked_of_present (hp : A.present (T d i)) : linked A T d i link = T d i := if_pos hp

theorem linked_of_absent (hp : ¬A.present (T d i)) : linked A T d i link = link := if_neg hp

theorem linked_present (hlink : A.present link) : A.present (linked A T d i link) := by
  rw [linked]
  split_ifs with hp
  · exact hp
  · exact hlink

theorem Unshared.congr (h : Unshared A T d used pages) (hdir : ∀ i, T' d i = T d i)
    (hleaf : ∀ q ∈ pages, leafOf A T' d q = leafOf A T d q) : Unshared A T' d used pages := by
  refine ⟨h.directory, ?_, ?_, ?_, ?_, ?_, ?_⟩
  · simp only [hdir]
    exact h.links
  · simp only [hdir]
    exact h.tables
  · simp only [hdir]
    exact h.own
  · intro q hq
    rw [hleaf q hq]
    exact h.leaves q hq
  · intro q hq
    simp only [hdir]
    rw [hleaf q hq]
    exact h.apart q hq
  · intro q hq q' hq'
    rw [hleaf q hq, hleaf q' hq']
    exact h.distinct q hq q' hq'

theorem Unshared.table_ne (h : Unshared A T d used pages) (hslot : A.present (T d i) → ∃ k, (i, k) ∈ pages)
    (hfresh : ¬A.present (T d i) → A.frame link ∉ used) : A.frame (linked A T d i link) ≠ d := by
  rw [linked]
  split_ifs with hp
  · obtain ⟨k, hk⟩ := hslot hp
    exact (h.tables _ hk).2
  · intro heq
    exact hfresh hp (heq ▸ h.directory)

theorem Unshared.table_own (h : Unshared A T d used pages) (hslot : A.present (T d i) → ∃ k, (i, k) ∈ pages)
    (hfresh : ¬A.present (T d i) → A.frame link ∉ used) (hk : A.present (T d k))
    (heq : A.frame (T d k) = A.frame (linked A T d i link)) : k = i := by
  by_cases hp : A.present (T d i)
  · obtain ⟨j, hj⟩ := hslot hp
    rw [linked_of_present hp] at heq
    exact h.own _ hj k hk heq
  · rw [linked_of_absent hp] at heq
    exact absurd (heq ▸ h.links k hk) (hfresh hp)

end Walk

variable [DecidableEq F] [DecidableEq I]

def put (T : Tables F I E) (f : F) (k : I) (e : E) : Tables F I E :=
  fun g j => if g = f ∧ j = k then e else T g j

def enter (A : Format F E) (T : Tables F I E) (d : F) (i j : I) (link leaf : E) : Tables F I E :=
  if A.present (T d i) then put T (A.frame (T d i)) j leaf else put (put T d i link) (A.frame link) j leaf

variable {A : Format F E} {T : Tables F I E} {d f g : F} {i i' j j' k : I} {e link leaf : E}

@[simp] theorem put_same : put T f k e f k = e := if_pos ⟨rfl, rfl⟩

theorem put_other (h : ¬(g = f ∧ j = k)) : put T f k e g j = T g j := if_neg h

theorem put_self (T : Tables F I E) (f : F) (k : I) : put T f k (T f k) = T := by
  funext g j
  rw [put]
  split_ifs with h
  · rw [h.1, h.2]
  · rfl

theorem walk_put_kept (hblank : A.present (T f k) → T f k = e) {x : E × E} (hw : walk A T d i j = some x) :
    walk A (put T f k e) d i j = some x := by
  have hkept (g : F) (l : I) (hp : A.present (T g l)) : put T f k e g l = T g l := by
    by_cases h : g = f ∧ l = k
    · rw [h.1, h.2] at hp ⊢
      rw [put_same, hblank hp]
    · exact put_other h
  exact walk_kept hw (hkept _ _) (hkept _ _)

theorem enter_table : enter A T d i j link leaf (A.frame (linked A T d i link)) j = leaf := by
  rw [enter, linked]
  split_ifs with hp
  · exact put_same
  · exact put_same

theorem enter_other (hdir : ¬(g = d ∧ k = i)) (hleaf : ¬(g = A.frame (linked A T d i link) ∧ k = j)) :
    enter A T d i j link leaf g k = T g k := by
  rw [linked] at hleaf
  rw [enter]
  split_ifs at * with hp
  · exact put_other hleaf
  · rw [put_other hleaf, put_other hdir]

theorem enter_entry (hown : ¬(A.frame (linked A T d i link) = d ∧ j = i)) :
    enter A T d i j link leaf d i = linked A T d i link := by
  rw [linked] at *
  rw [enter]
  split_ifs at * with hp
  · exact put_other fun h => hown ⟨h.1.symm, h.2.symm⟩
  · rw [put_other fun h => hown ⟨h.1.symm, h.2.symm⟩, put_same]

theorem walk_enter_apart (hown : ¬(A.frame (linked A T d i link) = d ∧ j = i)) (hlink : A.present link)
    (hleaf : A.present leaf) : walk A (enter A T d i j link leaf) d i j =
    some (linked A T d i link, leaf) := by
  have hdir : enter A T d i j link leaf d i = linked A T d i link := enter_entry hown
  have htab : enter A T d i j link leaf (A.frame (enter A T d i j link leaf d i)) j = leaf := by
    rw [hdir]
    exact enter_table
  rw [walk_of_present (by rw [hdir]; exact linked_present hlink) (by rw [htab]; exact hleaf), htab, hdir]

section Enter

variable (htable : A.frame (linked A T d i link) ≠ d)
include htable

theorem enter_directory : enter A T d i j link leaf d k = if k = i then linked A T d i link else T d k := by
  rw [enter, linked] at *
  split_ifs at * with hp hk hk
  · rw [hk, put_other fun h => htable h.1.symm]
  · exact put_other fun h => htable h.1.symm
  · rw [hk, put_other fun h => htable h.1.symm, put_same]
  · rw [put_other fun h => htable h.1.symm, put_other fun h => hk h.2]

theorem enter_linked : enter A T d i j link leaf d i = linked A T d i link := by
  rw [enter_directory htable, if_pos rfl]

theorem enter_leaf : leafOf A (enter A T d i j link leaf) d (i, j) = leaf := by
  rw [leafOf, enter_linked htable]
  exact enter_table

theorem walk_enter (hlink : A.present link) (hleaf : A.present leaf) :
    walk A (enter A T d i j link leaf) d i j = some (linked A T d i link, leaf) :=
  walk_enter_apart (fun h => htable h.1) hlink hleaf

theorem walk_enter_other (hi : i' = i → A.present (T d i))
    (hleaf : A.present (T d i') → A.frame (T d i') = A.frame (linked A T d i link) → j' ≠ j)
    (hself : A.present (T d i') → A.frame (T d i') = d → j' = i → A.present (T d i)) :
    walk A (enter A T d i j link leaf) d i' j' = walk A T d i' j' := by
  apply walk_congr
  · rw [enter_directory htable]
    split_ifs with hii
    · rw [linked_of_present (hi hii), hii]
    · rfl
  · intro hp
    by_cases hdir : A.frame (T d i') = d ∧ j' = i
    · rw [hdir.1, hdir.2, enter_linked htable,
        linked_of_present (hself hp hdir.1 hdir.2)]
    · exact enter_other hdir fun h => hleaf hp h.1 h.2

theorem walk_enter_slot (habsent : ¬A.present (T d i)) (hlink : A.present link) (hleaf : A.present leaf) :
    (∀ k, (walk A (enter A T d i j link leaf) d i k).isSome ↔ k = j) ↔
    ∀ k, k ≠ j → ¬A.present (T (A.frame link) k) := by
  have hnew : linked A T d i link = link := linked_of_absent habsent
  have hdir : enter A T d i j link leaf d i = linked A T d i link := enter_linked htable
  have htab : enter A T d i j link leaf (A.frame (linked A T d i link)) j = leaf := enter_table
  have hold : ∀ k, k ≠ j → enter A T d i j link leaf (A.frame link) k = T (A.frame link) k := by
    intro k hk
    rw [hnew] at htable
    exact enter_other (fun h => htable h.1) fun h => hk h.2
  rw [hnew] at hdir htab
  simp only [walk_isSome, hdir, hlink, true_and]
  apply forall_congr'
  intro k
  by_cases hk : k = j
  · rw [hk, htab]
    simp [hleaf]
  · rw [hold k hk]
    simp [hk]

end Enter

section Unshared

variable {used used' : Set F} {pages : Set (I × I)} (h : Unshared A T d used pages)
  (hslot : A.present (T d i) → ∃ k, (i, k) ∈ pages) (hfresh : ¬A.present (T d i) → A.frame link ∉ used)
include h hslot hfresh

variable (hnew : (i, j) ∉ pages)
include hnew

theorem Unshared.enter_keeps {q : I × I} (hq : q ∈ pages) : enter A T d i j link leaf d q.1 = T d q.1 ∧
    leafOf A (enter A T d i j link leaf) d q = leafOf A T d q := by
  have hdir : enter A T d i j link leaf d q.1 = T d q.1 := by
    rw [enter_directory (h.table_ne hslot hfresh)]
    split_ifs with hqi
    · rw [hqi, linked_of_present (hqi ▸ (h.tables q hq).1)]
    · rfl
  refine ⟨hdir, ?_⟩
  rw [leafOf, leafOf, hdir]
  refine enter_other (fun heq => (h.tables q hq).2 heq.1) fun heq => hnew ?_
  have hpage : q = (i, j) := Prod.ext (h.table_own hslot hfresh (h.tables q hq).1 heq.1) heq.2
  exact hpage ▸ hq

omit hnew

theorem Unshared.enter_link (hk : A.present (enter A T d i j link leaf d k)) :
    (∃ k', A.present (T d k') ∧ enter A T d i j link leaf d k = T d k') ∨
      ¬A.present (T d i) ∧ enter A T d i j link leaf d k = link := by
  rw [enter_directory (h.table_ne hslot hfresh)] at hk ⊢
  split_ifs at hk ⊢ with hki
  · by_cases hp : A.present (T d i)
    · exact Or.inl ⟨i, hp, linked_of_present hp⟩
    · exact Or.inr ⟨hp, linked_of_absent hp⟩
  · exact Or.inl ⟨k, hk, rfl⟩

theorem Unshared.enter_own (hk : A.present (enter A T d i j link leaf d k)) {q : I × I}
    (hq : q = (i, j) ∨ q ∈ pages) (hnew : (i, j) ∉ pages)
    (heq : A.frame (enter A T d i j link leaf d k) = A.frame (enter A T d i j link leaf d q.1)) :
    k = q.1 := by
  have hne := h.table_ne hslot hfresh
  by_cases hki : k = i
  · rcases hq with rfl | hq
    · exact hki
    · rw [(h.enter_keeps hslot hfresh hnew hq).1, hki, enter_linked hne] at heq
      rw [hki, h.table_own hslot hfresh (h.tables q hq).1 heq.symm]
  · rw [enter_directory hne, if_neg hki] at hk heq
    rcases hq with rfl | hq
    · rw [enter_linked hne] at heq
      exact h.table_own hslot hfresh hk heq
    · rw [(h.enter_keeps hslot hfresh hnew hq).1] at heq
      exact h.own q hq k hk heq

theorem Unshared.enter_apart (hnew : (i, j) ∉ pages) (hpage : A.frame leaf ∉ used)
    (hother : ¬A.present (T d i) → A.frame link ≠ A.frame leaf) {q : I × I} (hq : q = (i, j) ∨ q ∈ pages) :
    A.frame (leafOf A (enter A T d i j link leaf) d q) ≠ d ∧ ∀ k, A.present (enter A T d i j link leaf d k) →
      A.frame (enter A T d i j link leaf d k) ≠ A.frame (leafOf A (enter A T d i j link leaf) d q) := by
  rcases hq with rfl | hq
  · rw [enter_leaf (h.table_ne hslot hfresh)]
    refine ⟨fun heq => hpage (heq ▸ h.directory), fun k hk => ?_⟩
    rcases h.enter_link hslot hfresh hk with ⟨k', hk', heq⟩ | ⟨hp, heq⟩
    · rw [heq]
      exact fun hsame => hpage (hsame ▸ h.links k' hk')
    · rw [heq]
      exact hother hp
  · rw [(h.enter_keeps hslot hfresh hnew hq).2]
    refine ⟨(h.apart q hq).1, fun k hk => ?_⟩
    rcases h.enter_link hslot hfresh hk with ⟨k', hk', heq⟩ | ⟨hp, heq⟩
    · rw [heq]
      exact (h.apart q hq).2 k' hk'
    · rw [heq]
      exact fun hsame => hfresh hp (hsame ▸ (h.leaves q hq).2)

theorem Unshared.enter_distinct (hnew : (i, j) ∉ pages) (hpage : A.frame leaf ∉ used) {q q' : I × I}
    (hq : q = (i, j) ∨ q ∈ pages) (hq' : q' = (i, j) ∨ q' ∈ pages)
    (heq : A.frame (leafOf A (enter A T d i j link leaf) d q) =
    A.frame (leafOf A (enter A T d i j link leaf) d q')) :
    q = q' := by
  have hne := h.table_ne hslot hfresh
  rcases hq with rfl | hq
  · rcases hq' with rfl | hq'
    · rfl
    · rw [enter_leaf hne, (h.enter_keeps hslot hfresh hnew hq').2] at heq
      exact absurd (heq ▸ (h.leaves q' hq').2) hpage
  · rcases hq' with rfl | hq'
    · rw [enter_leaf hne, (h.enter_keeps hslot hfresh hnew hq).2] at heq
      exact absurd (heq ▸ (h.leaves q hq).2) hpage
    · rw [(h.enter_keeps hslot hfresh hnew hq).2, (h.enter_keeps hslot hfresh hnew hq').2] at heq
      exact h.distinct q hq q' hq' heq

theorem Unshared.enter (hnew : (i, j) ∉ pages) (hlink : A.present link) (hleaf : A.present leaf)
    (hpage : A.frame leaf ∉ used) (hother : ¬A.present (T d i) → A.frame link ≠ A.frame leaf)
    (hsub : used ⊆ used')
    (hlinked : ¬A.present (T d i) → A.frame link ∈ used') (hleafed : A.frame leaf ∈ used') :
    Unshared A (enter A T d i j link leaf) d used' (insert (i, j) pages) := by
  have hne := h.table_ne hslot hfresh
  refine {
    directory := hsub h.directory
    links := ?links
    tables := ?tables
    own := fun q hq k hk heq => h.enter_own hslot hfresh hk hq hnew heq
    leaves := ?leaves
    apart := fun q hq => h.enter_apart hslot hfresh hnew hpage hother hq
    distinct := fun q hq q' hq' heq => h.enter_distinct hslot hfresh hnew hpage hq hq' heq }
  case links =>
    intro k hk
    rcases h.enter_link hslot hfresh hk with ⟨k', hk', heq⟩ | ⟨hp, heq⟩
    · rw [heq]
      exact hsub (h.links k' hk')
    · rw [heq]
      exact hlinked hp
  case tables =>
    rintro q (rfl | hq)
    · rw [enter_linked hne]
      exact ⟨linked_present hlink, hne⟩
    · rw [(h.enter_keeps hslot hfresh hnew hq).1]
      exact h.tables q hq
  case leaves =>
    rintro q (rfl | hq)
    · rw [enter_leaf hne]
      exact ⟨hleaf, hleafed⟩
    · rw [(h.enter_keeps hslot hfresh hnew hq).2]
      exact ⟨(h.leaves q hq).1, hsub (h.leaves q hq).2⟩

end Unshared

end PageTable
