import Mathlib.Data.List.Nodup
import Mathlib.Data.List.Perm.Basic
import Mathlib.Data.Tree.Basic
import Mathlib.Order.Lattice

namespace SearchTree

variable {α κ : Type} [LinearOrder κ] (key : α → κ)

def toList : BinaryTree α → List α
  | .nil => []
  | .node a l r => toList l ++ a :: toList r

def Ordered : BinaryTree α → Prop
  | .nil => True
  | .node a l r => Ordered l ∧ Ordered r ∧ (∀ b ∈ toList l, key b < key a) ∧ ∀ b ∈ toList r, key a < key b

def last (k : κ) : BinaryTree α → α → α
  | .nil, d => d
  | .node a l r, _ => if k < key a then last k l a else last k r a

def hang (k : κ) (a : α) : BinaryTree α → BinaryTree α
  | .nil => .node a .nil .nil
  | .node b l r => if k < key b then .node b (hang k a l) r else .node b l (hang k a r)

variable {key} {k : κ} {a b d : α} {l r t : BinaryTree α}

theorem mem_node : b ∈ toList (.node a l r) ↔ b ∈ toList l ∨ b = a ∨ b ∈ toList r := by
  rw [toList, List.mem_append, List.mem_cons]

theorem hang_perm (k : κ) (a : α) (t : BinaryTree α) : (toList (hang key k a t)).Perm (a :: toList t) := by
  induction t with
  | nil => exact List.Perm.refl _
  | node b l r ihl ihr =>
    rw [hang]
    split_ifs
    · exact ihl.append_right _
    · have hright : (toList l ++ b :: toList (hang key k a r)).Perm (toList l ++ b :: a :: toList r) :=
        (ihr.cons b).append_left _
      exact hright.trans (((List.Perm.swap a b _).append_left _).trans List.perm_middle)

theorem Ordered.hang (h : Ordered key t) (hnew : ∀ b ∈ toList t, key b ≠ key a) :
    Ordered key (hang key (key a) a t) := by
  induction t with
  | nil => exact ⟨trivial, trivial, fun _ h => absurd h List.not_mem_nil,
      fun _ h => absurd h List.not_mem_nil⟩
  | node b l r ihl ihr =>
    obtain ⟨hl, hr, hless, hgreater⟩ := h
    rw [SearchTree.hang]
    split_ifs with hk
    · refine ⟨ihl hl fun c hc => hnew c (mem_node.mpr (Or.inl hc)), hr, fun c hc => ?_, hgreater⟩
      rcases List.mem_cons.mp ((hang_perm _ _ _).mem_iff.mp hc) with rfl | hc
      · exact hk
      · exact hless c hc
    · refine ⟨hl, ihr hr fun c hc => hnew c (mem_node.mpr (Or.inr (Or.inr hc))), hless, fun c hc => ?_⟩
      rcases List.mem_cons.mp ((hang_perm _ _ _).mem_iff.mp hc) with rfl | hc
      · exact lt_of_le_of_ne (not_lt.mp hk) (hnew b (mem_node.mpr (Or.inr (Or.inl rfl))))
      · exact hgreater c hc

theorem Ordered.mem_left (h : Ordered key (.node a l r)) (hb : b ∈ toList (.node a l r))
    (hlt : key b < key a) :
    b ∈ toList l := by
  obtain ⟨-, -, -, hgreater⟩ := h
  rcases mem_node.mp hb with hb | rfl | hb
  · exact hb
  · exact absurd hlt (lt_irrefl _)
  · exact absurd hlt (lt_asymm (hgreater b hb))

theorem Ordered.mem_right (h : Ordered key (.node a l r)) (hb : b ∈ toList (.node a l r))
    (hlt : key a < key b) :
    b ∈ toList r := by
  obtain ⟨-, -, hless, -⟩ := h
  rcases mem_node.mp hb with hb | rfl | hb
  · exact absurd hlt (lt_asymm (hless b hb))
  · exact absurd hlt (lt_irrefl _)
  · exact hb

theorem Ordered.keys_nodup (h : Ordered key t) : ((toList t).map key).Nodup := by
  induction t with
  | nil => exact List.nodup_nil
  | node a l r ihl ihr =>
    obtain ⟨hl, hr, hless, hgreater⟩ := h
    rw [toList, List.map_append, List.map_cons, List.nodup_append']
    refine ⟨ihl hl, List.nodup_cons.mpr ⟨fun hmem => ?_, ihr hr⟩, fun x hx hx' => ?_⟩
    · obtain ⟨b, hb, heq⟩ := List.mem_map.mp hmem
      exact ne_of_gt (hgreater b hb) heq
    · obtain ⟨b, hb, rfl⟩ := List.mem_map.mp hx
      rcases List.mem_cons.mp hx' with heq | hmem
      · exact ne_of_lt (hless b hb) heq
      · obtain ⟨c, hc, heq⟩ := List.mem_map.mp hmem
        exact ne_of_gt (lt_trans (hless b hb) (hgreater c hc)) heq

theorem last_mem (h : t ≠ .nil) (k : κ) (d : α) : last key k t d ∈ toList t := by
  induction t generalizing d with
  | nil => exact absurd rfl h
  | node a l r ihl ihr =>
    rw [last, mem_node]
    split_ifs
    · cases l with
      | nil => exact Or.inr (Or.inl rfl)
      | node => exact Or.inl (ihl (by simp) a)
    · cases r with
      | nil => exact Or.inr (Or.inl rfl)
      | node => exact Or.inr (Or.inr (ihr (by simp) a))

structure Node (α π : Type) where
  value : α
  left : π
  right : π

def Linked {π : Type} (view : π → Node α π) (null : π) : π → BinaryTree α → Prop
  | p, .nil => p = null
  | p, .node a l r => p ≠ null ∧ (view p).value = a ∧ Linked view null (view p).left l ∧
      Linked view null (view p).right r

def Node.point {π : Type} (key : α → κ) (k : κ) (q : π) (n : Node α π) : Node α π :=
  if k < key n.value then { n with left := q } else { n with right := q }

variable {π : Type} {view view' : π → Node α π} {null p q : π} {place : α → π} {t' : BinaryTree α}

theorem Linked.unique (h : Linked view null p t) (h' : Linked view null p t') : t = t' := by
  induction t generalizing p t' with
  | nil =>
    cases t' with
    | nil => rfl
    | node => exact absurd h h'.1
  | node a l r ihl ihr =>
    cases t' with
    | nil => exact absurd h' h.1
    | node a' l' r' =>
      obtain ⟨-, rfl, hl, hr⟩ := h
      obtain ⟨-, rfl, hl', hr'⟩ := h'
      rw [ihl hl hl', ihr hr hr']

section Placed

variable (hplace : ∀ p, place (view p).value = p)

include hplace

theorem Linked.mem (h : Linked view null p t) (hb : b ∈ toList t) : (view (place b)).value = b := by
  induction t generalizing p with
  | nil => exact absurd hb List.not_mem_nil
  | node a l r ihl ihr =>
    obtain ⟨-, rfl, hl, hr⟩ := h
    rcases mem_node.mp hb with hb | rfl | hb
    · exact ihl hl hb
    · rw [hplace]
    · exact ihr hr hb

theorem Linked.congr (h : Linked view null p t) (hsame : ∀ b ∈ toList t, view' (place b) = view (place b)) :
    Linked view' null p t := by
  induction t generalizing p with
  | nil => exact h
  | node a l r ihl ihr =>
    obtain ⟨hp, rfl, hl, hr⟩ := h
    have hroot : view' p = view p := by
      have hsame' := hsame _ (mem_node.mpr (Or.inr (Or.inl rfl)))
      rwa [hplace] at hsame'
    refine ⟨hp, by rw [hroot], ?_, ?_⟩
    · rw [hroot]
      exact ihl hl fun b hb => hsame b (mem_node.mpr (Or.inl hb))
    · rw [hroot]
      exact ihr hr fun b hb => hsame b (mem_node.mpr (Or.inr (Or.inr hb)))

theorem Linked.kept (h : Linked view null p t) (hothers : ∀ c ∈ toList t, c ≠ a →
    view' (place c) = view (place c)) (ha : a ∉ toList t) : Linked view' null p t := by
  refine h.congr hplace fun c hc => hothers c hc ?_
  rintro rfl
  exact ha hc

theorem Linked.hang (h : Linked view null p t) (ht : t ≠ .nil) (hnodup : (toList t).Nodup) (d : α)
    (hnew : Linked view' null q (.node b .nil .nil))
    (hlast : view' (place (last key k t d)) = (view (place (last key k t d))).point key k q)
    (hothers : ∀ c ∈ toList t, c ≠ last key k t d → view' (place c) = view (place c)) :
    Linked view' null p (hang key k b t) := by
  induction t generalizing p d with
  | nil => exact absurd rfl ht
  | node a l r ihl ihr =>
    obtain ⟨hp, rfl, hl, hr⟩ := h
    obtain ⟨hnl, hnar, hdisjoint⟩ := List.nodup_append'.mp hnodup
    obtain ⟨har, hnr⟩ := List.nodup_cons.mp hnar
    have hal : (view p).value ∉ toList l := fun h => hdisjoint h List.mem_cons_self
    have hlr (c : α) (hc : c ∈ toList l) : c ∉ toList r := fun h => hdisjoint hc (List.mem_cons_of_mem _ h)
    have hroot := hothers (view p).value (mem_node.mpr (Or.inr (Or.inl rfl)))
    have hothersl (c : α) (hc : c ∈ toList l) := hothers c (mem_node.mpr (Or.inl hc))
    have hothersr (c : α) (hc : c ∈ toList r) := hothers c (mem_node.mpr (Or.inr (Or.inr hc)))
    rw [hplace] at hroot
    rw [SearchTree.hang]
    by_cases hk : k < key (view p).value
    · rw [last, if_pos hk] at hlast hroot hothersl hothersr
      rw [if_pos hk]
      by_cases hleaf : l = .nil
      · subst hleaf
        rw [last, hplace, Node.point, if_pos hk] at hlast
        rw [Linked, hlast]
        exact ⟨hp, rfl, hnew, hr.kept hplace hothersr har⟩
      · have hmem : last key k l (view p).value ∈ toList l := last_mem hleaf k _
        have hne : (view p).value ≠ last key k l (view p).value := fun heq => hal (heq ▸ hmem)
        rw [Linked, hroot hne]
        exact ⟨hp, rfl, ihl hl hleaf hnl _ hlast hothersl, hr.kept hplace hothersr (hlr _ hmem)⟩
    · rw [last, if_neg hk] at hlast hroot hothersl hothersr
      rw [if_neg hk]
      by_cases hleaf : r = .nil
      · subst hleaf
        rw [last, hplace, Node.point, if_neg hk] at hlast
        rw [Linked, hlast]
        exact ⟨hp, rfl, hl.kept hplace hothersl hal, hnew⟩
      · have hmem : last key k r (view p).value ∈ toList r := last_mem hleaf k _
        have hne : (view p).value ≠ last key k r (view p).value := fun heq => har (heq ▸ hmem)
        rw [Linked, hroot hne]
        exact ⟨hp, rfl, hl.kept hplace hothersl fun h => hlr _ h hmem, ihr hr hleaf hnr _ hlast hothersr⟩

end Placed

end SearchTree
