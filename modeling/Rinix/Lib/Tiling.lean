import Mathlib.Algebra.BigOperators.Group.List.Basic
import Mathlib.Algebra.GroupWithZero.Nat
import Mathlib.Data.List.Chain
import Mathlib.Tactic.Common

namespace Tiling

@[ext]
structure Cell (ω : Type) where
  size : ℕ
  owner : Option ω

variable {ω : Type}

def extent (hd : ℕ) (cs : List (Cell ω)) : ℕ := (cs.map fun c => hd + c.size).sum

def Settled (cs : List (Cell ω)) : Prop :=
  cs.IsChain fun c d => c.owner.isSome ∨ d.owner.isSome

def freeCons (hd n : ℕ) : List (Cell ω) → List (Cell ω)
  | [] => [⟨n, none⟩]
  | d :: cs => if d.owner.isSome then ⟨n, none⟩ :: d :: cs else ⟨n + hd + d.size, none⟩ :: cs

def coalesce (hd : ℕ) : List (Cell ω) → List (Cell ω)
  | [] => []
  | c :: cs => if c.owner.isSome then c :: coalesce hd cs else freeCons hd c.size (coalesce hd cs)

def owned (hd : ℕ) : ℕ → List (Cell ω) → List (ℕ × Cell ω)
  | _, [] => []
  | a, c :: cs =>
    if c.owner.isSome then (a, c) :: owned hd (a + hd + c.size) cs
    else owned hd (a + hd + c.size) cs

def growLast (n : ℕ) : List (Cell ω) → List (Cell ω)
  | [] => []
  | [c] => [⟨c.size + n, c.owner⟩]
  | c :: d :: cs => c :: growLast n (d :: cs)

def roomAhead (hd : ℕ) : List (Cell ω) → ℕ
  | [] => 0
  | d :: _ => if d.owner.isSome then 0 else hd + d.size

def Absorbed (hd n : ℕ) (l l' : List (Cell ω)) : Prop :=
  (∀ d ∈ l, d ∈ l' ∨ d.owner = none ∧ n = hd + d.size) ∧ ∀ d ∈ l', d ∈ l

variable (hd : ℕ)

@[simp] theorem extent_nil : extent hd ([] : List (Cell ω)) = 0 := rfl

@[simp] theorem extent_cons (c : Cell ω) (cs : List (Cell ω)) :
    extent hd (c :: cs) = hd + c.size + extent hd cs := by
  simp [extent]

@[simp] theorem extent_append (l r : List (Cell ω)) :
    extent hd (l ++ r) = extent hd l + extent hd r := by
  simp [extent]

theorem settled_append_cons (l r : List (Cell ω)) (c : Cell ω) :
    Settled (l ++ c :: r) ↔ Settled (l ++ [c]) ∧ Settled (c :: r) := by
  unfold Settled
  exact List.isChain_split

theorem settled_snoc (l : List (Cell ω)) (c d : Cell ω) :
    Settled (l ++ [c] ++ [d]) ↔ Settled (l ++ [c]) ∧ (c.owner.isSome ∨ d.owner.isSome) := by
  rw [List.append_assoc, List.singleton_append, settled_append_cons]
  simp [Settled]

theorem freeCons_extent (n : ℕ) (cs : List (Cell ω)) :
    extent hd (freeCons hd n cs) = hd + n + extent hd cs := by
  cases cs with
  | nil => simp [freeCons]
  | cons d cs =>
    simp only [freeCons]
    split_ifs
    · simp only [extent_cons]
    · simp only [extent_cons]; omega

theorem coalesce_extent (cs : List (Cell ω)) : extent hd (coalesce hd cs) = extent hd cs := by
  induction cs with
  | nil => rfl
  | cons c cs ih =>
    simp only [coalesce]
    split_ifs <;> simp only [extent_cons, freeCons_extent, ih]

theorem freeCons_settled (n : ℕ) {cs : List (Cell ω)} (h : Settled cs) :
    Settled (freeCons hd n cs) := by
  cases cs with
  | nil => simp [freeCons, Settled]
  | cons d cs =>
    simp only [freeCons]
    split_ifs with hd'
    · simpa [Settled, hd'] using h
    · cases cs with
      | nil => simp [Settled]
      | cons e cs =>
        simp only [Settled, List.isChain_cons_cons, hd', Bool.false_eq_true, false_or] at h ⊢
        simpa using h

theorem coalesce_settled (cs : List (Cell ω)) : Settled (coalesce hd cs) := by
  induction cs with
  | nil => simp [coalesce, Settled]
  | cons c cs ih =>
    simp only [coalesce]
    split_ifs with hc
    · cases hcs : coalesce hd cs with
      | nil => simp [Settled]
      | cons d ds =>
        rw [hcs] at ih
        simpa [Settled, hc] using ih
    · exact freeCons_settled hd _ ih

theorem freeCons_of_head {c : Cell ω} {cs : List (Cell ω)} (hc : c.owner = none)
    (h : ∀ d ∈ cs.head?, d.owner.isSome) : freeCons hd c.size cs = c :: cs := by
  have he : (⟨c.size, none⟩ : Cell ω) = c := by ext <;> simp [hc]
  cases cs with
  | nil => simp [freeCons, he]
  | cons d cs =>
    have hd' : d.owner.isSome = true := h d (by simp)
    simp [freeCons, hd', he]

theorem coalesce_of_settled {cs : List (Cell ω)} (h : Settled cs) : coalesce hd cs = cs := by
  induction cs with
  | nil => rfl
  | cons c cs ih =>
    have ht : Settled cs := h.tail
    simp only [coalesce, ih ht]
    split_ifs with hc
    · rfl
    · apply freeCons_of_head hd (by simpa using hc)
      intro d hd'
      have := List.IsChain.rel_head? h hd'
      simpa [hc] using this

theorem coalesce_append {l : List (Cell ω)} (r : List (Cell ω)) (h : Settled l)
    (hl : ∀ c ∈ l.getLast?, c.owner.isSome) : coalesce hd (l ++ r) = l ++ coalesce hd r := by
  induction l with
  | nil => rfl
  | cons c l ih =>
    have ht : Settled l := h.tail
    have hl' : ∀ d ∈ l.getLast?, d.owner.isSome := by
      intro d hd'
      apply hl
      cases l with
      | nil => simp at hd'
      | cons e l => simpa [List.getLast?_cons_cons] using hd'
    simp only [List.cons_append, coalesce, ih ht hl']
    split_ifs with hc
    · rfl
    · cases l with
      | nil => simp at hl; simp [hl] at hc
      | cons e l =>
        have he : e.owner.isSome = true := by
          simpa [Settled, hc] using (List.isChain_cons_cons.mp h).1
        apply freeCons_of_head hd (by simpa using hc)
        simpa using he

theorem mem_freeCons {P : Cell ω → Prop} {n : ℕ} {cs : List (Cell ω)} (hn : P ⟨n, none⟩)
    (hcs : ∀ c ∈ cs, P c) (hjoin : ∀ c : Cell ω, c.owner = none → P c → P ⟨n + hd + c.size, none⟩) :
    ∀ c ∈ freeCons hd n cs, P c := by
  cases cs with
  | nil => simpa [freeCons] using hn
  | cons d cs =>
    have hd' := hcs d (by simp)
    have ht : ∀ c ∈ cs, P c := fun c hc => hcs c (by simp [hc])
    simp only [freeCons]
    split_ifs with h
    · simpa [hn, hd'] using ht
    · simpa [hjoin d (by simpa using h) hd'] using ht

theorem mem_coalesce {P : Cell ω → Prop} {cs : List (Cell ω)} (hcs : ∀ c ∈ cs, P c)
    (hjoin : ∀ m n, P ⟨m, none⟩ → P ⟨n, none⟩ → P ⟨m + hd + n, none⟩) :
    ∀ c ∈ coalesce hd cs, P c := by
  have free (c : Cell ω) (hc : c.owner = none) (h : P c) : P ⟨c.size, none⟩ := by
    rwa [show (⟨c.size, none⟩ : Cell ω) = c by ext <;> simp [hc]]
  induction cs with
  | nil => simp [coalesce]
  | cons c cs ih =>
    have hc := hcs c (by simp)
    have ht := ih fun d hd' => hcs d (by simp [hd'])
    simp only [coalesce]
    split_ifs with h
    · simpa [hc] using ht
    · have hc' := free c (by simpa using h) hc
      exact mem_freeCons hd hc' ht fun d hd' hP => hjoin _ _ hc' (free d hd' hP)

theorem freeCons_freeCons (m n : ℕ) (cs : List (Cell ω)) :
    freeCons hd m (freeCons hd n cs) = freeCons hd (m + hd + n) cs := by
  cases cs with
  | nil => simp [freeCons]
  | cons d cs =>
    simp only [freeCons]
    split_ifs with hd'
    · simp
    · simp only [Option.isSome_none, Bool.false_eq_true, ↓reduceIte]
      congr 2
      omega

theorem coalesce_freed {l r : List (Cell ω)} {c : Cell ω} (h : Settled (l ++ c :: r))
    (hl : ∀ d ∈ l.getLast?, d.owner.isSome) :
    coalesce hd (l ++ ⟨c.size, none⟩ :: r) = l ++ freeCons hd c.size r := by
  have hs := (settled_append_cons l r c).mp h
  have hr : Settled r := hs.2.tail
  have hl' : Settled l := List.IsChain.left_of_append hs.1
  rw [coalesce_append hd _ hl' hl]
  simp [coalesce, coalesce_of_settled hd hr]

theorem coalesce_freed_behind {l r : List (Cell ω)} {d c : Cell ω} (h : Settled (l ++ d :: c :: r))
    (hd' : d.owner = none) :
    coalesce hd (l ++ d :: ⟨c.size, none⟩ :: r) = l ++ freeCons hd (d.size + hd + c.size) r := by
  have hs := (settled_append_cons l (c :: r) d).mp h
  have hr : Settled r := hs.2.tail.tail
  have hl : Settled l := List.IsChain.left_of_append hs.1
  have hlast : ∀ e ∈ l.getLast?, e.owner.isSome := by
    intro e he
    obtain ⟨t, rfl⟩ := List.getLast?_eq_some_iff.mp he
    simpa [hd'] using ((settled_snoc t e d).mp hs.1).2
  rw [coalesce_append hd _ hl hlast]
  simp [coalesce, hd', coalesce_of_settled hd hr, freeCons_freeCons]

theorem Absorbed.refl (n : ℕ) (l : List (Cell ω)) : Absorbed hd n l l := ⟨fun _ h => Or.inl h, fun _ h => h⟩

theorem freeCons_room (n : ℕ) (r : List (Cell ω)) :
    ∃ r', freeCons hd n r = ⟨n + roomAhead hd r, none⟩ :: r' ∧ Absorbed hd (roomAhead hd r) r r' := by
  cases r with
  | nil => exact ⟨[], rfl, .refl hd _ _⟩
  | cons d r =>
    by_cases ho : d.owner.isSome
    · exact ⟨d :: r, by simp [freeCons, roomAhead, ho], .refl hd _ _⟩
    · refine ⟨r, by simp [freeCons, roomAhead, ho, Nat.add_assoc], fun e he => ?_,
        fun e he => List.mem_cons_of_mem d he⟩
      rcases List.mem_cons.mp he with rfl | he
      · exact Or.inr ⟨by simpa using ho, by simp [roomAhead, ho]⟩
      · exact Or.inl he

theorem coalesce_behind {l r : List (Cell ω)} {c : Cell ω} (h : Settled (l ++ c :: r)) :
    ∃ l', coalesce hd (l ++ ⟨c.size, none⟩ :: r) = l' ++ freeCons hd (c.size + roomAhead hd l.reverse) r ∧
      Absorbed hd (roomAhead hd l.reverse) l l' := by
  rcases List.eq_nil_or_concat l with rfl | ⟨l, d, rfl⟩
  · exact ⟨[], coalesce_freed hd h (by simp), .refl hd _ _⟩
  · rw [List.concat_eq_append] at *
    by_cases ho : d.owner.isSome
    · have hroom : roomAhead hd (l ++ [d]).reverse = 0 := by simp [roomAhead, ho]
      rw [hroom]
      exact ⟨l ++ [d], coalesce_freed hd h (by simpa using ho), .refl hd _ _⟩
    · have hnone : d.owner = none := by simpa using ho
      have hroom : roomAhead hd (l ++ [d]).reverse = hd + d.size := by simp [roomAhead, ho]
      rw [List.append_assoc, List.singleton_append] at h
      rw [hroom, List.append_assoc, List.singleton_append, coalesce_freed_behind hd h hnone]
      refine ⟨l, by rw [show c.size + (hd + d.size) = d.size + hd + c.size by omega],
        fun e he => ?_, fun e he => by simp [he]⟩
      rcases List.mem_append.mp he with he | he
      · exact Or.inl he
      · rw [List.mem_singleton.mp he]
        exact Or.inr ⟨hnone, rfl⟩

theorem coalesce_room {l r : List (Cell ω)} {c : Cell ω} (h : Settled (l ++ c :: r)) :
    ∃ l' r', coalesce hd (l ++ ⟨c.size, none⟩ :: r) =
        l' ++ ⟨c.size + roomAhead hd l.reverse + roomAhead hd r, none⟩ :: r' ∧
      Absorbed hd (roomAhead hd l.reverse) l l' ∧ Absorbed hd (roomAhead hd r) r r' := by
  obtain ⟨l', hl', hl⟩ := coalesce_behind hd h
  obtain ⟨r', hr', hr⟩ := freeCons_room hd (c.size + roomAhead hd l.reverse) r
  exact ⟨l', r', by rw [hl', hr'], hl, hr⟩

theorem coalesce_snoc (cs : List (Cell ω)) {c : Cell ω} (hc : c.owner = none) :
    ∃ l n, coalesce hd (cs ++ [c]) = l ++ [⟨n, none⟩] ∧ c.size ≤ n := by
  induction cs with
  | nil => exact ⟨[], c.size, by simp [coalesce, freeCons, hc], le_refl _⟩
  | cons d cs ih =>
    obtain ⟨l, n, hl, hn⟩ := ih
    simp only [List.cons_append, coalesce, hl]
    split_ifs with hd'
    · exact ⟨d :: l, n, rfl, hn⟩
    · cases l with
      | nil => exact ⟨[], d.size + hd + n, by simp [freeCons], by omega⟩
      | cons e l =>
        simp only [List.cons_append, freeCons]
        split_ifs
        · exact ⟨_ :: e :: l, n, rfl, hn⟩
        · exact ⟨_ :: l, n, rfl, hn⟩

@[simp] theorem growLast_snoc (n : ℕ) (l : List (Cell ω)) (c : Cell ω) :
    growLast n (l ++ [c]) = l ++ [⟨c.size + n, c.owner⟩] := by
  induction l with
  | nil => rfl
  | cons d l ih =>
    cases h : l ++ [c] with
    | nil => simp at h
    | cons e t => rw [List.cons_append, h, growLast, ← h, ih, List.cons_append]

theorem owned_append (a : ℕ) (l r : List (Cell ω)) :
    owned hd a (l ++ r) = owned hd a l ++ owned hd (a + extent hd l) r := by
  induction l generalizing a with
  | nil => simp [owned]
  | cons c l ih =>
    simp only [List.cons_append, owned, extent_cons, ih]
    rw [show a + hd + c.size + extent hd l = a + (hd + c.size + extent hd l) by omega]
    split_ifs <;> rfl

theorem owned_freeCons (a n : ℕ) (cs : List (Cell ω)) :
    owned hd a (freeCons hd n cs) = owned hd (a + hd + n) cs := by
  cases cs with
  | nil => simp [freeCons, owned]
  | cons d cs =>
    simp only [freeCons]
    split_ifs with h
    · simp [owned, h]
    · simp only [owned, h]
      rw [show a + hd + (n + hd + d.size) = a + hd + n + hd + d.size by omega]
      simp

theorem owned_coalesce (a : ℕ) (cs : List (Cell ω)) :
    owned hd a (coalesce hd cs) = owned hd a cs := by
  induction cs generalizing a with
  | nil => rfl
  | cons c cs ih =>
    simp only [coalesce]
    split_ifs with h
    · simp only [owned, h, ih]
    · simp only [owned_freeCons, owned, h, ih]
      simp

theorem mem_owned {a : ℕ} {cs : List (Cell ω)} {x : ℕ × Cell ω} :
    x ∈ owned hd a cs ↔
      ∃ l r, cs = l ++ x.2 :: r ∧ x.2.owner.isSome ∧ x.1 = a + extent hd l := by
  obtain ⟨b, d⟩ := x
  constructor
  · intro h
    induction cs generalizing a with
    | nil => simp [owned] at h
    | cons c cs ih =>
      have tail (h : (b, d) ∈ owned hd (a + hd + c.size) cs) :
          ∃ l r, c :: cs = l ++ d :: r ∧ d.owner.isSome ∧ b = a + extent hd l := by
        obtain ⟨l, r, rfl, ho, hb⟩ := ih h
        exact ⟨c :: l, r, rfl, ho, by simp only [extent_cons]; simp only at hb; omega⟩
      simp only [owned] at h
      split_ifs at h with hc
      · rcases List.mem_cons.mp h with h | h
        · cases h
          exact ⟨[], cs, rfl, hc, by simp⟩
        · exact tail h
      · exact tail h
  · rintro ⟨l, r, rfl, ho, hb⟩
    simp only at ho hb
    rw [owned_append, owned, if_pos ho, ← hb]
    simp

theorem place_cases {l r l' r' : List (Cell ω)} {c c' : Cell ω}
    (h : l ++ c :: r = l' ++ c' :: r') :
    (l = l' ∧ c = c' ∧ r = r') ∨ extent hd l + hd + c.size ≤ extent hd l' ∨
      extent hd l' + hd + c'.size ≤ extent hd l := by
  rcases List.append_eq_append_iff.mp h with ⟨t, rfl, ht⟩ | ⟨t, rfl, ht⟩
  · cases t with
    | nil => simp only [List.nil_append, List.cons.injEq] at ht; simp [ht]
    | cons e t =>
      simp only [List.cons_append, List.cons.injEq] at ht
      right; left
      simp only [extent_append, extent_cons, ← ht.1]
      omega
  · cases t with
    | nil => simp only [List.nil_append, List.cons.injEq] at ht; simp [ht]
    | cons e t =>
      simp only [List.cons_append, List.cons.injEq] at ht
      right; right
      simp only [extent_append, extent_cons, ← ht.1]
      omega

theorem mem_of_place {l r l' r' : List (Cell ω)} {c c' : Cell ω} (h : l ++ c :: r = l' ++ c' :: r')
    (hlt : extent hd l' < extent hd l) : c' ∈ l := by
  rcases List.append_eq_append_iff.mp h with ⟨t, rfl, -⟩ | ⟨t, rfl, ht⟩
  · rw [extent_append] at hlt
    omega
  · cases t with
    | nil => simp at hlt
    | cons e t =>
      simp only [List.cons_append, List.cons.injEq] at ht
      simp [ht.1]

theorem last_cases {l r l' : List (Cell ω)} {c e : Cell ω} (h : l ++ c :: r = l' ++ [e]) :
    (r = [] ∧ c = e) ∨ ∃ t, r = t ++ [e] := by
  rcases List.eq_nil_or_concat r with rfl | ⟨t, d, rfl⟩
  · exact Or.inl ⟨rfl, List.singleton_inj.mp (List.append_inj' h rfl).2⟩
  · rw [List.concat_eq_append, ← List.cons_append, ← List.append_assoc] at h
    have hd : d = e := List.singleton_inj.mp (List.append_inj' h rfl).2
    exact Or.inr ⟨t, by rw [List.concat_eq_append, hd]⟩

theorem owned_disjoint {a : ℕ} {cs : List (Cell ω)} {x y : ℕ × Cell ω}
    (hx : x ∈ owned hd a cs) (hy : y ∈ owned hd a cs) :
    x = y ∨ x.1 + hd + x.2.size ≤ y.1 ∨ y.1 + hd + y.2.size ≤ x.1 := by
  obtain ⟨l, r, rfl, -, hx⟩ := (mem_owned hd).mp hx
  obtain ⟨l', r', h, -, hy⟩ := (mem_owned hd).mp hy
  rcases place_cases hd h with ⟨rfl, hc, -⟩ | h | h
  · left; ext1
    · rw [hx, hy]
    · exact hc
  · right; left; omega
  · right; right; omega

theorem mem_owned_bounds {a : ℕ} {cs : List (Cell ω)} {x : ℕ × Cell ω} (hx : x ∈ owned hd a cs) :
    a ≤ x.1 ∧ x.1 + hd + x.2.size ≤ a + extent hd cs := by
  obtain ⟨l, r, rfl, -, hx⟩ := (mem_owned hd).mp hx
  simp only [extent_append, extent_cons]
  omega

theorem mem_owned_split {a n k : ℕ} {o : ω} {l r : List (Cell ω)} {c : Cell ω} (hc : c.owner = none)
    (hn : n + hd + k = c.size) {x : ℕ × Cell ω} :
    x ∈ owned hd a (l ++ ⟨n, some o⟩ :: ⟨k, none⟩ :: r) ↔
      x = (a + extent hd l, ⟨n, some o⟩) ∨ x ∈ owned hd a (l ++ c :: r) := by
  have hoff : a + extent hd l + hd + n + hd + k = a + extent hd l + hd + c.size := by omega
  simp only [owned_append, owned, hc, hoff, Option.isSome_some, Option.isSome_none, Bool.false_eq_true,
    ↓reduceIte, List.mem_append, List.mem_cons]
  tauto

theorem owned_freed {a : ℕ} {l r : List (Cell ω)} {c : Cell ω} (hhd : 0 < hd) (hc : c.owner.isSome) :
    owned hd a (coalesce hd (l ++ ⟨c.size, none⟩ :: r)) =
      (owned hd a (l ++ c :: r)).filter fun x => x.1 ≠ a + extent hd l := by
  have hl : (owned hd a l).filter (fun x => x.1 ≠ a + extent hd l) = owned hd a l := by
    apply List.filter_eq_self.mpr
    intro x hx
    have := mem_owned_bounds hd hx
    exact decide_eq_true (by omega)
  have hr : (owned hd (a + extent hd l + hd + c.size) r).filter (fun x => x.1 ≠ a + extent hd l) =
      owned hd (a + extent hd l + hd + c.size) r := by
    apply List.filter_eq_self.mpr
    intro x hx
    have := mem_owned_bounds hd hx
    exact decide_eq_true (by omega)
  rw [owned_coalesce, owned_append, owned_append, owned, owned, if_pos hc, List.filter_append, hl,
    List.filter_cons_of_neg (by simp), hr]
  rfl

theorem Settled.behind_free {c d : Cell ω} {cs : List (Cell ω)} (h : Settled (c :: d :: cs))
    (hc : c.owner = none) :
    d.owner.isSome := by
  simpa [hc] using (List.isChain_cons_cons.mp h).1

theorem owned_ne_cons {a b : ℕ} {cs : List (Cell ω)} {c : Cell ω} {xs : List (ℕ × Cell ω)} (hab : a < b) :
    owned hd b cs ≠ (a, c) :: xs := by
  intro h
  have hmem : (a, c) ∈ owned hd b cs := by simp [h]
  have := mem_owned_bounds hd hmem
  omega

theorem free_head_unique {a : ℕ} {cs ds : List (Cell ω)} {c d : Cell ω} (hcs : Settled (c :: cs))
    (hds : Settled (d :: ds)) (hc : c.owner = none) (hd' : d.owner = none)
    (howned : owned hd (a + hd + c.size) cs = owned hd (a + hd + d.size) ds)
    (hext : hd + c.size + extent hd cs = hd + d.size + extent hd ds) : c = d := by
  have hsize : c.size = d.size := by
    cases cs with
    | nil =>
      cases ds with
      | nil => simp only [extent_nil] at hext; omega
      | cons e ds => simp [owned, hds.behind_free hd'] at howned
    | cons e cs =>
      have he := hcs.behind_free hc
      cases ds with
      | nil => simp [owned, he] at howned
      | cons f ds =>
        have hf := hds.behind_free hd'
        simp only [owned, he, hf, ↓reduceIte, List.cons.injEq, Prod.mk.injEq] at howned
        omega
  ext1
  · exact hsize
  · rw [hc, hd']

theorem settled_unique (hhd : 0 < hd) {a : ℕ} {cs ds : List (Cell ω)} (hcs : Settled cs) (hds : Settled ds)
    (howned : owned hd a cs = owned hd a ds) (hext : extent hd cs = extent hd ds) : cs = ds := by
  induction cs generalizing a ds with
  | nil =>
    cases ds with
    | nil => rfl
    | cons d ds => rw [extent_nil, extent_cons] at hext; omega
  | cons c cs ih =>
    cases ds with
    | nil => rw [extent_nil, extent_cons] at hext; omega
    | cons d ds =>
      have hcd : c = d ∧ owned hd (a + hd + c.size) cs = owned hd (a + hd + c.size) ds := by
        simp only [extent_cons] at hext
        simp only [owned] at howned
        split_ifs at howned with hc hd' hd'
        · simp only [List.cons.injEq, Prod.mk.injEq, true_and] at howned
          obtain ⟨rfl, htail⟩ := howned
          exact ⟨rfl, htail⟩
        · exact absurd howned.symm (owned_ne_cons hd (by omega))
        · exact absurd howned (owned_ne_cons hd (by omega))
        · have heq := free_head_unique hd hcs hds (by simpa using hc) (by simpa using hd') howned hext
          exact ⟨heq, by rw [howned, heq]⟩
      obtain ⟨rfl, htail⟩ := hcd
      simp only [extent_cons] at hext
      have hcs' : Settled cs := hcs.tail
      have hds' : Settled ds := hds.tail
      rw [ih hcs' hds' htail (by omega)]

end Tiling
