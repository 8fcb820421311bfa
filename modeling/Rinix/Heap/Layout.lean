import Rinix.Heap.Edits

/-!
The abstract heap: a row of cells that fills whole pages, never has two free neighbours and
ends in a free cell. `Represents` ties it to the memory that `kmem.c` works on.
-/

namespace Rinix.Heap

open ByteMemory Tiling

@[irreducible] def heapBase : ℕ := 0xD0000000

theorem heapBase_eq : heapBase = 3489660928 := by rw [heapBase]

theorem word_heapBase : word heapBase = 0xD0000000 := by rw [heapBase_eq]; rfl

def Sized (c : Block) : Prop := c.size % 16 = 0 ∧ ∀ n ∈ c.owner, n.toNat ≤ c.size

@[ext]
structure Layout where
  cells : List Block
  sized : ∀ c ∈ cells, Sized c
  settled : Settled cells
  spare : ∃ l c, cells = l ++ [c] ∧ c.owner = none ∧ 16 ≤ c.size
  paged : (extent 16 cells + 16) % 4096 = 0

namespace Layout

@[irreducible] def length (L : Layout) : ℕ := extent 16 L.cells + 16

theorem length_mod (L : Layout) : L.length % 4096 = 0 := by rw [length]; exact L.paged

theorem exists_cons (L : Layout) : ∃ c r, L.cells = c :: r := by
  obtain ⟨l, c, hl, -, -⟩ := L.spare
  cases l with
  | nil => exact ⟨c, [], hl⟩
  | cons d l => exact ⟨d, l ++ [c], hl⟩

def initial : Layout where
  cells := [⟨0xFE0, none⟩]
  sized := by simp [Sized]
  settled := by simp [Settled]
  spare := ⟨[], ⟨0xFE0, none⟩, rfl, rfl, by decide⟩
  paged := by decide

def grow (L : Layout) (k : ℕ) : Layout where
  cells := growLast (k * 4096) L.cells
  sized := by
    obtain ⟨l, c, hl, hc, -⟩ := L.spare
    intro d hd
    rw [hl, growLast_snoc] at hd
    rcases List.mem_append.mp hd with h | h
    · exact L.sized d (by simp [hl, h])
    · have hs := (L.sized c (by simp [hl])).1
      rw [List.mem_singleton.mp h]
      exact ⟨by simp only; omega, by simp [hc]⟩
  settled := by
    obtain ⟨l, c, hl, hc, -⟩ := L.spare
    have hs := L.settled
    rw [hl] at hs ⊢
    rw [growLast_snoc]
    rcases List.eq_nil_or_concat l with rfl | ⟨l', d, rfl⟩
    · simp [Settled]
    · rw [List.concat_eq_append, settled_snoc] at hs ⊢
      exact hs
  spare := by
    obtain ⟨l, c, hl, hc, h16⟩ := L.spare
    exact ⟨l, ⟨c.size + k * 4096, c.owner⟩, by rw [hl, growLast_snoc], hc, by simp only; omega⟩
  paged := by
    obtain ⟨l, c, hl, -, -⟩ := L.spare
    have h := L.paged
    rw [hl] at h ⊢
    simp only [growLast_snoc, extent_append, extent_cons, extent_nil] at h ⊢
    omega

def take (L : Layout) {l r : List Block} {c : Block} (h : L.cells = l ++ c :: r) (hc : c.owner = none)
    {b : ℕ} {n : Word} (hb : b % 16 = 0) (hn : n.toNat ≤ b) (hfit : b + 16 < c.size) : Layout where
  cells := l ++ ⟨b, some n⟩ :: ⟨c.size - (b + 16), none⟩ :: r
  sized := by
    have hs := (L.sized c (by simp [h])).1
    intro d hd
    simp only [List.mem_append, List.mem_cons] at hd
    rcases hd with hd | rfl | rfl | hd
    · exact L.sized d (by simp [h, hd])
    · exact ⟨hb, by simpa using hn⟩
    · exact ⟨by simp only; omega, by simp⟩
    · exact L.sized d (by simp [h, hd])
  settled := by
    have hs := L.settled
    rw [h, settled_append_cons] at hs
    rw [settled_append_cons]
    obtain ⟨hl, hr⟩ := hs
    constructor
    · rcases List.eq_nil_or_concat l with rfl | ⟨l', d, rfl⟩
      · simp [Settled]
      · rw [List.concat_eq_append, settled_snoc] at hl ⊢
        exact ⟨hl.1, by simp⟩
    · cases r with
      | nil => simp [Settled]
      | cons d r =>
        simp only [Settled, List.isChain_cons_cons, hc] at hr ⊢
        simpa using hr
  spare := by
    obtain ⟨l', e, hl', he, h16⟩ := L.spare
    have hs := (L.sized c (by simp [h])).1
    rcases last_cases (h ▸ hl') with ⟨rfl, rfl⟩ | ⟨t, rfl⟩
    · exact ⟨l ++ [⟨b, some n⟩], ⟨c.size - (b + 16), none⟩, by simp, rfl, by simp only; omega⟩
    · exact ⟨l ++ ⟨b, some n⟩ :: ⟨c.size - (b + 16), none⟩ :: t, e, by simp, he, h16⟩
  paged := by
    have hp := L.paged
    rw [h] at hp
    simp only [extent_append, extent_cons] at hp ⊢
    omega

def release (L : Layout) {l r : List Block} {c : Block} (h : L.cells = l ++ c :: r) : Layout where
  cells := coalesce 16 (l ++ ⟨c.size, none⟩ :: r)
  sized := by
    apply mem_coalesce
    · intro d hd
      simp only [List.mem_append, List.mem_cons] at hd
      rcases hd with hd | rfl | hd
      · exact L.sized d (by simp [h, hd])
      · exact ⟨(L.sized c (by simp [h])).1, by simp⟩
      · exact L.sized d (by simp [h, hd])
    · rintro m n ⟨hm, -⟩ ⟨hn, -⟩
      exact ⟨by simp only at *; omega, by simp⟩
  settled := coalesce_settled 16 _
  spare := by
    obtain ⟨l', e, hl', he, h16⟩ := L.spare
    have hlast : ∃ t d, l ++ ⟨c.size, none⟩ :: r = t ++ [d] ∧ d.owner = none ∧ 16 ≤ d.size := by
      rcases last_cases (h ▸ hl') with ⟨rfl, rfl⟩ | ⟨t, rfl⟩
      · exact ⟨l, ⟨c.size, none⟩, rfl, rfl, h16⟩
      · exact ⟨l ++ ⟨c.size, none⟩ :: t, e, by simp, he, h16⟩
    obtain ⟨t, d, ht, hd, h16'⟩ := hlast
    obtain ⟨t', n, hn, hle⟩ := coalesce_snoc 16 t hd
    exact ⟨t', ⟨n, none⟩, by rw [ht, hn], rfl, by simp only; omega⟩
  paged := by
    have hp := L.paged
    rw [h] at hp
    simp only [coalesce_extent, extent_append, extent_cons] at hp ⊢
    exact hp

theorem grow_cells (L : Layout) (k : ℕ) : (L.grow k).cells = growLast (k * 4096) L.cells := rfl

theorem take_cells (L : Layout) {l r : List Block} {c : Block} (h : L.cells = l ++ c :: r)
    (hc : c.owner = none) {b : ℕ} {n : Word} (hb : b % 16 = 0) (hn : n.toNat ≤ b) (hfit : b + 16 < c.size) :
    (L.take h hc hb hn hfit).cells = l ++ ⟨b, some n⟩ :: ⟨c.size - (b + 16), none⟩ :: r := rfl

theorem release_cells (L : Layout) {l r : List Block} {c : Block} (h : L.cells = l ++ c :: r) :
    (L.release h).cells = coalesce 16 (l ++ ⟨c.size, none⟩ :: r) := rfl

-- The operations are used through their cells only; unfolding them sends `omega` astray.
attribute [irreducible] grow take release

end Layout

end Rinix.Heap
