import Rinix.Heap.WellFormed

namespace Rinix.Heap

open ByteMemory Tiling WhileLoop

def BlockFits (s : Kmem) (n : Word) : Prop :=
  ∃ i, (header s i).flags = kmemFree ∧ aligned n + 16 < (header s i).size.toNat

def lastSize (s : Kmem) : ℕ := (kmemptr s.mem (kmemptr s.mem s.tail).prev).size.toNat

def pagesNeeded (s : Kmem) (n : Word) : ℕ := pageCount (aligned n + 16 - lastSize s)

def FitsWindow (s : Kmem) (n : Word) : Prop :=
  BlockFits s n ∨ s.totalLength.toNat + 0x1000 * pagesNeeded s n ≤ 0x10000000

variable {s : Kmem} {L : Layout} {l r : List Block} {c : Block} {b : ℕ} {n : Word}

theorem header_past (h : Represents s L) (j : ℕ) : block s (L.cells.length + j) = s.tail := by
  induction j with
  | zero => exact h.wellFormed.ends
  | succ j ih =>
    rw [← Nat.add_assoc, block, Function.iterate_succ_apply']
    rw [block] at ih
    have htail := h.chain.tail_header
    rw [ih, h.tail]
    simp only [htail, tailHeader]

theorem free_in_chain (h : Represents s L) {i : ℕ} (hfree : (header s i).flags = kmemFree) :
    i < L.cells.length := by
  by_contra hge
  obtain ⟨j, rfl⟩ : ∃ j, i = L.cells.length + j := ⟨i - L.cells.length, by omega⟩
  have htail := h.wellFormed.tail
  rw [header, h.wellFormed.ends] at htail
  rw [header, header_past h, htail] at hfree
  exact absurd hfree (by decide)

theorem blockFits_iff (h : Represents s L) : BlockFits s n ↔ ∃ c ∈ L.cells, Fits (aligned n) c := by
  constructor
  · rintro ⟨i, hfree, hsize⟩
    have hi := free_in_chain h hfree
    obtain ⟨l, c, r, hc, rfl, -, hs, -⟩ := cell_at h hi
    rw [flags_cell h hc] at hfree
    exact ⟨c, by simp [hc], flagOf_eq_free.mp hfree, by omega⟩
  · rintro ⟨c, hc, hfree, hsize⟩
    obtain ⟨l, r, hl⟩ := List.append_of_mem hc
    have hbound := h.cell_bound hl
    refine ⟨l.length, ?_, ?_⟩
    · rw [flags_cell h hl]; exact flagOf_free hfree
    · rw [header_cell h hl, cellHeader, toNat_word (by omega)]
      exact hsize

theorem last_header (h : Represents s L) (hl : L.cells = l ++ [c]) :
    kmemptr s.mem (kmemptr s.mem s.tail).prev =
      cellHeader (lastStart heapBase heapBase l) (heapBase + extent 16 l) c := by
  have hchain := hl ▸ h.chain
  have hcell := hchain.header_at
  have htail := hchain.tail_header
  rw [lastStart_snoc] at htail
  rw [h.tail, hl, htail, tailHeader, hcell]

theorem lastSize_eq (h : Represents s L) : lastSize s = L.lastSize := by
  obtain ⟨l, c, hl, -, -⟩ := L.spare
  have hbound := h.cell_bound hl
  rw [lastSize, last_header h hl, L.lastSize_of_snoc hl]
  exact toNat_word (by omega)

theorem pagesNeeded_eq (h : Represents s L) : pagesNeeded s n = L.growth (aligned n) := by
  rw [pagesNeeded, lastSize_eq h, Layout.growth]

theorem totalLength_eq (h : Represents s L) : s.totalLength.toNat = L.length := by
  have hbound := h.bound
  rw [h.total, toNat_word (by omega)]

theorem fitsWindow_iff (h : Represents s L) : FitsWindow s n ↔
    (∃ c ∈ L.cells, Fits (aligned n) c) ∨ L.length + L.growth (aligned n) * 4096 ≤ 0x10000000 := by
  rw [FitsWindow, blockFits_iff h, totalLength_eq h, pagesNeeded_eq h, Nat.mul_comm]

theorem single_iff (h : Represents s L) : (header s 0).next = s.tail ↔ ∃ c, L.cells = [c] := by
  have hbound := h.bound
  rw [Layout.length] at hbound
  obtain ⟨c, r, hc⟩ := L.exists_cons
  have hnext : (header s 0).next = word (heapBase + 16 + c.size) := by
    have hcell := header_cell h (l := []) hc
    rw [List.length_nil] at hcell
    rw [hcell]
    rfl
  rw [hc, extent_cons] at hbound
  rw [hnext, h.tail, hc, extent_cons, word_inj (by omega) (by omega)]
  constructor
  · intro heq
    cases r with
    | nil => exact ⟨c, rfl⟩
    | cons d r => rw [extent_cons] at heq; omega
  · rintro ⟨d, hd⟩
    simp only [List.cons.injEq] at hd
    rw [hd.2, extent_nil]
    omega

end Rinix.Heap
