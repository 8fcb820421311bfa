import Rinix.Heap.Represents

namespace Rinix.Heap

open ByteMemory Tiling

section Growth

variable {P : PageMap} {m : Mem} {q x : ℕ} {c : Block}

theorem allocMapPage_below (P : PageMap) (m : Mem) (flags : Word) {virt : ℕ} {z : Word}
    (hz : heapBase ≤ z.toNat)
    (hv : z.toNat < virt) (hb : virt < 0xFFC00000) : P.allocMapPage (word virt) flags m z = m z := by
  have hbase := heapBase_eq
  have hw : (word virt).toNat = virt := toNat_word (by omega)
  apply P.below
  · rw [BitVec.le_def]
    exact (show heapBase = kernelHeapStart.toNat by rw [heapBase_eq]; rfl) ▸ hz
  · rw [BitVec.lt_def, hw]; exact hv
  · rw [BitVec.lt_def, hw]; exact hb

def extend (m : Mem) (x t : Word) (size : Word) : Mem :=
  setNext (setNext (setFlags (setSize (setPrev (setSize m x size) t x) t 0) t kmemTail) x t) t t

theorem extend_off {n t : ℕ} {z : Word} (ht : t + 16 ≤ 4294967296) (hx : x + 16 ≤ t)
    (h1 : z.toNat < x ∨ x + 16 ≤ z.toNat) (h2 : z.toNat < t ∨ t + 16 ≤ z.toNat) :
    extend m (word x) (word t) (word n) z = m z := by
  unfold extend
  simp (disch := omega) only [setPrev_off, setNext_off, setSize_off, setFlags_off]

theorem extend_chain (hc : kmemptr m (word x) = cellHeader q x c) (hfree : c.owner = none) {n : ℕ}
    (hx : x + 16 + n + 16 ≤ 4294967296) :
    Chain (extend m (word x) (word (x + 16 + n)) (word n)) q x [⟨n, none⟩] := by
  unfold extend
  refine ⟨?_, ?_⟩
  · simp (disch := omega) only [kmemptr_setNext_ne, kmemptr_setNext, kmemptr_setFlags_ne,
      kmemptr_setSize_ne, kmemptr_setPrev_ne, kmemptr_setSize, hc, cellHeader, flagOf_free hfree]
    rfl
  · simp (disch := omega) only [Chain, kmemptr_setNext_ne, kmemptr_setNext, kmemptr_setFlags,
      kmemptr_setSize, kmemptr_setPrev]
    rfl

end Growth

variable {P : PageMap} {s : Kmem} {L : Layout}

theorem length_grow (L : Layout) (k : ℕ) : (L.grow k).length = L.length + k * 4096 := by
  obtain ⟨l, c, hl, -, -⟩ := L.spare
  simp only [Layout.length, Layout.grow_cells, hl, growLast_snoc, extent_append, extent_cons, extent_nil]
  omega

theorem owned_grow (L : Layout) (k a : ℕ) : owned 16 a (L.grow k).cells = owned 16 a L.cells := by
  obtain ⟨l, c, hl, hc, -⟩ := L.spare
  simp [Layout.grow_cells, hl, owned_append, owned, hc]

theorem grow_zero (L : Layout) : L.grow 0 = L := by
  obtain ⟨l, c, hl, -, -⟩ := L.spare
  apply Layout.ext
  simp [Layout.grow_cells, hl]

theorem grow_grow (L : Layout) (j k : ℕ) : (L.grow j).grow k = L.grow (j + k) := by
  obtain ⟨l, c, hl, -, -⟩ := L.spare
  apply Layout.ext
  simp only [Layout.grow_cells, hl, growLast_snoc]
  rw [show c.size + j * 4096 + k * 4096 = c.size + (j + k) * 4096 by omega]

theorem allocMapPage_header (h : Represents s L) (hroom : heapBase + L.length + 4096 ≤ 0xFFC00000)
    (flags : Word) {y : ℕ} (hy : heapBase ≤ y) (hy' : y + 16 ≤ heapBase + L.length) :
    kmemptr (P.allocMapPage (0xD0000000 + s.totalLength) flags s.mem) (word y) = kmemptr s.mem (word y) := by
  have hvirt : (0xD0000000 : Word) + s.totalLength = word (heapBase + L.length) := by
    rw [h.total, ← word_add, word_heapBase]
  rw [hvirt]
  exact kmemptr_congr (by omega) fun z _ _ => allocMapPage_below P _ _ (by omega) (by omega) (by omega)

theorem morecorePage_eq (h : Represents s L) {l : List Block} {c : Block} (hl : L.cells = l ++ [c])
    (hc : c.owner = none) (hroom : heapBase + L.length + 4096 ≤ 0xFFC00000) {n : ℕ} (hn : c.size + 4096 = n) :
    morecorePage P s =
      { s with
        totalLength := word (L.length + 4096)
        pages := word (heapBase + L.length) :: s.pages
        tail := word (heapBase + extent 16 l + 16 + n)
        mem := extend (P.allocMapPage (word (heapBase + L.length)) 0x3 s.mem)
          (word (heapBase + extent 16 l)) (word (heapBase + extent 16 l + 16 + n)) (word n) } := by
  have hbase := heapBase_eq
  have hlen := length_of_snoc hl
  have hchain := h.chain
  rw [hl] at hchain
  have htail := hchain.tail_header
  have hlast := hchain.header_at
  have he : heapBase + extent 16 (l ++ [c]) = heapBase + extent 16 l + 16 + c.size := by
    simp only [extent_append, extent_cons, extent_nil]; omega
  have hvirt : (0xD0000000 : Word) + s.totalLength = word (heapBase + L.length) := by
    rw [h.total, ← word_add, word_heapBase]
  have htl : s.tail = word (heapBase + extent 16 l + 16 + c.size) := by rw [h.tail, hl, he]
  rw [lastStart_snoc, he] at htail
  generalize hx : heapBase + extent 16 l = x at *
  have htail' := (allocMapPage_header (P := P) h hroom 0x3 (y := x + 16 + c.size)
    (by omega) (by omega)).trans htail
  have hlast' := (allocMapPage_header (P := P) h hroom 0x3 (y := x) (by omega) (by omega)).trans hlast
  rw [hvirt] at htail' hlast'
  have hsize : word c.size + pageSize = word n := by rw [pageSize_eq, word_add, hn]
  have hnew : word x + word n + sizeofKmemptr = word (x + 16 + n) := by
    rw [sizeofKmemptr_eq, word_add, word_add]
    exact congrArg word (by omega)
  have htotal : s.totalLength + pageSize = word (L.length + 4096) := by rw [h.total, pageSize_eq, word_add]
  simp only [morecorePage, hvirt, htl, htail', hlast', htotal, tailHeader, cellHeader, flagOf_free hc,
    ↓reduceIte, hsize, kmemptr_setSize, hnew]
  rfl

theorem morecorePage_represents (h : Represents s L) (hroom : heapBase + L.length + 4096 ≤ 0xFFC00000) :
    Represents (morecorePage P s) (L.grow 1) := by
  obtain ⟨l, c, hl, hc, -⟩ := L.spare
  obtain ⟨n, hn⟩ : ∃ n, c.size + 4096 = n := ⟨_, rfl⟩
  rw [morecorePage_eq h hl hc hroom hn]
  have hbase := heapBase_eq
  have hlen := length_grow L 1
  have hlen' := length_of_snoc hl
  have hcells : (L.grow 1).cells = l ++ [⟨n, none⟩] := by
    simp [Layout.grow_cells, hl, hc, hn]
  have hchain := h.chain
  rw [hl] at hchain
  refine ⟨h.head, h.firstFree, ?_, by rw [hlen], ?_, ?_, by omega⟩
  · simp only [hcells, extent_append, extent_cons, extent_nil]
    exact congrArg word (by omega)
  · rw [hcells]
    refine chain_append.mpr ⟨(chain_append.mp hchain).1.congr ?_, extend_chain ?_ hc (by omega)⟩
    · intro y hy hy'
      apply kmemptr_congr (by omega)
      intro z hz hz'
      simp only
      rw [extend_off (by omega) (by omega) (by omega) (by omega)]
      exact allocMapPage_below P _ _ (by omega) (by omega) (by omega)
    · refine Eq.trans ?_ hchain.header_at
      apply kmemptr_congr (by omega)
      intro z hz hz'
      exact allocMapPage_below P _ _ (by omega) (by omega) (by omega)
  · intro v
    simp only [List.mem_cons, h.pages v, hlen]
    have hpaged := L.length_mod
    constructor
    · rintro (rfl | ⟨k, hk, rfl⟩)
      · exact ⟨L.length / 4096, by omega, congrArg word (by omega)⟩
      · exact ⟨k, by omega, rfl⟩
    · rintro ⟨k, hk, rfl⟩
      by_cases hk' : k * 4096 < L.length
      · exact Or.inr ⟨k, hk', rfl⟩
      · exact Or.inl (congrArg word (by omega))

theorem morecorePage_kept (h : Represents s L) (hroom : heapBase + L.length + 4096 ≤ 0xFFC00000) :
    Kept L s.mem (morecorePage P s).mem := by
  obtain ⟨l, c, hl, hc, -⟩ := L.spare
  obtain ⟨n, hn⟩ : ∃ n, c.size + 4096 = n := ⟨_, rfl⟩
  rw [morecorePage_eq h hl hc hroom hn]
  have hbase := heapBase_eq
  have hlen := length_of_snoc hl
  intro x hx z hz hz'
  have hbelow := owned_below_last hl hc hx
  simp only
  rw [extend_off (by omega) (by omega) (by omega) (by omega)]
  exact allocMapPage_below P _ _ (by omega) (by omega) (by omega)

theorem morecorePage_pages (P : PageMap) (s : Kmem) :
    (morecorePage P s).pages = (0xD0000000 + s.totalLength) :: s.pages := by
  simp only [morecorePage]
  split_ifs <;> rfl

theorem morecore_pages_subset (P : PageMap) (s : Kmem) (k : ℕ) :
    s.pages ⊆ ((morecorePage P)^[k] s).pages := by
  induction k generalizing s with
  | zero => simp
  | succ k ih =>
    rw [Function.iterate_succ_apply]
    refine List.Subset.trans ?_ (ih (morecorePage P s))
    simp [morecorePage_pages]

-- `omega` compares the two bounds by unfolding the addition of 4096.
set_option maxRecDepth 10000 in
theorem morecore_represents (h : Represents s L) (k : ℕ)
    (hroom : heapBase + L.length + k * 4096 ≤ 0xFFC00000) :
    Represents ((morecorePage P)^[k] s) (L.grow k) ∧ Kept L s.mem ((morecorePage P)^[k] s).mem := by
  induction k with
  | zero => exact ⟨by simpa [grow_zero] using h, Kept.refl L s.mem⟩
  | succ k ih =>
    obtain ⟨hk, hkept⟩ := ih (by omega)
    have hlen := length_grow L k
    rw [Function.iterate_succ_apply', ← grow_grow]
    refine ⟨morecorePage_represents hk (by omega), hkept.trans ?_⟩
    have hlast := morecorePage_kept (P := P) hk (by omega)
    simpa only [Kept, owned_grow] using hlast

theorem morecore_past_window (h : Represents s L) {k : ℕ}
    (hroom : 0xFFC00000 < heapBase + L.length + k * 4096) :
    ∃ v ∈ ((morecorePage P)^[k] s).pages, 0xFFC00000 ≤ v.toNat := by
  have hbase := heapBase_eq
  have hbound := h.bound
  have hpaged := L.length_mod
  obtain ⟨j, hj⟩ : ∃ j, heapBase + L.length + j * 4096 = 0xFFC00000 :=
    ⟨(0xFFC00000 - heapBase - L.length) / 4096, by omega⟩
  obtain ⟨i, rfl⟩ : ∃ i, k = i + 1 + j := ⟨k - j - 1, by omega⟩
  rw [Function.iterate_add_apply, Function.iterate_succ_apply]
  obtain ⟨hrep, -⟩ := morecore_represents (P := P) h j hj.le
  have hw : (word 0xFFC00000).toNat = 0xFFC00000 := toNat_word (by omega)
  refine ⟨word 0xFFC00000, morecore_pages_subset P _ i ?_, hw.ge⟩
  rw [morecorePage_pages, hrep.total, length_grow]
  rw [← word_heapBase, word_add, ← hj, Nat.add_assoc]
  exact List.mem_cons_self

end Rinix.Heap
