import Rinix.Heap.Morecore

namespace Rinix.Heap

open ByteMemory Tiling WhileLoop

def aligned (n : Word) : ℕ := (n.toNat + 15) / 16 * 16

def NoWrap (n : Word) : Prop := aligned n + 16 < 4294967296

instance (n : Word) : Decidable (NoWrap n) := inferInstanceAs (Decidable (aligned n + 16 < 4294967296))

theorem aligned_mod (n : Word) : aligned n % 16 = 0 := by
  unfold aligned; omega

theorem le_aligned (n : Word) : n.toNat ≤ aligned n := by
  unfold aligned; omega

theorem alignBlock_eq (n : Word) : alignBlock n = word (aligned n) := by
  have hk : kmemAlignSize.toNat = 16 := rfl
  have h0 : (0 : Word).toNat = 0 := rfl
  have := n.isLt
  apply BitVec.eq_of_toNat_eq
  unfold alignBlock
  split_ifs with h
  · rw [ne_eq, ← BitVec.toNat_inj, BitVec.toNat_umod, hk, h0] at h
    simp only [BitVec.toNat_add, BitVec.toNat_sub, BitVec.toNat_umod, hk, toNat_word_mod, aligned]
    omega
  · rw [ne_eq, ← BitVec.toNat_inj, BitVec.toNat_umod, hk, h0] at h
    simp only [toNat_word_mod, aligned]
    omega

def Fits (b : ℕ) (c : Block) : Prop := c.owner = none ∧ b + 16 < c.size

instance (b : ℕ) (c : Block) : Decidable (Fits b c) :=
  inferInstanceAs (Decidable (c.owner = none ∧ b + 16 < c.size))

def scanBound (L : Layout) : ℕ := (heapBase + L.length * 16) % 4294967296

variable {P : PageMap} {s : Kmem} {L : Layout} {l r : List Block} {c : Block} {b x : ℕ}

theorem Represents.cell_bound (h : Represents s L) (hc : L.cells = l ++ c :: r) :
    heapBase + extent 16 l + 16 + c.size + 16 ≤ 0xFFC00000 := by
  have := h.bound
  rw [Layout.length, hc, extent_append, extent_cons] at this
  omega

theorem tryBlock_cell (h : Represents s L) (hc : L.cells = l ++ c :: r) (hb : b + 16 < 4294967296) :
    tryBlock (word b) (s, word (heapBase + extent 16 l)) =
      if Fits b c then
        .exit ({ s with mem := chop (word b) s.mem (word (heapBase + extent 16 l)) },
          word (heapBase + extent 16 l + 16))
      else .again (s, word (heapBase + extent 16 (l ++ [c]))) := by
  have hbound := h.cell_bound hc
  have hx := (hc ▸ h.chain).header_at
  have hnext : heapBase + extent 16 (l ++ [c]) = heapBase + extent 16 l + 16 + c.size := by
    simp only [extent_append, extent_cons, extent_nil]; omega
  have hlt : word (b + 16) < word c.size ↔ b + 16 < c.size := word_lt hb (by omega)
  simp only [tryBlock, hx, cellHeader, kmemptrNext_of_cell hx, flagOf_eq_free, sizeofKmemptr_eq, word_add,
    hlt, hnext]
  rfl

theorem below_bound (h : Represents s L) (hx : x < 4294967296) :
    word x < s.head + s.totalLength * sizeofKmemptr ↔ x < scanBound L := by
  have hbound : (word (heapBase + L.length * 16)).toNat = scanBound L := toNat_word_mod _
  rw [h.head, h.total, sizeofKmemptr_eq, word_mul, word_add, BitVec.lt_def, toNat_word hx, hbound]

theorem scan_condition (h : Represents s L) (hx : x < 4294967296) (hx0 : x ≠ 0) :
    (word x < s.head + s.totalLength * sizeofKmemptr ∧ word x ≠ 0) ↔ x < scanBound L := by
  have hzero : word x ≠ 0 := by
    rw [ne_eq, show (0 : Word) = word 0 from rfl, word_inj hx (by omega)]
    exact hx0
  rw [below_bound h hx]
  exact ⟨fun h => h.1, fun h => ⟨h, hzero⟩⟩

theorem turn_stop (h : Represents s L) (hx : x < 4294967296) (hx0 : x ≠ 0) (hb : ¬x < scanBound L)
    (B : Word) :
    kmallocTurn P B (s, word x) = .exit (s, 0) := by
  simp only [kmallocTurn, scan_condition h hx hx0, if_neg hb]

theorem turn_cell (h : Represents s L) (hc : L.cells = l ++ c :: r)
    (hx : heapBase + extent 16 l < scanBound L) (B : Word) :
    kmallocTurn P B (s, word (heapBase + extent 16 l)) = tryBlock B (s, word (heapBase + extent 16 l)) := by
  have hbase := heapBase_eq
  have hbound := h.cell_bound hc
  have hcell := (hc ▸ h.chain).header_at
  have hflag : (kmemptr s.mem (word (heapBase + extent 16 l))).flags ≠ kmemTail := by
    rw [hcell]
    exact flagOf_ne_tail c
  simp only [kmallocTurn, scan_condition h (by omega : heapBase + extent 16 l < 4294967296)
    (by omega), if_pos hx, growAtTail, if_neg hflag]

theorem length_take (hc : L.cells = l ++ c :: r) (ho : c.owner = none) {n : Word} (hb : b % 16 = 0)
    (hn : n.toNat ≤ b) (hfit : b + 16 < c.size) : (L.take hc ho hb hn hfit).length = L.length := by
  simp only [Layout.length, Layout.take_cells, hc, extent_append, extent_cons]
  omega

theorem owned_off_free {x : ℕ × Block} (hc : L.cells = l ++ c :: r) (ho : c.owner = none)
    (hx : x ∈ owned 16 heapBase L.cells) :
    x.1 + 16 + x.2.size ≤ heapBase + extent 16 l ∨ heapBase + extent 16 l + 16 + c.size ≤ x.1 := by
  obtain ⟨l', r', hl', ho', hx'⟩ := (mem_owned 16).mp hx
  rcases place_cases 16 (hc.symm.trans hl') with ⟨-, hcx, -⟩ | h | h
  · rw [← hcx, ho] at ho'
    cases ho'
  · right; omega
  · left; omega

theorem chop_represents (h : Represents s L) (hc : L.cells = l ++ c :: r) (ho : c.owner = none) {n : Word}
    (hb : b % 16 = 0) (hn : n.toNat ≤ b) (hfit : b + 16 < c.size) :
    Represents { s with mem := chop (word b) s.mem (word (heapBase + extent 16 l)) }
        (L.take hc ho hb hn hfit) ∧
      Kept L s.mem (chop (word b) s.mem (word (heapBase + extent 16 l))) := by
  have hbase := heapBase_eq
  have hbound := h.cell_bound hc
  have hlen := length_take hc ho hb hn hfit
  have hext : extent 16 (L.take hc ho hb hn hfit).cells = extent 16 L.cells := by
    simp only [Layout.length] at hlen
    omega
  have htotal := h.bound
  rw [Layout.length, hc, extent_append] at htotal
  have hchain := hc ▸ h.chain
  have hcell := hchain.header_at
  have hsplit := chain_append.mp hchain
  refine ⟨⟨h.head, h.firstFree, ?_, ?_, ?_, ?_, ?_⟩, ?_⟩
  · rw [hext]; exact h.tail
  · rw [hlen]; exact h.total
  · rw [Layout.take_cells]
    refine chain_append.mpr ⟨hsplit.1.congr ?_, chop_chain n hsplit.2 hfit (by omega)⟩
    intro y hy hy'
    exact kmemptr_congr (by omega) fun z _ _ =>
      chop_off hcell hfit (by omega) (by omega) (by omega) (by omega)
  · rw [hlen]; exact h.pages
  · rw [hlen]; exact h.bound
  · intro x hx z hz hz'
    have hoff := owned_offHeaders hx hz hz'
    have h1 := hoff l (c :: r) hc
    have h2 := hoff (l ++ [c]) r (by rw [hc]; simp)
    have h3 := owned_off_free hc ho hx
    simp only [extent_append, extent_cons, extent_nil] at h2
    exact chop_off hcell hfit (by omega) h1 (by omega) (by omega)

def pageCount (n : ℕ) : ℕ := (n + 4095) / 4096

theorem pagesFor_eq {n : ℕ} (hn : n < 4294967296) : (pagesFor (word n)).toNat = pageCount n := by
  have h4096 : (0x1000 : Word).toNat = 4096 := rfl
  have h0 : (0 : Word).toNat = 0 := rfl
  have h1 : (1 : Word).toNat = 1 := rfl
  have hw : (word n).toNat = n := toNat_word hn
  unfold pagesFor pageCount
  split_ifs with h
  · rw [ne_eq, ← BitVec.toNat_inj, BitVec.toNat_umod, h4096, hw, h0] at h
    simp only [BitVec.toNat_add, BitVec.toNat_udiv, h4096, hw, h1]
    omega
  · rw [ne_eq, ← BitVec.toNat_inj, BitVec.toNat_umod, h4096, hw, h0] at h
    simp only [BitVec.toNat_add, BitVec.toNat_udiv, h4096, hw, h0]
    omega

namespace Layout

def lastSize (L : Layout) : ℕ := (L.cells.getLast?.map Cell.size).getD 0

theorem lastSize_of_snoc {L : Layout} (hl : L.cells = l ++ [c]) : L.lastSize = c.size := by
  simp [lastSize, hl]

def growth (L : Layout) (b : ℕ) : ℕ := pageCount (b + 16 - L.lastSize)

end Layout

theorem growAtTail_tail (h : Represents s L) (hb : b + 16 < 4294967296) (hlast : L.lastSize ≤ b + 16) :
    growAtTail P (word b) s (word (heapBase + extent 16 L.cells)) =
      ((morecorePage P)^[L.growth b] s, word heapBase) := by
  obtain ⟨l, c, hl, hc, -⟩ := L.spare
  have htail := h.chain.tail_header
  have hcell := (hl ▸ h.chain).header_at
  rw [L.lastSize_of_snoc hl] at hlast
  have hprev : lastStart heapBase heapBase L.cells = heapBase + extent 16 l := by rw [hl, lastStart_snoc]
  have hreq : sizeReq (word b) s.mem (word (heapBase + extent 16 L.cells)) = word (b + 16 - c.size) := by
    simp only [sizeReq, htail, tailHeader, hprev, hcell, cellHeader, flagOf_free hc, ↓reduceIte,
      sizeofKmemptr_eq, word_add, word_sub hlast]
  have hcount : (pagesFor (word (b + 16 - c.size))).toNat = L.growth b := by
    rw [pagesFor_eq (by omega), Layout.growth, L.lastSize_of_snoc hl]
  have hflag : (kmemptr s.mem (word (heapBase + extent 16 L.cells))).flags = kmemTail := by
    rw [htail]; rfl
  simp only [growAtTail, if_pos hflag, hreq, kmemMorecore, hcount, h.firstFree]

theorem turn_tail (h : Represents s L) (hx : heapBase + extent 16 L.cells < scanBound L)
    (hb : b + 16 < 4294967296) (hlast : L.lastSize ≤ b + 16) :
    kmallocTurn P (word b) (s, word (heapBase + extent 16 L.cells)) =
      tryBlock (word b) ((morecorePage P)^[L.growth b] s, word heapBase) := by
  have hbase := heapBase_eq
  have hbound := h.bound
  rw [Layout.length] at hbound
  simp only [kmallocTurn, scan_condition h (by omega : heapBase + extent 16 L.cells < 4294967296) (by omega),
    if_pos hx, growAtTail_tail h hb hlast]

end Rinix.Heap
