import Rinix.Heap.Refusal
import Rinix.Heap.Undo

namespace Rinix.Heap

open ByteMemory Tiling WhileLoop Runs

def recordedSize (s : Kmem) (p : Word) : Word := (kmemptr s.mem (p - sizeofKmemptr)).size

def ServesAgain (P : PageMap) (s : Kmem) (p : Word) : Prop :=
  ∃ t q, KmallocReturns P (kfree s p) (recordedSize s p) t q ∧ q ≠ 0 ∧ InPlace (kfree s p) t

def spareAround (m : Mem) (x : Word) : ℕ :=
  (if (kmemptr m (kmemptr m x).prev).flags = kmemFree ∧ (kmemptr m x).prev ≠ x then
      16 + (kmemptr m (kmemptr m x).prev).size.toNat else 0) +
    if (kmemptr m (kmemptrNext m x)).flags = kmemFree then
      16 + (kmemptr m (kmemptrNext m x)).size.toNat else 0

variable {P : PageMap} {s t : Kmem} {σ : Session} {L : Layout} {l r : List Block} {c : Block} {n p : Word}

theorem Represents.not_past (h : Represents s L) : ¬Past s := by
  rintro ⟨v, hv, hpast⟩
  have hbound := h.bound
  have hmod := L.length_mod
  obtain ⟨k, hk, rfl⟩ := (h.pages v).mp hv
  rw [toNat_word (by omega)] at hpast
  omega

theorem inPlace_iff (h : Represents s L) (hsmall : L.length < 0x3000000) (hw : NoWrap n) :
    (∃ t p, KmallocReturns P s n t p ∧ p ≠ 0 ∧ InPlace s t) ↔ ∃ c ∈ L.cells, Fits (aligned n) c := by
  constructor
  · rintro ⟨t, p, hr, hp, hpages, htotal⟩
    have hpast : ¬Past t := by
      rw [Past, hpages]
      exact h.not_past
    obtain ⟨M, hM, -, ⟨hnull, -⟩ | ht⟩ := kmalloc_served h hw hr (Or.inr hpast)
    · exact absurd hnull hp
    · have hfit := ht.fits
      obtain ⟨k, rfl, -⟩ := hM.pages
      obtain ⟨l, c, r, hc, ho, hsize, -, -, hrep⟩ := ht
      have hlen := totalLength_eq hrep
      rw [length_take, length_grow, htotal, totalLength_eq h] at hlen
      rwa [show k = 0 by omega, grow_zero] at hfit
  · intro hfit
    obtain ⟨t, p, ht, hp, hplace⟩ := exits_fit (P := P) h hsmall hw (l := []) rfl hfit
    refine ⟨t, p, ?_, hp, hplace⟩
    rw [KmallocReturns, alignBlock_eq, h.firstFree]
    exact ht

theorem fits_release_iff (hc : L.cells = l ++ c :: r) (ho : c.owner.isSome) :
    (∃ d ∈ (L.release hc).cells, Fits c.size d) ↔
      (∃ d ∈ L.cells, Fits c.size d) ∨ 16 < roomAhead 16 l.reverse + roomAhead 16 r := by
  obtain ⟨l', r', hcells, ⟨hkeep, hsub⟩, ⟨hkeep', hsub'⟩⟩ := coalesce_room 16 (hc ▸ L.settled)
  rw [Layout.release_cells, hcells]
  constructor
  · rintro ⟨d, hd, hfit⟩
    simp only [List.mem_append, List.mem_cons] at hd
    rcases hd with hd | rfl | hd
    · exact Or.inl ⟨d, by simp [hc, hsub d hd], hfit⟩
    · have hsize := hfit.2
      simp only at hsize
      exact Or.inr (by omega)
    · exact Or.inl ⟨d, by simp [hc, hsub' d hd], hfit⟩
  · have hjoin (hroom : 16 < roomAhead 16 l.reverse + roomAhead 16 r) :
        Fits c.size ⟨c.size + roomAhead 16 l.reverse + roomAhead 16 r, none⟩ := ⟨rfl, by simp only; omega⟩
    rintro (⟨d, hd, hfit⟩ | hroom)
    · have hsize := hfit.2
      simp only [hc, List.mem_append, List.mem_cons] at hd
      rcases hd with hd | rfl | hd
      · rcases hkeep d hd with hd | ⟨-, hroom⟩
        · exact ⟨d, by simp [hd], hfit⟩
        · exact ⟨_, by simp, hjoin (by omega)⟩
      · rw [hfit.1] at ho
        cases ho
      · rcases hkeep' d hd with hd | ⟨-, hroom⟩
        · exact ⟨d, by simp [hd], hfit⟩
        · exact ⟨_, by simp, hjoin (by omega)⟩
    · exact ⟨_, by simp, hjoin hroom⟩

theorem spareAhead_eq (h : Represents s L) (hc : L.cells = l ++ c :: r) :
    (if (kmemptr s.mem (word (heapBase + extent 16 l + 16 + c.size))).flags = kmemFree then
      16 + (kmemptr s.mem (word (heapBase + extent 16 l + 16 + c.size))).size.toNat else 0) =
      roomAhead 16 r := by
  have hc' : L.cells = l ++ [c] ++ r := by rw [hc]; simp
  have hx : heapBase + extent 16 (l ++ [c]) = heapBase + extent 16 l + 16 + c.size := by
    simp only [extent_append, extent_cons, extent_nil]
    omega
  cases r with
  | nil =>
    rw [List.append_nil] at hc'
    have htail := h.chain.tail_header
    rw [hc', hx] at htail
    rw [htail, tailHeader, if_neg tail_ne_free]
    rfl
  | cons d r =>
    have hbound := h.cell_bound hc'
    have hd := (hc' ▸ h.chain).header_at
    rw [hx] at hd
    simp only [hd, cellHeader, flagOf_eq_free, roomAhead, toNat_word (show d.size < 4294967296 by omega)]
    cases ho : d.owner with
    | none => rfl
    | some k => rfl

theorem spareBehind_eq (h : Represents s L) (hc : L.cells = l ++ c :: r) :
    (if (kmemptr s.mem (word (lastStart heapBase heapBase l))).flags = kmemFree ∧
        word (lastStart heapBase heapBase l) ≠ word (heapBase + extent 16 l) then
      16 + (kmemptr s.mem (word (lastStart heapBase heapBase l))).size.toNat else 0) =
      roomAhead 16 l.reverse := by
  rcases List.eq_nil_or_concat l with rfl | ⟨l, d, rfl⟩
  · exact if_neg fun hne => hne.2 rfl
  · rw [List.concat_eq_append] at *
    have hbound := h.cell_bound hc
    have hc' : L.cells = l ++ d :: c :: r := by rw [hc]; simp
    have hd := (hc' ▸ h.chain).header_at
    have hne : word (heapBase + extent 16 l) ≠ word (heapBase + extent 16 (l ++ [d])) := by
      simp only [extent_append, extent_cons, extent_nil] at hbound ⊢
      rw [ne_eq, word_inj (by omega) (by omega)]
      omega
    simp only [extent_append, extent_cons, extent_nil] at hbound
    rw [lastStart_snoc]
    simp only [hd, cellHeader, flagOf_eq_free, List.reverse_append, List.reverse_singleton,
      List.singleton_append,
      roomAhead, toNat_word (show d.size < 4294967296 by omega), hne, ne_eq, not_false_eq_true, and_true]
    cases ho : d.owner with
    | none => rfl
    | some k => rfl

theorem spareAround_eq (h : Represents s L) (hc : L.cells = l ++ c :: r) :
    spareAround s.mem (word (heapBase + extent 16 l)) = roomAhead 16 l.reverse + roomAhead 16 r := by
  have hcell := (hc ▸ h.chain).header_at
  rw [spareAround, kmemptrNext_of_cell hcell, hcell, cellHeader, spareAhead_eq h hc]
  exact congrArg (· + roomAhead 16 r) (spareBehind_eq h hc)

theorem header_of_payload (h : Represents s L) (hc : L.cells = l ++ c :: r) :
    word (heapBase + extent 16 l + 16) - sizeofKmemptr = word (heapBase + extent 16 l) ∧
      recordedSize s (word (heapBase + extent 16 l + 16)) = word c.size := by
  have hheader := (hc ▸ h.chain).header_at
  have hx : word (heapBase + extent 16 l + 16) - sizeofKmemptr = word (heapBase + extent 16 l) := by
    rw [sizeofKmemptr_eq, word_sub (by omega)]
    exact congrArg word (by omega)
  refine ⟨hx, ?_⟩
  rw [recordedSize, hx, hheader]
  rfl

theorem aligned_size (h : Represents s L) (hc : L.cells = l ++ c :: r) : aligned (word c.size) = c.size := by
  have hbound := h.cell_bound hc
  have hmod := (L.sized c (by simp [hc])).1
  rw [aligned, toNat_word (by omega)]
  omega

theorem servesAgain_iff (h : Represents s L) (hsmall : L.length < 0x3000000) (hc : L.cells = l ++ c :: r)
    (ho : c.owner.isSome) : ServesAgain P s (word (heapBase + extent 16 l + 16)) ↔
      (∃ d ∈ L.cells, Fits c.size d) ∨ 16 < roomAhead 16 l.reverse + roomAhead 16 r := by
  have hbound := h.cell_bound hc
  have hsize := aligned_size h hc
  obtain ⟨hrep, -⟩ := kfree_represents h hc ho
  have hw : NoWrap (word c.size) := by
    rw [NoWrap, hsize]
    omega
  rw [ServesAgain, (header_of_payload h hc).2,
    inPlace_iff hrep (by rw [length_release]; exact hsmall) hw, hsize, fits_release_iff hc ho]

/-- A freed block serves a request of its own size exactly if another block fits it, or its free
neighbours add more than the second header needs. -/
theorem serves_again_iff (h : Reachable P Windowed σ) (hsmall : σ.heap.totalLength.toNat < 0x3000000)
    (hp : (σ.live p).isSome) : ServesAgain P σ.heap p ↔
      BlockFits σ.heap (recordedSize σ.heap p) ∨ 16 < spareAround σ.heap.mem (p - sizeofKmemptr) := by
  obtain ⟨L, hL⟩ := h.sane.held
  obtain ⟨n, hn⟩ := Option.isSome_iff_exists.mp hp
  obtain ⟨y, hy, rfl, -⟩ := (hL.live p n).mp hn
  obtain ⟨l, r, hc, ho, hy1⟩ := (mem_owned 16).mp hy
  obtain ⟨hx, hsize⟩ := header_of_payload hL.heap hc
  rw [totalLength_eq hL.heap] at hsmall
  rw [hy1, servesAgain_iff hL.heap hsmall hc ho, hsize, hx, blockFits_iff hL.heap, spareAround_eq hL.heap hc,
    aligned_size hL.heap hc]

theorem first_serves_again : ∃ σ : Session, ∃ p, σ.live p = some 16 ∧ ServesAgain zeroPages σ.heap p := by
  obtain ⟨σ, p, q, L, h, -, hp, -, -, rfl, htotal, hrep, hcells⟩ := two_windowed
  have hsize := (header_of_payload hrep (l := []) hcells).2
  rw [extent_nil, Nat.add_zero] at hsize
  refine ⟨σ, _, hp, (serves_again_iff h (by rw [htotal]; decide) (by rw [hp]; rfl)).mpr (Or.inl ?_)⟩
  rw [blockFits_iff hrep, hcells]
  exact ⟨⟨0xFA0, none⟩, by simp, rfl, by rw [hsize]; decide⟩

theorem freed_block_wasted : ∃ σ p, Reachable zeroPages Windowed σ ∧ σ.heap.totalLength = 0x1000 ∧
    σ.live p = some 0x800 ∧ recordedSize σ.heap p = 0x800 ∧ ¬ServesAgain zeroPages σ.heap p := by
  obtain ⟨σ, p, q, L, h, -, hp, -, -, rfl, htotal, hrep, hcells⟩ :=
    two_reachable Windowed (n := 0x800) (k := 0x10) (by decide) fun s t M x hx _ _ ht => by
      rcases hx with rfl | rfl
      · exact windowed_page (by decide) ht
      · exact windowed_16 ht
  have hsmall : L.length < 0x3000000 := by
    rw [← totalLength_eq hrep, htotal]
    decide
  refine ⟨σ, _, h, htotal, hp, (header_of_payload hrep (l := []) hcells).2, ?_⟩
  have hiff := servesAgain_iff (P := zeroPages) hrep hsmall (l := []) hcells rfl
  rw [extent_nil, Nat.add_zero] at hiff
  rw [hiff, hcells]
  rintro (⟨d, hd, hfit⟩ | hroom)
  · simp only [List.mem_cons, List.not_mem_nil, or_false] at hd
    rcases hd with rfl | rfl | rfl <;> exact absurd hfit (by decide)
  · exact absurd hroom (by decide)

end Rinix.Heap
