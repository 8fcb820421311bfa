import Mathlib.Order.Bounds.Defs
import Rinix.Heap.Coalescing
import Rinix.Heap.Limits

namespace Rinix.Heap

open ByteMemory Tiling WhileLoop Runs

def FitsAt (s : Kmem) (n : Word) (i : ℕ) : Prop :=
  (header s i).flags = kmemFree ∧ aligned n + 16 < (header s i).size.toNat

def LastFits (s : Kmem) (n : Word) : Prop :=
  (kmemptr s.mem (kmemptr s.mem s.tail).prev).flags = kmemFree ∧ aligned n + 16 < lastSize s

def LowestFit (s : Kmem) (n : Word) (i : ℕ) : Prop :=
  FitsAt s n i ∧ ∀ j, FitsAt s n j → block s i ≤ block s j

def ServesFirst (P : PageMap) (s : Kmem) (n : Word) (t : Kmem) (p : Word) : Prop :=
  ∃ k i u, u = (morecorePage P)^[k] s ∧ t = { u with mem := chop (alignBlock n) u.mem (block u i) } ∧
    t.totalLength.toNat = s.totalLength.toNat + 0x1000 * k ∧ p = block u i + sizeofKmemptr ∧ LowestFit u n i ∧
    (k ≠ 0 → ¬BlockFits s n ∧ IsLeast {j | LastFits ((morecorePage P)^[j] s) n} k)

variable {P : PageMap} {s t u : Kmem} {v : Kmem × Word} {σ : Session} {L M : Layout}
  {l r : List Block} {c : Block} {n p B : Word} {b i j k : ℕ}

def Grew (P : PageMap) (s : Kmem) (v : Kmem × Word) : Prop := ∃ k, v.1 = (morecorePage P)^[k] s

def Split (P : PageMap) (B : Word) (s : Kmem) (k : ℕ) (v : Kmem × Word) : Prop :=
  v = ((morecorePage P)^[k] s, 0) ∨ v.2 ≠ 0 ∧
    ∃ x, v = ({ (morecorePage P)^[k] s with mem := chop B ((morecorePage P)^[k] s).mem x }, x + sizeofKmemptr)

def Ended (P : PageMap) (B : Word) (s : Kmem) (v : Kmem × Word) : Prop := ∃ k, Split P B s k v

theorem tryBlock_splits (h : Grew P s v) (hv : v.2 + sizeofKmemptr ≠ 0) :
    (tryBlock B v).Meets (Grew P s) (Ended P B s) := by
  obtain ⟨k, hk⟩ := h
  simp only [tryBlock]
  split_ifs
  · exact ⟨k, Or.inr ⟨hv, v.2, by rw [← hk]⟩⟩
  · exact ⟨k, hk⟩

theorem turn_splits (h : Grew P s v) (hv : v.2 + sizeofKmemptr ≠ 0)
    (hfirst : v.1.firstFree + sizeofKmemptr ≠ 0) :
    (kmallocTurn P B v).Meets (Grew P s) (Ended P B s) := by
  simp only [kmallocTurn]
  split_ifs
  · apply tryBlock_splits
    · simp only [growAtTail]
      split_ifs
      · obtain ⟨k, hk⟩ := h
        refine ⟨(pagesFor (sizeReq B v.1.mem v.2)).toNat + k, ?_⟩
        rw [Function.iterate_add_apply, ← hk]
        rfl
      · exact h
    · simp only [growAtTail]
      split_ifs
      · exact hfirst
      · exact hv
  · obtain ⟨k, hk⟩ := h
    exact ⟨k, Or.inl (by rw [← hk])⟩

theorem past_header (h : Represents s L) (hc : L.cells = l ++ r) :
    word (heapBase + extent 16 l) + sizeofKmemptr ≠ 0 := by
  have hbase := heapBase_eq
  have hbound := h.bound
  rw [Layout.length, hc, extent_append] at hbound
  rw [sizeofKmemptr_eq, word_add, show (0 : Word) = word 0 from rfl, ne_eq, word_inj (by omega) (by omega)]
  omega

theorem kmalloc_outcome (h : Represents s L) (hw : NoWrap n) (hr : KmallocReturns P s n t p)
    (hp : Roomy (aligned n) L ∨ ¬Past t) : Served n L s.mem (t, p) ∧ Ended P (word (aligned n)) s (t, p) := by
  rw [KmallocReturns, alignBlock_eq] at hr
  have hstep (v : Kmem × Word) (hv : Scanning (aligned n) L s.mem v ∧ Grew P s v ∨
    Overrun (aligned n) L v.1) :
      (kmallocTurn P (word (aligned n)) v).Meets
        (fun v => Scanning (aligned n) L s.mem v ∧ Grew P s v ∨ Overrun (aligned n) L v.1)
        (fun v => Served n L s.mem v ∧ Ended P (word (aligned n)) s v ∨ Overrun (aligned n) L v.1) := by
    rcases hv with ⟨hscan, hgrew⟩ | hover
    · obtain ⟨M, l, r, -, hrep, -, hc, hx, -⟩ := id hscan
      have hfirst : v.1.firstFree + sizeofKmemptr ≠ 0 := by
        rw [hrep.firstFree]
        exact past_header (l := []) hrep rfl
      have hsplit := turn_splits (B := word (aligned n)) hgrew (by rw [hx]; exact past_header hrep hc) hfirst
      refine ((scanning_meets hw hscan).and hsplit).mono ?_ ?_
      · rintro v ⟨hv | hv, hg⟩
        · exact Or.inl ⟨hv, hg⟩
        · exact Or.inr hv
      · rintro v ⟨hv | hv, hg⟩
        · exact Or.inl ⟨hv, hg⟩
        · exact Or.inr hv
    · exact (turn_overrun hover _).mono (fun _ => Or.inr) fun _ => Or.inr
  rcases hr.result hstep (Or.inl ⟨scanning_start h _, 0, rfl⟩) with hs | ⟨hpast, hroom⟩
  · exact hs
  · rcases hp with hp | hp
    · exact absurd hp hroom
    · exact absurd hpast hp

theorem lastFits_iff (h : Represents s L) : LastFits s n ↔ aligned n + 16 < L.lastSize := by
  rw [LastFits, lastSize_eq h]
  exact and_iff_right (tailPrev_free h).1

theorem page_mem_iff (ht : Represents t M) {N : ℕ} (hN : M.length = N * 4096) (hi : i ≤ N) :
    word (heapBase + i * 4096) ∈ t.pages ↔ i < N := by
  have hbase := heapBase_eq
  have hbound := ht.bound
  rw [ht.pages, hN]
  constructor
  · rintro ⟨i', hi', heq⟩
    have := (word_inj (by omega) (by omega)).mp heq
    omega
  · intro hi'
    exact ⟨i, by omega, rfl⟩

theorem pages_tell (h : Represents s L) (hM : heapBase + L.length + k * 4096 ≤ 0xFFC00000)
    (ht : Represents t M)
    (hlen : M.length = L.length + k * 4096) (hpages : t.pages = ((morecorePage P)^[j] s).pages) : j = k := by
  obtain ⟨N, hN⟩ : ∃ N, L.length = N * 4096 := ⟨L.length / 4096, by have := L.length_mod; omega⟩
  have hgrow (i : ℕ) : (L.grow i).length = (N + i) * 4096 := by rw [length_grow, hN, Nat.add_mul]
  rw [hN, ← Nat.add_mul] at hlen
  rcases Nat.lt_trichotomy j k with hjk | rfl | hjk
  -- with fewer pages, page `N + j` was not passed; with more, page `N + k` was
  · have hroom := Nat.add_le_add_left (Nat.mul_le_mul_right 4096 hjk.le) (heapBase + L.length)
    obtain ⟨hrep, -⟩ := morecore_represents (P := P) h j (hroom.trans hM)
    have hin := (page_mem_iff ht hlen (i := N + j) (by omega)).mpr (by omega)
    rw [hpages] at hin
    exact absurd ((page_mem_iff hrep (hgrow j) (le_refl _)).mp hin) (Nat.lt_irrefl _)
  · rfl
  · obtain ⟨i, rfl⟩ : ∃ i, j = i + 1 + k := ⟨j - k - 1, by omega⟩
    obtain ⟨hrep, -⟩ := morecore_represents (P := P) h k hM
    have hnew : (0xD0000000 : Word) + ((morecorePage P)^[k] s).totalLength =
      word (heapBase + (N + k) * 4096) := by
      rw [hrep.total, hgrow, ← word_heapBase, word_add]
    have hin : word (heapBase + (N + k) * 4096) ∈ t.pages := by
      rw [hpages, Function.iterate_add_apply, Function.iterate_succ_apply]
      apply morecore_pages_subset
      rw [morecorePage_pages, hnew]
      exact List.mem_cons_self
    exact absurd ((page_mem_iff ht hlen (le_refl _)).mp hin) (Nat.lt_irrefl _)

theorem Ended.exact (h : Represents s L) (he : Ended P B s (t, p)) (ht : Represents t M)
    (hlen : M.length = L.length + k * 4096) : Split P B s k (t, p) := by
  obtain ⟨j, hsplit⟩ := he
  have hM : heapBase + L.length + k * 4096 ≤ 0xFFC00000 := by
    rw [Nat.add_assoc, ← hlen]
    exact ht.bound
  have hpages : t.pages = ((morecorePage P)^[j] s).pages := by
    rcases hsplit with heq | ⟨-, x, heq⟩ <;> exact congrArg (fun v : Kmem × Word => v.1.pages) heq
  rwa [← pages_tell h hM ht hlen hpages]

theorem lowest_fit (h : Represents s M) (hc : M.cells = l ++ c :: r) (ho : c.owner = none)
    (hfit : aligned n + 16 < c.size) (hno : ∀ d ∈ l, ¬Fits (aligned n) d) : LowestFit s n l.length := by
  have hbound := h.cell_bound hc
  refine ⟨⟨?_, ?_⟩, ?_⟩
  · rw [flags_cell h hc]
    exact flagOf_free ho
  · rw [header_cell h hc, cellHeader, toNat_word (by omega)]
    exact hfit
  · rintro j ⟨hfree, hsize⟩
    obtain ⟨l', c', r', hc', rfl, hblock, hs, -⟩ := cell_at h (free_in_chain h hfree)
    rw [flags_cell h hc', flagOf_eq_free] at hfree
    rw [BitVec.le_def, block_at h hc, hblock, toNat_word (by omega)]
    by_contra hlt
    have hmem := mem_of_place 16 (hc.symm.trans hc') (by omega)
    exact hno c' hmem ⟨hfree, by omega⟩

theorem least_growth (h : Represents s L) (hM : heapBase + L.length + L.growth (aligned n) *
    4096 ≤ 0xFFC00000)
    (hno : ∀ c ∈ L.cells, ¬Fits (aligned n) c)
    (hfit : ∃ c ∈ (L.grow (L.growth (aligned n))).cells, Fits (aligned n) c) :
    IsLeast {j | LastFits ((morecorePage P)^[j] s) n} (L.growth (aligned n)) := by
  have hlast := lastSize_le hno
  have hrem := (fits_grow hno).mp hfit
  have hgrown {j : ℕ} (hj : j ≤ L.growth (aligned n)) :
      LastFits ((morecorePage P)^[j] s) n ↔ aligned n + 16 < L.lastSize + j * 4096 := by
    have hroom := Nat.add_le_add_left (Nat.mul_le_mul_right 4096 hj) (heapBase + L.length)
    rw [lastFits_iff (morecore_represents h j (hroom.trans hM)).1, lastSize_grow]
  constructor
  · apply (hgrown (le_refl _)).mpr
    simp only [Layout.growth, pageCount] at *
    omega
  · intro j hj
    by_contra hlt
    have hfits := (hgrown (by omega)).mp hj
    simp only [Layout.growth, pageCount] at *
    omega

theorem Grown.pages (h : Grown b L M) :
    ∃ k, M = L.grow k ∧ (k ≠ 0 → k = L.growth b ∧ ∀ c ∈ L.cells, ¬Fits b c) := by
  rcases h with rfl | ⟨rfl, hno, -⟩
  · exact ⟨0, (grow_zero M).symm, fun h0 => absurd rfl h0⟩
  · exact ⟨L.growth b, rfl, fun _ => ⟨rfl, hno⟩⟩

theorem Taken.fits (h : Taken n M t p) : ∃ c ∈ M.cells, Fits (aligned n) c := by
  obtain ⟨l, c, r, hc, ho, hfit, -⟩ := h
  exact ⟨c, by simp [hc], ho, hfit⟩

theorem taken_first (h : Represents s L) (he : Ended P (word (aligned n)) s (t, p))
    (ht : Taken n (L.grow k) t p) (hM : heapBase + L.length + k * 4096 ≤ 0xFFC00000) (hp : p ≠ 0) :
    ∃ i, t = { (morecorePage P)^[k] s with
        mem := chop (alignBlock n) ((morecorePage P)^[k] s).mem (block ((morecorePage P)^[k] s) i) } ∧
      t.totalLength.toNat = s.totalLength.toNat + 0x1000 * k ∧
      p = block ((morecorePage P)^[k] s) i + sizeofKmemptr ∧
      LowestFit ((morecorePage P)^[k] s) n i := by
  obtain ⟨l, c, r, hc, ho, hfit, hno, rfl, hrep⟩ := ht
  obtain ⟨hgrown, -⟩ := morecore_represents (P := P) h k hM
  have hblock := block_at hgrown hc
  have hlen := length_take hc ho (aligned_mod n) (le_aligned n) hfit
  rw [length_grow] at hlen
  rcases he.exact h hrep hlen with heq | ⟨-, x, heq⟩
  · exact absurd (Prod.ext_iff.mp heq).2 hp
  · obtain ⟨ht, hx⟩ := Prod.ext_iff.mp heq
    simp only at ht hx
    have hxl : x = block ((morecorePage P)^[k] s) l.length := by
      rw [hblock]
      apply (BitVec.add_left_inj sizeofKmemptr).mp
      rw [← hx, sizeofKmemptr_eq, word_add]
    subst hxl
    rw [← alignBlock_eq] at ht
    refine ⟨l.length, ht, ?_, hx, lowest_fit hgrown hc ho hfit hno⟩
    rw [totalLength_eq hrep, totalLength_eq h, hlen, Nat.mul_comm 0x1000]

theorem kmalloc_first_fit (h : Reachable P (fun s n _ => Careful 0x2FC00000 s n) σ)
    (hc : Careful 0x2FC00000 σ.heap n)
    (hr : KmallocReturns P σ.heap n t p) (hp : p ≠ 0) : ServesFirst P σ.heap n t p := by
  obtain ⟨L, hL, hlen⟩ := h.careful (le_refl _) (by decide)
  rcases careful_cases hL.heap hlen hc with hx | ⟨hw, hM⟩
  · exact absurd (refused hL.heap hx hr).2 hp
  · obtain ⟨⟨M, hgrown, -, ⟨hnull, -⟩ | ht⟩, hended⟩ :=
      kmalloc_outcome hL.heap hw hr (Or.inl (roomy_of_grown (le_refl _) hM))
    · exact absurd hnull hp
    · have hbase := heapBase_eq
      have hlim := hM M hgrown
      obtain ⟨k, rfl, hk⟩ := hgrown.pages
      rw [length_grow] at hlim
      have hroom : heapBase + L.length + k * 4096 ≤ 0xFFC00000 := by omega
      have hfit := ht.fits
      obtain ⟨i, hti, htotal, hpi, hlow⟩ := taken_first hL.heap hended ht hroom hp
      refine ⟨k, i, _, rfl, hti, htotal, hpi, hlow, fun hk0 => ?_⟩
      obtain ⟨rfl, hno⟩ := hk hk0
      refine ⟨fun hfits => ?_, least_growth hL.heap hroom hno hfit⟩
      obtain ⟨c, hc, hfc⟩ := (blockFits_iff hL.heap).mp hfits
      exact hno c hc hfc

theorem freed_block_first_fit : ∃ (σ : Session) (t : Kmem) (p q : Word), σ.live q = some 16 ∧
    p = word (heapBase + 16) ∧ KmallocReturns zeroPages σ.heap 16 t p ∧
    ServesFirst zeroPages σ.heap 16 t p := by
  obtain ⟨σ, p, q, L, ⟨m, es, hrun⟩, hpq, hp, hq, -, rfl, htotal, hrep, hcells⟩ :=
    two_reachable (fun s n _ => Careful 0x2FC00000 s n) (n := 0x100) (k := 16) (by decide)
      fun s t M x hx hrep hfits _ =>
        Or.inr ⟨by rcases hx with rfl | rfl <;> decide, Or.inl ((blockFits_iff hrep).mpr hfits)⟩
  have hlive : (σ.live (word (heapBase + 16))).isSome := by rw [hp]; rfl
  obtain ⟨hfreed, -⟩ := kfree_represents hrep (l := []) hcells rfl
  rw [extent_nil, Nat.add_zero] at hfreed
  have hcells' : (L.release (l := []) hcells).cells = [⟨0x100, none⟩, ⟨16, some 16⟩, ⟨0xEB0, none⟩] := by
    rw [Layout.release_cells]
    rfl
  have hfit : Fits (aligned 16) ⟨0x100, none⟩ := ⟨rfl, by decide⟩
  have hlen : (L.release (l := []) hcells).length < 0x3000000 := by
    rw [length_release, ← totalLength_eq hrep, htotal]
    decide
  obtain ⟨t, ht, -⟩ := kmalloc_fit (P := zeroPages) (n := 16) (l := []) hfreed hlen
    (by decide) hcells' (by simp) hfit
  rw [extent_nil, Nat.add_zero] at ht
  have hne : word (heapBase + 16) ≠ 0 := by rw [heapBase_eq]; decide
  have hcareful : Careful 0x2FC00000 (kfree σ.heap (word (heapBase + 16))) 16 :=
    Or.inr ⟨by decide, Or.inl ((blockFits_iff hfreed).mpr
      ⟨_, by rw [hcells']; exact List.mem_cons_self, hfit⟩)⟩
  refine ⟨⟨kfree σ.heap (word (heapBase + 16)), Function.update σ.live (word (heapBase + 16)) none⟩,
    t, _, q, ?_, rfl, ht, kmalloc_first_fit ⟨m, _, hrun.snoc (.kfree hlive)⟩ hcareful ht hne⟩
  exact (Function.update_of_ne hpq.symm _ _).trans hq

theorem turn_used {x q z w : Word} (hin : x < s.head + s.totalLength * sizeofKmemptr ∧ x ≠ 0)
    (hx : kmemptr s.mem x = ⟨w, q, z, kmemUsed⟩) : kmallocTurn P B (s, x) = .again (s, q) := by
  have htail : kmemUsed ≠ kmemTail := by decide
  simp only [kmallocTurn, if_pos hin, growAtTail, hx, tryBlock, free_ne_used.symm, false_and,
    ↓reduceIte, kmemptrNext, ne_eq, htail, not_false_eq_true]

theorem turn_free {x q z w : Word} (hin : x < s.head + s.totalLength * sizeofKmemptr ∧ x ≠ 0)
    (hx : kmemptr s.mem x = ⟨w, q, z, kmemFree⟩) (hB : B + sizeofKmemptr < z) :
    kmallocTurn P B (s, x) = .exit ({ s with mem := chop B s.mem x }, x + sizeofKmemptr) := by
  simp only [kmallocTurn, if_pos hin, growAtTail, hx, if_neg tail_ne_free.symm, tryBlock, hB,
    and_self, ↓reduceIte]

def firstPage (m : Mem) : Kmem := ⟨word 0xD0000000, word 0xD0000000, word 0xD0000FF0, 0x1000, m, [0xD0000000]⟩

theorem firstPage_in {x : ℕ} (hx : x < 0xD0010000) (hx0 : 0 < x) (m : Mem) :
    word x < (firstPage m).head + (firstPage m).totalLength * sizeofKmemptr ∧ word x ≠ 0 := by
  have hbound : word 0xD0000000 + 0x1000 * sizeofKmemptr = word 0xD0010000 := by decide
  have hne : word x ≠ word 0 := by
    rw [ne_eq, word_inj (by omega) (by decide)]
    omega
  simp only [firstPage, hbound, word_lt (show x < 4294967296 by omega) (show 0xD0010000 <
    4294967296 by decide)]
  exact ⟨hx, hne⟩

theorem returns_head {m : Mem} {n w q z : Word} (hx : kmemptr m (word 0xD0000000) = ⟨w, q, z, kmemFree⟩)
    (hB : alignBlock n + sizeofKmemptr < z) : KmallocReturns P (firstPage m) n
      (firstPage (chop (alignBlock n) m (word 0xD0000000))) (word 0xD0000000 + sizeofKmemptr) :=
  Exits.of_exit (turn_free (s := firstPage m) (firstPage_in (by decide) (by decide) m) hx hB)

theorem returns_second {m : Mem} {n w z w' q' z' : Word} {x : ℕ} (hx0 : 0 < x) (hx : x < 0xD0010000)
    (hh : kmemptr m (word 0xD0000000) = ⟨w, word x, z, kmemUsed⟩)
    (hx' : kmemptr m (word x) = ⟨w', q', z', kmemFree⟩)
    (hB : alignBlock n + sizeofKmemptr < z') : KmallocReturns P (firstPage m) n
      (firstPage (chop (alignBlock n) m (word x))) (word x + sizeofKmemptr) := by
  apply (exits_again (turn_used (s := firstPage m) (firstPage_in (by decide) (by decide) m) hh)).mpr
  exact Exits.of_exit (turn_free (s := firstPage m) (firstPage_in hx hx0 m) hx' hB)

theorem wraps_first : ∃ m, KmallocReturns zeroPages (kmemInit zeroPages fun _ => 0) 0x100 (firstPage m)
      (word 0xD0000010) ∧ kmemptr m (word 0xD0000000) = ⟨word 0xD0000000, word 0xD0000110, 0x100, kmemUsed⟩ ∧
    kmemptr m (word 0xD0000110) = ⟨word 0xD0000000, word 0xD0000FF0, 0xED0, kmemFree⟩ := by
  have hinit := (kmemInit_represents zeroPages fun _ => 0).chain
  rw [heapBase_eq] at hinit
  have hchain := chop_chain (b := 0x100) 0x100 hinit (by decide) (by decide)
  have hheap : kmemInit zeroPages (fun _ => 0) = firstPage (kmemInit zeroPages fun _ => 0).mem := rfl
  refine ⟨_, ?_, hchain.1, hchain.2.1⟩
  rw [hheap]
  exact returns_head hinit.1 (by decide)

theorem wraps_second {m : Mem} (hh : kmemptr m (word 0xD0000000) =
    ⟨word 0xD0000000, word 0xD0000110, 0x100, kmemUsed⟩)
    (hx : kmemptr m (word 0xD0000110) = ⟨word 0xD0000000, word 0xD0000FF0, 0xED0, kmemFree⟩) :
    ∃ m', KmallocReturns zeroPages (firstPage m) 0xFFFFFFF0 (firstPage m') (word 0xD0000120) ∧
      kmemptr m' (word 0xD0000000) = ⟨word 0xD0000000, word 0xD0000110, 0x100, kmemUsed⟩ ∧
      kmemptr m' (word 0xD0000110) = ⟨word 0xD0000110, word 0xD0000110, 0xFFFFFFF0, kmemFree⟩ := by
  have hserved := returns_second (P := zeroPages) (n := 0xFFFFFFF0) (by decide) (by decide) hh hx (by decide)
  have hchop := chop_linked (y := 0xD0000110) (B := alignBlock 0xFFFFFFF0) hx tail_ne_free.symm
    (by decide) (by decide) (by decide) (by decide) (by decide) (by decide)
  refine ⟨_, hserved, ?_, ?_⟩
  · simp (disch := decide) only [hchop, kmemptr_setFlags_ne, kmemptr_setNext_ne, kmemptr_setPrev_ne,
      kmemptr_setSize_ne, hh]
  · simp (disch := decide) only [hchop, kmemptr_setFlags, kmemptr_setNext, kmemptr_setPrev, kmemptr_setSize]
    rfl

theorem wraps_third {m : Mem} (hh : kmemptr m (word 0xD0000000) =
    ⟨word 0xD0000000, word 0xD0000110, 0x100, kmemUsed⟩)
    (hx : kmemptr m (word 0xD0000110) = ⟨word 0xD0000110, word 0xD0000110, 0xFFFFFFF0, kmemFree⟩) :
    ∃ m', KmallocReturns zeroPages (firstPage m) 0xFFFFFF00 (firstPage m') (word 0xD0000120) ∧
      kmemptr m' (word 0xD0000000) = ⟨word 0xD0000000, word 0xD0000110, 0x100, kmemUsed⟩ ∧
      kmemptr m' (word 0xD0000110) = ⟨word 0xD0000020, word 0xD0000020, 0xFFFFFF00, kmemUsed⟩ ∧
      kmemptr m' (word 0xD0000020) = ⟨word 0xD0000110, word 0xD0000110, 0xE0, kmemFree⟩ := by
  have hserved := returns_second (P := zeroPages) (n := 0xFFFFFF00) (by decide) (by decide) hh hx (by decide)
  have hchop := chop_linked (y := 0xD0000020) (B := alignBlock 0xFFFFFF00) hx tail_ne_free.symm
    (by decide) (by decide) (by decide) (by decide) (by decide) (by decide)
  refine ⟨_, hserved, ?_, ?_, ?_⟩
  · simp (disch := decide) only [hchop, kmemptr_setFlags_ne, kmemptr_setNext_ne, kmemptr_setPrev_ne,
      kmemptr_setSize_ne, hh]
  · simp (disch := decide) only [hchop, kmemptr_setFlags_ne, kmemptr_setFlags, kmemptr_setNext,
      kmemptr_setSize,
      kmemptr_setNext_ne, kmemptr_setPrev_ne, kmemptr_setSize_ne, kmemptr_setPrev, hx]
    rfl
  · simp (disch := decide) only [hchop, kmemptr_setFlags, kmemptr_setFlags_ne, kmemptr_setNext_ne,
      kmemptr_setSize_ne, kmemptr_setNext, kmemptr_setPrev, kmemptr_setSize]
    rfl

theorem wraps_fourth {m : Mem} (hh : kmemptr m (word 0xD0000000) =
    ⟨word 0xD0000000, word 0xD0000110, 0x100, kmemUsed⟩)
    (hx : kmemptr m (word 0xD0000110) = ⟨word 0xD0000020, word 0xD0000020, 0xFFFFFF00, kmemUsed⟩)
    (hy : kmemptr m (word 0xD0000020) = ⟨word 0xD0000110, word 0xD0000110, 0xE0, kmemFree⟩) :
    ∃ m', KmallocReturns zeroPages (firstPage m) 0x10 (firstPage m') (word 0xD0000030) ∧
      kmemptr m' (word 0xD0000000) = ⟨word 0xD0000000, word 0xD0000110, 0x100, kmemUsed⟩ ∧
      kmemptr m' (word 0xD0000110) = ⟨word 0xD0000040, word 0xD0000020, 0xFFFFFF00, kmemUsed⟩ ∧
      kmemptr m' (word 0xD0000020) = ⟨word 0xD0000110, word 0xD0000040, 0x10, kmemUsed⟩ ∧
      kmemptr m' (word 0xD0000040) = ⟨word 0xD0000020, word 0xD0000110, 0xC0, kmemFree⟩ := by
  have hchop := chop_linked (y := 0xD0000040) (B := alignBlock 0x10) hy tail_ne_free.symm
    (by decide) (by decide) (by decide) (by decide) (by decide) (by decide)
  have hserved : KmallocReturns zeroPages (firstPage m) 0x10
      (firstPage (chop (alignBlock 0x10) m (word 0xD0000020))) (word 0xD0000030) := by
    apply (exits_again (turn_used (s := firstPage m) (firstPage_in (by decide) (by decide) m) hh)).mpr
    apply (exits_again (turn_used (s := firstPage m) (firstPage_in (by decide) (by decide) m) hx)).mpr
    exact Exits.of_exit (turn_free (s := firstPage m) (firstPage_in (by decide) (by decide) m) hy (by decide))
  refine ⟨_, hserved, ?_, ?_, ?_, ?_⟩
  · simp (disch := decide) only [hchop, kmemptr_setFlags_ne, kmemptr_setNext_ne, kmemptr_setPrev_ne,
      kmemptr_setSize_ne, hh]
  · simp (disch := decide) only [hchop, kmemptr_setFlags_ne, kmemptr_setNext_ne, kmemptr_setPrev_ne,
      kmemptr_setSize_ne, kmemptr_setPrev, hx]
  · simp (disch := decide) only [hchop, kmemptr_setFlags_ne, kmemptr_setNext_ne, kmemptr_setPrev_ne,
      kmemptr_setSize_ne, kmemptr_setFlags, kmemptr_setNext, kmemptr_setSize, hy]
    rfl
  · simp (disch := decide) only [hchop, kmemptr_setFlags_ne, kmemptr_setNext_ne, kmemptr_setSize_ne,
      kmemptr_setFlags, kmemptr_setNext, kmemptr_setPrev, kmemptr_setSize]
    rfl

theorem wraps_freed {m : Mem} (hh : kmemptr m (word 0xD0000000) =
    ⟨word 0xD0000000, word 0xD0000110, 0x100, kmemUsed⟩)
    (hx : kmemptr m (word 0xD0000110) = ⟨word 0xD0000040, word 0xD0000020, 0xFFFFFF00, kmemUsed⟩)
    (hy : kmemptr m (word 0xD0000020) = ⟨word 0xD0000110, word 0xD0000040, 0x10, kmemUsed⟩)
    (hz : kmemptr m (word 0xD0000040) = ⟨word 0xD0000020, word 0xD0000110, 0xC0, kmemFree⟩) :
    ∃ m', kfree (firstPage m) (word 0xD0000120) = firstPage m' ∧
      kmemptr m' (word 0xD0000000) = ⟨word 0xD0000000, word 0xD0000110, 0x100, kmemUsed⟩ ∧
      kmemptr m' (word 0xD0000110) = ⟨word 0xD0000040, word 0xD0000020, 0xFFFFFF00, kmemFree⟩ ∧
      kmemptr m' (word 0xD0000020) = ⟨word 0xD0000040, word 0xD0000040, 0x10, kmemUsed⟩ ∧
      kmemptr m' (word 0xD0000040) = ⟨word 0xD0000020, word 0xD0000020, 0xFFFFFFD0, kmemFree⟩ := by
  have hscratch : word 0xD0000120 - sizeofKmemptr = word 0xD0000110 := by decide
  have hne : word 0xD0000040 ≠ word 0xD0000110 := by decide
  have htail : kmemUsed ≠ kmemTail := by decide
  have heaten : eatenByPrev m (word 0xD0000040) (word 0xD0000110) =
    setNext (setPrev (setSize m (word 0xD0000040)
      (0xC0 + (0xFFFFFF00 + sizeofKmemptr))) (word 0xD0000020) (word 0xD0000040)) (word 0xD0000040)
        (word 0xD0000020) := by
    simp (disch := decide) only [eatenByPrev, kmemptrNext, hx, hz, ne_eq, htail, not_false_eq_true,
      ↓reduceIte, kmemptr_setPrev_ne, kmemptr_setSize_ne]
  have hfreed : kfree (firstPage m) (word 0xD0000120) = firstPage (setFlags (eatenByPrev m (word 0xD0000040)
      (word 0xD0000110)) (word 0xD0000110) kmemFree) := by
    simp only [kfree, firstPage, hscratch, hx, mergeNext, kmemptrNext, ne_eq, htail, not_false_eq_true, hy,
      free_ne_used.symm, false_and, ↓reduceIte, mergePrev, hz, hne, and_self, leaveAlone]
    simp (disch := decide) only [heaten, kmemptr_setNext_ne, kmemptr_setPrev_ne, kmemptr_setSize_ne,
      hx, ↓reduceIte]
  refine ⟨_, hfreed, ?_, ?_, ?_, ?_⟩
  · simp (disch := decide) only [heaten, kmemptr_setFlags_ne, kmemptr_setNext_ne, kmemptr_setPrev_ne,
      kmemptr_setSize_ne, hh]
  · simp (disch := decide) only [heaten, kmemptr_setFlags, kmemptr_setNext_ne, kmemptr_setPrev_ne,
      kmemptr_setSize_ne, hx]
  · simp (disch := decide) only [heaten, kmemptr_setFlags_ne, kmemptr_setNext_ne, kmemptr_setPrev,
      kmemptr_setSize_ne, hy]
  · simp (disch := decide) only [heaten, kmemptr_setFlags_ne, kmemptr_setNext, kmemptr_setPrev_ne,
      kmemptr_setSize, hz]
    rfl

/-- The block that `kmalloc(16)` returns lies above the free block at `0xD0000040`, which the chain
reaches later. -/
theorem kmalloc_skips_lower : ∃ σ, Reachable zeroPages (fun _ _ _ => True) σ ∧ σ.heap.totalLength = 0x1000 ∧
    ∃ t p, KmallocReturns zeroPages σ.heap 0x10 t p ∧ NoWrap 0x10 ∧ t.totalLength = 0x1000 ∧ p ≠ 0 ∧
      ¬ServesFirst zeroPages σ.heap 0x10 t p := by
  obtain ⟨m1, hr1, hh, hx⟩ := wraps_first
  obtain ⟨m2, hr2, hh, hx⟩ := wraps_second hh hx
  obtain ⟨m3, hr3, hh, hx, hy⟩ := wraps_third hh hx
  obtain ⟨m4, hr4, hh, hx, hy, hz⟩ := wraps_fourth hh hx hy
  obtain ⟨m5, hr5, hh, hx, hy, hz⟩ := wraps_freed hh hx hy hz
  have hserved := returns_second (P := zeroPages) (n := 0x10) (by decide) (by decide) hh hx (by decide)
  refine ⟨⟨kfree (firstPage m4) (word 0xD0000120), _⟩, ⟨fun _ => 0, _, .cons (.kmalloc hr1 trivial)
    (.cons (.kmalloc hr2 trivial) (.cons (.kmalloc hr3 trivial) (.cons (.kmalloc hr4 trivial)
      (.cons (.kfree (p := word 0xD0000120) rfl) (.nil _)))))⟩, ?_⟩
  simp only [hr5]
  refine ⟨rfl, _, _, hserved, by decide, rfl, by decide, ?_⟩
  rintro ⟨k, i, u, rfl, -, htotal, hp, ⟨-, hlow⟩, -⟩
  have hk : k = 0 := by
    simp only [firstPage] at htotal
    omega
  subst hk
  have hblock : block (firstPage m5) 3 = word 0xD0000040 := by
    simp only [block, Function.iterate_succ_apply, Function.iterate_zero_apply, firstPage, hh, hx, hy]
  have hheader : header (firstPage m5) 3 = ⟨word 0xD0000020, word 0xD0000020, 0xFFFFFFD0, kmemFree⟩ := by
    rw [header, hblock]
    exact hz
  have hle := hlow 3 ⟨by simp only [Function.iterate_zero_apply, hheader], by
    simp only [Function.iterate_zero_apply, hheader]; decide⟩
  simp only [Function.iterate_zero_apply] at hle hp
  rw [hblock, ← (BitVec.add_left_inj sizeofKmemptr).mp hp] at hle
  exact absurd hle (by decide)

end Rinix.Heap
