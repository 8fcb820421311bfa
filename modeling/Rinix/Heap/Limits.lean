import Rinix.Heap.Ownership
import Rinix.Heap.Termination

namespace Rinix.Heap

open ByteMemory Tiling WhileLoop Runs

/-- A request that comes to no harm. Either the bound of the loop has wrapped below the first block,
and NULL comes back at once; or the request does not wrap, and a block fits it, or the scan stops
before the tail, or the pages it adds keep the heap within `limit` bytes. -/
def Careful (limit : ℕ) (s : Kmem) (n : Word) : Prop :=
  ¬s.firstFree < s.head + s.totalLength * sizeofKmemptr ∨
    NoWrap n ∧ (BlockFits s n ∨ ¬s.tail < s.head + s.totalLength * sizeofKmemptr ∨
      s.totalLength.toNat + 0x1000 * pagesNeeded s n ≤ limit)

variable {P : PageMap} {s t : Kmem} {σ τ : Session} {L M : Layout} {n p : Word} {e : Event} {limit b : ℕ}

theorem careful_cases (h : Represents s L) (hL : L.length ≤ limit) (hc : Careful limit s n) :
    ¬heapBase < scanBound L ∨ NoWrap n ∧ ∀ M, Grown (aligned n) L M → M.length ≤ limit := by
  have hbase := heapBase_eq
  have hbound := h.bound
  rw [Layout.length] at hbound
  have hlen := length_grow L (L.growth (aligned n))
  rw [Careful, h.firstFree, h.tail, below_bound h (by omega), below_bound h (by omega), blockFits_iff h,
    totalLength_eq h, pagesNeeded_eq h, Nat.mul_comm 0x1000 (L.growth (aligned n))] at hc
  rcases hc with hc | ⟨hw, hc⟩
  · exact Or.inl hc
  · refine Or.inr ⟨hw, ?_⟩
    rintro M (rfl | ⟨rfl, hno, hx⟩)
    · exact hL
    · rcases hc with ⟨c, hc, hfc⟩ | hc | hc
      · exact absurd hfc (hno c hc)
      · exact absurd hx hc
      · rw [hlen]; exact hc

theorem roomy_of_grown (hlim : limit ≤ 0x2FC00000) (hM : ∀ M, Grown b L M → M.length ≤ limit) :
    Roomy b L := by
  have hbase := heapBase_eq
  intro hno hx
  have hgrown := hM _ (Or.inr ⟨rfl, hno, hx⟩)
  rw [length_grow] at hgrown
  omega

theorem refused (h : Represents s L) (hx : ¬heapBase < scanBound L) (hr : KmallocReturns P s n t p) :
    t = s ∧ p = 0 := by
  have hbase := heapBase_eq
  rw [KmallocReturns, h.firstFree] at hr
  have hstop := Exits.of_exit (turn_stop (P := P) h (by omega) (by omega) hx (alignBlock n))
  exact Prod.ext_iff.mp (hr.unique hstop)

theorem step_careful (hlim : limit ≤ 0x2FC00000) (h : Held σ L) (hL : L.length ≤ limit)
    (hstep : Step P (fun s n _ => Careful limit s n) σ e τ) : ∃ L', Held τ L' ∧ L'.length ≤ limit := by
  cases hstep with
  | kmalloc hr hs =>
    rcases careful_cases h.heap hL hs with hx | ⟨hw, hM⟩
    · obtain ⟨rfl, rfl⟩ := refused h.heap hx hr
      exact ⟨L, by simpa using h, hL⟩
    · obtain ⟨-, -, M, L', hgrown, hlen, hL'⟩ := h.after_kmalloc hw hr (Or.inl (roomy_of_grown hlim hM))
      exact ⟨L', hL', by rw [hlen]; exact hM M hgrown⟩
  | kfree hp =>
    obtain ⟨-, L', hlen, -, hL'⟩ := h.after_kfree hp
    exact ⟨L', hL', by rw [hlen]; exact hL⟩
  | write hp ha => exact ⟨L, h.after_write hp ha, hL⟩

theorem Reachable.careful (hlim : limit ≤ 0x2FC00000) (hpage : 4096 ≤ limit)
    (h : Reachable P (fun s n _ => Careful limit s n) σ) : ∃ L, Held σ L ∧ L.length ≤ limit := by
  obtain ⟨m, es, hrun⟩ := h
  refine hrun.invariant (fun σ => ∃ L, Held σ L ∧ L.length ≤ limit) ?_ ?_
  · rintro σ e τ ⟨L, hL, hlen⟩ hstep
    exact step_careful hlim hL hlen hstep
  · refine ⟨Layout.initial, held_start P m, ?_⟩
    rw [show Layout.initial.length = 4096 by rw [Layout.length]; rfl]
    exact hpage

theorem taken_block (ht : Taken n M t p) : ∃ N, WellFormed t N ∧ ∃ i < N, p = block t i + sizeofKmemptr ∧
    (header t i).flags = kmemUsed ∧ (header t i).size.toNat = aligned n ∧
    p.toNat + aligned n + 16 ≤ t.head.toNat + t.totalLength.toNat ∧ t.head.toNat ≤ p.toNat := by
  have hbase := heapBase_eq
  obtain ⟨l, c, r, hc, ho, hfit, -, rfl, hrep⟩ := ht
  have hcells := M.take_cells hc ho (aligned_mod n) (le_aligned n) hfit
  have hbound := hrep.cell_bound hcells
  have htotal := hrep.bound
  have hlen : (M.take hc ho (aligned_mod n) (le_aligned n) hfit).length =
      extent 16 l + (16 + aligned n + extent 16 (⟨c.size - (aligned n + 16), none⟩ :: r)) + 16 := by
    rw [Layout.length, hcells, extent_append, extent_cons]
  simp only at hbound
  refine ⟨_, hrep.wellFormed, l.length, ?_, ?_, ?_, ?_, ?_, ?_⟩
  · rw [hcells]; simp
  · rw [block_at hrep hcells, sizeofKmemptr_eq, word_add]
  · rw [flags_cell hrep hcells]; rfl
  · rw [header_cell hrep hcells, cellHeader]
    simp only
    exact toNat_word (by omega)
  · rw [toNat_word (by omega), hrep.head, toNat_word (by omega), totalLength_eq hrep]
    omega
  · rw [hrep.head, toNat_word (by omega), toNat_word (by omega)]
    omega

/-- Capacity: in a run of careful requests every pointer that `kmalloc` returns has room for the
request. -/
theorem kmalloc_capacity (h : Reachable P (fun s n _ => Careful 0x2FC00000 s n) σ)
    (hc : Careful 0x2FC00000 σ.heap n) (hr : KmallocReturns P σ.heap n t p) (hp : p ≠ 0) :
    ∃ N, WellFormed t N ∧ ∃ i < N, p = block t i + sizeofKmemptr ∧ (header t i).flags = kmemUsed ∧
      n.toNat ≤ (header t i).size.toNat ∧ t.head.toNat ≤ p.toNat ∧
      p.toNat + n.toNat ≤ t.head.toNat + t.totalLength.toNat := by
  obtain ⟨L, hL, hlen⟩ := h.careful (le_refl _) (by decide)
  rcases careful_cases hL.heap hlen hc with hx | ⟨hw, hM⟩
  · exact absurd (refused hL.heap hx hr).2 hp
  · obtain ⟨M, -, -, ⟨hnull, -⟩ | ht⟩ := kmalloc_served hL.heap hw hr (Or.inl (roomy_of_grown (le_refl _) hM))
    · exact absurd hnull hp
    · have hn := le_aligned n
      obtain ⟨N, hN, i, hi, hpi, hused, hsize, hend, hstart⟩ := taken_block (t := t) (p := p) ht
      exact ⟨N, hN, i, hi, hpi, hused, by omega, hstart, by omega⟩

theorem careful_kmalloc_capacity : ∃ t p, p ≠ 0 ∧ ∃ N, WellFormed t N ∧
    ∃ i < N, p = block t i + sizeofKmemptr ∧
    (header t i).flags = kmemUsed ∧ (16 : Word).toNat ≤ (header t i).size.toNat ∧ t.head.toNat ≤ p.toNat ∧
      p.toNat + (16 : Word).toNat ≤ t.head.toNat + t.totalLength.toNat := by
  have hinit := kmemInit_represents zeroPages fun _ => 0
  obtain ⟨t, ht, -⟩ := init_serves zeroPages (fun _ => 0) 16 (by decide)
  have hp : word (heapBase + 16) ≠ 0 := by rw [heapBase_eq]; decide
  exact ⟨t, _, hp, kmalloc_capacity (σ := Session.start zeroPages fun _ => 0) ⟨_, _, .nil _⟩
    (Or.inr ⟨by decide, Or.inl init_fits⟩) ht hp⟩

theorem alignBlock_wraps : alignBlock 0xFFFFFFFF = alignBlock 0 := by decide

theorem kmalloc_wraps : ∃ t p, KmallocReturns zeroPages (kmemInit zeroPages fun _ => 0) 0xFFFFFFFF t
    p ∧ p ≠ 0 ∧
    ¬∃ N, WellFormed t N ∧ ∃ i < N, p = block t i + sizeofKmemptr ∧ (header t i).flags = kmemUsed ∧
      (0xFFFFFFFF : Word).toNat ≤ (header t i).size.toNat := by
  have hinit := kmemInit_represents zeroPages fun _ => 0
  obtain ⟨t, ht, hpages⟩ := init_serves zeroPages (fun _ => 0) 0 (by decide)
  have hp : word (heapBase + 16) ≠ 0 := by rw [heapBase_eq]; decide
  have hpast : ¬Past t := by
    rintro ⟨v, hv, hv'⟩
    rw [hpages, List.mem_singleton] at hv
    subst hv
    exact absurd hv' (by decide)
  obtain ⟨M, -, -, ⟨hnull, -⟩ | htaken⟩ := kmalloc_served hinit (by decide) ht (Or.inr hpast)
  · exact absurd hnull hp
  · obtain ⟨-, -, j, -, hpj, -, hsize, -, -⟩ := taken_block (t := t) (p := word (heapBase + 16)) htaken
    refine ⟨t, _, by rw [KmallocReturns, alignBlock_wraps]; exact ht, hp, ?_⟩
    rintro ⟨N, -, i, -, hpi, -, hle⟩
    have hij : block t i = block t j := (BitVec.add_left_inj _).mp (hpi.symm.trans hpj)
    rw [header, hij, ← header, hsize] at hle
    exact absurd hle (by decide)

end Rinix.Heap
