import Rinix.Heap.Limits

namespace Rinix.Heap

open ByteMemory Tiling WhileLoop Runs

variable {P : PageMap} {s t : Kmem} {σ τ : Session} {L M : Layout} {n p z : Word}

theorem InWindow.address (h : InWindow s) (hz : pageOf z ∈ s.pages) : kernelHeapStart ≤ z ∧
    z < kernelHeapEnd := by
  have hstart : kernelHeapStart.toNat = 0xD0000000 := rfl
  have hend : kernelHeapEnd.toNat = 0xE0000000 := rfl
  have hpage : pageSize.toNat = 4096 := rfl
  have hin := h _ hz
  have := z.isLt
  rw [BitVec.le_def, BitVec.lt_def, hstart, hend, pageOf, BitVec.toNat_sub, BitVec.toNat_umod, hpage] at hin
  rw [BitVec.le_def, BitVec.lt_def, hstart, hend]
  omega

theorem Held.payload_page (h : Held σ L) (hp : σ.live p = some n) (hz : InPayload p n z) :
    pageOf z ∈ σ.heap.pages := by
  obtain ⟨x, hx, -, hx1, hx2⟩ := h.payload_mem hp hz
  have hb := owned_bound h.heap hx
  exact pageOf_mem h.heap (by omega) (by omega)

theorem careful_visits (h : Represents s L) (hL : L.length ≤ 0x10000000) (hc : Careful 0x10000000 s n)
    {u : Kmem × Word} (hv : Visits (kmallocTurn P (alignBlock n)) (s, s.firstFree) u) : InWindow u.1 := by
  have hbase := heapBase_eq
  rcases careful_cases h hL hc with hx | ⟨hw, hM⟩
  · rw [h.firstFree] at hv
    rw [hv.of_exit (turn_stop h (by omega) (by omega) hx _)]
    exact h.inWindow_iff.mpr hL
  · obtain ⟨M, l, r, hgrown, hrep, -⟩ := kmalloc_scanning h hw hv (Or.inl (roomy_of_grown (by decide) hM))
    exact hrep.inWindow_iff.mpr (hM M hgrown)

theorem careful_returns (h : Represents s L) (hL : L.length ≤ 0x10000000) (hc : Careful 0x10000000 s n)
    (hr : KmallocReturns P s n t p) : InWindow t := by
  rcases careful_cases h hL hc with hx | ⟨hw, hM⟩
  · rw [(refused h hx hr).1]
    exact h.inWindow_iff.mpr hL
  · obtain ⟨M, hgrown, -, ⟨-, hrep⟩ | ⟨l, c, r, hcells, ho, hfit, -, -, hrep⟩⟩ :=
      kmalloc_served h hw hr (Or.inl (roomy_of_grown (by decide) hM))
    · exact hrep.inWindow_iff.mpr (hM M hgrown)
    · apply hrep.inWindow_iff.mpr
      rw [length_take hcells ho (aligned_mod n) (le_aligned n) hfit]
      exact hM M hgrown

theorem careful_refuses (h : Represents s L) (hL : L.length ≤ 0x10000000) (hc : Careful 0x10000000 s n)
    (hfit : ¬FitsWindow s n) (hr : KmallocReturns P s n t p) : p = 0 ∧ t = s := by
  have hbase := heapBase_eq
  have hbound := h.bound
  rw [Layout.length] at hbound
  have hx : ¬heapBase < scanBound L := by
    intro hx
    rw [FitsWindow, not_or] at hfit
    rcases hc with hc | ⟨-, hc | hc | hc⟩
    · rw [h.firstFree, below_bound h (by omega)] at hc
      exact hc hx
    · exact hfit.1 hc
    · rw [h.tail, below_bound h (by omega)] at hc
      by_cases hlarge : 0x3000000 ≤ L.length
      · have := scanBound_large hlarge hL
        omega
      · exact hc (in_scan (by omega) (List.append_nil _).symm)
    · exact hfit.2 hc
  obtain ⟨ht, hp⟩ := refused h hx hr
  exact ⟨hp, ht⟩

theorem careful_inWindow (h : Reachable P (fun s n _ => Careful 0x10000000 s n) σ) :
    InWindow σ.heap ∧
    (∃ N, WellFormed σ.heap N ∧ ∀ i ≤ N, ∀ z : Word, (block σ.heap i).toNat ≤ z.toNat →
      z.toNat < (block σ.heap i).toNat + 16 + (header σ.heap i).size.toNat →
        kernelHeapStart ≤ z ∧ z < kernelHeapEnd) ∧
    (∀ p n z, σ.live p = some n → InPayload p n z → kernelHeapStart ≤ z ∧ z < kernelHeapEnd) ∧
    ∀ n, Careful 0x10000000 σ.heap n →
      (∀ u, Visits (kmallocTurn P (alignBlock n)) (σ.heap, σ.heap.firstFree) u → InWindow u.1) ∧
      ∀ t p, KmallocReturns P σ.heap n t p → InWindow t ∧
      (¬FitsWindow σ.heap n → p = 0 ∧ t = σ.heap) := by
  obtain ⟨L, hL, hlen⟩ := h.careful (by decide) (by decide)
  have hwin := hL.heap.inWindow_iff.mpr hlen
  have hwell := hL.heap.wellFormed
  refine ⟨hwin, ⟨_, hwell, fun i hi z hz hz' => hwin.address (hwell.paged i hi z hz hz')⟩, ?_,
    fun n hc => ⟨?_, ?_⟩⟩
  · intro p n z hp hz
    exact hwin.address (hL.payload_page hp hz)
  · intro u hv
    exact careful_visits hL.heap hlen hc hv
  · intro t p hr
    exact ⟨careful_returns hL.heap hlen hc hr, fun hfit => careful_refuses hL.heap hlen hc hfit hr⟩

theorem alloc_inWindow : ∃ σ : Session, ∃ p, σ.live p = some 16 ∧ InWindow σ.heap ∧
    ∀ z, InPayload p 16 z → kernelHeapStart ≤ z ∧ z < kernelHeapEnd := by
  have hinit := kmemInit_represents zeroPages fun _ => 0
  obtain ⟨σ, p, h, hp⟩ := alloc_reachable (fun s n _ => Careful 0x10000000 s n)
    fun _ _ => Or.inr ⟨by decide, Or.inl init_fits⟩
  have hin := careful_inWindow h
  exact ⟨σ, p, hp, hin.1, fun z hz => hin.2.2.1 p 16 z hp hz⟩

theorem kmalloc_leaves_window : ∃ t p, KmallocReturns zeroPages
    (kmemInit zeroPages fun _ => 0) 0x10000000 t p ∧ p ≠ 0 ∧ kernelHeapEnd ∈ t.pages := by
  have hbase := heapBase_eq
  have hinit := kmemInit_represents zeroPages fun _ => 0
  have haligned : aligned 0x10000000 = 0x10000000 := rfl
  have hlen : Layout.initial.length = 4096 := by rw [Layout.length]; rfl
  have hgrowth : Layout.initial.growth (aligned 0x10000000) = 65536 := rfl
  have hno : ∀ c ∈ Layout.initial.cells, ¬Fits (aligned 0x10000000) c := by
    intro c hc
    rw [List.mem_singleton.mp hc, haligned]
    decide
  have hM : heapBase + Layout.initial.length + Layout.initial.growth (aligned 0x10000000) * 4096 ≤
    0xFFC00000 := by
    rw [hlen, hgrowth]; omega
  have hw : NoWrap 0x10000000 := by decide
  have hfit := (fits_grow hno).mpr (by rw [haligned]; decide)
  obtain ⟨t, p, ht, hp, hpages, -⟩ := tail_exits_fit (P := zeroPages) hinit (by omega) hw hno hM
    (l := []) rfl hfit (Or.inr ⟨_, rfl⟩)
  refine ⟨t, p, ?_, hp, ?_⟩
  · rw [KmallocReturns, (visits_tail hinit (by omega) hw hno).exits_iff, alignBlock_eq]
    exact ht
  · rw [hpages, (grown_represents (P := zeroPages) hinit hM).pages, length_grow, hgrowth, hlen]
    refine ⟨65536, by decide, ?_⟩
    rw [hbase]
    decide

end Rinix.Heap
