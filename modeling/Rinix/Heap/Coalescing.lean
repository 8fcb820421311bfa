import Rinix.Heap.Termination

namespace Rinix.Heap

open ByteMemory Tiling WhileLoop Runs

variable {P : PageMap} {s t : Kmem} {σ τ : Session} {L M : Layout} {l r : List Block} {c : Block} {n p : Word}

theorem not_both_free (h : Represents s L) {i : ℕ} (hi : i < L.cells.length) :
    ¬((header s i).flags = kmemFree ∧ (header s (i + 1)).flags = kmemFree) := by
  rintro ⟨h1, h2⟩
  obtain ⟨l, c, r, hc, rfl, -⟩ := cell_at h hi
  rw [flags_cell h hc, flagOf_eq_free] at h1
  cases r with
  | nil =>
    have htail := h.wellFormed.tail
    rw [hc, List.length_append, List.length_singleton, h2] at htail
    exact absurd htail (by decide)
  | cons d r =>
    have hc' : L.cells = (l ++ [c]) ++ d :: r := by rw [hc]; simp
    have hlen : (l ++ [c]).length = l.length + 1 := by simp
    rw [← hlen, flags_cell h hc', flagOf_eq_free] at h2
    have hs := L.settled
    rw [hc, settled_append_cons] at hs
    have hcd := (List.isChain_cons_cons.mp hs.2).1
    simp [h1, h2] at hcd

theorem free_of_none_live (h : Held σ L) (hnone : ∀ p, σ.live p = none) : ∀ c ∈ L.cells, c.owner = none := by
  intro c hc
  by_contra ho
  obtain ⟨l, r, hl⟩ := List.append_of_mem hc
  obtain ⟨n, hn⟩ := Option.ne_none_iff_exists'.mp ho
  have hmem : (heapBase + extent 16 l, c) ∈ owned 16 heapBase L.cells :=
    (mem_owned 16).mpr ⟨l, r, hl, by rw [hn]; rfl, rfl⟩
  have hlive := (h.live _ n).mpr ⟨_, hmem, rfl, hn⟩
  rw [hnone] at hlive
  cases hlive

theorem single_of_free (hfree : ∀ c ∈ L.cells, c.owner = none) : ∃ c, L.cells = [c] := by
  obtain ⟨c, r, hc⟩ := L.exists_cons
  cases r with
  | nil => exact ⟨c, hc⟩
  | cons d r =>
    have hs := L.settled
    rw [hc] at hs
    have hcd := (List.isChain_cons_cons.mp hs).1
    rw [hfree c (by simp [hc]), hfree d (by simp [hc])] at hcd
    simp at hcd

/-- No two neighbours are free, and a heap whose pointers were all freed is one free block. -/
theorem reachable_coalesced (h : Reachable P Windowed σ) :
    ∃ n, WellFormed σ.heap n ∧
      (∀ i < n, ¬((header σ.heap i).flags = kmemFree ∧ (header σ.heap (i + 1)).flags = kmemFree)) ∧
      ((∀ p, σ.live p = none) → n = 1 ∧ (header σ.heap 0).flags = kmemFree ∧
        (header σ.heap 0).size.toNat + 32 = σ.heap.totalLength.toNat) := by
  obtain ⟨L, hL⟩ := h.sane.held
  refine ⟨_, hL.heap.wellFormed, fun i hi => not_both_free hL.heap hi, fun hnone => ?_⟩
  have hfree := free_of_none_live hL hnone
  obtain ⟨c, hc⟩ := single_of_free hfree
  have hbound := hL.heap.cell_bound (l := []) hc
  have hhead := header_cell hL.heap (l := []) hc
  rw [List.length_nil] at hhead
  refine ⟨by rw [hc]; rfl, ?_, ?_⟩
  · rw [hhead]; exact flagOf_free (hfree c (by simp [hc]))
  · rw [hhead, totalLength_eq hL.heap, Layout.length, hc]
    simp only [cellHeader, extent_cons, extent_nil]
    rw [toNat_word (by omega)]
    omega

theorem two_freed_coalesced : ∃ (σ : Session) (p q : Word), σ.live p = some 16 ∧
    σ.live q = some 16 ∧ p ≠ q ∧ (∃ n, WellFormed (kfree σ.heap p) n ∧ ∀ i < n,
      ¬((header (kfree σ.heap p) i).flags = kmemFree ∧ (header (kfree σ.heap p) (i + 1)).flags = kmemFree)) ∧
    WellFormed (kfree (kfree σ.heap p) q) 1 ∧ (header (kfree (kfree σ.heap p) q) 0).flags = kmemFree ∧
    (header (kfree (kfree σ.heap p) q) 0).size.toNat + 32 = (kfree (kfree σ.heap p) q).totalLength.toNat := by
  obtain ⟨σ, p, q, L, ⟨m, es, hrun⟩, hpq, hp, hq, hrest, -⟩ := two_windowed
  have hlive : (σ.live p).isSome := by rw [hp]; rfl
  have hlive' : (Function.update σ.live p none q).isSome := by
    rw [Function.update_of_ne hpq.symm, hq]
    rfl
  have hfirst := hrun.snoc (.kfree hlive)
  obtain ⟨n, hwell, hfree, -⟩ := reachable_coalesced ⟨m, _, hfirst⟩
  obtain ⟨_, hwell', -, hsingle⟩ := reachable_coalesced ⟨m, _, hfirst.snoc (.kfree hlive')⟩
  obtain ⟨rfl, hflags, hsize⟩ := hsingle fun x => by
    by_cases hxq : x = q
    · rw [hxq]
      exact Function.update_self ..
    · by_cases hxp : x = p
      · simp only [hxp, Function.update_of_ne hpq, Function.update_self]
      · simp only [Function.update_of_ne hxq, Function.update_of_ne hxp, hrest x hxp hxq]
  exact ⟨σ, p, q, hp, hq, hpq, ⟨n, hwell, hfree⟩, hwell', hflags, hsize⟩

theorem tailPrev_free (h : Represents s L) :
    (kmemptr s.mem (kmemptr s.mem s.tail).prev).flags = kmemFree ∧
      16 ≤ (kmemptr s.mem (kmemptr s.mem s.tail).prev).size.toNat := by
  obtain ⟨l, c, hl, hc, h16⟩ := L.spare
  have hbound := h.cell_bound hl
  rw [last_header h hl]
  refine ⟨flagOf_free hc, ?_⟩
  rw [cellHeader, toNat_word (by omega)]
  exact h16

theorem morecore_tailPrev_free (h : Represents s L) (hroom : heapBase + L.length + 4096 ≤ 0xFFC00000) :
    let m := P.allocMapPage (0xD0000000 + s.totalLength) 0x3 s.mem
    (kmemptr m (kmemptr m s.tail).prev).flags = kmemFree := by
  obtain ⟨l, c, hl, hc, -⟩ := L.spare
  have hlen := length_of_snoc hl
  have hchain := hl ▸ h.chain
  have htail := hchain.tail_header
  have hcell := hchain.header_at
  rw [lastStart_snoc] at htail
  have hext : extent 16 (l ++ [c]) = extent 16 l + 16 + c.size := by
    simp only [extent_append, extent_cons, extent_nil]; omega
  intro m
  have hm {y : ℕ} (hy : heapBase ≤ y) (hy' : y + 16 ≤ heapBase + L.length) :
      kmemptr m (word y) = kmemptr s.mem (word y) := allocMapPage_header h hroom 0x3 hy hy'
  rw [h.tail, hl, hm (by omega) (by omega), htail, tailHeader]
  simp only
  rw [hm (by omega) (by omega), hcell]
  exact flagOf_free hc

/-- The block before the tail is free, so that no call of `kmalloc` and no page of growth takes the
branches for a used one. -/
theorem reachable_tailPrev_free (h : Reachable P Windowed σ) :
    ((kmemptr σ.heap.mem (kmemptr σ.heap.mem σ.heap.tail).prev).flags = kmemFree ∧
      16 ≤ (kmemptr σ.heap.mem (kmemptr σ.heap.mem σ.heap.tail).prev).size.toNat) ∧
    ∀ n u, NoWrap n → Visits (kmallocTurn P (alignBlock n)) (σ.heap, σ.heap.firstFree) u → InWindow u.1 →
      AtTail u → (kmemptr u.1.mem (kmemptr u.1.mem u.2).prev).flags = kmemFree ∧
        ∀ j, InWindow ((morecorePage P)^[j + 1] u.1) →
          let v := (morecorePage P)^[j] u.1
          let m := P.allocMapPage (0xD0000000 + v.totalLength) 0x3 v.mem
          (kmemptr m (kmemptr m v.tail).prev).flags = kmemFree := by
  obtain ⟨L, hL⟩ := h.sane.held
  refine ⟨tailPrev_free hL.heap, ?_⟩
  rintro n ⟨u, x⟩ hw hv hwin htail
  obtain ⟨M, l, r, -, hrep, -, hl, rfl, -⟩ := kmalloc_scanning hL.heap hw hv (Or.inr hwin.not_past)
  obtain ⟨-, rfl⟩ := (atTail_iff hrep hl).mp htail
  rw [List.append_nil] at hl
  subst hl
  refine ⟨?_, fun j hj => ?_⟩
  · have := (tailPrev_free hrep).1
    rwa [hrep.tail] at this
  · have hroom : heapBase + M.length + (j + 1) * 4096 ≤ 0xFFC00000 := by
      by_contra hover
      exact hj.not_past (morecore_past_window hrep (by omega))
    have hpage : heapBase + (M.grow j).length + 4096 ≤ 0xFFC00000 := by rw [length_grow]; omega
    have hj' : heapBase + M.length + j * 4096 ≤ 0xFFC00000 :=
      le_trans (Nat.add_le_add_left (Nat.mul_le_mul_right 4096 (Nat.le_succ j)) _) hroom
    exact morecore_tailPrev_free (morecore_represents (P := P) hrep j hj').1 hpage

theorem alloc_tailPrev_free : ∃ σ : Session, ∃ p, σ.live p = some 16 ∧
    (kmemptr σ.heap.mem (kmemptr σ.heap.mem σ.heap.tail).prev).flags = kmemFree := by
  obtain ⟨σ, p, h, hp⟩ := alloc_reachable Windowed fun _ => windowed_16
  exact ⟨σ, p, hp, (reachable_tailPrev_free h).1.1⟩

end Rinix.Heap
