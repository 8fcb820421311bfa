import Rinix.Heap.FirstFit

namespace Rinix.Heap

open ByteMemory Tiling WhileLoop Runs

def SameChain (s u : Kmem) : Prop :=
  ∃ N, WellFormed s N ∧ WellFormed u N ∧ ∀ i ≤ N, block u i = block s i ∧ header u i = header s i

structure Enlarged (k N : ℕ) (s u : Kmem) : Prop where
  before : WellFormed s (N + 1)
  after : WellFormed u (N + 1)
  blocks : ∀ i ≤ N, block u i = block s i
  headers : ∀ i < N, header u i = header s i
  free : (header s N).flags = kmemFree
  last : header u N = { header s N with size := (header s N).size + word (0x1000 * k), next := u.tail }
  tail : u.tail = s.tail + word (0x1000 * k)
  tailHeader : header u (N + 1) = { header s (N + 1) with next := u.tail }

variable {P : PageMap} {s t u : Kmem} {σ : Session} {L M : Layout} {l r : List Block} {c : Block}
  {n p q : Word} {i k : ℕ} {ps qs : List Word}

theorem Layout.eq_of_owned (howned : owned 16 heapBase L.cells = owned 16 heapBase M.cells)
    (hlen : L.length = M.length) : L = M := by
  rw [Layout.length, Layout.length] at hlen
  exact Layout.ext (settled_unique 16 (by omega) L.settled M.settled howned (by omega))

theorem same_cell (h : Represents s L) (h' : Represents u L) (hi : i < L.cells.length) :
    block u i = block s i ∧ header u i = header s i := by
  obtain ⟨l, c, r, hc, rfl⟩ := split_at hi
  rw [block_at h hc, block_at h' hc, header_cell h hc, header_cell h' hc]
  exact ⟨rfl, rfl⟩

theorem sameChain (h : Represents s L) (h' : Represents u L) : SameChain s u := by
  refine ⟨_, h.wellFormed, h'.wellFormed, fun i hi => ?_⟩
  rcases Nat.lt_or_eq_of_le hi with hi | rfl
  · exact same_cell h h' hi
  · rw [h.wellFormed.ends, h'.wellFormed.ends, header_tail h, header_tail h', h.tail, h'.tail]
    exact ⟨rfl, rfl⟩

theorem Taken.undone (ht : Taken n M t p) : Represents (kfree t p) M := by
  obtain ⟨l, c, r, hc, ho, hfit, -, rfl, hrep⟩ := ht
  have hcells := M.take_cells hc ho (aligned_mod n) (le_aligned n) hfit
  have hlen := length_take hc ho (aligned_mod n) (le_aligned n) hfit
  obtain ⟨hfreed, -⟩ := kfree_represents hrep hcells rfl
  have howned : owned 16 heapBase (Layout.release _ hcells).cells = owned 16 heapBase M.cells := by
    rw [Layout.release_cells, owned_coalesce, hc, owned_append, owned_append]
    simp only [owned, ho, Option.isSome_none, Bool.false_eq_true, ↓reduceIte]
    rw [show heapBase + extent 16 l + 16 + aligned n + 16 + (c.size - (aligned n + 16)) =
      heapBase + extent 16 l + 16 + c.size by omega]
  rwa [Layout.eq_of_owned howned ((length_release hcells).trans hlen)] at hfreed

theorem enlarged (h : Represents s L) (h' : Represents u (L.grow k)) : ∃ N, Enlarged k N s u := by
  obtain ⟨l, c, hl, hc, -⟩ := L.spare
  have hgrown : (L.grow k).cells = l ++ [⟨c.size + k * 4096, c.owner⟩] := by
    rw [L.grow_cells, hl, growLast_snoc]
  have hN : L.cells.length = l.length + 1 := by rw [hl, List.length_append, List.length_singleton]
  have hN' : (L.grow k).cells.length = l.length + 1 := by
    rw [hgrown, List.length_append, List.length_singleton]
  have htail : u.tail = s.tail + word (0x1000 * k) := by
    rw [h.tail, h'.tail, hl, hgrown, word_add]
    simp only [extent_append, extent_cons, extent_nil]
    exact congrArg word (by omega)
  have hs := h.wellFormed
  have hu := h'.wellFormed
  rw [hN] at hs
  rw [hN'] at hu
  refine ⟨l.length, hs, hu, fun i hi => ?_, fun i hi => ?_, ?_, ?_, htail, ?_⟩
  · have hsplit : l = l.take i ++ l.drop i := (List.take_append_drop i l).symm
    have hi' : (l.take i).length = i := by rw [List.length_take]; omega
    have hb := block_at h (l := l.take i) (r := l.drop i ++ [c]) (by rw [hl, ← List.append_assoc, ← hsplit])
    have hb' := block_at h' (l := l.take i) (r := l.drop i ++ [⟨c.size + k * 4096, c.owner⟩])
      (by rw [hgrown, ← List.append_assoc, ← hsplit])
    rw [hi'] at hb hb'
    rw [hb, hb']
  · obtain ⟨l1, d, l2, rfl, rfl⟩ : ∃ l1 d l2, l = l1 ++ d :: l2 ∧ l1.length = i :=
      ⟨l.take i, l[i], l.drop (i + 1), by simp, by rw [List.length_take]; omega⟩
    rw [List.append_assoc] at hl hgrown
    rw [header_cell h hl, header_cell h' hgrown]
  · rw [flags_cell h hl]
    exact flagOf_free hc
  · rw [header_cell h hl, header_cell h' hgrown, htail, h.tail, hl]
    simp only [cellHeader, flagOf, extent_append, extent_cons, extent_nil, word_add,
      Kmemptr.mk.injEq, true_and, and_true]
    exact ⟨congrArg word (by omega), congrArg word (by omega)⟩
  · have hhead := header_tail h
    have hhead' := header_tail h'
    rw [hN] at hhead
    rw [hN'] at hhead'
    rw [hhead, hhead', h'.tail, hl, hgrown]
    simp only [lastStart_snoc, tailHeader]

theorem kfree_undoes (h : Reachable P Windowed σ) (hok : Windowed σ.heap n t)
    (hr : KmallocReturns P σ.heap n t p)
    (hp : p ≠ 0) : ∃ k, t.totalLength.toNat = σ.heap.totalLength.toNat + 0x1000 * k ∧
      (∃ N, Enlarged k N σ.heap (kfree t p)) ∧ (k = 0 → SameChain σ.heap (kfree t p)) := by
  obtain ⟨L, hL⟩ := h.sane.held
  obtain ⟨M, hgrown, -, ⟨hnull, -⟩ | ht⟩ := kmalloc_served hL.heap hok.1 hr (Or.inr hok.sane.2)
  · exact absurd hnull hp
  · obtain ⟨k, rfl, -⟩ := hgrown.pages
    have hfreed := ht.undone
    refine ⟨k, ?_, enlarged hL.heap hfreed, ?_⟩
    · obtain ⟨l, c, r, hc, ho, hfit, -, -, hrep⟩ := ht
      rw [totalLength_eq hrep, totalLength_eq hL.heap, length_take, length_grow, Nat.mul_comm 0x1000]
    · rintro rfl
      rw [grow_zero] at hfreed
      exact sameChain hL.heap hfreed

theorem kfree_undoes_first : ∃ t p k, KmallocReturns zeroPages (kmemInit zeroPages fun _ => 0) 16 t p ∧
    t.totalLength.toNat = (0x1000 : Word).toNat + 0x1000 * k ∧
    (k = 0 → SameChain (kmemInit zeroPages fun _ => 0) (kfree t p)) := by
  obtain ⟨t, ht, hpages⟩ := init_serves zeroPages (fun _ => 0) 16 (by decide)
  have hp : word (heapBase + 16) ≠ 0 := by rw [heapBase_eq]; decide
  obtain ⟨k, hk, -, hsame⟩ := kfree_undoes (σ := Session.start zeroPages fun _ => 0) ⟨_, _, .nil _⟩
    (windowed_16 hpages) ht hp
  exact ⟨t, _, k, ht, hk, hsame⟩

theorem run_kfree (h : Held σ L) (hps : ps.Nodup) (hlive : ∀ p ∈ ps, (σ.live p).isSome) :
    ∃ M, Represents (ps.foldl kfree σ.heap) M ∧ M.length = L.length ∧
      owned 16 heapBase M.cells = (owned 16 heapBase L.cells).filter fun x => word (x.1 + 16) ∉ ps := by
  induction ps generalizing σ L with
  | nil => exact ⟨L, h.heap, rfl, by simp⟩
  | cons p ps ih =>
    obtain ⟨hp, hps'⟩ := List.nodup_cons.mp hps
    obtain ⟨-, L', hlen, howned, hheld⟩ := h.after_kfree (hlive p List.mem_cons_self)
    have hlive' (q : Word) (hq : q ∈ ps) : (Function.update σ.live p none q).isSome := by
      rw [Function.update_of_ne (by rintro rfl; exact hp hq)]
      exact hlive q (List.mem_cons_of_mem p hq)
    obtain ⟨M, hM, hlenM, hownedM⟩ := ih hheld hps' hlive'
    refine ⟨M, hM, hlenM.trans hlen, ?_⟩
    rw [hownedM, howned, List.filter_filter]
    apply List.filter_congr
    intro x _
    simp only [List.mem_cons, not_or, Bool.decide_and, Bool.and_comm, ne_eq]

theorem frees_order (h : Held σ L) (hps : ps.Nodup) (hlive : ∀ p ∈ ps, (σ.live p).isSome) (hqs : ps.Perm qs) :
    SameChain (ps.foldl kfree σ.heap) (qs.foldl kfree σ.heap) := by
  obtain ⟨M, hM, hlen, howned⟩ := run_kfree h hps hlive
  obtain ⟨M', hM', hlen', howned'⟩ := run_kfree h (hqs.nodup_iff.mp hps) fun q hq =>
    hlive q (hqs.mem_iff.mpr hq)
  have hsame : owned 16 heapBase M'.cells = owned 16 heapBase M.cells := by
    rw [howned, howned']
    apply List.filter_congr
    intro x _
    simp only [hqs.mem_iff]
  rw [Layout.eq_of_owned hsame (hlen'.trans hlen.symm)] at hM'
  exact sameChain hM hM'

theorem frees_commute (h : Reachable P Windowed σ) :
    (∀ p q, p ≠ q → (σ.live p).isSome → (σ.live q).isSome →
      SameChain (kfree (kfree σ.heap p) q) (kfree (kfree σ.heap q) p)) ∧
    ∀ ps qs : List Word, ps.Nodup → (∀ p ∈ ps, (σ.live p).isSome) → ps.Perm qs →
      SameChain (ps.foldl kfree σ.heap) (qs.foldl kfree σ.heap) := by
  obtain ⟨L, hL⟩ := h.sane.held
  refine ⟨fun p q hpq hp hq => ?_, fun ps qs hps hlive hqs => frees_order hL hps hlive hqs⟩
  refine frees_order hL (show [p, q].Nodup by simpa using hpq) ?_ (show [p, q].Perm [q, p] from .swap q p [])
  intro x hx
  simp only [List.mem_cons, List.not_mem_nil, or_false] at hx
  rcases hx with rfl | rfl
  · exact hp
  · exact hq

theorem two_frees_commute : ∃ σ : Session, ∃ p q, p ≠ q ∧ σ.live p = some 16 ∧ σ.live q = some 16 ∧
    SameChain (kfree (kfree σ.heap p) q) (kfree (kfree σ.heap q) p) := by
  obtain ⟨σ, p, q, L, h, hpq, hp, hq, -⟩ := two_windowed
  exact ⟨σ, p, q, hpq, hp, hq, (frees_commute h).1 p q hpq (by rw [hp]; rfl) (by rw [hq]; rfl)⟩

end Rinix.Heap
