import Mathlib.Algebra.BigOperators.Group.Finset.Basic
import Rinix.Heap.Session

namespace Rinix.Heap

open ByteMemory Tiling WhileLoop Runs

def block (s : Kmem) (i : ℕ) : Word := (fun a => (kmemptr s.mem a).next)^[i] s.head

def header (s : Kmem) (i : ℕ) : Kmemptr := kmemptr s.mem (block s i)

def pageOf (z : Word) : Word := z - z % pageSize

structure WellFormed (s : Kmem) (n : ℕ) : Prop where
  start : s.head = kernelHeapStart
  ends : block s n = s.tail
  tail : (header s n).flags = kmemTail
  flags : ∀ i < n, (header s i).flags = kmemFree ∨ (header s i).flags = kmemUsed
  next : ∀ i < n, (block s (i + 1)).toNat = (block s i).toNat + 16 + (header s i).size.toNat
  prev : ∀ i < n, (header s (i + 1)).prev = block s i
  headPrev : (header s 0).prev = s.head
  sizes : ∀ i ≤ n, (header s i).size.toNat % 16 = 0
  length : ∑ i ∈ Finset.range (n + 1), ((header s i).size.toNat + 16) = s.totalLength.toNat
  paged : ∀ i ≤ n, ∀ z : Word, (block s i).toNat ≤ z.toNat →
    z.toNat < (block s i).toNat + 16 + (header s i).size.toNat → pageOf z ∈ s.pages

variable {P : PageMap} {s t : Kmem} {σ τ : Session} {L M : Layout} {l r : List Block} {c : Block} {i n : ℕ}

theorem block_at (h : Represents s L) (hc : L.cells = l ++ r) :
    block s l.length = word (heapBase + extent 16 l) := by
  induction l using List.reverseRecOn generalizing r with
  | nil => exact h.head
  | append_singleton l c ih =>
    have hc' : L.cells = l ++ c :: r := by rw [hc]; simp
    have hchain := hc' ▸ h.chain
    have hcell := hchain.header_at
    have hl := ih hc'
    rw [List.length_append, List.length_singleton, block, Function.iterate_succ_apply']
    rw [block] at hl
    simp only [hl, hcell, cellHeader, extent_append, extent_cons, extent_nil]
    exact congrArg word (by omega)

theorem header_cell (h : Represents s L) (hc : L.cells = l ++ c :: r) :
    header s l.length = cellHeader (lastStart heapBase heapBase l) (heapBase + extent 16 l) c := by
  have hchain := hc ▸ h.chain
  have hcell := hchain.header_at
  rw [header, block_at h hc, hcell]

theorem header_tail (h : Represents s L) : header s L.cells.length =
    tailHeader (lastStart heapBase heapBase L.cells) (heapBase + extent 16 L.cells) := by
  rw [header, block_at h (List.append_nil _).symm, h.chain.tail_header]

theorem split_at (hi : i < L.cells.length) : ∃ l c r, L.cells = l ++ c :: r ∧ l.length = i :=
  ⟨L.cells.take i, L.cells[i], L.cells.drop (i + 1), by simp, by simp; omega⟩

theorem pageOf_mem (h : Represents s L) {z : Word} (hz : heapBase ≤ z.toNat)
    (hz' : z.toNat < heapBase + L.length) :
    pageOf z ∈ s.pages := by
  have hbase := heapBase_eq
  have hmod := L.length_mod
  have hpage : pageSize.toNat = 4096 := rfl
  refine (h.pages _).mpr ⟨(z.toNat - heapBase) / 4096, by omega, ?_⟩
  apply BitVec.eq_of_toNat_eq
  have := z.isLt
  rw [toNat_word (by omega), pageOf, BitVec.toNat_sub, BitVec.toNat_umod, hpage]
  omega

theorem sizes_sum (h : Represents s L) (hc : L.cells = l ++ r) :
    ∑ i ∈ Finset.range l.length, ((header s i).size.toNat + 16) = extent 16 l := by
  induction l using List.reverseRecOn generalizing r with
  | nil => simp
  | append_singleton l c ih =>
    have hc' : L.cells = l ++ c :: r := by rw [hc]; simp
    have hbound := h.cell_bound hc'
    have hsize : (header s l.length).size.toNat = c.size := by
      rw [header_cell h hc']
      exact toNat_word (by omega)
    rw [List.length_append, List.length_singleton, Finset.sum_range_succ, ih hc', hsize]
    simp only [extent_append, extent_cons, extent_nil]
    omega

theorem cell_at (h : Represents s L) (hi : i < L.cells.length) :
    ∃ l c r, L.cells = l ++ c :: r ∧ l.length = i ∧ (block s i).toNat = heapBase + extent 16 l ∧
      (header s i).size.toNat = c.size ∧ (block s (i + 1)).toNat = heapBase + extent 16 l + 16 + c.size ∧
      heapBase + extent 16 l + 16 + c.size + 16 ≤ heapBase + L.length := by
  have hbase := heapBase_eq
  have hlen : L.length = extent 16 L.cells + 16 := by rw [Layout.length]
  obtain ⟨l, c, r, hc, rfl⟩ := split_at hi
  have hc' : L.cells = (l ++ [c]) ++ r := by rw [hc]; simp
  have hb := h.cell_bound hc
  have hext : extent 16 L.cells = extent 16 l + (16 + c.size + extent 16 r) := by
    rw [hc, extent_append, extent_cons]
  have hnext := block_at h hc'
  rw [List.length_append, List.length_singleton] at hnext
  refine ⟨l, c, r, hc, rfl, ?_, ?_, ?_, by omega⟩
  · rw [block_at h hc]; exact toNat_word (by omega)
  · rw [header_cell h hc]; exact toNat_word (by omega)
  · rw [hnext, extent_append, extent_cons, extent_nil, toNat_word (by omega)]
    omega

theorem flags_cell (h : Represents s L) (hc : L.cells = l ++ c :: r) :
    (header s l.length).flags = flagOf c := by
  rw [header_cell h hc]; rfl

theorem prev_cell (h : Represents s L) (hc : L.cells = l ++ c :: r) :
    (header s (l.length + 1)).prev = block s l.length := by
  have hc' : L.cells = (l ++ [c]) ++ r := by rw [hc]; simp
  have hprev := (chain_append.mp (hc' ▸ h.chain)).2.prev_head
  have hnext := block_at h hc'
  rw [List.length_append, List.length_singleton] at hnext
  rw [header, hnext, hprev, lastStart_snoc, block_at h hc]

theorem Represents.wellFormed (h : Represents s L) : WellFormed s L.cells.length := by
  have hbase := heapBase_eq
  have hbound := h.bound
  have hlen : L.length = extent 16 L.cells + 16 := by rw [Layout.length]
  have htail := header_tail h
  have hend := block_at h (List.append_nil L.cells).symm
  have htailSize : (header s L.cells.length).size.toNat = 0 := by rw [htail]; rfl
  refine ⟨?_, ?_, ?_, ?_, ?_, ?_, ?_, ?_, ?_, ?_⟩
  · rw [h.head]; exact word_heapBase
  · rw [hend, h.tail]
  · rw [htail]; rfl
  · intro i hi
    obtain ⟨l, c, r, hc, rfl, -⟩ := cell_at h hi
    rw [flags_cell h hc]
    by_cases ho : c.owner.isSome
    · exact Or.inr (flagOf_used ho)
    · exact Or.inl (flagOf_free (by simpa using ho))
  · intro i hi
    obtain ⟨l, c, r, hc, rfl, h1, h2, h3, -⟩ := cell_at h hi
    rw [h1, h2, h3]
  · intro i hi
    obtain ⟨l, c, r, hc, rfl, -⟩ := cell_at h hi
    exact prev_cell h hc
  · have hhead : block s 0 = word heapBase := h.head
    rw [header, hhead, h.chain.prev_head, h.head]
  · intro i hi
    rcases Nat.lt_or_eq_of_le hi with hi | rfl
    · obtain ⟨l, c, r, hc, rfl, -, h2, -⟩ := cell_at h hi
      rw [h2]
      exact (L.sized c (by simp [hc])).1
    · rw [htailSize]
  · rw [Finset.sum_range_succ, sizes_sum h (List.append_nil L.cells).symm, htailSize, h.total,
      toNat_word (by omega)]
    omega
  · intro i hi z hz hz'
    rcases Nat.lt_or_eq_of_le hi with hi | rfl
    · obtain ⟨l, c, r, hc, rfl, h1, h2, -, h4⟩ := cell_at h hi
      exact pageOf_mem h (by omega) (by omega)
    · rw [hend, toNat_word (by omega)] at hz hz'
      exact pageOf_mem h (by omega) (by omega)

/-- The representation invariant of the heap, in every state of a run inside the window. -/
theorem reachable_wellFormed (h : Reachable P Windowed σ) :
    (∃ n, WellFormed σ.heap n) ∧ (∀ p, (σ.live p).isSome → p.toNat % 16 = 0) ∧
      ∀ n p τ, Step P Windowed σ (.kmalloc n p) τ → p.toNat % 16 = 0 := by
  obtain ⟨L, hL⟩ := h.sane.held
  refine ⟨⟨_, hL.heap.wellFormed⟩, ?_, ?_⟩
  · intro p hp
    obtain ⟨n, hn⟩ := Option.isSome_iff_exists.mp hp
    exact hL.aligned hn
  · intro n p τ hstep
    rcases kmalloc_live hstep with rfl | hp
    · rfl
    · obtain ⟨M, hM⟩ := step_held hL (hstep.mono fun _ _ _ => Windowed.sane)
      exact hM.aligned hp

theorem alloc_wellFormed : ∃ σ : Session, ∃ p, σ.live p = some 16 ∧ (∃ n, WellFormed σ.heap n) ∧
    p.toNat % 16 = 0 := by
  obtain ⟨σ, p, h, hp⟩ := alloc_reachable Windowed fun _ => windowed_16
  have hwell := reachable_wellFormed h
  exact ⟨σ, p, hp, hwell.1, hwell.2.1 p (by rw [hp]; rfl)⟩

end Rinix.Heap
