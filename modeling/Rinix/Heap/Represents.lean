import Rinix.Heap.Layout

namespace Rinix.Heap

open ByteMemory Tiling

structure Represents (s : Kmem) (L : Layout) : Prop where
  head : s.head = word heapBase
  firstFree : s.firstFree = word heapBase
  tail : s.tail = word (heapBase + extent 16 L.cells)
  total : s.totalLength = word L.length
  chain : Chain s.mem heapBase heapBase L.cells
  pages : ∀ v, v ∈ s.pages ↔ ∃ k, k * 4096 < L.length ∧ v = word (heapBase + k * 4096)
  bound : heapBase + L.length ≤ 0xFFC00000

variable {a : ℕ} {l r cs : List Block} {z : Word}

def OffHeaders (a : ℕ) (cs : List Block) (z : Word) : Prop :=
  ∀ l r, cs = l ++ r → z.toNat < a + extent 16 l ∨ a + extent 16 l + 16 ≤ z.toNat

theorem OffHeaders.suffix (h : OffHeaders a (l ++ r) z) : OffHeaders (a + extent 16 l) r z := by
  rintro t u rfl
  have := h (l ++ t) u (List.append_assoc l t u).symm
  simp only [extent_append] at this
  omega

theorem OffHeaders.start (h : OffHeaders a cs z) :
    z.toNat < a ∨ a + 16 ≤ z.toNat := by
  simpa using h [] cs rfl

theorem OffHeaders.of_lt (hz : z.toNat < a) : OffHeaders a cs z := by
  rintro l r -
  left; omega

theorem owned_offHeaders {x : ℕ × Block} (hx : x ∈ owned 16 a cs) (hz : x.1 + 16 ≤ z.toNat)
    (hz' : z.toNat < x.1 + 16 + x.2.size) : OffHeaders a cs z := by
  obtain ⟨l, r, hl, -, hx⟩ := (mem_owned 16).mp hx
  rintro l' r' hl'
  cases r' with
  | nil =>
    rw [List.append_nil] at hl'
    subst hl'
    rw [hl, extent_append, extent_cons]
    omega
  | cons d r' =>
    rcases place_cases 16 (hl.symm.trans hl') with ⟨rfl, -, -⟩ | h | h
    · omega
    · omega
    · omega

def Kept (L : Layout) (m m' : Mem) : Prop :=
  ∀ x ∈ owned 16 heapBase L.cells, ∀ z : Word,
    x.1 + 16 ≤ z.toNat → z.toNat < x.1 + 16 + x.2.size → m' z = m z

theorem Kept.refl (L : Layout) (m : Mem) : Kept L m m := fun _ _ _ _ _ => rfl

theorem Kept.trans {L : Layout} {m m' m'' : Mem} (h : Kept L m m') (h' : Kept L m' m'') : Kept L m m'' :=
  fun x hx z hz hz' => (h' x hx z hz hz').trans (h x hx z hz hz')

variable {s : Kmem} {L : Layout}

theorem length_of_snoc {l : List Block} {c : Block} (hl : L.cells = l ++ [c]) :
    L.length = extent 16 l + 16 + c.size + 16 := by
  simp only [Layout.length, hl, extent_append, extent_cons, extent_nil]
  omega

theorem owned_below_last {l : List Block} {c : Block} (hl : L.cells = l ++ [c]) (hc : c.owner = none)
    {x : ℕ × Block} (hx : x ∈ owned 16 heapBase L.cells) :
    heapBase ≤ x.1 ∧ x.1 + 16 + x.2.size ≤ heapBase + extent 16 l := by
  rw [hl, owned_append] at hx
  simp only [owned, hc, Option.isSome_none, Bool.false_eq_true, ↓reduceIte, List.append_nil] at hx
  obtain ⟨l', r', rfl, -, ha⟩ := (mem_owned 16).mp hx
  simp only [extent_append, extent_cons]
  omega

theorem kmemInit_represents (P : PageMap) (m : Mem) : Represents (kmemInit P m) Layout.initial := by
  have hbase := heapBase_eq
  have hlen : Layout.initial.length = 4096 := by rw [Layout.length]; rfl
  have hhead : (0xD0000000 : Word) = word heapBase := word_heapBase.symm
  have htail : (0xD0001000 : Word) - sizeofKmemptr = word (heapBase + 16 + 0xFE0) := by rw [heapBase_eq]; rfl
  have hsize : (0x1000 : Word) - 2 * sizeofKmemptr = word 0xFE0 := rfl
  have hext : extent 16 Layout.initial.cells = 16 + 0xFE0 := rfl
  refine ⟨hhead, hhead, by rw [hext, ← Nat.add_assoc]; exact htail, by rw [hlen]; rfl, ?_, ?_, by omega⟩
  · simp only [kmemInit, hhead, htail, hsize, Layout.initial, Chain]
    constructor
    · simp (disch := omega) only [kmemptr_setNext_ne, kmemptr_setNext, kmemptr_setFlags_ne, kmemptr_setFlags,
        kmemptr_setSize_ne, kmemptr_setSize, kmemptr_setPrev_ne, kmemptr_setPrev]
      rfl
    · simp (disch := omega) only [kmemptr_setNext, kmemptr_setFlags, kmemptr_setSize, kmemptr_setPrev]
      rfl
  · intro v
    simp only [kmemInit, List.mem_singleton, hlen, hhead]
    constructor
    · rintro rfl; exact ⟨0, by omega, rfl⟩
    · rintro ⟨k, hk, rfl⟩
      rw [show k = 0 by omega]
      rfl

end Rinix.Heap
