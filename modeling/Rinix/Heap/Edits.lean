import Rinix.Heap.Chain

namespace Rinix.Heap

open ByteMemory Tiling

theorem sizeofKmemptr_eq : sizeofKmemptr = word 16 := rfl

theorem pageSize_eq : pageSize = word 4096 := rfl

variable {m : Mem} {p q a b x : ℕ} {l r cs : List Block} {c d : Block}

theorem chop_linked {y : ℕ} {B w z : Word} {f : Byte} (hx : kmemptr m (word x) = ⟨w, word q, z, f⟩)
    (hf : f ≠ kmemTail)
    (hy : word x + sizeofKmemptr + B = word y) (hqx : q = x ∨ q + 16 ≤ x ∨ x + 16 ≤ q)
    (hyx : y = x ∨ y + 16 ≤ x ∨ x + 16 ≤ y) (hx' : x + 16 ≤ 4294967296) (hy' : y + 16 ≤ 4294967296)
    (hq' : q + 16 ≤ 4294967296) : chop B m (word x) =
      setFlags (setFlags (setNext (setSize
        (setNext (setPrev (setSize (setPrev m (word q) (word y))
          (word y) (z - (B + sizeofKmemptr))) (word y) (word x)) (word y) (word q))
        (word x) B) (word x) (word y)) (word x) kmemUsed) (word y) kmemFree := by
  have hnext : kmemptrNext m (word x) = word q := by
    simp only [kmemptrNext, hx, ne_eq, hf, not_false_eq_true, ↓reduceIte]
  have hprev : (kmemptr (setPrev m (word q) (word y)) (word x)).size = z ∧
      (kmemptr (setPrev m (word q) (word y)) (word x)).next = word q := by
    rcases hqx with rfl | hqx
    · rw [kmemptr_setPrev, hx]
      exact ⟨rfl, rfl⟩
    · rw [kmemptr_setPrev_ne hqx hq' hx', hx]
      exact ⟨rfl, rfl⟩
  have hnew {m' : Mem} (hm : (kmemptr m' (word x)).next = word q) (v v' : Word) :
      (kmemptr (setPrev (setSize m' (word y) v) (word y) v') (word x)).next = word q := by
    rcases hyx with rfl | hyx
    · rw [kmemptr_setPrev, kmemptr_setSize]
      exact hm
    · rw [kmemptr_setPrev_ne hyx hy' hx', kmemptr_setSize_ne hyx hy' hx']
      exact hm
  simp only [chop, hy, hnext, hprev.1, hnew hprev.2]
  rfl

theorem chop_eq (hc : kmemptr m (word x) = cellHeader q x c) (hb : b + 16 < c.size)
    (hx : x + 16 + c.size + 16 ≤ 4294967296) :
    chop (word b) m (word x) =
      setFlags (setFlags (setNext (setSize
        (setNext (setPrev (setSize (setPrev m (word (x + 16 + c.size)) (word (x + 16 + b)))
          (word (x + 16 + b)) (word (c.size - (b + 16)))) (word (x + 16 + b)) (word x))
          (word (x + 16 + b)) (word (x + 16 + c.size)))
        (word x) (word b)) (word x) (word (x + 16 + b))) (word x) kmemUsed) (word (x + 16 + b)) kmemFree := by
  have hn : word x + sizeofKmemptr + word b = word (x + 16 + b) := by
    rw [sizeofKmemptr_eq, word_add, word_add]
  have hs : word c.size - (word b + sizeofKmemptr) = word (c.size - (b + 16)) := by
    rw [sizeofKmemptr_eq, word_add, word_sub (by omega)]
  rw [chop_linked hc (flagOf_ne_tail c) hn (by omega) (by omega) (by omega) (by omega) (by omega), hs]

theorem chop_off {z : Word} (hc : kmemptr m (word x) = cellHeader q x c) (hb : b + 16 < c.size)
    (hx : x + 16 + c.size + 16 ≤ 4294967296) (h1 : z.toNat < x ∨ x + 16 ≤ z.toNat)
    (h2 : z.toNat < x + 16 + b ∨ x + 16 + b + 16 ≤ z.toNat)
    (h3 : z.toNat < x + 16 + c.size ∨ x + 16 + c.size + 16 ≤ z.toNat) :
    chop (word b) m (word x) z = m z := by
  rw [chop_eq hc hb hx]
  simp (disch := omega) only [setPrev_off, setNext_off, setSize_off, setFlags_off]

theorem chop_chain (o : Word) (h : Chain m q x (c :: r)) (hb : b + 16 < c.size)
    (hx : x + extent 16 (c :: r) + 16 ≤ 4294967296) :
    Chain (chop (word b) m (word x)) q x (⟨b, some o⟩ :: ⟨c.size - (b + 16), none⟩ :: r) := by
  obtain ⟨hc, hr⟩ := h
  simp only [extent_cons] at hx
  have hs : x + 16 + b + 16 + (c.size - (b + 16)) = x + 16 + c.size := by omega
  have hbound : x + 16 + c.size + 16 ≤ 4294967296 := by omega
  refine ⟨?_, ?_, hs ▸ hr.relink ?_ ?_⟩
  · rw [chop_eq hc hb hbound]
    simp (disch := omega) only [kmemptr_setPrev_ne, kmemptr_setSize_ne, kmemptr_setNext_ne,
      kmemptr_setFlags_ne, kmemptr_setFlags, kmemptr_setNext, kmemptr_setSize, hc]
    rfl
  · rw [chop_eq hc hb hbound]
    simp (disch := omega) only [kmemptr_setPrev_ne, kmemptr_setSize_ne, kmemptr_setNext_ne,
      kmemptr_setFlags_ne, kmemptr_setFlags, kmemptr_setNext, kmemptr_setPrev, kmemptr_setSize]
    simp only [cellHeader, hs]
    rfl
  · rw [chop_eq hc hb hbound]
    simp (disch := omega) only [kmemptr_setPrev_ne, kmemptr_setSize_ne, kmemptr_setNext_ne,
      kmemptr_setFlags_ne, kmemptr_setPrev]
  · intro y hy hy'
    exact kmemptr_congr (by omega) fun z _ _ => chop_off hc hb hbound (by omega) (by omega) (by omega)

theorem eatNext_eq (hc : kmemptr m (word x) = cellHeader q x c)
    (hd : kmemptr m (word (x + 16 + c.size)) = cellHeader x (x + 16 + c.size) d)
    (hx : x + 16 + c.size + 16 + d.size + 16 ≤ 4294967296) :
    eatNext m (word x) =
      setFlags (setNext (setSize (setPrev m (word (x + 16 + c.size + 16 + d.size)) (word x))
        (word x) (word (c.size + 16 + d.size))) (word x) (word (x + 16 + c.size + 16 + d.size)))
        (word x) kmemFree := by
  have hs : word c.size + (word d.size + sizeofKmemptr) = word (c.size + 16 + d.size) := by
    rw [sizeofKmemptr_eq, word_add, word_add, Nat.add_comm d.size, Nat.add_assoc]
  simp only [eatNext, kmemptrNext_of_cell hc, kmemptrNext_of_cell hd]
  simp (disch := omega) only [kmemptrNext, kmemptr_setPrev_ne, kmemptr_setSize_ne, kmemptr_setSize,
    hc, hd, cellHeader, hs, ne_eq, flagOf_ne_tail, not_false_eq_true, ↓reduceIte]

theorem eatNext_off {z : Word} (hc : kmemptr m (word x) = cellHeader q x c)
    (hd : kmemptr m (word (x + 16 + c.size)) = cellHeader x (x + 16 + c.size) d)
    (hx : x + 16 + c.size + 16 + d.size + 16 ≤ 4294967296) (h1 : z.toNat < x ∨ x + 16 ≤ z.toNat)
    (h2 : z.toNat < x + 16 + c.size + 16 + d.size ∨ x + 16 + c.size + 16 + d.size + 16 ≤ z.toNat) :
    eatNext m (word x) z = m z := by
  rw [eatNext_eq hc hd hx]
  simp (disch := omega) only [setPrev_off, setNext_off, setSize_off, setFlags_off]

theorem eatNext_chain (h : Chain m q x (c :: d :: r))
    (hx : x + extent 16 (c :: d :: r) + 16 ≤ 4294967296) :
    Chain (eatNext m (word x)) q x (⟨c.size + 16 + d.size, none⟩ :: r) := by
  obtain ⟨hc, hd, hr⟩ := h
  simp only [extent_cons] at hx
  have hs : x + 16 + (c.size + 16 + d.size) = x + 16 + c.size + 16 + d.size := by omega
  have hbound : x + 16 + c.size + 16 + d.size + 16 ≤ 4294967296 := by omega
  refine ⟨?_, hs ▸ hr.relink ?_ ?_⟩
  · rw [eatNext_eq hc hd hbound]
    simp (disch := omega) only [kmemptr_setFlags, kmemptr_setNext, kmemptr_setSize,
      kmemptr_setPrev_ne, hc, cellHeader, hs]
    rfl
  · rw [eatNext_eq hc hd hbound]
    simp (disch := omega) only [kmemptr_setFlags_ne, kmemptr_setNext_ne, kmemptr_setSize_ne,
      kmemptr_setPrev]
  · intro y hy hy'
    exact kmemptr_congr (by omega) fun z _ _ => eatNext_off hc hd hbound (by omega) (by omega)

theorem eatenByPrev_eq (hd : kmemptr m (word x) = cellHeader q x d)
    (hc : kmemptr m (word (x + 16 + d.size)) = cellHeader x (x + 16 + d.size) c)
    (hx : x + 16 + d.size + 16 + c.size + 16 ≤ 4294967296) :
    eatenByPrev m (word x) (word (x + 16 + d.size)) =
      setNext (setPrev (setSize m (word x) (word (d.size + 16 + c.size)))
        (word (x + 16 + d.size + 16 + c.size)) (word x))
        (word x) (word (x + 16 + d.size + 16 + c.size)) := by
  have hs : word d.size + (word c.size + sizeofKmemptr) = word (d.size + 16 + c.size) := by
    rw [sizeofKmemptr_eq, word_add, word_add, Nat.add_comm c.size, Nat.add_assoc]
  simp only [eatenByPrev]
  simp (disch := omega) only [kmemptrNext, kmemptr_setSize_ne, kmemptr_setPrev_ne,
    hc, hd, cellHeader, hs, ne_eq, flagOf_ne_tail, not_false_eq_true, ↓reduceIte]

theorem eatenByPrev_off {z : Word} (hd : kmemptr m (word x) = cellHeader q x d)
    (hc : kmemptr m (word (x + 16 + d.size)) = cellHeader x (x + 16 + d.size) c)
    (hx : x + 16 + d.size + 16 + c.size + 16 ≤ 4294967296) (h1 : z.toNat < x ∨ x + 16 ≤ z.toNat)
    (h2 : z.toNat < x + 16 + d.size + 16 + c.size ∨ x + 16 + d.size + 16 + c.size + 16 ≤ z.toNat) :
    eatenByPrev m (word x) (word (x + 16 + d.size)) z = m z := by
  rw [eatenByPrev_eq hd hc hx]
  simp (disch := omega) only [setPrev_off, setNext_off, setSize_off]

theorem eatenByPrev_chain (hfree : d.owner = none) (h : Chain m q x (d :: c :: r))
    (hx : x + extent 16 (d :: c :: r) + 16 ≤ 4294967296) :
    Chain (eatenByPrev m (word x) (word (x + 16 + d.size))) q x (⟨d.size + 16 + c.size, none⟩ :: r) := by
  obtain ⟨hd, hc, hr⟩ := h
  simp only [extent_cons] at hx
  have hs : x + 16 + (d.size + 16 + c.size) = x + 16 + d.size + 16 + c.size := by omega
  have hbound : x + 16 + d.size + 16 + c.size + 16 ≤ 4294967296 := by omega
  refine ⟨?_, hs ▸ hr.relink ?_ ?_⟩
  · rw [eatenByPrev_eq hd hc hbound]
    simp (disch := omega) only [kmemptr_setNext, kmemptr_setPrev_ne, kmemptr_setSize, hd, cellHeader, hs,
      flagOf_free hfree]
    rfl
  · rw [eatenByPrev_eq hd hc hbound]
    simp (disch := omega) only [kmemptr_setNext_ne, kmemptr_setPrev, kmemptr_setSize_ne]
  · intro y hy hy'
    exact kmemptr_congr (by omega) fun z _ _ => eatenByPrev_off hd hc hbound (by omega) (by omega)

theorem setFlags_chain (h : Chain m q x (c :: r)) (hx : x + extent 16 (c :: r) + 16 ≤ 4294967296) :
    Chain (setFlags m (word x) kmemFree) q x (⟨c.size, none⟩ :: r) := by
  obtain ⟨hc, hr⟩ := h
  simp only [extent_cons] at hx
  refine ⟨?_, hr.congr ?_⟩
  · rw [kmemptr_setFlags, hc]
    rfl
  · intro y hy hy'
    rw [kmemptr_setFlags_ne (by omega) (by omega) (by omega)]

end Rinix.Heap
