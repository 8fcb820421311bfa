import Rinix.Heap.Kmem

namespace Rinix.Heap

open ByteMemory

theorem kmemptr_setPrev (m : Mem) (a v : Word) :
    kmemptr (setPrev m a v) a = { kmemptr m a with prev := v } := by
  simp only [kmemptr, setPrev, load_store]
  rw [load_store_miss (by bv_omega) (by bv_omega), load_store_miss (by bv_omega) (by bv_omega),
    store_miss (by bv_omega)]

theorem kmemptr_setNext (m : Mem) (a v : Word) :
    kmemptr (setNext m a v) a = { kmemptr m a with next := v } := by
  simp only [kmemptr, setNext, load_store]
  rw [load_store_miss (by bv_omega) (by bv_omega), load_store_miss (by bv_omega) (by bv_omega),
    store_miss (by bv_omega)]

theorem kmemptr_setSize (m : Mem) (a v : Word) :
    kmemptr (setSize m a v) a = { kmemptr m a with size := v } := by
  simp only [kmemptr, setSize, load_store]
  rw [load_store_miss (by bv_omega) (by bv_omega), load_store_miss (by bv_omega) (by bv_omega),
    store_miss (by bv_omega)]

theorem kmemptr_setFlags (m : Mem) (a : Word) (b : Byte) :
    kmemptr (setFlags m a b) a = { kmemptr m a with flags := b } := by
  simp only [kmemptr, setFlags]
  rw [load_storeByte_miss (by bv_omega), load_storeByte_miss (by bv_omega),
    load_storeByte_miss (by bv_omega)]
  simp [storeByte]

section Elsewhere

variable {m m' : Mem} {x y : ℕ} {v z : Word} {b : Byte}

theorem kmemptr_congr (hy : y + 16 ≤ 4294967296)
    (h : ∀ z : Word, y ≤ z.toNat → z.toNat < y + 16 → m' z = m z) :
    kmemptr m' (word y) = kmemptr m (word y) := by
  have hw : (word y).toNat = y := toNat_word (by omega)
  have h0 : load m' (word y) = load m (word y) :=
    load_congr fun z hz => h z (by bv_omega) (by bv_omega)
  have h4 : load m' (word y + 4) = load m (word y + 4) :=
    load_congr fun z hz => h z (by bv_omega) (by bv_omega)
  have h8 : load m' (word y + 8) = load m (word y + 8) :=
    load_congr fun z hz => h z (by bv_omega) (by bv_omega)
  have h12 : m' (word y + 12) = m (word y + 12) := h _ (by bv_omega) (by bv_omega)
  simp only [kmemptr, h0, h4, h8, h12]

theorem setPrev_off (hx : x + 16 ≤ 4294967296) (hz : z.toNat < x ∨ x + 16 ≤ z.toNat) :
    setPrev m (word x) v z = m z := by
  have hw : (word x).toNat = x := toNat_word (by omega)
  exact store_miss (by bv_omega)

theorem setNext_off (hx : x + 16 ≤ 4294967296) (hz : z.toNat < x ∨ x + 16 ≤ z.toNat) :
    setNext m (word x) v z = m z := by
  have hw : (word x).toNat = x := toNat_word (by omega)
  exact store_miss (by bv_omega)

theorem setSize_off (hx : x + 16 ≤ 4294967296) (hz : z.toNat < x ∨ x + 16 ≤ z.toNat) :
    setSize m (word x) v z = m z := by
  have hw : (word x).toNat = x := toNat_word (by omega)
  exact store_miss (by bv_omega)

theorem setFlags_off (hx : x + 16 ≤ 4294967296) (hz : z.toNat < x ∨ x + 16 ≤ z.toNat) :
    setFlags m (word x) b z = m z := by
  have hw : (word x).toNat = x := toNat_word (by omega)
  exact storeByte_miss (by rintro rfl; bv_omega)

theorem kmemptr_setPrev_ne (h : x + 16 ≤ y ∨ y + 16 ≤ x) (hx : x + 16 ≤ 4294967296)
    (hy : y + 16 ≤ 4294967296) : kmemptr (setPrev m (word x) v) (word y) = kmemptr m (word y) :=
  kmemptr_congr hy fun _ _ _ => setPrev_off hx (by omega)

theorem kmemptr_setNext_ne (h : x + 16 ≤ y ∨ y + 16 ≤ x) (hx : x + 16 ≤ 4294967296)
    (hy : y + 16 ≤ 4294967296) : kmemptr (setNext m (word x) v) (word y) = kmemptr m (word y) :=
  kmemptr_congr hy fun _ _ _ => setNext_off hx (by omega)

theorem kmemptr_setSize_ne (h : x + 16 ≤ y ∨ y + 16 ≤ x) (hx : x + 16 ≤ 4294967296)
    (hy : y + 16 ≤ 4294967296) : kmemptr (setSize m (word x) v) (word y) = kmemptr m (word y) :=
  kmemptr_congr hy fun _ _ _ => setSize_off hx (by omega)

theorem kmemptr_setFlags_ne (h : x + 16 ≤ y ∨ y + 16 ≤ x) (hx : x + 16 ≤ 4294967296)
    (hy : y + 16 ≤ 4294967296) : kmemptr (setFlags m (word x) b) (word y) = kmemptr m (word y) :=
  kmemptr_congr hy fun _ _ _ => setFlags_off hx (by omega)

end Elsewhere

end Rinix.Heap
