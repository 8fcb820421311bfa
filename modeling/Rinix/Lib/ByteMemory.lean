import Mathlib.Data.Nat.Notation
import Mathlib.Tactic.Common

namespace ByteMemory

abbrev Byte := BitVec 8
abbrev Word := BitVec 32

/-- A flat 32-bit address space. Addresses wrap, as pointers do. -/
abbrev Mem := Word → Byte

def word (n : ℕ) : Word := BitVec.ofNat 32 n

def byteOf (v : Word) (i : ℕ) : Byte := v.extractLsb' (8 * i) 8

def load (m : Mem) (a : Word) : Word := (m (a + 3) ++ m (a + 2)) ++ (m (a + 1) ++ m a)

def store (m : Mem) (a v : Word) : Mem :=
  fun x => if (x - a).toNat < 4 then byteOf v (x - a).toNat else m x

def storeByte (m : Mem) (a : Word) (b : Byte) : Mem := fun x => if x = a then b else m x

theorem store_miss {m : Mem} {a v x : Word} (h : 4 ≤ (x - a).toNat) : store m a v x = m x := by
  simp only [store, if_neg (Nat.not_lt.mpr h)]

theorem storeByte_miss {m : Mem} {a x : Word} {b : Byte} (h : x ≠ a) : storeByte m a b x = m x := by
  simp only [storeByte, if_neg h]

theorem store_offset (m : Mem) (a v : Word) (i : ℕ) (hi : i < 4) :
    store m a v (a + word i) = byteOf v i := by
  have h : (a + word i - a).toNat = i := by
    simp only [word]
    rw [show a + BitVec.ofNat 32 i - a = BitVec.ofNat 32 i by grind]
    simp only [BitVec.toNat_ofNat]
    omega
  simp only [store, h, if_pos hi]

theorem byteOf_append (v : Word) :
    (byteOf v 3 ++ byteOf v 2) ++ (byteOf v 1 ++ byteOf v 0) = v := by
  apply BitVec.eq_of_getLsbD_eq
  intro i hi
  simp only [byteOf, BitVec.getLsbD_append, BitVec.getLsbD_extractLsb']
  grind

theorem load_store (m : Mem) (a v : Word) : load (store m a v) a = v := by
  have h (i : ℕ) (hi : i < 4) := store_offset m a v i hi
  have h0 := h 0 (by omega)
  have h1 := h 1 (by omega)
  have h2 := h 2 (by omega)
  have h3 := h 3 (by omega)
  simp only [word, BitVec.add_zero] at h0 h1 h2 h3
  simp only [load]
  rw [show a + 3 = a + BitVec.ofNat 32 3 from rfl, show a + 2 = a + BitVec.ofNat 32 2 from rfl,
    show a + 1 = a + BitVec.ofNat 32 1 from rfl, h0, h1, h2, h3]
  exact byteOf_append v

theorem load_congr {m m' : Mem} {a : Word} (h : ∀ x : Word, (x - a).toNat < 4 → m' x = m x) :
    load m' a = load m a := by
  have h' (i : ℕ) (hi : i < 4) : m' (a + word i) = m (a + word i) := by
    apply h
    rw [show a + word i - a = word i by grind]
    simp only [word, BitVec.toNat_ofNat]
    omega
  have h0 := h' 0 (by omega)
  simp only [word, BitVec.add_zero] at h0
  simp only [load, h0]
  rw [show a + 3 = a + word 3 from rfl, show a + 2 = a + word 2 from rfl,
    show a + 1 = a + word 1 from rfl, h' 3 (by omega), h' 2 (by omega), h' 1 (by omega)]

theorem byteOf_load (m : Mem) (a : Word) {i : ℕ} (hi : i < 4) : byteOf (load m a) i = m (a + word i) := by
  have hzero : a + word 0 = a := by simp [word]
  have h1 : a + word 1 = a + 1 := rfl
  have h2 : a + word 2 = a + 2 := rfl
  have h3 : a + word 3 = a + 3 := rfl
  apply BitVec.eq_of_getLsbD_eq
  intro k hk
  simp only [byteOf, load, BitVec.getLsbD_extractLsb', BitVec.getLsbD_append]
  obtain rfl | rfl | rfl | rfl : i = 0 ∨ i = 1 ∨ i = 2 ∨ i = 3 := by omega
  · rw [hzero]
    grind
  · rw [h1]
    grind
  · rw [h2]
    grind
  · rw [h3]
    grind

theorem load_store_miss {m : Mem} {a b v : Word} (h : 4 ≤ (b - a).toNat) (h' : 4 ≤ (a - b).toNat) :
    load (store m a v) b = load m b := by
  apply load_congr
  intro x hx
  apply store_miss
  bv_omega

theorem load_storeByte_miss {m : Mem} {a b : Word} {v : Byte} (h : 4 ≤ (a - b).toNat) :
    load (storeByte m a v) b = load m b := by
  apply load_congr
  intro x hx
  apply storeByte_miss
  rintro rfl
  omega

theorem word_toNat (v : Word) : word v.toNat = v := by simp [word]

theorem toNat_word {n : ℕ} (h : n < 4294967296) : (word n).toNat = n := by
  simp only [word, BitVec.toNat_ofNat]
  omega

theorem toNat_word_mod (n : ℕ) : (word n).toNat = n % 4294967296 := by
  simp only [word, BitVec.toNat_ofNat]

theorem word_add (a b : ℕ) : word a + word b = word (a + b) := BitVec.ofNat_add_ofNat a b

theorem word_sub {a b : ℕ} (h : b ≤ a) : word a - word b = word (a - b) := by
  apply BitVec.eq_of_toNat_eq
  simp only [BitVec.toNat_sub, toNat_word_mod]
  omega

theorem word_mul (a b : ℕ) : word a * word b = word (a * b) := BitVec.ofNat_mul_ofNat a b

theorem eq_offset {a x : Word} {i : ℕ} (hi : i < 4294967296) : x = a + word i ↔ (x - a).toNat = i := by
  constructor
  · rintro rfl
    rw [show a + word i - a = word i by grind, toNat_word hi]
  · intro h
    rw [← h, word_toNat]
    grind

theorem word_lt {a b : ℕ} (ha : a < 4294967296) (hb : b < 4294967296) : word a < word b ↔ a < b := by
  rw [BitVec.lt_def, toNat_word ha, toNat_word hb]

theorem word_slt {a b : ℕ} (ha : a < 2147483648) (hb : b < 2147483648) :
    (word a).slt (word b) = true ↔ a < b := by
  rw [BitVec.slt_iff_toInt_lt, BitVec.toInt_eq_toNat_of_lt, BitVec.toInt_eq_toNat_of_lt,
    toNat_word (by omega), toNat_word (by omega)]
  · omega
  · rw [toNat_word (by omega)]
    omega
  · rw [toNat_word (by omega)]
    omega

theorem word_inj {a b : ℕ} (ha : a < 4294967296) (hb : b < 4294967296) : word a = word b ↔ a = b := by
  rw [← BitVec.toNat_inj, toNat_word ha, toNat_word hb]

theorem load_inj {m m' : Mem} {a x : Word} (h : load m' a = load m a) (hx : (x - a).toNat < 4) :
    m' x = m x := by
  have hplace : x = a + word (x - a).toNat := (eq_offset (by omega)).mpr rfl
  rw [hplace, ← byteOf_load m' a hx, h, byteOf_load m a hx]

end ByteMemory
