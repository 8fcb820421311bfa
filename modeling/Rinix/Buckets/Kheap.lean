import Rinix.Heap.Kmem

/-!
`mm/kheap.c`: a heap of buckets, one for each size of object. The header of a bucket is at the end
of its page, the free slots before it.
-/

namespace Rinix.Buckets

open ByteMemory WhileLoop
open Heap (PageMap pageSize)

def sizeofBucketHeader : Word := 28

structure BucketHeader where
  objSize : Word
  left : Word
  right : Word
  maxCount : Word

def header (m : Mem) (p : Word) : BucketHeader := ⟨load m p, load m (p + 4), load m (p + 8), load m (p + 12)⟩

def setObjSize (m : Mem) (p v : Word) : Mem := store m p v
def setLeft (m : Mem) (p v : Word) : Mem := store m (p + 4) v
def setRight (m : Mem) (p v : Word) : Mem := store m (p + 8) v
def setMaxCount (m : Mem) (p v : Word) : Mem := store m (p + 12) v
def setFreeCount (m : Mem) (p v : Word) : Mem := store m (p + 16) v
def setFirstFree (m : Mem) (p v : Word) : Mem := store m (p + 20) v
def setNext (m : Mem) (p v : Word) : Mem := store m (p + 24) v

structure Kheap where
  kheap : Word
  kheapSize : Word
  mem : Mem

def kheapInit (m : Mem) : Kheap := ⟨0, 0, m⟩

def Kheap.thisPage (s : Kheap) : Word := 0xD0000000 + s.kheapSize

def linkSlots (m : Mem) (thisPage size maxCount : Word) : Mem :=
  upTo maxCount.toNat (fun m i => store m (thisPage + word i * size) (thisPage + (word i + 1) * size)) m

/-- The division by a size of 0 traps. -/
def createBucket (P : PageMap) (s : Kheap) (size : Word) : Option (Kheap × Word) :=
  let m := P.allocMapPage s.thisPage 0x3 s.mem -- PAGE_P | PAGE_S | PAGE_RW
  let bucket := s.thisPage + pageSize - sizeofBucketHeader
  let m := setObjSize m bucket size
  let m := setLeft m bucket 0
  let m := setRight m bucket 0
  if size = 0 then none
  else
    let m := setMaxCount m bucket ((pageSize - sizeofBucketHeader) / size)
    let m := setFreeCount m bucket (header m bucket).maxCount
    let m := linkSlots m s.thisPage size (header m bucket).maxCount
    let m := setFirstFree m bucket s.thisPage
    let m := setNext m bucket 0
    some ({ s with kheapSize := s.kheapSize + pageSize, mem := m }, bucket)

/-- The branch for a bucket of the right size is empty. -/
def searchTurn (m : Mem) (size : Word) : Word × Word → Turn (Word × Word) Word
  | (parent, node) =>
    if node ≠ 0 then
      if (header m node).objSize = size then .again (parent, node)
      else if size < (header m node).objSize then .again (node, (header m node).left)
      else .again (node, (header m node).right)
    else .exit parent

def hangBelow (m : Mem) (size parent : Word) : Kheap × Word → Kheap
  | (t, bucket) =>
    if (header m parent).objSize < size then { t with mem := setRight t.mem parent bucket }
    else { t with mem := setLeft t.mem parent bucket }

/-- The function has no `return`. -/
def kheapAlloc (P : PageMap) (s : Kheap) (size : Word) (fuel : ℕ) : Option Kheap :=
  (run (searchTurn s.mem size) fuel (s.kheap, s.kheap)).bind fun parent =>
    (createBucket P s size).map (hangBelow s.mem size parent)

def Within (p : Word) (lo hi : ℕ) (m m' : Mem) : Prop :=
  ∀ x, (x - p).toNat < lo ∨ hi ≤ (x - p).toNat → m' x = m x

variable {m m' m'' : Mem} {p v x size bucket : Word} {lo hi lo' hi' i j n : ℕ} {P : PageMap} {s t : Kheap}

theorem Within.refl (p : Word) (lo hi : ℕ) (m : Mem) : Within p lo hi m m := fun _ _ => rfl

theorem Within.mono (h : Within p lo hi m m') (hlo : lo' ≤ lo) (hhi : hi ≤ hi') : Within p lo' hi' m m' :=
  fun x hx => h x (by omega)

theorem Within.trans (h : Within p lo hi m m') (h' : Within p lo hi m' m'') : Within p lo hi m m'' :=
  fun x hx => (h' x hx).trans (h x hx)

theorem toNat_place (p : Word) (hi : i < 4294967296) : (p + word i - p).toNat = i := (eq_offset hi).mp rfl

theorem store_within (p v : Word) (m : Mem) (i : ℕ) (hi : i + 4 ≤ 4294967296) :
    Within p i (i + 4) m (store m (p + word i) v) := by
  intro x hx
  apply store_miss
  have hplace := toNat_place p (show i < 4294967296 by omega)
  bv_omega

theorem Within.load (h : Within p lo hi m m') (hj : j + 4 ≤ lo ∨ hi ≤ j) (hj' : j + 4 ≤ 4294967296) :
    load m' (p + word j) = load m (p + word j) := by
  apply load_congr
  intro x hx
  apply h
  have hplace := toNat_place p (show j < 4294967296 by omega)
  bv_omega

theorem two_stores (p v w : Word) (m : Mem) (i : ℕ) (hi : i + 8 ≤ 4294967296) :
    Within p i (i + 8) m (store (store m (p + word i) v) (p + word (i + 4)) w) :=
  ((store_within p v m i (by omega)).mono (Nat.le_refl i) (by omega)).trans
    ((store_within p w _ (i + 4) (by omega)).mono (by omega) (by omega))

theorem slot_place (p size : Word) (i : ℕ) : p + word i * size = p + word (i * size.toNat) := by
  rw [← word_mul, word_toNat]

theorem slots_within (m : Mem) (p size : Word) {maxCount : Word}
    (h : maxCount.toNat * size.toNat + 4 ≤ hi + size.toNat) (hhi : hi ≤ 4294967296) :
    Within p 0 hi m (linkSlots m p size maxCount) := by
  refine upTo_invariant (fun _ m' => Within p 0 hi m m') (fun i m' hi hm => hm.trans ?_) (Within.refl _ _ _ _)
  have hlast : (i + 1) * size.toNat ≤ maxCount.toNat * size.toNat := Nat.mul_le_mul_right _ hi
  rw [Nat.add_mul] at hlast
  rw [slot_place]
  exact (store_within p _ m' _ (by omega)).mono (Nat.zero_le _) (by omega)

def Kheap.newBucket (s : Kheap) : Word := s.thisPage + word 4068

def fill (m : Mem) (p size : Word) : Mem :=
  let m := store m (p + word 4068) size
  let m := store m (p + word 4072) 0
  let m := store m (p + word 4076) 0
  let m := store (store m (p + word 4080) (4068 / size)) (p + word 4084) (4068 / size)
  let m := linkSlots m p size (4068 / size)
  store (store m (p + word 4088) p) (p + word 4092) 0

structure Filled (m m' : Mem) (p size : Word) : Prop where
  outside : ∀ x, 4096 ≤ (x - p).toNat → m' x = m x
  left : load m' (p + word 4072) = 0
  right : load m' (p + word 4076) = 0
  objSize : 4 ≤ size.toNat → load m' (p + word 4068) = size
  spoiled : size ≠ 0 → size.toNat < 4 → m' (p + word 4068 + word (3 - size.toNat)) = byteOf (p + word 4068) 3

theorem last_slot (m : Mem) (p size : Word) {maxCount : Word} (hsize : size.toNat < 4)
    (h : maxCount.toNat * size.toNat = 4068) :
    linkSlots m p size maxCount (p + word 4068 + word (3 - size.toNat)) = byteOf (p + word 4068) 3 := by
  obtain ⟨n, hn⟩ : ∃ n, maxCount.toNat = n + 1 :=
    Nat.exists_eq_succ_of_ne_zero fun hzero => by simp [hzero] at h
  have hlast : n * size.toNat = 4068 - size.toNat := by
    rw [hn, Nat.add_mul] at h
    omega
  have hplace : p + word 4068 + word (3 - size.toNat) = p + word (n * size.toNat) + word 3 := by
    rw [BitVec.add_assoc, BitVec.add_assoc, word_add, word_add, hlast]
    congr 2
    have hpos : size.toNat ≠ 0 := fun hzero => by simp [hzero] at h
    omega
  have hvalue : p + (word n + 1) * size = p + word 4068 := by
    rw [show (word n + 1 : Word) = word (n + 1) from word_add n 1, slot_place, ← hn, h]
  rw [linkSlots, hn, upTo_succ, slot_place, hplace, hvalue, store_offset _ _ _ 3 (by decide)]

theorem slot_count (size : Word) : ((4068 : Word) / size).toNat * size.toNat ≤ 4068 := by
  rw [BitVec.toNat_udiv]
  exact Nat.div_mul_le_self _ _

theorem createBucket_zero (P : PageMap) (s : Kheap) : createBucket P s 0 = none := rfl

theorem field_place (p : Word) (i j : ℕ) : p + word i + word j = p + word (i + j) := by
  rw [BitVec.add_assoc, word_add]

theorem createBucket_eq (P : PageMap) (s : Kheap) (hsize : size ≠ 0) : createBucket P s size =
    some (⟨s.kheap, s.kheapSize + pageSize, fill (P.allocMapPage s.thisPage 0x3 s.mem) s.thisPage size⟩,
      s.newBucket) := by
  have hbucket : s.thisPage + pageSize - sizeofBucketHeader = s.thisPage + word 4068 := by
    rw [BitVec.sub_eq_add_neg, BitVec.add_assoc]
    rfl
  have hcount : pageSize - sizeofBucketHeader = 4068 := rfl
  have hleft := field_place s.thisPage 4068 4
  have hright := field_place s.thisPage 4068 8
  have hmax := field_place s.thisPage 4068 12
  have hfree := field_place s.thisPage 4068 16
  have hfirst := field_place s.thisPage 4068 20
  have hnext := field_place s.thisPage 4068 24
  have hkept (m : Mem) (v : Word) :
      load (store m (s.thisPage + word 4084) v) (s.thisPage + word 4080) = load m (s.thisPage + word 4080) :=
    (store_within _ v m 4084 (by decide)).load (Or.inl (by decide)) (by decide)
  simp only [createBucket, if_neg hsize, hbucket, hcount, header, setObjSize, setLeft, setRight, setMaxCount,
    setFreeCount, setFirstFree, setNext, show (4 : Word) = word 4 from rfl, show (8 : Word) = word 8 from rfl,
    show (12 : Word) = word 12 from rfl, show (16 : Word) = word 16 from rfl,
      show (20 : Word) = word 20 from rfl,
    show (24 : Word) = word 24 from rfl, hleft, hright, hmax, hfree, hfirst, hnext, hkept, load_store]
  rfl

theorem fill_filled (m : Mem) (p size : Word) : Filled m (fill m p size) p size := by
  unfold fill
  extract_lets m₁ m₂ m₃ m₄ m₅
  have hslots : ((4068 : Word) / size).toNat * size.toNat ≤ 4068 := slot_count size
  have h₁ : Within p 4068 4072 m m₁ := store_within p size m 4068 (by decide)
  have h₂ : Within p 4072 4076 m₁ m₂ := store_within p 0 m₁ 4072 (by decide)
  have h₃ : Within p 4076 4080 m₂ m₃ := store_within p 0 m₂ 4076 (by decide)
  have h₄ : Within p 4080 4088 m₃ m₄ := two_stores p _ _ m₃ 4080 (by decide)
  have h₅ : Within p 0 4072 m₄ m₅ := slots_within m₄ p size (by omega) (by decide)
  have h₆ := two_stores p p 0 m₅ 4088 (by decide)
  refine ⟨fun x hx => ?_, ?_, ?_, fun hsize => ?_, fun hsize hsmall => ?_⟩
  · rw [h₆ x (by omega), h₅ x (by omega), h₄ x (by omega), h₃ x (by omega), h₂ x (by omega),
      h₁ x (by omega)]
  · rw [h₆.load (by omega) (by decide), h₅.load (by omega) (by decide), h₄.load (by omega) (by decide),
      h₃.load (by omega) (by decide), load_store]
  · rw [h₆.load (by omega) (by decide), h₅.load (by omega) (by decide),
      h₄.load (by omega) (by decide), load_store]
  · have hshort : Within p 0 4068 m₄ m₅ := slots_within m₄ p size (by omega) (by decide)
    rw [h₆.load (by omega) (by decide), hshort.load (by omega) (by decide), h₄.load (by omega) (by decide),
      h₃.load (by omega) (by decide), h₂.load (by omega) (by decide), load_store]
  · have hplace : (p + word 4068 + word (3 - size.toNat) - p).toNat = 4068 + (3 - size.toNat) := by
      rw [field_place, toNat_place p (by omega)]
    rw [h₆ _ (by omega)]
    refine last_slot m₄ p size hsmall ?_
    have hpos : size.toNat ≠ 0 := fun hzero => hsize (BitVec.eq_of_toNat_eq hzero)
    rw [BitVec.toNat_udiv]
    apply Nat.div_mul_cancel
    change size.toNat ∣ 4068
    obtain h | h | h : size.toNat = 1 ∨ size.toNat = 2 ∨ size.toNat = 3 := by omega
    · rw [h]
      decide
    · rw [h]
      decide
    · rw [h]
      decide

end Rinix.Buckets
