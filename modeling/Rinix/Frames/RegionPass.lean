import Rinix.Frames.CreateBitmap

namespace Rinix.Frames

open ByteMemory WhileLoop BitString

def tested (f : ℕ) : Option ℕ :=
  if f % 32 = 0 then some (f + 7) else if 25 ≤ f % 32 then some (f - 1) else none

def MmapChunk.Visits (r : MmapChunk) (f : ℕ) : Prop :=
  (bitmapSecStart r).toNat ≤ f ∧ f ≤ (bitmapSecEnd r).toNat

instance (r : MmapChunk) (f : ℕ) : Decidable (r.Visits f) := inferInstanceAs (Decidable (_ ∧ _))

def usableBits (r : MmapChunk) (old : ℕ → Bool) : ℕ → Bool
  | 0 => if r.Visits 0 ∧ old 7 then false else old 0
  | f + 1 =>
    if r.Visits (f + 1) ∧
      (if (f + 1) % 32 = 0 then old (f + 8)
        else decide (25 ≤ (f + 1) % 32) && usableBits r old f) then false
    else old (f + 1)

def regionBits (r : MmapChunk) (old : ℕ → Bool) (f : ℕ) : Bool :=
  if r.type = mmapUsable then usableBits r old f else decide (r.Visits f) || old f

def mapBits : List MmapChunk → (ℕ → Bool) → ℕ → Bool
  | [], old => old
  | r :: rs, old => if 0 < r.size then mapBits rs (regionBits r old) else old

variable {b c d : PfBitmap} {r : MmapChunk} {regions : List MmapChunk} {i : Word} {fuel f g n : ℕ}
  {old new : ℕ → Bool}

theorem and_one_ne_zero (v : Word) (k : ℕ) : (v >>> k) &&& 1 ≠ 0 ↔ v.getLsbD k = true := by
  rw [show (1 : Word) = BitVec.twoPow 32 0 from rfl, BitVec.and_twoPow,
    BitVec.getLsbD_ushiftRight, Nat.add_zero]
  split_ifs with h
  · exact iff_of_true (by decide) h
  · exact iff_of_false (fun h' => h' rfl) h

theorem shift_count (i : Word) : ((addrBits - i) % 32).toNat = (32 - i.toNat % 32) % 32 := by
  have hlt := i.isLt
  rw [BitVec.toNat_umod, BitVec.toNat_sub, show addrBits.toNat = 32 from rfl,
    show (32 : Word).toNat = 32 from rfl]
  omega

theorem lsb_bit (b : PfBitmap) (hg : g / 8 = n) : (b.mem (b.ptr + word n)).getLsbD (7 - g % 8) = b.bit g := by
  rw [PfBitmap.bit, BitString.bit, hg]
  rfl

theorem shiftedBit_iff (b : PfBitmap) (i : Word) :
    shiftedBit b i ≠ 0 ↔ ∃ g, tested i.toNat = some g ∧ b.bit g = true := by
  have hlsb : shiftedBit b i ≠ 0 ↔ (b.mem (b.ptr + word (i.toNat / 8))).getLsbD
    ((32 - i.toNat % 32) % 32) = true := by
    rw [shiftedBit, and_one_ne_zero, shift_count, word_div_eight, BitVec.getLsbD_setWidth,
      decide_eq_true (by omega), Bool.true_and]
  have hsome (k : ℕ) : (∃ g, some k = some g ∧ b.bit g = true) ↔ b.bit k = true := by simp
  rw [hlsb, tested]
  split_ifs with hzero hhigh
  · rw [hsome, ← lsb_bit b (show (i.toNat + 7) / 8 = i.toNat / 8 by omega)]
    rw [show (32 - i.toNat % 32) % 32 = 7 - (i.toNat + 7) % 8 by omega]
  · rw [hsome, ← lsb_bit b (show (i.toNat - 1) / 8 = i.toNat / 8 by omega)]
    rw [show (32 - i.toNat % 32) % 32 = 7 - (i.toNat - 1) % 8 by omega]
  · rw [BitVec.getLsbD_of_ge _ _ (by omega)]
    simp

theorem usableBits_tested (r : MmapChunk) (old : ℕ → Bool) (f : ℕ) : usableBits r old f =
    if r.Visits f ∧ (if f % 32 = 0 then old (f + 7) else decide (25 ≤ f % 32) &&
    usableBits r old (f - 1)) then false
    else old f := by
  cases f with
  | zero => rfl
  | succ f => rfl

theorem usableBits_other (h : ¬r.Visits f) (old : ℕ → Bool) : usableBits r old f = old f := by
  cases f with
  | zero => exact if_neg fun h' => h h'.1
  | succ f => exact if_neg fun h' => h h'.1

theorem regionBits_other (h : ¬r.Visits f) (old : ℕ → Bool) : regionBits r old f = old f := by
  rw [regionBits, usableBits_other h, decide_eq_false h, Bool.false_or, ite_self]

theorem usableBits_congr (n : ℕ) (h : ∀ g < n * 32, old g = new g) (hf : f < n * 32) :
    usableBits r old f = usableBits r new f := by
  induction f with
  | zero => rw [usableBits, usableBits, h 0 hf, h 7 (by omega)]
  | succ f ih =>
    rw [usableBits, usableBits, h _ hf, ih (by omega)]
    by_cases hzero : (f + 1) % 32 = 0
    · rw [if_pos hzero, if_pos hzero, h (f + 8) (by omega)]
    · rw [if_neg hzero, if_neg hzero]

theorem markSection_bit (hr : r.type = mmapUsable) (b : PfBitmap) (i : Word) :
    (markSection r b i).bit i.toNat =
    if shiftedBit b i ≠ 0 then false else b.bit i.toNat := by
  have hlt := i.isLt
  simp only [markSection, word_div_eight, word_mod_eight, highBit_shift, if_pos hr]
  by_cases h : shiftedBit b i ≠ 0
  · rw [if_pos h, if_pos h]
    have hclear := bit_clearBit (m := b.mem) (p := b.ptr) (show i.toNat < 34359738368 by omega)
      (show i.toNat < 34359738368 by omega)
    rw [decide_eq_true rfl] at hclear
    exact hclear
  · rw [if_neg h, if_neg h]

theorem markSection_keeps (hg : g < 0x100000000) (hi : i.toNat ≠ g) :
    (markSection r b i).bit g = b.bit g := by
  have hlt := i.isLt
  rcases markSection_cases r b i with ⟨-, h | h⟩ | ⟨-, h⟩
  · rw [h, PfBitmap.bit, bit_clearBit (by omega) (by omega), decide_eq_false hi]
    rfl
  · rw [h]
  · rw [h, PfBitmap.bit, bit_setBit (by omega) (by omega), decide_eq_false hi]
    rfl

structure Passed (r : MmapChunk) (b : PfBitmap) (i : Word) (c : PfBitmap) : Prop where
  same : SameMap b c
  start_le : (bitmapSecStart r).toNat ≤ i.toNat
  done : ∀ g < i.toNat, c.bit g = regionBits r b.bit g
  rest : ∀ g < 0x100000000, i.toNat ≤ g → c.bit g = b.bit g

theorem Passed.tested (h : Passed r b i c) (hr : r.type = mmapUsable)
    (hi : i.toNat ≤ (bitmapSecEnd r).toNat) :
    (if shiftedBit c i ≠ 0 then false else c.bit i.toNat) = regionBits r b.bit i.toNat := by
  have hlt := i.isLt
  have hvisits : r.Visits i.toNat := ⟨h.start_le, hi⟩
  have hold := h.rest i.toNat hlt (Nat.le_refl _)
  have hdone (g : ℕ) (hg : g < i.toNat) : c.bit g = usableBits r b.bit g := by
    rw [h.done g hg, regionBits, if_pos hr]
  rw [regionBits, if_pos hr, hold, usableBits_tested]
  refine if_congr ?_ rfl rfl
  rw [shiftedBit_iff, Frames.tested, and_iff_right hvisits]
  split_ifs with hzero hhigh
  · simp only [Option.some.injEq, exists_eq_left', h.rest (i.toNat + 7) (by omega) (by omega)]
  · simp only [Option.some.injEq, exists_eq_left', hdone (i.toNat - 1) (by omega),
      decide_eq_true hhigh, Bool.true_and]
  · simp only [false_and, exists_false, decide_eq_false hhigh, Bool.false_and, Bool.false_eq_true]

theorem Passed.next (h : Passed r b i c) (hi : i.toNat ≤ (bitmapSecEnd r).toNat)
    (hnext : (i + 1).toNat = i.toNat + 1) : Passed r b (i + 1) (markSection r c i) := by
  have hlt := i.isLt
  have hstart := h.start_le
  have hbit : (markSection r c i).bit i.toNat = regionBits r b.bit i.toNat := by
    by_cases hr : r.type = mmapUsable
    · rw [markSection_bit hr]
      exact h.tested hr hi
    · rw [markSection_unusable hr, regionBits, if_neg hr, decide_eq_true ⟨hstart, hi⟩, Bool.true_or]
  refine ⟨h.same.trans (markSection_same r c i), by omega, fun g hg => ?_, fun g hg hge => ?_⟩
  · rcases Nat.lt_or_eq_of_le (show g ≤ i.toNat by omega) with hg | rfl
    · rw [markSection_keeps (by omega) (by omega)]
      exact h.done g hg
    · exact hbit
  · rw [markSection_keeps hg (by omega)]
    exact h.rest g hg (by omega)

theorem region_pass (h : run (forTurn (bitmapSecEnd r) 1 (markSection r)) fuel
    (bitmapSecStart r, b) = some c) :
    SameMap b c ∧ ∀ g < 0x100000000, c.bit g = regionBits r b.bit g := by
  have hone : (1 : Word).toNat = 1 := rfl
  have hbound : (bitmapSecEnd r).toNat < 0xFFFFFFFF := for_bound h
  have hinv := for_result (Passed r b) (fun i c hi hinv => ?_)
    ⟨⟨rfl, rfl⟩, Nat.le_refl _, fun g hg => ?_, fun g _ _ => rfl⟩ h
  · obtain ⟨j, hj, hpassed⟩ := hinv
    have hj' : (bitmapSecEnd r).toNat < j.toNat := Nat.lt_of_not_le hj
    refine ⟨hpassed.same, fun g hg => ?_⟩
    by_cases hgj : g < j.toNat
    · exact hpassed.done g hgj
    · rw [hpassed.rest g hg (by omega), regionBits_other (fun hvisits => by have := hvisits.2; omega)]
  · have hi' : i.toNat ≤ (bitmapSecEnd r).toNat := hi
    exact hinv.next hi' (BitVec.toNat_add_of_lt (by omega))
  · rw [regionBits_other (fun hvisits => by have := hvisits.1; omega)]

theorem overlaps_visits (hr : r.FitsInt) : r.Overlaps f ↔ r.Visits f := by
  rw [overlaps_iff hr, MmapChunk.Visits, bitmapSecStart_toNat hr, bitmapSecEnd_toNat hr]

theorem region_bits (hr : r.FitsInt)
    (h : run (forTurn (bitmapSecEnd r) 1 (markSection r)) fuel (bitmapSecStart r, b) = some c) :
    SameMap b c ∧ (∀ g < 0x100000, ¬r.Overlaps g → c.bit g = b.bit g) ∧
      (r.type ≠ mmapUsable → ∀ g < 0x100000, r.Overlaps g → c.bit g = true) := by
  obtain ⟨hsame, hbits⟩ := region_pass h
  refine ⟨hsame, fun g hg hno => ?_, fun hu g hg hover => ?_⟩
  · rw [hbits g (by omega), regionBits_other fun hvisits => hno ((overlaps_visits hr).mpr hvisits)]
  · rw [hbits g (by omega), regionBits, if_neg hu,
      decide_eq_true ((overlaps_visits hr).mp hover), Bool.true_or]

theorem regionBits_congr (n : ℕ) (h : ∀ g < n * 32, old g = new g) (hf : f < n * 32) :
    regionBits r old f = regionBits r new f := by
  rw [regionBits, regionBits, usableBits_congr n h hf, h f hf]

theorem mapBits_congr (n : ℕ) (h : ∀ g < n * 32, old g = new g) (hf : f < n * 32) :
    mapBits regions old f = mapBits regions new f := by
  induction regions generalizing old new with
  | nil => exact h f hf
  | cons r regions ih =>
    rw [mapBits, mapBits]
    split_ifs
    · exact ih fun g hg => regionBits_congr n h hg
    · exact h f hf

theorem markRegions_bits (h : markRegions fuel regions b = some d) :
    SameMap b d ∧ ∀ g < 0x100000000, d.bit g = mapBits regions b.bit g := by
  induction regions generalizing b with
  | nil => cases h
  | cons r regions ih =>
    rw [markRegions] at h
    simp only [mapBits]
    split_ifs at h ⊢ with hsize
    · obtain ⟨c, hc, hd⟩ := Option.bind_eq_some_iff.mp h
      obtain ⟨hsame, hbits⟩ := region_pass hc
      obtain ⟨hsame', hbits'⟩ := ih hd
      refine ⟨hsame.trans hsame', fun g hg => ?_⟩
      rw [hbits' g hg]
      exact mapBits_congr 0x8000000 hbits hg
    · cases h
      exact ⟨⟨rfl, rfl⟩, fun g _ => rfl⟩

end Rinix.Frames
