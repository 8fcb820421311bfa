import Rinix.Frames.Refinement
import Rinix.Frames.RegionPass

namespace Rinix.Frames

open ByteMemory WhileLoop BitString

def MmapChunk.firstFrame (r : MmapChunk) : ℕ := r.start.toNat / 0x1000

def MmapChunk.lastFrame (r : MmapChunk) : ℕ := (r.start.toNat + r.size.toNat - 1) / 0x1000

def sectionTurn (r : MmapChunk) : Word × PfBitmap → Turn (Word × PfBitmap) PfBitmap :=
  forTurn (bitmapSecEnd r) 1 (markSection r)

def TurnFor (r : MmapChunk) (b : PfBitmap) (f : ℕ) : Prop :=
  ∃ i c, Visits (sectionTurn r) (bitmapSecStart r, b) (i, c) ∧ i ≤ bitmapSecEnd r ∧ i.toNat = f

def RegionExact (r : MmapChunk) (b : PfBitmap) : Prop :=
  ∃ c, Exits (sectionTurn r) (bitmapSecStart r, b) c ∧ SameMap b c ∧
    (∀ f, TurnFor r b f ↔ r.firstFrame ≤ f ∧ f ≤ r.lastFrame) ∧
    (r.type ≠ mmapUsable → ∀ f < 0x800000000,
      c.bit f = (decide (r.firstFrame ≤ f ∧ f ≤ r.lastFrame) || b.bit f)) ∧
    ∀ a, (∀ k, r.start.toNat / 0x8000 ≤ k → k ≤ (r.start.toNat + r.size.toNat - 1) / 0x8000 →
      a ≠ b.ptr + word k) → c.mem a = b.mem a

variable {b c : PfBitmap} {r : MmapChunk} {i : Word} {f : ℕ}

theorem markSection_mem {a : Word} (h : a ≠ b.ptr + word (i.toNat / 8)) :
    (markSection r b i).mem a = b.mem a := by
  rcases markSection_cases r b i with ⟨-, h' | h'⟩ | ⟨-, h'⟩
  · rw [h']
    exact storeByte_miss h
  · rw [h']
  · rw [h']
    exact storeByte_miss h

theorem section_bound (h : Exits (sectionTurn r) (bitmapSecStart r, b) c) :
    (bitmapSecEnd r).toNat < 0xFFFFFFFF := by
  obtain ⟨fuel, h⟩ := h
  exact for_bound h

theorem turnFor_iff (b : PfBitmap) (h : (bitmapSecEnd r).toNat < 0xFFFFFFFF) : TurnFor r b f ↔
    r.Visits f := by
  have hone : (1 : Word).toNat = 1 := rfl
  have hlast : (bitmapSecEnd r + 1).toNat = (bitmapSecEnd r).toNat + 1 := BitVec.toNat_add_of_lt (by omega)
  have hvisits (i : Word) := for_visits (f := markSection r) hlast (bitmapSecStart r) i b
  constructor
  · rintro ⟨i, c, hi, hle, rfl⟩
    exact (hvisits i).mp ⟨c, hi, hle⟩
  · rintro ⟨hge, hle⟩
    have hf := toNat_word (show f < 4294967296 by omega)
    have hbounds : bitmapSecStart r ≤ word f ∧ word f ≤ bitmapSecEnd r := by
      rw [BitVec.le_def, BitVec.le_def, hf]
      exact ⟨hge, hle⟩
    obtain ⟨c, hc, hle'⟩ := (hvisits (word f)).mpr hbounds
    exact ⟨word f, c, hc, hle', hf⟩

theorem sdiv_page_high {v : Word} (hv : 0x80000000 ≤ v.toNat) :
    (v.sdiv 0x1000).toNat = 0 ∨ 0x100000 ≤ (v.sdiv 0x1000).toNat := by
  have hmsb : v.msb = true := by
    rw [BitVec.msb_eq_true_iff_two_mul_ge]
    omega
  have hpage : (0x1000 : Word).toNat = 0x1000 := rfl
  rw [BitVec.sdiv_eq, hmsb, show (0x1000 : Word).msb = false from rfl]
  simp only [BitVec.toNat_neg, BitVec.udiv_eq, BitVec.toNat_udiv, hpage]
  omega

theorem region_memory {a : Word} (h : Exits (sectionTurn r) (bitmapSecStart r, b) c)
    (ha : ∀ k, (bitmapSecStart r).toNat / 8 ≤ k → k ≤ (bitmapSecEnd r).toNat / 8 → a ≠ b.ptr + word k) :
    c.mem a = b.mem a := by
  have hbound := section_bound h
  have hone : (1 : Word).toNat = 1 := rfl
  obtain ⟨fuel, h⟩ := h
  have hinv := for_result
    (fun i c => (bitmapSecStart r).toNat ≤ i.toNat ∧ SameMap b c ∧ c.mem a = b.mem a)
    (fun i c hi hinv => ?_) ⟨Nat.le_refl _, ⟨rfl, rfl⟩, rfl⟩ h
  · obtain ⟨-, -, -, -, hmem⟩ := hinv
    exact hmem
  · obtain ⟨hle, hsame, hmem⟩ := hinv
    have hi' : i.toNat ≤ (bitmapSecEnd r).toNat := hi
    have hnext : (i + 1).toNat = i.toNat + 1 := BitVec.toNat_add_of_lt (by omega)
    have hmiss : a ≠ c.ptr + word (i.toNat / 8) := by
      rw [hsame.1]
      exact ha _ (Nat.div_le_div_right hle) (Nat.div_le_div_right hi')
    exact ⟨by omega, hsame.trans (markSection_same r c i), (markSection_mem hmiss).trans hmem⟩

theorem region_exact (hr : r.FitsInt) (b : PfBitmap) : RegionExact r b := by
  have hstart := bitmapSecStart_toNat hr
  have hend := bitmapSecEnd_toNat hr
  have hfits := hr.2
  have hone : (1 : Word).toNat = 1 := rfl
  have hends : ∃ c, run (sectionTurn r) 0x100000000 (bitmapSecStart r, b) = some c :=
    for_ends (by omega) (BitVec.toNat_add_of_lt (by omega)) (by omega) (by omega)
  obtain ⟨c, hc⟩ := hends
  obtain ⟨hsame, hbits⟩ := region_pass hc
  have hvisits (f : ℕ) : r.Visits f ↔ r.firstFrame ≤ f ∧ f ≤ r.lastFrame := by
    rw [MmapChunk.Visits, hstart, hend]
    rfl
  have hmem (a : Word) (ha : ∀ k, r.start.toNat / 0x8000 ≤ k →
    k ≤ (r.start.toNat + r.size.toNat - 1) / 0x8000 →
      a ≠ b.ptr + word k) : c.mem a = b.mem a := by
    refine region_memory ⟨_, hc⟩ fun k hk hk' => ha k ?_ ?_
    · rwa [hstart, Nat.div_div_eq_div_mul] at hk
    · rwa [hend, Nat.div_div_eq_div_mul] at hk'
  refine ⟨c, ⟨_, hc⟩, hsame, fun f => ?_, fun hu f hf => ?_, hmem⟩
  · rw [turnFor_iff b (by omega), hvisits]
  · by_cases hlow : f < 0x100000000
    · rw [hbits f hlow, regionBits, if_neg hu, decide_eq_decide.mpr (hvisits f)]
    · have hfar := hmem (b.ptr + word (f / 8)) fun k hk hk' heq => by
        have := (word_inj (by omega) (by omega)).mp ((BitVec.add_right_inj b.ptr).mp heq)
        omega
      rw [PfBitmap.bit, PfBitmap.bit, BitString.bit, BitString.bit, hsame.1, hfar, MmapChunk.lastFrame,
        decide_eq_false (by omega), Bool.false_or]

/-- The range of a region is exact if and only if its last byte lies below 2 GiB. -/
theorem region_exact_iff (r : MmapChunk) (b : PfBitmap) (hsize : 0 < r.size)
    (hend : r.start.toNat + r.size.toNat ≤ 0x100000000) :
    RegionExact r b ↔ r.start.toNat + r.size.toNat ≤ 0x80000000 := by
  constructor
  · rintro ⟨c, hc, -, hturns, -⟩
    have hpos := size_pos hsize
    have hlast : r.lastFrame < 0x100000 := by
      rw [MmapChunk.lastFrame]
      omega
    have hvisits (f : ℕ) : r.Visits f ↔ r.firstFrame ≤ f ∧ f ≤ r.lastFrame := by
      rw [← turnFor_iff b (section_bound hc), hturns]
    have hfirst : r.firstFrame ≤ r.lastFrame := Nat.div_le_div_right (by omega)
    have hle := ((hvisits r.lastFrame).mpr ⟨hfirst, Nat.le_refl _⟩).2
    have hstart := ((hvisits r.lastFrame).mpr ⟨hfirst, Nat.le_refl _⟩).1
    have hge := ((hvisits (bitmapSecEnd r).toNat).mp ⟨Nat.le_trans hstart hle, Nat.le_refl _⟩).2
    by_contra hhigh
    have hlastByte : (r.start + r.size - 1).toNat = r.start.toNat + r.size.toNat - 1 := by
      rw [BitVec.toNat_sub, BitVec.toNat_add, show (1 : Word).toNat = 1 from rfl]
      omega
    have hsdiv : (bitmapSecEnd r).toNat = 0 ∨ 0x100000 ≤ (bitmapSecEnd r).toNat := sdiv_page_high (by omega)
    rw [MmapChunk.lastFrame] at hle hlast hge
    omega
  · intro hfits
    exact region_exact ⟨hsize, hfits⟩ b

theorem low_region_exact : RegionExact ⟨0x7FFFF000, 0x1000, 1⟩ emptyMap :=
  (region_exact_iff ⟨0x7FFFF000, 0x1000, 1⟩ emptyMap (by decide) (by decide)).mpr (by decide)

theorem high_region_missed : ∃ r : MmapChunk, 0 < r.size ∧ r.start.toNat + r.size.toNat ≤ 0x100000000 ∧
    ¬RegionExact r emptyMap := by
  refine ⟨⟨0x80000000, 0x1000, 1⟩, by decide, by decide, ?_⟩
  rintro ⟨c, hc, -, hturns, -⟩
  have hturn := (hturns 0x80000).mpr (by decide)
  rw [turnFor_iff emptyMap (section_bound hc)] at hturn
  exact absurd hturn (by decide)

end Rinix.Frames
