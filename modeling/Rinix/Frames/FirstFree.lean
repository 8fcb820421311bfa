import Mathlib.Order.Bounds.Defs
import Rinix.Frames.Hint
import Rinix.Frames.Refinement

namespace Rinix.Frames

open ByteMemory WhileLoop BitString

def hintFrame (b : PfBitmap) : ℕ := 8 * (b.lastChecked.toNat / 8)

def freeFrom (b : PfBitmap) (start : ℕ) : Set ℕ := {f | start ≤ f ∧ b.bit f = false}

variable {b c : PfBitmap} {frame : BitVec 64} {f g : ℕ}

theorem findTurn_eq (b : PfBitmap) : findTurn b = searchTurn b := by
  funext ⟨index, i⟩
  have hchunk : ((b.chunk index).setWidth 32 ^^^ (0xFFFFFFFF : Word)).setWidth 8 = b.chunk index ^^^
    0xFF := by
    rw [BitVec.setWidth_xor, BitVec.setWidth_setWidth_of_le _ (by omega), BitVec.setWidth_eq]
    rfl
  simp only [findTurn, searchTurn, hchunk]

theorem least_exists (h : ∃ f, f ∈ freeFrom b g) : ∃ f, IsLeast (freeFrom b g) f := by
  classical
  exact ⟨Nat.find h, Nat.find_spec h, fun _ hf => Nat.find_min' h hf⟩

theorem search_least (h : IsLeast (freeFrom b (hintFrame b)) f) :
    Exits (searchTurn b) (searchStart b) (chunkIndex (f / 8), f % 8) := by
  rw [searchStart_eq]
  apply search_finds h.1.1 h.1.2
  intro g hg hlt
  by_contra hbit
  exact absurd (h.2 ⟨hg, by simpa using hbit⟩) (by omega)

theorem frameNumber_found (f : ℕ) : frameNumber (chunkIndex (f / 8)) (f % 8) = BitVec.ofNat 64 f := by
  apply BitVec.eq_of_toNat_eq
  rw [frameNumber_toNat, chunkIndex, BitVec.toNat_ofNat, BitVec.toNat_ofNat]
  omega

theorem get_least (h : IsLeast (freeFrom b (hintFrame b)) f) :
    GetFreeFrameReturns b { b with mem := setBit b.mem b.ptr f } (BitVec.ofNat 64 f) := by
  have hret := getFreeFrame_returns (search_least h)
  rw [markFrameUsed_eq (by omega), frameNumber_found] at hret
  rwa [setBit_congr (show (BitVec.ofNat 64 f).toNat % 34359738368 = f % 34359738368 by
    rw [BitVec.toNat_ofNat]; omega)] at hret

theorem findFreeFrame_eq (b : PfBitmap) (fuel : ℕ) :
    findFreeFrame b fuel = (getFreeFrame b fuel).map fun r => (b, r.2) := by
  rw [findFreeFrame, getFreeFrame, findTurn_eq, Option.map_map]
  rfl

theorem find_iff : FindFreeFrameReturns b c frame ↔ c = b ∧ ∃ d, GetFreeFrameReturns b d frame := by
  simp only [FindFreeFrameReturns, findFreeFrame_eq, Option.map_eq_some_iff, Prod.mk.injEq]
  constructor
  · rintro ⟨fuel, ⟨d, g⟩, hd, rfl, rfl⟩
    exact ⟨rfl, d, fuel, hd⟩
  · rintro ⟨rfl, d, fuel, hd⟩
    exact ⟨fuel, (d, frame), hd, rfl, rfl⟩

theorem get_iff (h : IsLeast (freeFrom b (hintFrame b)) f) : GetFreeFrameReturns b c frame ↔
    c = { b with mem := setBit b.mem b.ptr f } ∧ frame = BitVec.ofNat 64 f := by
  constructor
  · intro hret
    exact getFreeFrame_unique hret (get_least h)
  · rintro ⟨rfl, rfl⟩
    exact get_least h

theorem freed_hint (hfree : (freeFrameNum b frame).2 = 0) :
    hintFrame (freeFrameNum b frame).1 = 8 * (frame.toNat / 64) ∧
    (freeFrameNum b frame).1.bit frame.toNat = false := by
  by_cases hbit : b.bit frame.toNat = true
  · rw [freeFrameNum_used hbit]
    refine ⟨?_, ?_⟩
    · rw [hintFrame, div_eight_toNat, Nat.div_div_eq_div_mul]
    · rw [PfBitmap.bit, bit_clearBit_mod, decide_eq_true rfl]
      rfl
  · rw [freeFrameNum_clear (by simpa using hbit)] at hfree
    cases hfree

/-- Both searches return the least free frame from the hint on, and only the second one marks it. -/
theorem frame_search (b : PfBitmap) :
    ((∃ f < 0x10000000000000000, hintFrame b ≤ f ∧ b.bit f = false) →
      ∃ frame c, IsLeast {f | hintFrame b ≤ f ∧ b.bit f = false} (BitVec.toNat frame) ∧
        (∀ d g, FindFreeFrameReturns b d g ↔ d = b ∧ g = frame) ∧
        (∀ d g, GetFreeFrameReturns b d g ↔ d = c ∧ g = frame) ∧
        c.ptr = b.ptr ∧ c.length = b.length ∧ c.lastChecked = b.lastChecked ∧
        ∀ g, c.bit g = (decide (frame.toNat % 0x800000000 = g % 0x800000000) || b.bit g)) ∧
    ∀ f, (freeFrameNum b f).2 = 0 → ∃ c frame, GetFreeFrameReturns (freeFrameNum b f).1 c frame ∧
      8 * (f.toNat / 64) ≤ frame.toNat ∧ frame.toNat ≤ f.toNat := by
  constructor
  · rintro ⟨f, hf, hfree⟩
    obtain ⟨g, hg⟩ := least_exists ⟨f, hfree⟩
    have hgf := hg.2 hfree
    have hnum : (BitVec.ofNat 64 g).toNat = g := by
      rw [BitVec.toNat_ofNat]
      omega
    refine ⟨BitVec.ofNat 64 g, _, by rw [hnum]; exact hg, fun d k => ?_, fun d k => get_iff hg, rfl,
      rfl, rfl, fun k => ?_⟩
    · simp only [find_iff, get_iff hg, exists_and_right, exists_eq, true_and]
    · rw [hnum]
      exact bit_setBit_mod
  · intro f hfree
    obtain ⟨hhint, hclear⟩ := freed_hint hfree
    obtain ⟨g, hg⟩ := least_exists ⟨f.toNat, show hintFrame (freeFrameNum b f).1 ≤ f.toNat by omega, hclear⟩
    have hgf := hg.2 ⟨by omega, hclear⟩
    have hstart := hg.1.1
    have hlt := f.isLt
    refine ⟨_, _, get_least hg, ?_⟩
    rw [BitVec.toNat_ofNat]
    omega

theorem freed_frame_found : ∃ c, GetFreeFrameReturns (freeFrame fullMap 0).1 c 0 ∧
    FindFreeFrameReturns (freeFrame fullMap 0).1 (freeFrame fullMap 0).1 0 := by
  have hsearch := (frame_search (freeFrame fullMap 0).1).1 ⟨0, by decide, by decide, rfl⟩
  obtain ⟨frame, c, hleast, hfind, hget, -⟩ := hsearch
  have hzero : frame = 0 := BitVec.eq_of_toNat_eq (Nat.le_zero.mp (hleast.2 ⟨by decide, rfl⟩))
  subst hzero
  exact ⟨c, (hget c 0).mpr ⟨rfl, rfl⟩, (hfind _ 0).mpr ⟨rfl, rfl⟩⟩

end Rinix.Frames
