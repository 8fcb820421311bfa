import Rinix.Frames.Bitmap
import Rinix.Lib.BitString

namespace Rinix.Frames

open ByteMemory WhileLoop BitString

def PfBitmap.bit (b : PfBitmap) (f : ℕ) : Bool := BitString.bit b.mem b.ptr f

variable {b c : PfBitmap} {index frame : BitVec 64} {i f g : ℕ}

theorem address_eq (b : PfBitmap) (index : BitVec 64) : b.address index = b.ptr + word index.toNat := rfl

theorem div_eight_toNat (frame : BitVec 64) : (frame / 8).toNat = frame.toNat / 8 := BitVec.toNat_udiv

theorem mod_eight_toNat (frame : BitVec 64) : (frame % 8).toNat = frame.toNat % 8 := BitVec.toNat_umod

theorem page_toNat (addr : Word) : (addr / 0x1000).toNat = addr.toNat / 0x1000 := BitVec.toNat_udiv

theorem pageFrame_toNat (addr : Word) : ((addr / 0x1000).setWidth 64 : BitVec 64).toNat =
    addr.toNat / 0x1000 := by
  have := addr.isLt
  rw [BitVec.toNat_setWidth, page_toNat]
  omega

theorem frameNumber_toNat (index : BitVec 64) (i : ℕ) :
    (frameNumber index i).toNat = (index.toNat * 8 + i) % 18446744073709551616 := by
  have h8 : (8 : BitVec 64).toNat = 8 := rfl
  rw [frameNumber, BitVec.toNat_add, BitVec.toNat_mul, BitVec.toNat_ofNat, h8]
  omega

theorem frame_address (b : PfBitmap) (index : BitVec 64) (hi : i < 8) :
    b.address index = b.ptr + word ((frameNumber index i).toNat / 8) ∧
    (frameNumber index i).toNat % 8 = i := by
  have hindex := index.isLt
  rw [address_eq, frameNumber_toNat]
  constructor
  · congr 1
    apply BitVec.eq_of_toNat_eq
    rw [toNat_word_mod, toNat_word_mod]
    omega
  · omega

theorem msb_chunk (hi : i < 8) : msb (b.chunk index) i = b.bit (frameNumber index i).toNat := by
  obtain ⟨ha, hmod⟩ := frame_address b index hi
  rw [PfBitmap.chunk, ha, PfBitmap.bit, BitString.bit, hmod]

theorem highBit_shift (i : ℕ) : highBit >>> i = mask i := rfl

theorem markFrameUsed_eq (hi : i < 8) :
    markFrameUsed b index i = { b with mem := setBit b.mem b.ptr (frameNumber index i).toNat } := by
  obtain ⟨ha, hmod⟩ := frame_address b index hi
  rw [markFrameUsed, setBit, PfBitmap.chunk, ha, hmod, highBit_shift]

theorem markFrameFree_eq (hi : i < 8) :
    markFrameFree b index i = { b with mem := clearBit b.mem b.ptr (frameNumber index i).toNat } := by
  obtain ⟨ha, hmod⟩ := frame_address b index hi
  rw [markFrameFree, clearBit, PfBitmap.chunk, ha, hmod, highBit_shift]

theorem mod_lt_eight (frame : BitVec 64) : (frame % 8).toNat < 8 := by
  rw [mod_eight_toNat]
  omega

theorem frameNumber_div (frame : BitVec 64) : frameNumber (frame / 8) (frame % 8).toNat = frame := by
  have := frame.isLt
  apply BitVec.eq_of_toNat_eq
  rw [frameNumber_toNat, div_eight_toNat, mod_eight_toNat]
  omega

theorem and_seven (v : Word) : (v &&& 7).toNat = v.toNat % 8 := by
  rw [BitVec.toNat_and, show (7 : Word).toNat = 2 ^ 3 - 1 from rfl, Nat.and_two_pow_sub_one_eq_mod]

theorem checkFrame_eq (b : PfBitmap) (addr : Word) :
    checkFrame b addr = if b.bit (addr.toNat / 0x1000) then 1 else 0 := by
  have h8 : (8 : Word).toNat = 8 := rfl
  have h7 : (7 : Word).toNat = 7 := rfl
  have haddr : addr / 0x1000 / 8 = word (addr.toNat / 0x1000 / 8) := by
    apply BitVec.eq_of_toNat_eq
    have := addr.isLt
    rw [toNat_word (by omega), BitVec.toNat_udiv, page_toNat, h8]
  have hshift : (7 - (addr / 0x1000 &&& 7)).toNat = 7 - addr.toNat / 0x1000 % 8 := by
    rw [BitVec.toNat_sub, and_seven, page_toNat, h7]
    omega
  rw [checkFrame, haddr, hshift, shift_and_one]
  rfl

theorem used_iff (hf : f < 0x100000) : used b f ↔ b.bit f = true := by
  rw [used, checkFrame_eq, toNat_word (by omega), show f * 0x1000 / 0x1000 = f by omega]
  by_cases h : b.bit f = true
  · simp only [h, if_pos]
  · rw [if_neg h]
    simp only [h]
    decide

end Rinix.Frames
