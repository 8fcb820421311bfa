import Rinix.Lib.ByteMemory
import Rinix.Lib.WhileLoop

/-!
`mm/bitmap.c`: a bit for every page frame, the first frame in the highest bit of the first byte.
-/

namespace Rinix.Frames

open ByteMemory WhileLoop

def highBit : Byte := 0x80

structure PfBitmap where
  ptr : Word
  length : BitVec 64
  lastChecked : BitVec 64
  mem : Mem

def PfBitmap.address (b : PfBitmap) (index : BitVec 64) : Word := b.ptr + index.setWidth 32

def PfBitmap.chunk (b : PfBitmap) (index : BitVec 64) : Byte := b.mem (b.address index)

def markFrameUsed (b : PfBitmap) (chunk : BitVec 64) (bit : ℕ) : PfBitmap :=
  { b with mem := storeByte b.mem (b.address chunk) (b.chunk chunk ||| highBit >>> bit) }

def markFrameFree (b : PfBitmap) (chunk : BitVec 64) (bit : ℕ) : PfBitmap :=
  { b with mem := storeByte b.mem (b.address chunk) (b.chunk chunk &&& ~~~(highBit >>> bit)) }

def freeFrameNum (b : PfBitmap) (frameNum : BitVec 64) : PfBitmap × Int :=
  let index := frameNum / 8
  let b := { b with lastChecked := index }
  let i := (frameNum % 8).toNat
  if 0 < b.chunk index &&& highBit >>> i then (markFrameFree b index i, 0) else (b, -1)

def freeFrame (b : PfBitmap) (pfAddr : Word) : PfBitmap × Int :=
  freeFrameNum b ((pfAddr / 0x1000).setWidth 64)

/-- A turn of the nested loops in `_get_free_frame`; no turn writes, so it does not matter that
`pf_chunk` is read again for every `i`. -/
def searchTurn (b : PfBitmap) : BitVec 64 × ℕ → Turn (BitVec 64 × ℕ) (BitVec 64 × ℕ)
  | (index, i) =>
    let pfChunk := b.chunk index ^^^ 0xFF
    if 0 < pfChunk then
      if 0 < pfChunk &&& highBit >>> i then .exit (index, i) else .again (index, i + 1)
    else .again (index + 1, 0)

/-- Where the search starts: the hint is a byte index, and is taken for a bit index. -/
def searchStart (b : PfBitmap) : BitVec 64 × ℕ := (b.lastChecked / 8, 0)

def frameNumber (index : BitVec 64) (i : ℕ) : BitVec 64 := index * 8 + BitVec.ofNat 64 i

def findTurn (b : PfBitmap) : BitVec 64 × ℕ → Turn (BitVec 64 × ℕ) (BitVec 64 × ℕ)
  | (index, i) =>
    let pfChunk : Byte := ((b.chunk index).setWidth 32 ^^^ (0xFFFFFFFF : Word)).setWidth 8
    if 0 < pfChunk then
      if 0 < pfChunk &&& highBit >>> i then .exit (index, i) else .again (index, i + 1)
    else .again (index + 1, 0)

def findFreeFrame (b : PfBitmap) (fuel : ℕ) : Option (PfBitmap × BitVec 64) :=
  (run (findTurn b) fuel (searchStart b)).map fun (index, i) => (b, frameNumber index i)

def getFreeFrame (b : PfBitmap) (fuel : ℕ) : Option (PfBitmap × BitVec 64) :=
  (run (searchTurn b) fuel (searchStart b)).map fun (index, i) =>
    (markFrameUsed b index i, frameNumber index i)

def getFrame (b : PfBitmap) (fuel : ℕ) : Option (PfBitmap × Word) :=
  (getFreeFrame b fuel).map fun (b, frame) => (b, (frame * 0x1000).setWidth 32)

def FindFreeFrameReturns (b c : PfBitmap) (frame : BitVec 64) : Prop :=
  ∃ fuel, findFreeFrame b fuel = some (c, frame)

def GetFreeFrameReturns (b c : PfBitmap) (frame : BitVec 64) : Prop :=
  ∃ fuel, getFreeFrame b fuel = some (c, frame)

def GetFrameReturns (b c : PfBitmap) (addr : Word) : Prop := ∃ fuel, getFrame b fuel = some (c, addr)

def checkFrame (b : PfBitmap) (frame : Word) : Byte :=
  (b.mem (b.ptr + frame / 0x1000 / 8) >>> (7 - (frame / 0x1000 &&& 7)).toNat) &&& 1

def used (b : PfBitmap) (f : ℕ) : Prop := checkFrame b (word (f * 0x1000)) = 1

instance (b : PfBitmap) (f : ℕ) : Decidable (used b f) := inferInstanceAs (Decidable (_ = _))

end Rinix.Frames
