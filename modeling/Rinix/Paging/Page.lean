import Rinix.Frames.Bitmap
import Rinix.Lib.PageTable

/-!
`arch/i386/page.c`: the page tables are edited through the last entry of the directory, which points
to the directory itself.
-/

namespace Rinix.Paging

open ByteMemory Frames

abbrev Frame := BitVec 20
abbrev Slot := BitVec 10

def pageP : Word := 0x1
def pageRw : Word := 0x2
def pageU : Word := 0x4

def pageDirBaseVaddr : Word := 0xFFC00000
def pageDirVaddr : Word := 0xFFFFF000

def frameOf (a : Word) : Frame := a.extractLsb' 12 20
def directorySlot (virt : Word) : Slot := virt.extractLsb' 22 10
def tableSlot (virt : Word) : Slot := virt.extractLsb' 12 10
def pageOffset (virt : Word) : BitVec 12 := virt.extractLsb' 0 12

def slotAddress (f : Frame) (k : Slot) : Word := f ++ (k ++ (0 : BitVec 2))

/-- The processor's reading of an entry. Pages of 4 MiB are switched off. -/
def entryFormat : PageTable.Format Frame Word := ⟨fun e => e &&& pageP ≠ 0, frameOf⟩

/-- The physical memory, the register that points to the directory, and the allocator of `pmm.c`.
The bitmap is kept apart from the memory here; `Resident` has it in the pages that are edited. -/
structure Machine where
  mem : Mem
  cr3 : Word
  bitmap : PfBitmap

def storeAny (m : Mem) (value : Word) : Word × Word × Word × Word → Mem
  | (p₀, p₁, p₂, p₃) =>
    storeByte (storeByte (storeByte (storeByte m p₀ (byteOf value 0)) p₁ (byteOf value 1)) p₂
      (byteOf value 2)) p₃ (byteOf value 3)

namespace Machine

def tables (s : Machine) : PageTable.Tables Frame Slot Word := fun f k => load s.mem (slotAddress f k)

def directory (s : Machine) : Frame := frameOf s.cr3

def walk (s : Machine) (virt : Word) : Option (Word × Word) :=
  PageTable.walk entryFormat s.tables s.directory (directorySlot virt) (tableSlot virt)

def translate (s : Machine) (virt : Word) : Option Word :=
  (s.walk virt).map fun (_, pte) => frameOf pte ++ pageOffset virt

def view (s : Machine) (a : Word) : Option Byte := (s.translate a).map s.mem

def read (s : Machine) (virt : Word) : Option Word := (s.translate virt).map (load s.mem)

/-- `CR0.WP` is clear: the kernel writes to read-only pages as well. -/
def write (s : Machine) (virt value : Word) : Option Machine :=
  (s.translate virt).map fun phys => { s with mem := store s.mem phys value }

def writeByte (s : Machine) (virt : Word) (value : Byte) : Option Machine :=
  (s.translate virt).map fun phys => { s with mem := storeByte s.mem phys value }

def places (s : Machine) (virt : Word) : Option (Word × Word × Word × Word) :=
  (s.translate virt).bind fun p₀ => (s.translate (virt + 1)).bind fun p₁ =>
    (s.translate (virt + 2)).bind fun p₂ =>
      (s.translate (virt + 3)).map fun p₃ => (p₀, p₁, p₂, p₃)

def readAny (s : Machine) (virt : Word) : Option Word :=
  (s.places virt).map fun (p₀, p₁, p₂, p₃) => (s.mem p₃ ++ s.mem p₂) ++ (s.mem p₁ ++ s.mem p₀)

def writeAny (s : Machine) (virt value : Word) : Option Machine :=
  (s.places virt).map fun p => { s with mem := storeAny s.mem value p }

end Machine

def memset (s : Machine) (buf : Word) (val : Byte) : ℕ → Option Machine
  | 0 => some s
  | size + 1 => (memset s buf val size).bind fun s => s.writeByte (buf + word size) val

def pmmAlloc (b : PfBitmap) (size : Word) (fuel : ℕ) : Option (PfBitmap × Word) :=
  if size ≠ 0 then some (b, 0) else getFrame b fuel

def pmmFree (b : PfBitmap) (pf : Word) : PfBitmap × Int := freeFrame b pf

def setPageTable (s : Machine) (virtAddr physAddr flags : Word) : Option Machine :=
  let virtAddr := virtAddr &&& ~~~0xFFF
  let physAddr := physAddr &&& ~~~0xFFF
  let pde := pageDirVaddr ||| (virtAddr >>> 22) * 4
  s.write pde (physAddr ||| flags)

/-- The loop that would clear the table is commented out. -/
def allocPageTable (s : Machine) (virtAddr flags : Word) (fuel : ℕ) : Option Machine :=
  (pmmAlloc s.bitmap 0 fuel).bind fun (bitmap, physAddr) =>
    setPageTable { s with bitmap } virtAddr physAddr flags

def setPage (s : Machine) (virtAddr physAddr flags : Word) : Option Machine :=
  let virtAddr := virtAddr &&& ~~~0xFFF
  let physAddr := physAddr &&& ~~~0xFFF
  let pt := pageDirBaseVaddr ||| (virtAddr >>> 12) * 4 &&& 0x3FF000
  let pte := (virtAddr >>> 12) &&& 0x3FF
  s.write (pt + pte * 4) ((physAddr &&& ~~~0xFFF) ||| flags)

def allocPage (s : Machine) (virtAddr flags : Word) (fuel : ℕ) : Option Machine :=
  (pmmAlloc s.bitmap 0 fuel).bind fun (bitmap, phys) => setPage { s with bitmap } virtAddr phys flags

def mapPage (s : Machine) (virt phys flags : Word) (fuel : ℕ) : Option Machine :=
  let pde := pageDirVaddr ||| (virt >>> 22) * 4
  (s.read pde).bind fun entry =>
    if entry &&& 0x1 ≠ 0 then setPage s virt phys flags
    else (allocPageTable s virt flags fuel).bind fun s => setPage s virt phys flags

def allocMapPage (s : Machine) (virt flags : Word) (fuel : ℕ) : Option Machine :=
  let pde := pageDirVaddr ||| (virt >>> 22) * 4
  (s.read pde).bind fun entry =>
    if entry &&& 0x1 ≠ 0 then allocPage s virt flags fuel
    else (allocPageTable s virt flags fuel).bind fun s => allocPage s virt flags fuel

def deallocPageTable (s : Machine) (virtAddr : Word) : Option Machine :=
  let virtAddr := virtAddr &&& ~~~0xFFF
  let thisPt := pageDirVaddr ||| (virtAddr >>> 22) * 4
  (s.read thisPt).bind fun physAddr =>
    Machine.write { s with bitmap := (pmmFree s.bitmap physAddr).1 } thisPt 0

/-- `pt` is the directory entry with its flags, and is taken for the address of the table. -/
def deallocPage (s : Machine) (virtAddr : Word) : Option Machine :=
  let virtAddr := virtAddr &&& ~~~0xFFF
  (s.read (pageDirVaddr + (virtAddr >>> 22) * 4)).bind fun pt =>
    let pte := (virtAddr >>> 12) &&& 0x3FF
    (s.readAny (pt + pte * 4)).bind fun physAddr =>
      let physAddr := physAddr &&& ~~~0xFFF
      Machine.writeAny { s with bitmap := (pmmFree s.bitmap physAddr).1 } (pt + pte * 4) 0

def createPageTable (s : Machine) (tempAddr : Word) (fuel : ℕ) : Option (Machine × Word) :=
  (pmmAlloc s.bitmap 0 fuel).bind fun (bitmap, pageFrame) =>
    (mapPage { s with bitmap } tempAddr pageFrame 3 fuel).bind fun s =>
      (memset s tempAddr 0 0x1000).map fun s => (s, pageFrame)

def createPageDir (s : Machine) (tempAddr : Word) (fuel : ℕ) : Option (Machine × Word) :=
  (pmmAlloc s.bitmap 0 fuel).bind fun (bitmap, pageFrame) =>
    (mapPage { s with bitmap } tempAddr pageFrame 3 fuel).bind fun s =>
      (memset s tempAddr 0 0x1000).bind fun s =>
        (s.writeAny (tempAddr + 1023 * 4) (0xFFC00000 ||| 3)).map fun s => (s, pageFrame)

end Rinix.Paging
