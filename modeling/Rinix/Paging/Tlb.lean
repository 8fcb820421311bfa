import Rinix.Lib.LookupCache
import Rinix.Paging.CreateDir

/-!
The functions of `page.c` on a processor that may hold translations. An access goes through any
translation that is held for its page, so that every function has a list of outcomes; it is empty
after a page fault.
-/

namespace Rinix.Paging

open ByteMemory PageTable WhileLoop Frames LookupCache

/-- `tlb` has, for every page, the translations that were valid since the last `invlpg` of the page
or the last load of `%cr3`. -/
structure Cpu where
  machine : Machine
  tlb : Cache (Slot × Slot) (Word × Word)

namespace Cpu

def flushed (s : Machine) : Cpu := ⟨s, filled s.entries⟩

def become (c : Cpu) (s : Machine) : Cpu := ⟨s, remember s.entries c.tlb⟩

def invlpg (c : Cpu) (addr : Word) : Cpu := ⟨c.machine, forget c.machine.entries c.tlb (pageOf addr)⟩

def translate (c : Cpu) (virt : Word) : List Word :=
  (c.tlb (pageOf virt)).map fun (_, pte) => frameOf pte ++ pageOffset virt

def read (c : Cpu) (virt : Word) : List Word := (c.translate virt).map (load c.machine.mem)

def write (c : Cpu) (virt value : Word) : List Cpu :=
  (c.translate virt).map fun phys => c.become { c.machine with mem := store c.machine.mem phys value }

def writeByte (c : Cpu) (virt : Word) (value : Byte) : List Cpu :=
  (c.translate virt).map fun phys => c.become { c.machine with mem := storeByte c.machine.mem phys value }

def places (c : Cpu) (virt : Word) : List (Word × Word × Word × Word) :=
  (c.translate virt).flatMap fun p₀ => (c.translate (virt + 1)).flatMap fun p₁ =>
    (c.translate (virt + 2)).flatMap fun p₂ => (c.translate (virt + 3)).map fun p₃ => (p₀, p₁, p₂, p₃)

def readAny (c : Cpu) (virt : Word) : List Word :=
  (c.places virt).map fun (p₀, p₁, p₂, p₃) =>
    (c.machine.mem p₃ ++ c.machine.mem p₂) ++ (c.machine.mem p₁ ++ c.machine.mem p₀)

def writeAny (c : Cpu) (virt value : Word) : List Cpu :=
  (c.places virt).map fun p => c.become { c.machine with mem := storeAny c.machine.mem value p }

def memset (c : Cpu) (buf : Word) (val : Byte) : ℕ → List Cpu
  | 0 => [c]
  | size + 1 => (memset c buf val size).flatMap fun c => c.writeByte (buf + word size) val

def pmmAlloc (c : Cpu) (size : Word) (fuel : ℕ) : List (Cpu × Word) :=
  (Paging.pmmAlloc c.machine.bitmap size fuel).toList.map fun (bitmap, frame) =>
    ({ c with machine := { c.machine with bitmap } }, frame)

def pmmFree (c : Cpu) (pf : Word) : Cpu :=
  { c with machine := { c.machine with bitmap := (Paging.pmmFree c.machine.bitmap pf).1 } }

def setPageTable (c : Cpu) (virtAddr physAddr flags : Word) : List Cpu :=
  let virtAddr := virtAddr &&& ~~~0xFFF
  let physAddr := physAddr &&& ~~~0xFFF
  let pde := pageDirVaddr ||| (virtAddr >>> 22) * 4
  (c.write pde (physAddr ||| flags)).map fun c => c.invlpg virtAddr

def allocPageTable (c : Cpu) (virtAddr flags : Word) (fuel : ℕ) : List Cpu :=
  (c.pmmAlloc 0 fuel).flatMap fun (c, physAddr) => c.setPageTable virtAddr physAddr flags

/-- No `invlpg` here. -/
def setPage (c : Cpu) (virtAddr physAddr flags : Word) : List Cpu :=
  let virtAddr := virtAddr &&& ~~~0xFFF
  let physAddr := physAddr &&& ~~~0xFFF
  let pt := pageDirBaseVaddr ||| (virtAddr >>> 12) * 4 &&& 0x3FF000
  let pte := (virtAddr >>> 12) &&& 0x3FF
  c.write (pt + pte * 4) ((physAddr &&& ~~~0xFFF) ||| flags)

def allocPage (c : Cpu) (virtAddr flags : Word) (fuel : ℕ) : List Cpu :=
  (c.pmmAlloc 0 fuel).flatMap fun (c, phys) => c.setPage virtAddr phys flags

def mapPage (c : Cpu) (virt phys flags : Word) (fuel : ℕ) : List Cpu :=
  let pde := pageDirVaddr ||| (virt >>> 22) * 4
  (c.read pde).flatMap fun entry =>
    if entry &&& 0x1 ≠ 0 then c.setPage virt phys flags
    else (c.allocPageTable virt flags fuel).flatMap fun c => c.setPage virt phys flags

def allocMapPage (c : Cpu) (virt flags : Word) (fuel : ℕ) : List Cpu :=
  let pde := pageDirVaddr ||| (virt >>> 22) * 4
  (c.read pde).flatMap fun entry =>
    if entry &&& 0x1 ≠ 0 then c.allocPage virt flags fuel
    else (c.allocPageTable virt flags fuel).flatMap fun c => c.allocPage virt flags fuel

def deallocPage (c : Cpu) (virtAddr : Word) : List Cpu :=
  let virtAddr := virtAddr &&& ~~~0xFFF
  (c.read (pageDirVaddr + (virtAddr >>> 22) * 4)).flatMap fun pt =>
    let pte := (virtAddr >>> 12) &&& 0x3FF
    (c.readAny (pt + pte * 4)).flatMap fun physAddr =>
      let physAddr := physAddr &&& ~~~0xFFF
      (c.pmmFree physAddr).writeAny (pt + pte * 4) 0

def createPageTable (c : Cpu) (tempAddr : Word) (fuel : ℕ) : List (Cpu × Word) :=
  (c.pmmAlloc 0 fuel).flatMap fun (c, pageFrame) =>
    (c.mapPage tempAddr pageFrame 3 fuel).flatMap fun c =>
      (c.memset tempAddr 0 0x1000).map fun c => (c.invlpg tempAddr, pageFrame)

def createPageDir (c : Cpu) (tempAddr : Word) (fuel : ℕ) : List (Cpu × Word) :=
  (c.pmmAlloc 0 fuel).flatMap fun (c, pageFrame) =>
    (c.mapPage tempAddr pageFrame 3 fuel).flatMap fun c =>
      (c.memset tempAddr 0 0x1000).flatMap fun c =>
        (c.writeAny (tempAddr + 1023 * 4) (0xFFC00000 ||| 3)).map fun c => (c.invlpg tempAddr, pageFrame)

def Stale (c : Cpu) (virt : Word) : Prop := LookupCache.Stale c.machine.entries c.tlb (pageOf virt)

end Cpu

end Rinix.Paging
