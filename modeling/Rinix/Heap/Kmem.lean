import Mathlib.Logic.Function.Iterate
import Rinix.Lib.ByteMemory
import Rinix.Lib.WhileLoop

/-!
`mm/kmem.c`: the linked-list kernel heap. Headers live in the heap's own memory and are read and
written through their addresses, so the model keeps a flat byte memory and the pointers of `kmem_t`.
-/

namespace Rinix.Heap

open ByteMemory WhileLoop

def kmemAlignSize : Word := 0x10

def kmemFree : Byte := 0x00
def kmemUsed : Byte := 0x01
def kmemTail : Byte := 0x81

def sizeofKmemptr : Word := 16

def pageSize : Word := 4096

def kernelHeapStart : Word := 0xD0000000

def kernelHeapEnd : Word := 0xE0000000

def pageDirBase : Word := 0xFFC00000

structure Kmemptr where
  prev : Word
  next : Word
  size : Word
  flags : Byte
  deriving DecidableEq

def kmemptr (m : Mem) (a : Word) : Kmemptr := ⟨load m a, load m (a + 4), load m (a + 8), m (a + 12)⟩

def setPrev (m : Mem) (a v : Word) : Mem := store m a v
def setNext (m : Mem) (a v : Word) : Mem := store m (a + 4) v
def setSize (m : Mem) (a v : Word) : Mem := store m (a + 8) v
def setFlags (m : Mem) (a : Word) (b : Byte) : Mem := storeByte m (a + 12) b

structure Kmem where
  head : Word
  firstFree : Word
  tail : Word
  totalLength : Word
  mem : Mem
  pages : List Word

/-- `alloc_map_page` as the heap sees a call that succeeds: heap bytes below the new page stay as
they are, whatever the frame behind the page holds. -/
structure PageMap where
  allocMapPage : Word → Word → Mem → Mem
  below : ∀ (virt flags : Word) (m : Mem) (a : Word), kernelHeapStart ≤ a → a < virt →
    virt < pageDirBase → allocMapPage virt flags m a = m a

def kmemptrNext (m : Mem) (scratch : Word) : Word :=
  if (kmemptr m scratch).flags ≠ kmemTail then (kmemptr m scratch).next else 0

def alignBlock (addr : Word) : Word :=
  if addr % kmemAlignSize ≠ 0 then addr + (kmemAlignSize - addr % kmemAlignSize) else addr

def kmemInit (P : PageMap) (m : Mem) : Kmem :=
  let m := P.allocMapPage 0xD0000000 0x3 m -- PAGE_P | PAGE_RW | PAGE_S
  let head := 0xD0000000
  let m := setPrev m head head
  let m := setSize m head (0x1000 - 2 * sizeofKmemptr)
  let m := setFlags m head 0
  let tail := 0xD0001000 - sizeofKmemptr
  let m := setNext m head tail
  let m := setPrev m tail head
  let m := setSize m tail 0
  let m := setFlags m tail kmemTail
  let m := setNext m tail tail
  { head, firstFree := head, tail, totalLength := 0x1000, mem := m, pages := [0xD0000000] }

def morecorePage (P : PageMap) (s : Kmem) : Kmem :=
  let virt := 0xD0000000 + s.totalLength
  let m := P.allocMapPage virt 0x3 s.mem
  let s := { s with totalLength := s.totalLength + pageSize, pages := virt :: s.pages }
  let tailPrev := (kmemptr m s.tail).prev
  if (kmemptr m tailPrev).flags = kmemFree then
    let m := setSize m tailPrev ((kmemptr m tailPrev).size + pageSize)
    let tail := tailPrev + (kmemptr m tailPrev).size + sizeofKmemptr
    let m := setPrev m tail tailPrev
    let m := setSize m tail 0
    let m := setFlags m tail kmemTail
    let m := setNext m tailPrev tail
    let m := setNext m tail tail
    { s with tail, mem := m }
  else if (kmemptr m tailPrev).flags = kmemUsed then
    let scratch := s.tail
    let m := setSize m scratch (pageSize - sizeofKmemptr)
    -- pointer arithmetic on `kmemptr_t*`: the offset counts headers, not bytes
    let tail := scratch + pageSize * sizeofKmemptr
    let m := setFlags m tail kmemTail
    let m := setNext m tail tail
    let m := setNext m scratch tail
    { s with tail, mem := m }
  else { s with mem := m }

def kmemMorecore (P : PageMap) (blockCount : Word) (s : Kmem) : Kmem :=
  (morecorePage P)^[blockCount.toNat] s

def sizeReq (bsize : Word) (m : Mem) (scratch : Word) : Word :=
  if (kmemptr m (kmemptr m scratch).prev).flags = kmemFree then
    bsize + sizeofKmemptr - (kmemptr m (kmemptr m scratch).prev).size
  else bsize + sizeofKmemptr

def pagesFor (sizeReq : Word) : Word :=
  sizeReq / 0x1000 + if sizeReq % 0x1000 ≠ 0 then 1 else 0

def growAtTail (P : PageMap) (bsize : Word) (s : Kmem) (scratch : Word) : Kmem × Word :=
  if (kmemptr s.mem scratch).flags = kmemTail then
    (kmemMorecore P (pagesFor (sizeReq bsize s.mem scratch)) s, s.firstFree)
  else (s, scratch)

def chop (bsize : Word) (m : Mem) (scratch : Word) : Mem :=
  let newPtr := scratch + sizeofKmemptr + bsize
  let m := setPrev m (kmemptrNext m scratch) newPtr
  let m := setSize m newPtr ((kmemptr m scratch).size - (bsize + sizeofKmemptr))
  let m := setPrev m newPtr scratch
  let m := setNext m newPtr (kmemptr m scratch).next
  let m := setSize m scratch bsize
  let m := setNext m scratch newPtr
  let m := setFlags m scratch 0x01
  setFlags m newPtr 0x00

def tryBlock (bsize : Word) : Kmem × Word → Turn (Kmem × Word) (Kmem × Word)
  | (s, scratch) =>
    if (kmemptr s.mem scratch).flags = kmemFree ∧
        bsize + sizeofKmemptr < (kmemptr s.mem scratch).size then
      .exit ({ s with mem := chop bsize s.mem scratch }, scratch + sizeofKmemptr)
    else .again (s, kmemptrNext s.mem scratch)

/-- A turn of the loop in `kmalloc`; `found` is never set. The bound is pointer arithmetic on
`kmemptr_t*`, so it lies `16 * total_length` bytes above the head, modulo 2^32. -/
def kmallocTurn (P : PageMap) (bsize : Word) : Kmem × Word → Turn (Kmem × Word) (Kmem × Word)
  | (s, scratch) =>
    if scratch < s.head + s.totalLength * sizeofKmemptr ∧ scratch ≠ 0 then
      tryBlock bsize (growAtTail P bsize s scratch)
    else .exit (s, 0)

def kmalloc (P : PageMap) (fuel : ℕ) (bsize : Word) (s : Kmem) : Option (Kmem × Word) :=
  run (kmallocTurn P (alignBlock bsize)) fuel (s, s.firstFree)

def KmallocReturns (P : PageMap) (s : Kmem) (bsize : Word) (t : Kmem) (p : Word) : Prop :=
  Exits (kmallocTurn P (alignBlock bsize)) (s, s.firstFree) (t, p)

def eatNext (m : Mem) (scratch : Word) : Mem :=
  let m := setPrev m (kmemptrNext m (kmemptrNext m scratch)) scratch
  let m := setSize m scratch
    ((kmemptr m scratch).size + ((kmemptr m (kmemptrNext m scratch)).size + sizeofKmemptr))
  let m := setNext m scratch (kmemptrNext m (kmemptrNext m scratch))
  setFlags m scratch kmemFree

def eatenByPrev (m : Mem) (prev scratch : Word) : Mem :=
  let m := setSize m prev ((kmemptr m prev).size + ((kmemptr m scratch).size + sizeofKmemptr))
  let m := setPrev m (kmemptrNext m scratch) prev
  setNext m prev (kmemptrNext m scratch)

def mergeNext (m : Mem) (scratch : Word) : Mem :=
  if (kmemptr m (kmemptrNext m scratch)).flags = kmemFree ∧
      (kmemptr m (kmemptrNext m scratch)).flags ≠ kmemTail then eatNext m scratch else m

def mergePrev (m : Mem) (prev scratch : Word) : Mem :=
  if (kmemptr m prev).flags = kmemFree ∧ prev ≠ scratch then eatenByPrev m prev scratch else m

def leaveAlone (m : Mem) (scratch : Word) : Mem :=
  if (kmemptr m scratch).flags = kmemUsed then setFlags m scratch kmemFree else m

def kfree (s : Kmem) (ptr : Word) : Kmem :=
  let scratch := ptr - sizeofKmemptr
  let prev := (kmemptr s.mem scratch).prev
  if (kmemptr s.mem scratch).flags = kmemUsed then
    { s with mem := leaveAlone (mergePrev (mergeNext s.mem scratch) prev scratch) scratch }
  else s

end Rinix.Heap
