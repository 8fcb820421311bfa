import Rinix.Lib.I386
import Rinix.Paging.MapPage

/-!
`boot.s`: one table for the first 4 MiB, found at 0 and at 3 GiB, and the switch to it in the middle
of a call.
-/

namespace Rinix.Paging

open ByteMemory PageTable WhileLoop Frames I386

def kernelVirtualBase : Word := 0xC0000000

def kernelPtNumber : Word := kernelVirtualBase >>> 22

def pagingBit : Word := 1 <<< 31

structure BootImage where
  stackTop : Word
  initialPD : Word
  initialPT : Word
  multibootInfo : Word
  (afterPopulate afterPaging afterStart afterInitk : Word)

/-- The processor while `boot.s` runs. The memory of `cpu` is the physical one. -/
structure Early where
  cpu : Cpu
  cr0 : Word
  cr3 : Word
  bitmap : PfBitmap

namespace Early

def machine (c : Early) : Machine := ⟨c.cpu.mem, c.cr3, c.bitmap⟩

def Paged (c : Early) : Prop := c.cr0 &&& pagingBit ≠ 0

instance (c : Early) : Decidable c.Paged := inferInstanceAs (Decidable (_ ≠ _))

def locate (c : Early) (a : Word) : Option Word := if c.Paged then c.machine.translate a else some a

def get (c : Early) (r : Reg) : Word := c.cpu.reg r

def set (c : Early) (r : Reg) (v : Word) : Early := { c with cpu := c.cpu.set r v }

def read (c : Early) (a : Word) : Option Word := (c.locate a).map (load c.cpu.mem)

def write (c : Early) (a v : Word) : Option Early :=
  (c.locate a).map fun p => { c with cpu := { c.cpu with mem := store c.cpu.mem p v } }

def push (c : Early) (v : Word) : Option Early := (c.set .esp (c.get .esp - 4)).write (c.get .esp - 4) v

def pop (c : Early) (r : Reg) : Option Early :=
  (c.read (c.get .esp)).map fun v => (c.set .esp (c.get .esp + 4)).set r v

/-- `ret` goes on behind the call only if it finds the return address. -/
def call (c : Early) (next : Word) (f : Early → Option Early) : Option Early := do
  let c ← c.push next
  let c ← f c
  let a ← c.read (c.get .esp)
  if a = next then some (c.set .esp (c.get .esp + 4)) else none

def saveRegisters (c : Early) : Option Early :=
  [Reg.eax, .ebx, .ecx, .edx].foldlM (fun c r => c.push (c.get r)) c

def restoreRegisters (c : Early) : Option Early := [Reg.edx, .ecx, .ebx, .eax].foldlM pop c

end Early

def createPte (c : Early) : Early :=
  let c := c.set .edx (c.get .eax)
  let c := c.set .edx (c.get .edx <<< 12)
  c.set .edx (c.get .edx ||| 3)

def ptLoop (c : Early) : Turn Early (Option Early) :=
  let c := createPte c
  match c.write (c.get .ecx + c.get .eax * 4) (c.get .edx) with
  | none => .exit none
  | some c =>
    let c := c.set .eax (c.get .eax + 1)
    if (c.get .eax).slt 1024 then .again c else .exit (some c)

def populatePT (image : BootImage) (fuel : ℕ) (c : Early) : Option Early := do
  let c ← c.saveRegisters
  let c := c.set .ecx image.initialPT
  let c := c.set .ecx (c.get .ecx - kernelVirtualBase)
  let c := c.set .eax 0
  let c ← (run ptLoop fuel c).join
  c.restoreRegisters

def createPde (image : BootImage) (c : Early) : Early :=
  let c := c.set .ecx image.initialPT
  let c := c.set .ecx (c.get .ecx - kernelVirtualBase)
  let c := c.set .ecx (c.get .ecx &&& 0xFFFFF000)
  c.set .ecx (c.get .ecx ||| 0x3)

def createRecursivePde (c : Early) : Early :=
  let c := c.set .ecx (c.get .eax)
  let c := c.set .ecx (c.get .ecx &&& 0xFFFFF000)
  c.set .ecx (c.get .ecx ||| 0x3)

def fillDirectory (image : BootImage) (c : Early) : Option Early := do
  let c := createPde image c
  let c ← c.write (c.get .eax) (c.get .ecx)
  let c := c.set .edx kernelPtNumber
  let c ← c.write (c.get .eax + c.get .edx * 4) (c.get .ecx)
  let c := createRecursivePde c
  let c := c.set .edx 0x3FF
  c.write (c.get .eax + c.get .edx * 4) (c.get .ecx)

def enablePaging (c : Early) : Early :=
  let c := { c with cr3 := c.get .eax }
  let c := c.set .eax c.cr0
  let c := c.set .eax (c.get .eax ||| pagingBit)
  { c with cr0 := c.get .eax }

def initPaging (image : BootImage) (fuel : ℕ) (c : Early) : Option Early := do
  let c ← c.saveRegisters
  let c := c.set .eax image.initialPD
  let c := c.set .eax (c.get .eax - kernelVirtualBase)
  let c ← c.call image.afterPopulate (populatePT image fuel)
  let c ← fillDirectory image c
  let c := enablePaging c
  c.restoreRegisters

def loader (image : BootImage) (fuel : ℕ) (c : Early) : Option Early := do
  let c := c.set .esp image.stackTop
  let c := c.set .esp (c.get .esp - kernelVirtualBase)
  let c ← c.call image.afterPaging (initPaging image fuel)
  let c := c.set .esp (c.get .esp + kernelVirtualBase)
  c.push image.afterStart

def start (image : BootImage) (c : Early) : Option Early := do
  let c ← c.push image.initialPD
  let c ← c.write image.multibootInfo (c.get .ebx)
  c.push image.afterInitk

def boot (image : BootImage) (c : Early) (fuel : ℕ) : Option Early := (loader image fuel c).bind (start image)

def Ends (o : Option Early) (P : Early → Prop) : Prop := ∃ d, o = some d ∧ P d

structure Early.At (c : Early) (base : Word) (s : Machine) (cr0 off : Word) (v : View) : Prop where
  bottom : v.base = base
  shows : (c.cpu.set .esp (c.get .esp - off)).Shows s.mem 10 v
  cr0 : c.cr0 = cr0
  cr3 : c.cr3 = s.cr3
  bitmap : c.bitmap = s.bitmap
  low : 40 ≤ base.toNat ∧ base.toNat ≤ 0x400000

def Leads (base : Word) (s : Machine) (cr0 off : Word) : Prop :=
  ∀ c v, Early.At c base s cr0 off v → ∀ a, a.toNat < 0x400000 → c.locate (a + off) = some a

def Off (base a : Word) : Prop := ∀ y, (y - a).toNat < 4 → 40 ≤ (y - (base - word 40)).toNat

variable {image : BootImage} {c d : Early} {s t : Machine} {v : View} {r : Reg}
  {cr0 cr0' off x a base : Word} {f : Frame}
  {k : Paging.Slot} {rest : List I386.Slot} {P Q : Early → Prop}

theorem Ends.bind {o : Option Early} {g : Early → Option Early} (h : Ends o P)
    (hg : ∀ d, P d → Ends (g d) Q) :
    Ends (o >>= g) Q := by
  obtain ⟨d, rfl, hd⟩ := h
  exact hg d hd

theorem Ends.mono {o : Option Early} (h : Ends o P) (hPQ : ∀ d, P d → Q d) : Ends o Q := by
  obtain ⟨d, hd, hP⟩ := h
  exact ⟨d, hd, hPQ d hP⟩

namespace Early.At

theorem same {u : View} (h : c.At base s cr0 off u) (huv : u = v) : c.At base s cr0 off v := huv ▸ h

theorem esp (h : c.At base s cr0 off v) : c.get .esp = v.esp + off := by
  have hesp := h.shows.esp
  rw [Cpu.set_reg, Function.update_self] at hesp
  rw [← hesp]
  grind

theorem get (h : c.At base s cr0 off v) (hr : r ≠ .esp) : c.get r = v.reg r := by
  have hreg := h.shows.reg r
  rw [Cpu.set_reg, Function.update_of_ne hr, View.get_other v hr] at hreg
  exact hreg

theorem set (h : c.At base s cr0 off v) (hr : r ≠ .esp) (x : Word) :
    (c.set r x).At base s cr0 off (v.set r x) := by
  have hesp : (c.set r x).get .esp = c.get .esp := by
    rw [Early.get, Early.set, Cpu.set_reg, Function.update_of_ne hr.symm]
    rfl
  have hcpu : (c.set r x).cpu.set .esp ((c.set r x).get .esp - off) =
    (c.cpu.set .esp (c.get .esp - off)).set r x := by
    rw [hesp]
    exact congrArg (fun g => { c.cpu with reg := g }) (Function.update_comm hr ..)
  refine ⟨h.bottom, ?_, h.cr0, h.cr3, h.bitmap, h.low⟩
  rw [hcpu]
  exact h.shows.set hr x

theorem update (h : c.At base s cr0 off v) (hr : r ≠ .esp) (g : Word → Word) :
    (c.set r (g (c.get r))).At base s cr0 off (v.set r (g (v.reg r))) := by
  rw [h.get hr]
  exact h.set hr _

theorem shift (h : c.At base s cr0 off v) (off' : Word) :
    (c.set .esp (c.get .esp - off + off')).At base s cr0 off' v := by
  refine ⟨h.bottom, ?_, h.cr0, h.cr3, h.bitmap, h.low⟩
  have hcpu : (c.set .esp (c.get .esp - off + off')).cpu.set .esp
      ((c.set .esp (c.get .esp - off + off')).get .esp - off') = c.cpu.set .esp (c.get .esp - off) := by
    have hesp : (c.set .esp (c.get .esp - off + off')).get .esp - off' = c.get .esp - off := by
      rw [Early.get, Early.set, Cpu.set_reg, Function.update_self]
      grind
    rw [hesp]
    exact congrArg (fun g => { c.cpu with reg := g }) (Function.update_idem ..)
  rw [hcpu]
  exact h.shows

theorem push (hlead : Leads base s cr0 off) (h : c.At base s cr0 off v)
    (hroom : v.stack.length < 10) (x : Word) :
    Ends (c.push x) fun d => d.At base s cr0 off (v.push (.word x)) := by
  have hlow := h.low
  have hplace : c.get .esp - 4 = v.esp - 4 + off := by
    rw [h.esp]
    grind
  have hin : (v.esp - 4).toNat < 0x400000 := by
    have hlength := toNat_word (show 4 * v.stack.length < 4294967296 by omega)
    rw [View.esp, h.bottom]
    bv_omega
  have hlocate : (c.set .esp (c.get .esp - 4)).locate (c.get .esp - 4) = some (v.esp - 4) := by
    rw [hplace]
    exact hlead c v h _ hin
  have hreads : (Slot.word x).Reads x := rfl
  have hpush := h.shows.push hreads hroom (by omega)
  have hsub : c.get .esp - off = v.esp := by
    rw [h.esp]
    grind
  rw [Early.push, Early.write, hlocate, Option.map_some]
  refine ⟨_, rfl, h.bottom, ?_, h.cr0, h.cr3, h.bitmap, h.low⟩
  rw [hsub, Cpu.push] at hpush
  have hesp : c.get .esp - 4 - off = v.esp - 4 := by
    rw [hplace]
    grind
  simp only [Early.get, Early.set, Cpu.set, Function.update_self, Function.update_idem] at hpush hesp ⊢
  rw [hesp]
  exact hpush

theorem peek {i : ℕ} (hlead : Leads base s cr0 off) (h : c.At base s cr0 off v)
    (hi : v.stack[i]? = some (.word x)) :
    c.read (c.get .esp + word (4 * i)) = some x := by
  have hlow := h.low
  have hroom := h.shows.room
  have hlength : i < v.stack.length := (List.getElem?_eq_some_iff.mp hi).1
  have hin : (v.esp + word (4 * i)).toNat < 0x400000 := by
    have hword := toNat_word (show 4 * v.stack.length < 4294967296 by omega)
    have hindex := toNat_word (show 4 * i < 4294967296 by omega)
    rw [View.esp, h.bottom]
    bv_omega
  have hsub : c.get .esp - off = v.esp := by
    rw [h.esp]
    grind
  have hplace : c.get .esp + word (4 * i) = v.esp + word (4 * i) + off := by
    rw [h.esp]
    grind
  have hread := h.shows.read hi
  rw [hsub, Cpu.peek, Cpu.set_reg, Function.update_self, Cpu.set_mem] at hread
  rw [Early.read, hplace, hlead c v h _ hin, Option.map_some, hread]

theorem top (hlead : Leads base s cr0 off) (h : c.At base s cr0 off v) (hstack : v.stack = .word x :: rest) :
    c.read (c.get .esp) = some x := by
  have hpeek := h.peek (i := 0) hlead (by rw [hstack, List.getElem?_cons_zero])
  rw [← hpeek]
  exact congrArg c.read (BitVec.add_zero _).symm

theorem drop {y : I386.Slot} (h : c.At base s cr0 off v) (hstack : v.stack = y :: rest) :
    (c.set .esp (c.get .esp + 4)).At base s cr0 off { v with stack := rest } := by
  have hsub : c.get .esp - off = v.esp := by
    rw [h.esp]
    grind
  have hesp : c.get .esp + 4 - off = v.esp + word (4 * 1) := by
    rw [h.esp, show word (4 * 1) = 4 from rfl]
    grind
  have hdrop := h.shows.drop (k := 1) (by rw [hstack, List.length_cons]; omega)
  refine ⟨h.bottom, ?_, h.cr0, h.cr3, h.bitmap, h.low⟩
  rw [hsub, Cpu.drop, hstack] at hdrop
  simp only [Early.get, Early.set, Cpu.set, Function.update_self, Function.update_idem] at hdrop hesp ⊢
  rw [hesp]
  exact hdrop

theorem pop (hlead : Leads base s cr0 off) (h : c.At base s cr0 off v) (hstack : v.stack = .word x :: rest)
    (hr : r ≠ .esp) :
    Ends (c.pop r) fun d => d.At base s cr0 off ({ v with stack := rest }.set r x) := by
  rw [Early.pop, h.top hlead hstack, Option.map_some]
  exact ⟨_, rfl, (h.drop hstack).set hr x⟩

theorem write (hlocate : c.locate a = some (slotAddress f k)) (h : c.At base s cr0 off v)
    (hout : Off base (slotAddress f k)) (x : Word) : Ends (c.write a x) fun d =>
    d.At base (s.put f k x) cr0 off v := by
  rw [Early.write, hlocate, Option.map_some]
  exact ⟨_, rfl, h.bottom, h.shows.store (by omega) (by rw [h.bottom]; exact hout) x, h.cr0, h.cr3,
    h.bitmap, h.low⟩

theorem call {next : Word} {g : Early → Option Early} (hlead : Leads base s cr0 off)
    (hlead' : Leads base t cr0' off) (h : c.At base s cr0 off v) (hroom : v.stack.length < 10)
    (hg : ∀ d, d.At base s cr0 off (v.push (.word next)) →
      Ends (g d) fun e => e.At base t cr0' off (v.push (.word next))) :
    Ends (c.call next g) fun d => d.At base t cr0' off v := by
  refine (h.push hlead hroom next).bind fun d hd => (hg d hd).bind fun e he => ?_
  rw [he.top hlead' rfl, Option.bind_eq_bind, Option.bind_some, if_pos rfl]
  exact ⟨_, rfl, he.drop rfl⟩

theorem pushes (hlead : Leads base s cr0 off) (h : c.At base s cr0 off v) (rs : List Reg)
    (hrs : ∀ r ∈ rs, r ≠ .esp)
    (hroom : v.stack.length + rs.length ≤ 10) : Ends (rs.foldlM (fun c r => c.push (c.get r)) c) fun d =>
      d.At base s cr0 off { v with stack := (rs.map fun r => Slot.word (v.reg r)).reverse ++ v.stack } := by
  induction rs generalizing c v with
  | nil => exact ⟨c, rfl, h⟩
  | cons r rs ih =>
    rw [List.length_cons] at hroom
    rw [List.foldlM_cons, h.get (hrs r List.mem_cons_self)]
    refine (h.push hlead (by omega) _).bind fun d hd => ?_
    have hrest := ih hd (fun r hr => hrs r (List.mem_cons_of_mem _ hr))
      (by simp only [View.push, List.length_cons]; omega)
    simp only [View.push, List.map_cons, List.reverse_cons, List.append_assoc,
      List.singleton_append] at hrest ⊢
    exact hrest

theorem saveRegisters (hlead : Leads base s cr0 off) (h : c.At base s cr0 off v)
    (hroom : v.stack.length + 4 ≤ 10) :
    Ends c.saveRegisters fun d => d.At base s cr0 off { v with
      stack := [v.reg .edx, v.reg .ecx, v.reg .ebx, v.reg .eax].map Slot.word ++ v.stack } :=
  h.pushes hlead [.eax, .ebx, .ecx, .edx] (by decide) hroom

theorem restoreRegisters {eax ebx ecx edx : Word} (hlead : Leads base s cr0 off) (h : c.At base s cr0 off v)
    (hstack : v.stack = [edx, ecx, ebx, eax].map Slot.word ++ rest) : Ends c.restoreRegisters fun d =>
      d.At base s cr0 off (((({ v with stack := rest }.set .edx edx).set .ecx ecx).set .ebx ebx).set
      .eax eax) := by
  rw [Early.restoreRegisters]
  simp only [List.foldlM_cons, List.foldlM_nil]
  refine (h.pop hlead hstack (by decide)).bind fun c₁ h₁ => ?_
  refine (h₁.pop hlead rfl (by decide)).bind fun c₂ h₂ => ?_
  refine (h₂.pop hlead rfl (by decide)).bind fun c₃ h₃ => ?_
  exact (h₃.pop hlead rfl (by decide)).bind fun c₄ h₄ => ⟨c₄, rfl, h₄⟩

end Early.At

theorem locate_off (hoff : cr0 &&& pagingBit = 0) (h : c.At base s cr0 off v) (a : Word) :
    c.locate a = some a := by
  have hunpaged : ¬c.Paged := by
    rw [Early.Paged, h.cr0, hoff]
    exact fun hne => hne rfl
  rw [Early.locate, if_neg hunpaged]

theorem leads_off (hoff : cr0 &&& pagingBit = 0) (base : Word) (s : Machine) : Leads base s cr0 0 := by
  intro c v h a ha
  exact (locate_off hoff h (a + 0)).trans (congrArg some (BitVec.add_zero a))

theorem createPte_at (h : c.At base s cr0 off v) :
    (createPte c).At base s cr0 off (v.set .edx (v.reg .eax <<< 12 ||| 3)) := by
  have h₁ := h.set (r := .edx) (by decide) (c.get .eax)
  have h₂ := (h₁.update (r := .edx) (by decide) (· <<< 12)).update (r := .edx) (by decide) (· ||| 3)
  simp only [View.set_set, View.set_reg, Function.update_self] at h₂
  rw [← h.get (r := .eax) (by decide)]
  exact h₂

theorem createPde_at (h : c.At base s cr0 off v) : (createPde image c).At base s cr0 off
    (v.set .ecx (entryFor (image.initialPT - kernelVirtualBase) 3)) := by
  have h₁ := h.set (r := .ecx) (by decide) image.initialPT
  have h₂ := ((h₁.update (r := .ecx) (by decide) (· - kernelVirtualBase)).update (r := .ecx) (by decide)
    (· &&& 0xFFFFF000)).update (r := .ecx) (by decide) (· ||| 0x3)
  simp only [View.set_set, View.set_reg, Function.update_self] at h₂
  exact h₂

theorem createRecursivePde_at (h : c.At base s cr0 off v) :
    (createRecursivePde c).At base s cr0 off (v.set .ecx (entryFor (v.reg .eax) 3)) := by
  have h₁ := h.set (r := .ecx) (by decide) (c.get .eax)
  have h₂ := (h₁.update (r := .ecx) (by decide) (· &&& 0xFFFFF000)).update (r := .ecx) (by decide) (· ||| 0x3)
  simp only [View.set_set, View.set_reg, Function.update_self] at h₂
  rw [← h.get (r := .eax) (by decide)]
  exact h₂

def populated (s : Machine) (pt : Frame) (n : ℕ) : Machine :=
  upTo n (fun s i => s.put pt (BitVec.ofNat 10 i) (word i <<< 12 ||| 3)) s

section Populate

variable {pt : Frame} {n fuel : ℕ}

theorem entry_address (pt : Frame) (hn : n < 1024) :
    slotAddress pt 0 + word n * 4 = slotAddress pt (BitVec.ofNat 10 n) := by
  apply BitVec.eq_of_toNat_eq
  have hpt := pt.isLt
  have hzero := slotAddress_toNat pt 0
  have hslot := slotAddress_toNat pt (BitVec.ofNat 10 n)
  have hword := toNat_word (show n < 4294967296 by omega)
  have hindex : (BitVec.ofNat 10 n).toNat = n := by
    rw [BitVec.toNat_ofNat]
    omega
  bv_omega

def turnView (v : View) (pt : Frame) (n : ℕ) (x : Word) : View :=
  ((v.set .ecx (slotAddress pt 0)).set .eax (word n)).set .edx x

variable (hoff : cr0 &&& pagingBit = 0) (hpt : ∀ k, Off base (slotAddress pt k))
include hoff hpt

theorem ptLoop_turn (hn : n < 1024) (h : c.At base (populated s pt n) cr0 0 (turnView v pt n x)) :
    ∃ d y, d.At base (populated s pt (n + 1)) cr0 0 (turnView v pt (n + 1) y) ∧
      ptLoop c = if n + 1 < 1024 then .again d else .exit (some d) := by
  have hentry := createPte_at h
  have heax : (createPte c).get .eax = word n := hentry.get (by decide)
  have hecx : (createPte c).get .ecx = slotAddress pt 0 := hentry.get (by decide)
  have hedx : (createPte c).get .edx = word n <<< 12 ||| 3 := hentry.get (by decide)
  have hlocate : (createPte c).locate (slotAddress pt 0 + word n * 4) =
    some (slotAddress pt (BitVec.ofNat 10 n)) := by
    rw [locate_off hoff hentry, entry_address pt hn]
  obtain ⟨d, hd, hwritten⟩ := hentry.write hlocate (hpt _) (word n <<< 12 ||| 3)
  have hcount : d.get .eax = word n := hwritten.get (by decide)
  have hnext := hwritten.set (r := .eax) (by decide) (word (n + 1))
  have hview : ((turnView v pt n x).set .edx (word n <<< 12 ||| 3)).set .eax (word (n + 1)) =
      turnView v pt (n + 1) (word n <<< 12 ||| 3) := by
    simp only [turnView, View.set_set]
    rw [View.set_comm (r := .edx) _ (by decide), View.set_set]
  have htables : populated s pt (n + 1) = (populated s pt n).put pt (BitVec.ofNat 10 n)
    (word n <<< 12 ||| 3) :=
    upTo_succ ..
  refine ⟨d.set .eax (word (n + 1)), word n <<< 12 ||| 3, ?_, ?_⟩
  · rw [htables, ← hview]
    exact hnext
  · have hadd : d.get .eax + 1 = word (n + 1) := by
      rw [hcount]
      exact word_add n 1
    have hless : ((d.set .eax (word (n + 1))).get .eax).slt 1024 = true ↔ n + 1 < 1024 := by
      rw [Early.get, Early.set, Cpu.set_reg, Function.update_self]
      exact word_slt (a := n + 1) (b := 1024) (by omega) (by omega)
    simp only [ptLoop, heax, hecx, hedx, hd, hadd]
    exact if_congr hless rfl rfl

theorem ptLoop_ends (m : ℕ) (hn : n + m + 1 = 1024)
    (h : c.At base (populated s pt n) cr0 0 (turnView v pt n x)) :
    ∃ d y, d.At base (populated s pt 1024) cr0 0 (turnView v pt 1024 y) ∧
    run ptLoop (m + 1) c = some (some d) := by
  induction m generalizing n c x with
  | zero =>
    obtain ⟨d, y, hd, hturn⟩ := ptLoop_turn hoff hpt (show n < 1024 by omega) h
    rw [if_neg (by omega)] at hturn
    rw [show n + 1 = 1024 by omega] at hd
    exact ⟨d, y, hd, by simp only [run, hturn]⟩
  | succ m ih =>
    obtain ⟨d, y, hd, hturn⟩ := ptLoop_turn hoff hpt (show n < 1024 by omega) h
    rw [if_pos (by omega)] at hturn
    obtain ⟨e, z, he, hrun⟩ := ih (n := n + 1) (by omega) hd
    refine ⟨e, z, he, ?_⟩
    rw [run, hturn]
    exact hrun

theorem ptLoop_populates (hfuel : 1024 ≤ fuel) (h : c.At base s cr0 0 (turnView v pt 0 x)) :
    Ends (run ptLoop fuel c).join fun d => ∃ y, d.At base (populated s pt 1024) cr0 0
    (turnView v pt 1024 y) := by
  obtain ⟨d, y, hd, hrun⟩ := ptLoop_ends (n := 0) hoff hpt 1023 (by omega) h
  have hmore : run ptLoop fuel c = some (some d) := run_fuelled ptLoop c 1024 fuel _ hfuel hrun
  rw [hmore]
  exact ⟨d, rfl, y, hd⟩

theorem populatePT_ends (hfuel : 1024 ≤ fuel)
    (himage : image.initialPT - kernelVirtualBase = slotAddress pt 0)
    (hroom : v.stack.length + 4 ≤ 10) (h : c.At base s cr0 0 v) :
    Ends (populatePT image fuel c) fun d => d.At base (populated s pt 1024) cr0 0 v := by
  refine (h.saveRegisters (leads_off hoff _ s) hroom).bind fun c₁ h₁ => ?_
  have h₂ := ((h₁.set (r := .ecx) (by decide) image.initialPT).update (r := .ecx) (by decide)
    (· - kernelVirtualBase)).set (r := .eax) (by decide) 0
  simp only [View.set_set, View.set_reg, Function.update_self, himage] at h₂
  have hview (u : View) : (u.set .ecx (slotAddress pt 0)).set .eax 0 = turnView u pt 0 (u.reg .edx) :=
    (View.set_reg_self ..).symm
  rw [hview] at h₂
  refine (ptLoop_populates hoff hpt hfuel h₂).bind fun c₃ ⟨y, h₃⟩ => ?_
  refine (h₃.restoreRegisters (leads_off hoff _ _) rfl).mono fun c₄ h₄ => ?_
  exact h₄.same (View.ext rfl (funext fun r => by cases r <;> rfl) rfl rfl rfl rfl)

end Populate

theorem Early.At.write_off {y : Word} (hoff : cr0 &&& pagingBit = 0) (h : c.At base s cr0 off v)
    (hout : Off base (slotAddress f k)) (ha : a = slotAddress f k) (hx : x = y) :
    Ends (c.write a x) fun d => d.At base (s.put f k y) cr0 off v := by
  subst ha hx
  exact h.write (locate_off hoff h _) hout x

theorem Early.At.write_entry {n : ℕ} (hoff : cr0 &&& pagingBit = 0) (h : c.At base s cr0 off v)
    (hout : Off base (slotAddress f (BitVec.ofNat 10 n))) (hn : n < 1024)
    (heax : c.get .eax = slotAddress f 0)
    (hedx : c.get .edx = word n) : Ends (c.write (c.get .eax + c.get .edx * 4) (c.get .ecx)) fun d =>
      d.At base (s.put f (BitVec.ofNat 10 n) (v.reg .ecx)) cr0 off v := by
  refine h.write_off hoff hout ?_ (h.get (by decide))
  rw [heax, hedx, entry_address f hn]

def Machine.filled (s : Machine) (pd pt : Frame) : Machine :=
  ((s.put pd 0 (entryFor (slotAddress pt 0) 3)).put pd 0x300 (entryFor (slotAddress pt 0) 3)).put pd 0x3FF
    (entryFor (slotAddress pd 0) 3)

def Machine.booted (s : Machine) (pd pt : Frame) : Machine :=
  { (populated s pt 1024).filled pd pt with cr3 := slotAddress pd 0 }

section InitPaging

variable {pd pt : Frame} {fuel : ℕ} (hoff : cr0 &&& pagingBit = 0) (hpd : ∀ k, Off base (slotAddress pd k))
  (hPT : image.initialPT - kernelVirtualBase = slotAddress pt 0)
include hoff hpd hPT

theorem fillDirectory_ends (h : c.At base s cr0 off v) (heax : v.reg .eax = slotAddress pd 0) :
    Ends (fillDirectory image c) fun d =>
      d.At base (s.filled pd pt) cr0 off ((v.set .ecx (entryFor (slotAddress pd 0) 3)).set .edx 0x3FF) := by
  have h₁ : (createPde image c).At base s cr0 off
      (v.set .ecx (entryFor (image.initialPT - kernelVirtualBase) 3)) := createPde_at h
  rw [hPT] at h₁
  refine (h₁.write_off hoff (hpd 0) ((h₁.get (r := .eax) (by decide)).trans heax)
    (h₁.get (by decide))).bind fun c₂ h₂ => ?_
  have h₃ := h₂.set (r := .edx) (by decide) kernelPtNumber
  refine (h₃.write_entry hoff (hpd _) (show 0x300 < 1024 by decide)
    ((h₃.get (r := .eax) (by decide)).trans heax) (h₃.get (by decide))).bind fun c₄ h₄ => ?_
  have hself : ((v.set .ecx (entryFor (slotAddress pt 0) 3)).set .edx kernelPtNumber).reg .eax =
    slotAddress pd 0 := heax
  have h₅ := createRecursivePde_at h₄
  rw [hself] at h₅
  have h₆ := h₅.set (r := .edx) (by decide) 0x3FF
  refine (h₆.write_entry hoff (hpd _) (show 0x3FF < 1024 by decide)
    ((h₆.get (r := .eax) (by decide)).trans heax) (h₆.get (by decide))).mono fun d hd => ?_
  exact hd.same (View.ext rfl (funext fun r => by cases r <;> rfl) rfl rfl rfl rfl)

omit hoff hpd hPT in
theorem enablePaging_at (h : c.At base s cr0 off v) : (enablePaging c).At base { s with cr3 := v.reg .eax }
    (cr0 ||| pagingBit) off (v.set .eax (cr0 ||| pagingBit)) := by
  have hdir : Early.At { c with cr3 := c.get .eax } base { s with cr3 := v.reg .eax } cr0 off v :=
    ⟨h.bottom, h.shows, h.cr0, h.get (by decide), h.bitmap, h.low⟩
  have hcr0 := (hdir.set (r := .eax) (by decide) c.cr0).update (r := .eax) (by decide) (· ||| pagingBit)
  simp only [View.set_set, View.set_reg, Function.update_self] at hcr0
  have hvalue := hcr0.get (r := .eax) (by decide)
  rw [View.set_reg, Function.update_self] at hvalue
  rw [← h.cr0]
  exact ⟨hcr0.bottom, hcr0.shows, hvalue, hcr0.cr3, hcr0.bitmap, hcr0.low⟩

theorem initPaging_ends (hpt : ∀ k, Off base (slotAddress pt k))
    (hlead : Leads base (s.booted pd pt) (cr0 ||| pagingBit) 0) (hfuel : 1024 ≤ fuel)
    (hPD : image.initialPD - kernelVirtualBase = slotAddress pd 0) (hroom : v.stack.length + 9 ≤ 10)
    (h : c.At base s cr0 0 v) :
    Ends (initPaging image fuel c) fun d => d.At base (s.booted pd pt) (cr0 ||| pagingBit) 0 v := by
  have hleads := leads_off hoff base
  have hlength : ([v.reg .edx, v.reg .ecx, v.reg .ebx, v.reg .eax].map Slot.word ++ v.stack).length =
      v.stack.length + 4 := by
    rw [List.length_append, List.length_map]
    exact Nat.add_comm ..
  refine (h.saveRegisters (hleads s) (by omega)).bind fun c₁ h₁ => ?_
  have h₂ := (h₁.set (r := .eax) (by decide) image.initialPD).update (r := .eax) (by decide)
    (· - kernelVirtualBase)
  simp only [View.set_set, View.set_reg, Function.update_self, hPD] at h₂
  refine (h₂.call (hleads s) (hleads (populated s pt 1024)) (by rw [View.set_stack, hlength]; omega)
    fun c₃ h₃ => ?_).bind fun c₄ h₄ => ?_
  · refine populatePT_ends hoff hpt hfuel hPT ?_ h₃
    rw [View.push, List.length_cons, View.set_stack, hlength]
    omega
  refine (fillDirectory_ends hoff hpd hPT h₄ rfl).bind fun c₅ h₅ => ?_
  refine ((enablePaging_at h₅).restoreRegisters hlead rfl).mono fun c₆ h₆ => ?_
  exact h₆.same (View.ext rfl (funext fun r => by cases r <;> rfl) rfl rfl rfl rfl)

end InitPaging

end Rinix.Paging
