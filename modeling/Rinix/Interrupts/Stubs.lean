import Mathlib.Data.Finset.Insert
import Rinix.Lib.I386

/-!
`isr.s` and `irq.s`: what the C handler of an interrupt is given, and what its return gives back.
-/

namespace Rinix.Interrupts

open ByteMemory I386

structure Regs where
  (gs fs es ds : Word)
  (edi esi ebp esp ebx edx ecx eax : Word)
  (intNo errCode : Word)
  (eip cs eflags useresp ss : Word)

def Regs.read (m : Mem) (r : Word) : Regs :=
  let field (i : ℕ) : Word := load m (r + word (4 * i))
  { gs := field 0, fs := field 1, es := field 2, ds := field 3,
    edi := field 4, esi := field 5, ebp := field 6, esp := field 7,
    ebx := field 8, edx := field 9, ecx := field 10, eax := field 11,
    intNo := field 12, errCode := field 13,
    eip := field 14, cs := field 15, eflags := field 16, useresp := field 17, ss := field 18 }

structure Image where
  isr : Fin 32 → Word
  irq : Fin 16 → Word
  isrHandler : Word
  irqHandler : Word
  isrReturn : Word
  irqReturn : Word

def saveState (handler : Word) : List Instr :=
  [.pusha, .pushSeg .ds, .pushSeg .es, .pushSeg .fs, .pushSeg .gs,
    .movAx 0x10, .movSeg .ds, .movSeg .es, .movSeg .fs, .movSeg .gs,
    .movReg .esp .eax, .pushReg .eax, .mov handler .eax]

def restoreState : List Instr :=
  [.popReg .eax, .popSeg .gs, .popSeg .fs, .popSeg .es, .popSeg .ds, .popa, .addSp 8, .iret]

def commonStub (handler next : Word) : List Instr := saveState handler ++ .call .eax next :: restoreState

def isrCommonStub (image : Image) : List Instr := commonStub image.isrHandler image.isrReturn

def irqCommonStub (image : Image) : List Instr := commonStub image.irqHandler image.irqReturn

def dummyStub (n : Word) : List Instr := [.cli, .push 0, .push n]

def errorStub (n : Word) : List Instr := [.cli, .push n]

def isr0 : List Instr := dummyStub 0
def isr1 : List Instr := dummyStub 1
def isr2 : List Instr := dummyStub 2
def isr3 : List Instr := dummyStub 3
def isr4 : List Instr := dummyStub 4
def isr5 : List Instr := dummyStub 5
def isr6 : List Instr := dummyStub 6
def isr7 : List Instr := dummyStub 7
def isr8 : List Instr := errorStub 8
def isr9 : List Instr := dummyStub 9
def isr10 : List Instr := errorStub 10
def isr11 : List Instr := errorStub 11
def isr12 : List Instr := errorStub 12
def isr13 : List Instr := errorStub 13
def isr14 : List Instr := errorStub 14
def isr15 : List Instr := dummyStub 15
def isr16 : List Instr := dummyStub 16
def isr17 : List Instr := errorStub 17
def isr18 : List Instr := dummyStub 18
def isr19 : List Instr := dummyStub 19
def isr20 : List Instr := dummyStub 20
def isr21 : List Instr := dummyStub 21
def isr22 : List Instr := dummyStub 22
def isr23 : List Instr := dummyStub 23
def isr24 : List Instr := dummyStub 24
def isr25 : List Instr := dummyStub 25
def isr26 : List Instr := dummyStub 26
def isr27 : List Instr := dummyStub 27
def isr28 : List Instr := dummyStub 28
def isr29 : List Instr := dummyStub 29
def isr30 : List Instr := errorStub 30
def isr31 : List Instr := dummyStub 31

def irq0 : List Instr := dummyStub 32
def irq1 : List Instr := dummyStub 33
def irq2 : List Instr := dummyStub 34
def irq3 : List Instr := dummyStub 35
def irq4 : List Instr := dummyStub 36
def irq5 : List Instr := dummyStub 37
def irq6 : List Instr := dummyStub 38
def irq7 : List Instr := dummyStub 39
def irq8 : List Instr := dummyStub 40
def irq9 : List Instr := dummyStub 41
def irq10 : List Instr := dummyStub 42
def irq11 : List Instr := dummyStub 43
def irq12 : List Instr := dummyStub 44
def irq13 : List Instr := dummyStub 45
def irq14 : List Instr := dummyStub 46
def irq15 : List Instr := dummyStub 47

def isrStubs : List (List Instr) :=
  [isr0, isr1, isr2, isr3, isr4, isr5, isr6, isr7, isr8, isr9, isr10, isr11, isr12, isr13, isr14, isr15,
    isr16, isr17, isr18, isr19, isr20, isr21, isr22, isr23, isr24, isr25, isr26, isr27, isr28,
    isr29, isr30, isr31]

def irqStubs : List (List Instr) :=
  [irq0, irq1, irq2, irq3, irq4, irq5, irq6, irq7, irq8, irq9, irq10, irq11, irq12, irq13, irq14, irq15]

def isrStub (n : Fin 32) : List Instr := isrStubs.get n

def irqStub (n : Fin 16) : List Instr := irqStubs.get n

/-- The vectors whose stub leaves the error code to the processor. -/
def errorVectors : Finset (Fin 32) := {8, 10, 11, 12, 13, 14, 17, 30}

theorem isrStub_eq (n : Fin 32) :
    isrStub n = if n ∈ errorVectors then errorStub (word n) else dummyStub (word n) := by
  revert n
  decide

theorem irqStub_eq (n : Fin 16) : irqStub n = dummyStub (word (32 + n)) := by
  revert n
  decide

variable {ω : Type} {o : Outside ω} {upper : Cpu → BitVec 16} {c d e : Cpu} {r : Regs}
  {stub : List Instr} {handler next entry n error : Word} {selector : BitVec 16} {pushed : Option Word}

structure Saves (c : Cpu) (n error : Word) (r : Regs) : Prop where
  edi : r.edi = c.reg .edi
  esi : r.esi = c.reg .esi
  ebp : r.ebp = c.reg .ebp
  ebx : r.ebx = c.reg .ebx
  edx : r.edx = c.reg .edx
  ecx : r.ecx = c.reg .ecx
  eax : r.eax = c.reg .eax
  gs : r.gs.setWidth 16 = c.seg .gs
  fs : r.fs.setWidth 16 = c.seg .fs
  es : r.es.setWidth 16 = c.seg .es
  ds : r.ds.setWidth 16 = c.seg .ds
  intNo : r.intNo = n
  errCode : r.errCode = error
  eip : r.eip = c.eip
  cs : r.cs.setWidth 16 = c.seg .cs
  eflags : r.eflags = c.eflags

structure Entered (c d : Cpu) (n error : Word) : Prop where
  sp : d.reg .esp = c.reg .esp - word 76
  frame : d.peek 1 = d.reg .esp + word 8
  saves : Saves c n error (Regs.read d.mem (d.peek 1))
  data : d.seg .ds = 0x10 ∧ d.seg .es = 0x10 ∧ d.seg .fs = 0x10 ∧ d.seg .gs = 0x10
  stack : d.seg .ss = c.seg .ss
  masked : d.eflags &&& flagIF = 0
  kept : ∀ x, 76 ≤ (x - (c.reg .esp - word 76)).toNat → d.mem x = c.mem x

def enter (upper : Cpu → BitVec 16) (stub : List Instr) (handler next : Word) (d : Cpu) : Cpu :=
  (steps upper (stub ++ saveState handler) d).push next

theorem saveState_plain (handler : Word) : ∀ i ∈ saveState handler, i.isCall = false := by
  simp only [saveState, List.forall_mem_cons]
  exact ⟨rfl, rfl, rfl, rfl, rfl, rfl, rfl, rfl, rfl, rfl, rfl, rfl, rfl,
    fun _ h => absurd h List.not_mem_nil⟩

theorem restoreState_plain : ∀ i ∈ restoreState, i.isCall = false := by decide

theorem saveState_eax (handler : Word) (d : Cpu) : (steps upper (saveState handler) d).reg .eax =
    handler := rfl

theorem exec_stub (h : ∀ i ∈ stub, i.isCall = false) (d : Cpu) (w : ω) :
    o.exec (stub ++ commonStub handler next) (d, w) =
      (o.call handler (enter o.upper stub handler next d) w).map fun s =>
      (steps o.upper restoreState s.1, s.2) := by
  have hsave : ∀ i ∈ stub ++ saveState handler, i.isCall = false := by
    intro i hi
    rcases List.mem_append.mp hi with hi | hi
    · exact h i hi
    · exact saveState_plain handler i hi
  rw [commonStub, ← List.append_assoc, exec_append, exec_steps hsave, Option.bind_some, exec_call]
  rw [show (steps o.upper (stub ++ saveState handler) d).reg .eax =
    handler by rw [steps_append, saveState_eax]]
  rw [enter]
  cases o.call handler _ w with
  | none => rfl
  | some s =>
    obtain ⟨e, w'⟩ := s
    rw [Option.bind_some, exec_steps restoreState_plain, Option.map_some]

theorem enter_steps (upper : Cpu → BitVec 16) (stub : List Instr) (handler next : Word) (d : Cpu) :
    enter upper stub handler next d = steps upper (stub ++ saveState handler ++ [.call .eax next]) d := by
  rw [steps_append]
  rfl

def saved (c : Cpu) (n error next : Word) : List Slot :=
  [.word next, .word (c.reg .esp - word 68), .selector (c.seg .gs), .selector (c.seg .fs),
    .selector (c.seg .es), .selector (c.seg .ds), .word (c.reg .edi), .word (c.reg .esi), .word (c.reg .ebp),
    .word (c.reg .esp - word 20), .word (c.reg .ebx), .word (c.reg .edx), .word (c.reg .ecx),
    .word (c.reg .eax), .word n, .word error, .word c.eip, .selector (c.seg .cs), .word c.eflags]

theorem masked_twice (x : Word) : x &&& ~~~gateFlags &&& ~~~flagIF &&& flagIF = 0 := by
  rw [BitVec.and_assoc, show ~~~flagIF &&& flagIF = 0#32 from rfl]
  exact BitVec.and_zero

theorem frame_field (h : d.peek 1 = d.reg .esp + word 8) (i : ℕ) :
    load d.mem (d.peek 1 + word (4 * i)) = d.peek (i + 2) := by
  rw [h, BitVec.add_assoc, word_add, Cpu.peek]
  congr 3
  omega

theorem entered_of_shows {v : View} (h : d.Shows c.mem 19 v) (hbase : v.base = c.reg .esp)
    (hstack : v.stack = saved c n error next)
    (hdata : v.seg .ds = 0x10 ∧ v.seg .es = 0x10 ∧ v.seg .fs = 0x10 ∧ v.seg .gs = 0x10)
    (hss : v.seg .ss = c.seg .ss) (hflags : v.eflags &&& flagIF = 0) : Entered c d n error := by
  have hsp : d.reg .esp = c.reg .esp - word 76 := by
    rw [h.esp, View.esp, hstack, hbase]
    rfl
  have harg : d.peek 1 = c.reg .esp - word 68 := h.read (by rw [hstack]; rfl)
  have hframe : d.peek 1 = d.reg .esp + word 8 := by
    rw [harg, hsp, show word 76 = word 68 + word 8 from rfl]
    grind
  have hword (i : ℕ) {x : Word} (hi : (saved c n error next)[i + 2]? = some (.word x)) :
      load d.mem (d.peek 1 + word (4 * i)) = x :=
    (frame_field hframe i).trans (h.read (by rw [hstack]; exact hi))
  have hlow (i : ℕ) {x : BitVec 16} (hi : (saved c n error next)[i + 2]? = some (.selector x)) :
      (load d.mem (d.peek 1 + word (4 * i))).setWidth 16 = x := by
    rw [frame_field hframe i]
    exact h.read_low (by rw [hstack]; exact hi)
  have hkept (x : Word) (hx : 76 ≤ (x - (c.reg .esp - word 76)).toNat) : d.mem x = c.mem x :=
    h.kept x (by rw [hbase]; exact hx)
  have hsaves : Saves c n error (Regs.read d.mem (d.peek 1)) :=
    { edi := hword 4 rfl, esi := hword 5 rfl, ebp := hword 6 rfl, ebx := hword 8 rfl,
      edx := hword 9 rfl, ecx := hword 10 rfl, eax := hword 11 rfl,
      gs := hlow 0 rfl, fs := hlow 1 rfl, es := hlow 2 rfl, ds := hlow 3 rfl,
      intNo := hword 12 rfl, errCode := hword 13 rfl,
      eip := hword 14 rfl, cs := hlow 15 rfl, eflags := hword 16 rfl }
  refine ⟨hsp, hframe, hsaves, ?_, ?_, ?_, hkept⟩
  · rw [h.seg]
    exact hdata
  · rw [h.seg]
    exact hss
  · rw [h.eflags]
    exact hflags

theorem low_eax (x : Word) (y : BitVec 16) : (x.extractLsb' 16 16 ++ y).setWidth 16 = y := by
  apply BitVec.eq_of_getLsbD_eq
  intro i hi
  simp only [BitVec.getLsbD_setWidth, BitVec.getLsbD_append]
  grind

theorem enter_shows (upper : Cpu → BitVec 16) (c : Cpu) (selector : BitVec 16) (entry : Word)
    (pushed : Option Word)
    (stub : List Instr) (handler next : Word) {v : View} {k : ℕ} (hk : k ≤ 20)
    (hroom : ((View.of c).interrupt selector entry pushed).stack.length ≤ k)
    (hsteps : ((View.of c).interrupt selector entry pushed).steps k (stub ++ saveState handler ++
    [.call .eax next]) =
      some v) :
    (enter upper stub handler next (c.interrupt upper selector entry pushed)).Shows c.mem k v := by
  rw [enter_steps]
  exact ((shows_of c k).interrupt (by omega) hroom).steps upper (by omega) _ hsteps

theorem entered_dummy (upper : Cpu → BitVec 16) (c : Cpu) (n handler next entry : Word)
    (selector : BitVec 16) :
    Entered c (enter upper (dummyStub n) handler next (c.interrupt upper selector entry none)) n 0 := by
  have hshows := enter_shows upper c selector entry none (dummyStub n) handler next
    (k := 19) (by decide) (show 3 ≤ 19 by decide) rfl
  exact entered_of_shows hshows rfl rfl ⟨low_eax _ _, low_eax _ _, low_eax _ _, low_eax _ _⟩ rfl
    (masked_twice _)

theorem entered_error (upper : Cpu → BitVec 16) (c : Cpu) (n handler next entry error : Word)
    (selector : BitVec 16) :
    Entered c (enter upper (errorStub n) handler next
    (c.interrupt upper selector entry (some error))) n error := by
  have hshows := enter_shows upper c selector entry (some error) (errorStub n) handler next
    (k := 19) (by decide) (show 4 ≤ 19 by decide) rfl
  exact entered_of_shows hshows rfl rfl ⟨low_eax _ _, low_eax _ _, low_eax _ _, low_eax _ _⟩ rfl
    (masked_twice _)

structure Returned (d e : Cpu) : Prop where
  sp : e.reg .esp = d.reg .esp + 4
  stack : e.seg .ss = d.seg .ss
  frame : ∀ x, (x - (d.reg .esp + word 8)).toNat < 68 → e.mem x = d.mem x

theorem Returned.peek (h : Returned d e) {i : ℕ} (hi : i < 17) : e.peek (i + 1) = d.peek (i + 2) := by
  have hplace : e.reg .esp + word (4 * (i + 1)) = d.reg .esp + word 8 + word (4 * i) := by
    rw [h.sp, show (4 : Word) = word 4 from rfl, BitVec.add_assoc, BitVec.add_assoc, word_add, word_add]
    congr 2
    omega
  have hplace' : d.reg .esp + word (4 * (i + 2)) = d.reg .esp + word 8 + word (4 * i) := by
    rw [BitVec.add_assoc, word_add]
    congr 2
    omega
  rw [Cpu.peek, Cpu.peek, hplace, hplace']
  apply load_congr
  intro x hx
  apply h.frame
  rw [show x - (d.reg .esp + word 8) = x - (d.reg .esp + word 8 + word (4 * i)) + word (4 * i) by grind,
    BitVec.toNat_add, toNat_word (by omega)]
  omega

theorem restore_mem (upper : Cpu → BitVec 16) (e : Cpu) : (steps upper restoreState e).mem = e.mem := rfl

theorem resumed (upper : Cpu → BitVec 16) (hin : Entered c d n error) (hout : Returned d e) :
    steps upper restoreState e = { c with mem := e.mem } := by
  have hshows := (shows_words e 18).steps upper (by decide) restoreState rfl
  have hword (i : ℕ) (hi : i < 17) : e.peek (i + 1) = load d.mem (d.peek 1 + word (4 * i)) := by
    rw [hout.peek hi, frame_field hin.frame]
  have hreg : (steps upper restoreState e).reg = c.reg := by
    funext r
    rw [hshows.reg r]
    cases r with
    | eax => exact (hword 11 (by decide)).trans hin.saves.eax
    | ecx => exact (hword 10 (by decide)).trans hin.saves.ecx
    | edx => exact (hword 9 (by decide)).trans hin.saves.edx
    | ebx => exact (hword 8 (by decide)).trans hin.saves.ebx
    | ebp => exact (hword 6 (by decide)).trans hin.saves.ebp
    | esi => exact (hword 5 (by decide)).trans hin.saves.esi
    | edi => exact (hword 4 (by decide)).trans hin.saves.edi
    | esp =>
      show e.reg .esp + word (4 * 18) - word (4 * 0) = c.reg .esp
      rw [hout.sp, hin.sp, show word (4 * 18) = word 76 - 4 from rfl, show word (4 * 0) = 0 from rfl]
      grind
  have hseg : (steps upper restoreState e).seg = c.seg := by
    funext s
    rw [hshows.seg]
    cases s with
    | gs => exact (congrArg (BitVec.setWidth 16) (hword 0 (by decide))).trans hin.saves.gs
    | fs => exact (congrArg (BitVec.setWidth 16) (hword 1 (by decide))).trans hin.saves.fs
    | es => exact (congrArg (BitVec.setWidth 16) (hword 2 (by decide))).trans hin.saves.es
    | ds => exact (congrArg (BitVec.setWidth 16) (hword 3 (by decide))).trans hin.saves.ds
    | cs => exact (congrArg (BitVec.setWidth 16) (hword 15 (by decide))).trans hin.saves.cs
    | ss => exact hout.stack.trans hin.stack
  have heip : (steps upper restoreState e).eip = c.eip :=
    hshows.eip.trans ((hword 14 (by decide)).trans hin.saves.eip)
  have hflags : (steps upper restoreState e).eflags = c.eflags :=
    hshows.eflags.trans ((hword 16 (by decide)).trans hin.saves.eflags)
  have hmem := restore_mem upper e
  generalize steps upper restoreState e = f at hreg hseg heip hflags hmem
  obtain ⟨reg, seg, eip, eflags, mem⟩ := f
  subst hreg hseg heip hflags hmem
  rfl

theorem both_pushed (upper : Cpu → BitVec 16) (c : Cpu) (n handler next entry error : Word)
    (selector : BitVec 16) :
    let d := enter upper (dummyStub n) handler next (c.interrupt upper selector entry (some error))
    (Regs.read d.mem (d.peek 1)).eip = error := by
  intro d
  have hshows := enter_shows upper c selector entry (some error) (dummyStub n) handler next
    (k := 20) (by decide) (show 4 ≤ 20 by decide) rfl
  have hframe : d.peek 1 = d.reg .esp + word 8 := by
    have harg : d.peek 1 = c.reg .esp - word 72 := hshows.read rfl
    have hsp : d.reg .esp = c.reg .esp - word 80 := hshows.esp
    rw [harg, hsp, show word 80 = word 72 + word 8 from rfl]
    grind
  exact (frame_field hframe 14).trans (hshows.read rfl)

theorem none_pushed (upper : Cpu → BitVec 16) (c : Cpu) (n handler next entry : Word) (selector : BitVec 16) :
    let d := enter upper (errorStub n) handler next (c.interrupt upper selector entry none)
    (Regs.read d.mem (d.peek 1)).errCode = c.eip := by
  intro d
  have hshows := enter_shows upper c selector entry none (errorStub n) handler next
    (k := 18) (by decide) (show 3 ≤ 18 by decide) rfl
  have hframe : d.peek 1 = d.reg .esp + word 8 := by
    have harg : d.peek 1 = c.reg .esp - word 64 := hshows.read rfl
    have hsp : d.reg .esp = c.reg .esp - word 72 := hshows.esp
    rw [harg, hsp, show word 72 = word 64 + word 8 from rfl]
    grind
  exact (frame_field hframe 13).trans (hshows.read rfl)

def blank (eip : Word) : Cpu := ⟨fun _ => 0, fun _ => 0, eip, 0, fun _ => 0⟩

end Rinix.Interrupts
