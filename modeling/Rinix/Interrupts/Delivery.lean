import Rinix.Descriptors.Tables

namespace Rinix.Interrupts

open ByteMemory BitField I386 Descriptors

variable {ω : Type} {o : Outside ω} {image : Image} {code : Word → List Instr} {address : Word}
  {idt : Byte → Entry}

def deliver (o : Outside ω) (idt : Byte → Entry) (code : Word → List Instr) (vector : Byte)
    (pushed : Option Word) (s : Cpu × ω) : Option (Cpu × ω) :=
  let gate := decodeGate (idt vector)
  if gate.flags = 0x8E then
    o.exec (code gate.base) (s.1.interrupt o.upper gate.selector gate.base pushed, s.2)
  else none

structure Loaded (image : Image) (code : Word → List Instr) : Prop where
  isr : ∀ n, code (image.isr n) = isrStub n ++ isrCommonStub image
  irq : ∀ n, code (image.irq n) = irqStub n ++ irqCommonStub image

/-- A function of C that does not write to its caller's frame. -/
def Obeys (o : Outside ω) (f : Word) : Prop := ∀ d w s, o.call f d w = some s → Returned d s.1

theorem stub_plain (v : Word) : (∀ i ∈ dummyStub v, i.isCall = false) ∧
    ∀ i ∈ errorStub v, i.isCall = false := by
  simp [dummyStub, errorStub, Instr.isCall]

theorem exec_transparent {stub : List Instr} {handler next n error entry : Word} {pushed : Option Word}
    (hplain : ∀ i ∈ stub, i.isCall = false) (hobeys : Obeys o handler) (c : Cpu) (w : ω)
    (hin : Entered c (enter o.upper stub handler next (c.interrupt o.upper 0x08 entry pushed)) n error) :
    o.exec (stub ++ commonStub handler next) (c.interrupt o.upper 0x08 entry pushed, w) =
      (o.call handler (enter o.upper stub handler next (c.interrupt o.upper 0x08 entry pushed)) w).map
        fun s => ({ c with mem := s.1.mem }, s.2) := by
  rw [exec_stub hplain]
  cases hcall : o.call handler (enter o.upper stub handler next
    (c.interrupt o.upper 0x08 entry pushed)) w with
  | none => rfl
  | some s =>
    rw [Option.map_some, Option.map_some, resumed o.upper hin (hobeys _ _ _ hcall)]

/-- An interrupt of line `n` is nothing but a call of `irq_handler` between two instructions: it is
given the state of the interrupted program, and all of that but the memory is then as before. -/
theorem irq_transparent (hcode : Loaded image code) (hobeys : Obeys o image.irqHandler) (n : Fin 16) (c : Cpu)
    (w : ω) :
    ∃ d, Entered c d (word (32 + n.val)) 0 ∧
      deliver o (idtInit image address idt).2 code (irqNumber n) none (c, w) =
        (o.call image.irqHandler d w).map fun s => ({ c with mem := s.1.mem }, s.2) := by
  have hin := entered_dummy o.upper c (word (32 + n.val)) image.irqHandler image.irqReturn (image.irq n) 0x08
  refine ⟨_, hin, ?_⟩
  rw [deliver, idt_irq, stubGate_decoded, if_pos rfl, hcode.irq, irqStub_eq, irqCommonStub]
  exact exec_transparent (stub_plain _).1 hobeys c w hin

def returning : Outside Unit where
  upper := fun _ => 0
  call := fun _ d w => some (d.set .esp (d.reg .esp + 4), w)

def plainImage : Image := ⟨fun n => word n.val, fun n => word (32 + n.val), 0x64, 0x68, 0x6C, 0x70⟩

def plainCode (a : Word) : List Instr :=
  if h : a.toNat < 32 then isrStub ⟨a.toNat, h⟩ ++ isrCommonStub plainImage
  else if h : a.toNat - 32 < 16 then irqStub ⟨a.toNat - 32, h⟩ ++ irqCommonStub plainImage
  else []

theorem plain_loaded : Loaded plainImage plainCode := ⟨by decide, by decide⟩

theorem returning_obeys (f : Word) : Obeys returning f := by
  rintro d w s hs
  cases hs
  exact ⟨rfl, rfl, fun _ _ => rfl⟩

def busy : Cpu where
  reg := fun
    | .eax => 1
    | .ecx => 2
    | .edx => 3
    | .ebx => 4
    | .esp => 0xC0110000
    | .ebp => 0xC0110020
    | .esi => 5
    | .edi => 6
  seg := fun
    | .es => 0x10
    | .cs => 0x08
    | .ss => 0x18
    | .ds => 0x20
    | .fs => 0x28
    | .gs => 0x30
  eip := 0xC0100200
  eflags := 0x202
  mem := fun x => x.setWidth 8

theorem line_three_transparent : ∃ d, Entered busy d 35 0 ∧
    deliver returning (idtInit plainImage 0 fun _ => 0).2 plainCode (irqNumber 3) none (busy, ()) =
      (returning.call plainImage.irqHandler d ()).map fun s => ({ busy with mem := s.1.mem }, s.2) :=
  irq_transparent plain_loaded (returning_obeys _) 3 busy ()

end Rinix.Interrupts
