import Rinix.Interrupts.Delivery
import Rinix.Interrupts.Requests

namespace Rinix.Interrupts

open ByteMemory BitField I386 Descriptors Pic Runs

variable {σ : Type} {o : Outside (Kernel σ)} {image : Image} {code : Word → List Instr} {address : Word}
  {idt : Byte → Entry} {k : Kernel σ} {n : Pair.Line}

/-- The machine code of `irq_handler` does to the kernel what the C function does, and returns to
its caller. -/
def Compiled (o : Outside (Kernel σ)) (image : Image) : Prop :=
  ∀ d k, ∃ e, o.call image.irqHandler d k = some (e, irqHandler k (Regs.read d.mem (d.peek 1))) ∧ Returned d e

theorem Compiled.obeys (h : Compiled o image) : Obeys o image.irqHandler := by
  intro d k s hs
  obtain ⟨e, hcall, hreturned⟩ := h d k
  obtain rfl := Option.some.inj (hs.symm.trans hcall)
  exact hreturned

/-- One interrupt, from the acknowledge to `iret`: the kernel goes through the steps of the service,
and the program through none, with all its registers as they were. -/
theorem interrupt_served (hcode : Loaded image code) (hcompiled : Compiled o image) (c : Cpu)
    (hint : k.pics.int.isSome) (hvector : k.pics.ack.1 = irqNumber n) :
    ∃ (m : Mem) (r : Regs) (k' : Kernel σ),
      deliver o (idtInit image address idt).2 code k.pics.ack.1 none (c, { k with pics := k.pics.ack.2 }) =
        some ({ c with mem := m }, k') ∧
      Run Step ⟨k, .program⟩ [.ack n r, .routine (word (32 + n.val)), .work, .work, .work]
      ⟨k', .program⟩ := by
  have hin := entered_dummy o.upper c (word (32 + n.val)) image.irqHandler image.irqReturn (image.irq n) 0x08
  have hexec := exec_transparent (stub_plain (word (32 + n.val))).1 hcompiled.obeys c
    { k with pics := k.pics.ack.2 } hin
  generalize enter o.upper (dummyStub (word (32 + n.val))) image.irqHandler image.irqReturn
    (c.interrupt o.upper 0x08 (image.irq n) none) = d at hin hexec
  obtain ⟨e, hcall, -⟩ := hcompiled d { k with pics := k.pics.ack.2 }
  have hrun := handler_run { k with pics := k.pics.ack.2 } (Regs.read d.mem (d.peek 1))
  rw [hin.saves.intNo] at hrun
  refine ⟨e.mem, _, irqHandler { k with pics := k.pics.ack.2 } (Regs.read d.mem (d.peek 1)), ?_,
    .cons (.ack k _ n hint hvector hin.saves.intNo) hrun⟩
  rw [hvector, deliver, idt_irq, stubGate_decoded, if_pos rfl, hcode.irq, irqStub_eq,
    irqCommonStub, hexec, hcall]
  rfl

def kernelOutside : Outside (Kernel Unit) where
  upper := fun _ => 0
  call := fun _ d k => some (d.set .esp (d.reg .esp + 4), irqHandler k (Regs.read d.mem (d.peek 1)))

theorem kernel_compiled : Compiled kernelOutside plainImage := fun _ _ => ⟨_, rfl, rfl, rfl, fun _ _ => rfl⟩

def keyPending : Kernel Unit := ⟨fun _ => none, (), (writes irqRemap ⟨anyChip, anyChip⟩).raise .keyboard⟩

theorem key_interrupt_served : ∃ (m : Mem) (r : Regs) (k' : Kernel Unit),
    deliver kernelOutside (idtInit plainImage 0 fun _ => 0).2 plainCode keyPending.pics.ack.1 none
        (blank 5, { keyPending with pics := keyPending.pics.ack.2 }) = some ({ blank 5 with mem := m }, k') ∧
      Run Step ⟨keyPending, .program⟩ [.ack 1 r, .routine (word (32 + (1 : Pair.Line).val)),
        .work, .work, .work] ⟨k', .program⟩ :=
  interrupt_served plain_loaded kernel_compiled (blank 5) (by decide) (by decide)

end Rinix.Interrupts
