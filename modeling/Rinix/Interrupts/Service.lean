import Rinix.Interrupts.Controllers
import Rinix.Lib.Runs

/-!
`irq_handler` among the devices: what becomes of every request, in whatever order things happen.
-/

namespace Rinix.Interrupts

open ByteMemory Pic Descriptors Runs

structure Kernel (σ : Type) where
  irqRoutines : Word → Option (Regs → σ → σ)
  drivers : σ
  pics : Pair

variable {σ : Type}

def Kernel.outb (k : Kernel σ) (port : BitVec 16) (v : Byte) : Kernel σ :=
  { k with pics := k.pics.outb port v }

def installIrqHandler (k : Kernel σ) (irq : Word) (handler : Regs → σ → σ) : Kernel σ :=
  { k with irqRoutines := Function.update k.irqRoutines irq (some handler) }

def uninstallIrqHandler (k : Kernel σ) (irq : Word) : Kernel σ :=
  { k with irqRoutines := Function.update k.irqRoutines irq none }

theorem install_self (k : Kernel σ) (irq : Word) (handler : Regs → σ → σ) :
    (installIrqHandler k irq handler).irqRoutines irq = some handler := by
  simp only [installIrqHandler, Function.update_self]

theorem install_other {irq i : Word} (h : i ≠ irq) (k : Kernel σ) (handler : Regs → σ → σ) :
    (installIrqHandler k irq handler).irqRoutines i = k.irqRoutines i := by
  simp only [installIrqHandler, Function.update_of_ne h]

def callRoutine (k : Kernel σ) (r : Regs) : Kernel σ :=
  match k.irqRoutines (r.intNo - 32) with
  | some handler => { k with drivers := handler r k.drivers }
  | none => k

def tellSlave (k : Kernel σ) (r : Regs) : Kernel σ := if 40 ≤ r.intNo then k.outb 0xA0 0x20 else k

def tellMaster (k : Kernel σ) : Kernel σ := k.outb 0x20 0x20

def irqHandler (k : Kernel σ) (r : Regs) : Kernel σ := tellMaster (tellSlave (callRoutine k r) r)

inductive Place where
  | program
  | called (r : Regs)
  | routineLeft (r : Regs)
  | slaveTold
  | masterTold

structure System (σ : Type) where
  kernel : Kernel σ
  place : Place

def System.Latched (s : System σ) (n : Pair.Line) : Prop := s.kernel.pics.Latched n

instance (s : System σ) (n : Pair.Line) : Decidable (s.Latched n) :=
  inferInstanceAs (Decidable (s.kernel.pics.Latched n))

inductive Event (σ : Type) where
  | raise (n : Pair.Line)
  | again (n : Pair.Line)
  | install (irq : Word) (handler : Regs → σ → σ)
  | uninstall (irq : Word)
  | ack (n : Pair.Line) (r : Regs)
  | spurious (r : Regs)
  | routine (n : Word)
  | work

/-- Devices raise lines at any time, and again before they are served. Handlers are installed and
removed by the program. While a handler runs the processor takes no interrupt, since nothing sets
the interrupt flag before `iret`. -/
inductive Step : System σ → Event σ → System σ → Prop where
  | raise (k : Kernel σ) (p : Place) (n : Pair.Line) (hline : n ≠ 2) (hnew : ¬k.pics.Latched n) :
      Step ⟨k, p⟩ (.raise n) ⟨{ k with pics := k.pics.raise n }, p⟩
  | again (k : Kernel σ) (p : Place) (n : Pair.Line) (hold : k.pics.Latched n) :
      Step ⟨k, p⟩ (.again n) ⟨{ k with pics := k.pics.raise n }, p⟩
  | install (k : Kernel σ) (irq : Word) (handler : Regs → σ → σ) :
      Step ⟨k, .program⟩ (.install irq handler) ⟨installIrqHandler k irq handler, .program⟩
  | uninstall (k : Kernel σ) (irq : Word) :
      Step ⟨k, .program⟩ (.uninstall irq) ⟨uninstallIrqHandler k irq, .program⟩
  | ack (k : Kernel σ) (r : Regs) (n : Pair.Line) (hint : k.pics.int.isSome)
      (hvector : k.pics.ack.1 = irqNumber n) (hr : r.intNo = word (32 + n.val)) :
      Step ⟨k, .program⟩ (.ack n r) ⟨{ k with pics := k.pics.ack.2 }, .called r⟩
  | spurious (k : Kernel σ) (r : Regs) (hint : k.pics.int = none) (hr : r.intNo = k.pics.ack.1.setWidth 32) :
      Step ⟨k, .program⟩ (.spurious r) ⟨{ k with pics := k.pics.ack.2 }, .called r⟩
  | routine (k : Kernel σ) (r : Regs) :
      Step ⟨k, .called r⟩ (.routine r.intNo) ⟨callRoutine k r, .routineLeft r⟩
  | slave (k : Kernel σ) (r : Regs) : Step ⟨k, .routineLeft r⟩ .work ⟨tellSlave k r, .slaveTold⟩
  | master (k : Kernel σ) : Step ⟨k, .slaveTold⟩ .work ⟨tellMaster k, .masterTold⟩
  | iret (k : Kernel σ) : Step ⟨k, .masterTold⟩ .work ⟨k, .program⟩

def programmed (c : Chip) : Chip := { c with irr := ∅, isr := ∅ }

def Place.Serving (p : Pair) : Place → Prop
  | .program | .masterTold => p.master.isr = ∅ ∧ p.slave.isr = ∅
  | .called r | .routineLeft r =>
    (∃ i, p.master.isr ⊆ {i}) ∧ ∃ j, p.slave.isr ⊆ {j} ∧ (40 ≤ r.intNo ∨ p.slave.isr = ∅)
  | .slaveTold => (∃ i, p.master.isr ⊆ {i}) ∧ p.slave.isr = ∅

structure Inv (s : System σ) : Prop where
  master : programmed s.kernel.pics.master = masterReady
  slave : programmed s.kernel.pics.slave = slaveReady
  two : 2 ∉ s.kernel.pics.master.irr
  serving : s.place.Serving s.kernel.pics

variable {k : Kernel σ} {s t : System σ} {e : Event σ} {p q : Pair} {c : Chip} {r : Regs} {n m : Pair.Line}
  {place : Place}

theorem Inv.start (h : Idle p) (routines : Word → Option (Regs → σ → σ)) (drivers : σ) :
    Inv (⟨⟨routines, drivers, p⟩, .program⟩ : System σ) := by
  refine ⟨?_, ?_, h.two, congrArg Chip.isr h.master, congrArg Chip.isr h.slave⟩
  · exact congrArg programmed h.master
  · exact congrArg programmed h.slave

theorem Inv.open (h : Inv s) (hplace : s.place = .program) : s.kernel.pics.Open := by
  have hserving := h.serving
  rw [hplace] at hserving
  have hm := h.master
  have hs := h.slave
  have hcascade : s.kernel.pics.master.cascade = 4 := congrArg Chip.cascade hm
  have hidentity : s.kernel.pics.slave.cascade = 2 := congrArg Chip.cascade hs
  refine ⟨⟨congrArg Chip.expect hm, congrArg Chip.imr hm, hserving.1⟩,
    ⟨congrArg Chip.expect hs, congrArg Chip.imr hs, hserving.2⟩, ⟨?_, ?_⟩, h.two⟩
  · rw [hcascade]
    rfl
  · rw [hidentity]
    rfl

theorem Inv.vector (h : Inv s) (n : Pair.Line) : s.kernel.pics.vectorOf n = irqNumber n := by
  have hm : s.kernel.pics.master.base = 0x20 := congrArg Chip.base h.master
  have hs : s.kernel.pics.slave.base = 0x28 := congrArg Chip.base h.slave
  rw [Pair.vectorOf, Chip.vector, Chip.vector, hm, hs]
  revert n
  decide

theorem Inv.ack_eq (h : Inv ⟨k, .program⟩) (hint : k.pics.int.isSome) :
    ∃ n, k.pics.Latched n ∧ (∀ m, k.pics.Latched m → Pair.rank n ≤ Pair.rank m) ∧
      k.pics.ack = (irqNumber n, k.pics.taken n) := by
  obtain ⟨i, hi⟩ := Option.isSome_iff_exists.mp hint
  obtain ⟨n, hn, hleast, hack⟩ := (h.open rfl).ack_least hi
  refine ⟨n, hn, hleast, ?_⟩
  rw [hack, h.vector n]

theorem Inv.ack_line (h : Inv ⟨k, .program⟩) (hint : k.pics.int.isSome) (hn : k.pics.ack.1 = irqNumber n) :
    k.pics.Latched n ∧ (∀ m, k.pics.Latched m → Pair.rank n ≤ Pair.rank m) ∧
    k.pics.ack.2 = k.pics.taken n := by
  obtain ⟨m, hm, hleast, hack⟩ := h.ack_eq hint
  rw [hack] at hn
  have heq : m = n := irqNumber_injective hn
  subst heq
  rw [hack]
  exact ⟨hm, hleast, rfl⟩

theorem spurious_ack (hint : p.int = none) : p.ack.2 = p := by
  unfold Pair.ack
  rw [hint]

theorem endFirst_programmed (c : Chip) : programmed c.endFirst = programmed c := by
  rw [Chip.endFirst]
  cases first c.isr <;> rfl

theorem endFirst_irr (c : Chip) : c.endFirst.irr = c.irr := by
  rw [Chip.endFirst]
  cases first c.isr <;> rfl

theorem endSlave (p : Pair) : p.outb 0xA0 0x20 = { p with slave := p.slave.endFirst } := rfl

theorem endMaster (p : Pair) : p.outb 0x20 0x20 = { p with master := p.master.endFirst } := rfl

theorem callRoutine_pics (k : Kernel σ) (r : Regs) : (callRoutine k r).pics = k.pics := by
  rw [callRoutine]
  cases k.irqRoutines (r.intNo - 32) <;> rfl

theorem callRoutine_routines (k : Kernel σ) (r : Regs) : (callRoutine k r).irqRoutines = k.irqRoutines := by
  rw [callRoutine]
  cases k.irqRoutines (r.intNo - 32) <;> rfl

theorem tellSlave_rest (k : Kernel σ) (r : Regs) :
    (tellSlave k r).drivers = k.drivers ∧ (tellSlave k r).irqRoutines = k.irqRoutines := by
  rw [tellSlave]
  split_ifs <;> exact ⟨rfl, rfl⟩

theorem raise_programmed (p : Pair) (n : Pair.Line) :
    programmed (p.raise n).master = programmed p.master ∧
    programmed (p.raise n).slave = programmed p.slave := by
  rw [Pair.raise]
  split_ifs <;> exact ⟨rfl, rfl⟩

theorem raise_isr (p : Pair) (n : Pair.Line) :
    (p.raise n).master.isr = p.master.isr ∧ (p.raise n).slave.isr = p.slave.isr := by
  rw [Pair.raise]
  split_ifs <;> exact ⟨rfl, rfl⟩

theorem Place.Serving.congr (hm : q.master.isr = p.master.isr) (hs : q.slave.isr = p.slave.isr)
    (h : place.Serving p) : place.Serving q := by
  cases place <;> simp only [Place.Serving, hm, hs] <;> exact h

theorem Inv.raise (h : Inv ⟨k, place⟩) (hn : n ≠ 2) : Inv ⟨{ k with pics := k.pics.raise n }, place⟩ := by
  obtain ⟨hm, hs⟩ := raise_programmed k.pics n
  obtain ⟨hmi, hsi⟩ := raise_isr k.pics n
  exact ⟨hm.trans h.master, hs.trans h.slave, raise_two hn h.two, h.serving.congr hmi hsi⟩

theorem serve_isr (h : c.isr = ∅) (i : Input) : (c.serve i).isr ⊆ {i} := by
  rw [Chip.serve]
  show (if c.autoEoi then c.isr else insert i c.isr) ⊆ {i}
  rw [h]
  split_ifs
  · exact Finset.empty_subset _
  · exact Finset.Subset.refl _

theorem word_forty (h : ¬n.val < 8) : (40 : Word) ≤ word (32 + n.val) := by
  rw [BitVec.le_def, toNat_word (by omega)]
  show 40 ≤ 32 + n.val
  omega

theorem Inv.take (h : Inv ⟨k, .program⟩) (n : Pair.Line) (hr : r.intNo = word (32 + n.val)) :
    Inv ⟨{ k with pics := k.pics.taken n }, .called r⟩ := by
  obtain ⟨hm, hs⟩ := h.serving
  by_cases hn : n.val < 8
  · rw [Pair.taken, if_pos hn]
    refine ⟨h.master, h.slave, fun hmem => h.two (Finset.mem_of_mem_erase hmem),
      ⟨_, serve_isr hm _⟩, 0, ?_, .inr hs⟩
    exact hs.le.trans (Finset.empty_subset _)
  · rw [Pair.taken, if_neg hn]
    refine ⟨h.master, h.slave, fun hmem => h.two (Finset.mem_of_mem_erase hmem), ⟨_, serve_isr hm _⟩, _,
      serve_isr hs _, .inl ?_⟩
    rw [hr]
    exact word_forty hn

theorem Inv.step (h : Inv s) (hstep : Step s e t) : Inv t := by
  cases hstep with
  | raise k p n hline hnew => exact h.raise hline
  | again k p n hold =>
    rw [Pair.raise_latched hold]
    exact h
  | install k irq handler => exact ⟨h.master, h.slave, h.two, h.serving⟩
  | uninstall k irq => exact ⟨h.master, h.slave, h.two, h.serving⟩
  | ack k r n hint hvector hr =>
    rw [(h.ack_line hint hvector).2.2]
    exact h.take n hr
  | spurious k r hint hr =>
    rw [spurious_ack hint]
    obtain ⟨hm, hs⟩ := h.serving
    exact ⟨h.master, h.slave, h.two, ⟨0, hm.le.trans (Finset.empty_subset _)⟩, 0,
      hs.le.trans (Finset.empty_subset _), .inr hs⟩
  | routine k r =>
    have hpics := callRoutine_pics k r
    refine ⟨?_, ?_, ?_, ?_⟩
    · rw [hpics]
      exact h.master
    · rw [hpics]
      exact h.slave
    · rw [hpics]
      exact h.two
    · rw [hpics]
      exact h.serving
  | slave k r =>
    obtain ⟨hm, j, hj, hnone⟩ := h.serving
    rw [tellSlave]
    split_ifs with hforty
    · refine ⟨h.master, (endFirst_programmed _).trans h.slave, h.two, hm, endFirst_isr hj⟩
    · exact ⟨h.master, h.slave, h.two, hm, hnone.resolve_left hforty⟩
  | master k =>
    obtain ⟨⟨i, hi⟩, hs⟩ := h.serving
    refine ⟨(endFirst_programmed _).trans h.master, h.slave, fun hmem => h.two ?_, endFirst_isr hi, hs⟩
    exact (endFirst_irr k.pics.master) ▸ hmem
  | iret k => exact ⟨h.master, h.slave, h.two, h.serving⟩

theorem latched_master (p : Pair) (n : Pair.Line) : (p.outb 0x20 0x20).Latched n ↔ p.Latched n := by
  rw [endMaster, Pair.Latched, Pair.Latched, endFirst_irr]

theorem latched_slave (p : Pair) (n : Pair.Line) : (p.outb 0xA0 0x20).Latched n ↔ p.Latched n := by
  rw [endSlave, Pair.Latched, Pair.Latched, endFirst_irr]

def Event.leaves (latched : Pair.Line → Prop) (m : Pair.Line) : Event σ → Prop
  | .raise n => m = n ∨ latched m
  | .ack n _ => m ≠ n ∧ latched m
  | _ => latched m

theorem latched_step (h : Inv s) (hstep : Step s e t) (m : Pair.Line) : t.Latched m ↔
    e.leaves s.Latched m := by
  cases hstep with
  | raise k p n hline hnew => exact Pair.latched_raise
  | again k p n hold =>
    show (k.pics.raise n).Latched m ↔ k.pics.Latched m
    rw [Pair.raise_latched hold]
  | install k irq handler => exact Iff.rfl
  | uninstall k irq => exact Iff.rfl
  | ack k r n hint hvector hr =>
    show k.pics.ack.2.Latched m ↔ m ≠ n ∧ k.pics.Latched m
    rw [(h.ack_line hint hvector).2.2]
    exact Pair.latched_taken h.two
  | spurious k r hint hr =>
    show k.pics.ack.2.Latched m ↔ k.pics.Latched m
    rw [spurious_ack hint]
  | routine k r =>
    show (callRoutine k r).pics.Latched m ↔ k.pics.Latched m
    rw [callRoutine_pics]
  | slave k r =>
    show (tellSlave k r).pics.Latched m ↔ k.pics.Latched m
    rw [tellSlave]
    split_ifs
    · exact latched_slave k.pics m
    · exact Iff.rfl
  | master k => exact latched_master k.pics m
  | iret k => exact Iff.rfl

end Rinix.Interrupts
