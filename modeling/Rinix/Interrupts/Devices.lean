import Rinix.Interrupts.Requests
import Rinix.Keyboard.Handler

/-!
The timer on line 0 and the keyboard on line 1, from the `sti` of `idt_init` on.
-/

namespace Rinix.Interrupts

open ByteMemory Pic Descriptors Runs Keyboard

/-- The controller of the keyboard: the byte at port 0x60, whether it is still to be read, and what
the keyboard has not handed over. While a byte is to be read the controller takes no other, and it
asks for an interrupt once, when it takes one. -/
structure KeyboardPort where
  data : Byte
  full : Bool
  queue : List Byte

structure Drivers where
  timerTicks : Word
  kbd : KbdState
  port : KeyboardPort

def inb60 (d : Drivers) : Byte × Drivers := (d.port.data, { d with port := { d.port with full := false } })

def timerRoutine (_r : Regs) (d : Drivers) : Drivers := { d with timerTicks := d.timerTicks + 1 }

def keyboardRoutine (_r : Regs) (d : Drivers) : Drivers :=
  let read := inb60 d
  { read.2 with kbd := keyboardHandler read.2.kbd read.1 }

abbrev Machine := System Drivers

def timerInstall (k : Kernel Drivers) : Kernel Drivers := installIrqHandler k 0 timerRoutine

def keyboardInstall (k : Kernel Drivers) : Kernel Drivers := installIrqHandler k 1 keyboardRoutine

def Kernel.press (k : Kernel Drivers) (b : Byte) : Kernel Drivers :=
  { k with
    drivers := { k.drivers with
      port := { k.drivers.port with queue := k.drivers.port.queue ++ [b] } } }

def Kernel.pause (k : Kernel Drivers) : Kernel Drivers :=
  { k with drivers := { k.drivers with kbd := Keyboard.pause k.drivers.kbd } }

def Kernel.transfer (k : Kernel Drivers) (b : Byte) (rest : List Byte) : Kernel Drivers :=
  { k with drivers := { k.drivers with port := ⟨b, true, rest⟩ }, pics := k.pics.raise .keyboard }

inductive Happening where
  | press (b : Byte)
  | transfer
  | installTimer
  | installKeyboard
  | pause
  | irq (e : Event Drivers)

/-- Other devices raise other lines, and no other handler is installed or removed. -/
def Event.elsewhere : Event Drivers → Prop
  | .raise n | .again n => n ≠ .keyboard
  | .install _ _ | .uninstall _ => False
  | _ => True

inductive Happens : Machine → Happening → Machine → Prop where
  | press (k : Kernel Drivers) (p : Place) (b : Byte) : Happens ⟨k, p⟩ (.press b) ⟨k.press b, p⟩
  | transfer (k : Kernel Drivers) (p : Place) (b : Byte) (rest : List Byte)
      (hfull : k.drivers.port.full = false) (hqueue : k.drivers.port.queue = b :: rest) :
      Happens ⟨k, p⟩ .transfer ⟨k.transfer b rest, p⟩
  | installTimer (k : Kernel Drivers) : Happens ⟨k, .program⟩ .installTimer ⟨timerInstall k, .program⟩
  | installKeyboard (k : Kernel Drivers) :
      Happens ⟨k, .program⟩ .installKeyboard ⟨keyboardInstall k, .program⟩
  | pause (k : Kernel Drivers) : Happens ⟨k, .program⟩ .pause ⟨k.pause, .program⟩
  | irq (s t : Machine) (e : Event Drivers) (helse : e.elsewhere) (hstep : Step s e t) : Happens s (.irq e) t

def Happening.sent : Happening → Option Byte
  | .press b => some b
  | _ => none

def typed (hs : List Happening) : List Byte := hs.filterMap Happening.sent

def KeyboardPort.waiting (p : KeyboardPort) : List Byte := (if p.full then [p.data] else []) ++ p.queue

inductive Act where
  | key (b : Byte)
  | pause

def act (k : KbdState) : Act → KbdState
  | .key b => keyboardHandler k b
  | .pause => pause k

def Act.byte : Act → Option Byte
  | .key b => some b
  | .pause => none

/-- The keyboard without the controllers: a queue, from which every routine call of line 1 takes the
first byte once there is a handler. -/
structure Inbox where
  installed : Bool
  waiting : List Byte
  acts : List Act

def Inbox.read (q : Inbox) : Inbox :=
  match q.waiting with
  | [] => q
  | b :: rest => { q with waiting := rest, acts := q.acts ++ [.key b] }

def Inbox.next (q : Inbox) : Happening → Inbox
  | .press b => { q with waiting := q.waiting ++ [b] }
  | .installKeyboard => { q with installed := true }
  | .pause => { q with acts := q.acts ++ [.pause] }
  | .irq (.routine v) => if v = 33 ∧ q.installed then q.read else q
  | _ => q

def inbox (d : Drivers) (hs : List Happening) : Inbox := hs.foldl Inbox.next ⟨false, d.port.waiting, []⟩

/-- A byte waits to be read, and no interrupt will come for it. -/
def Stuck (s : Machine) : Prop :=
  s.kernel.drivers.port.full = true ∧ ¬s.Latched .keyboard ∧ ¬s.Called .keyboard

/-- The handler of line 1 has come to its routine before there was one. -/
def Missed (hs : List Happening) : Prop :=
  ∃ before after, hs = before ++ .irq (.routine 33) :: after ∧ .installKeyboard ∉ before

variable {s t start : Machine} {hs hs' : List Happening} {e : Happening} {d : Drivers} {k : Kernel Drivers}
  {r : Regs} {place : Place}

theorem inbox_snoc (d : Drivers) (hs : List Happening) (e : Happening) :
    inbox d (hs ++ [e]) = (inbox d hs).next e := List.foldl_append

theorem read_bytes (q : Inbox) :
    q.read.acts.filterMap Act.byte ++ q.read.waiting = q.acts.filterMap Act.byte ++ q.waiting := by
  obtain ⟨installed, waiting, acts⟩ := q
  cases waiting with
  | nil => rfl
  | cons b rest =>
    show (acts ++ [Act.key b]).filterMap Act.byte ++ rest = acts.filterMap Act.byte ++ ([b] ++ rest)
    rw [List.filterMap_append, List.append_assoc]
    rfl

theorem read_installed (q : Inbox) : q.read.installed = q.installed := by
  rw [Inbox.read]
  cases q.waiting <;> rfl

theorem typed_snoc (hs : List Happening) (e : Happening) : typed (hs ++ [e]) = typed hs ++ e.sent.toList := by
  rw [typed, List.filterMap_append]
  cases h : e.sent with
  | none => simp [h, typed]
  | some b => simp [h, typed]

theorem missed_snoc : Missed (hs ++ [e]) ↔ Missed hs ∨ (e = .irq (.routine 33) ∧ .installKeyboard ∉ hs) := by
  constructor
  · rintro ⟨before, after, heq, hno⟩
    rcases List.eq_nil_or_concat after with rfl | ⟨after, last, rfl⟩
    · obtain ⟨rfl, hlast⟩ := List.append_inj' heq rfl
      exact .inr ⟨(List.cons.inj hlast).1, hno⟩
    · rw [List.concat_eq_append, ← List.cons_append, ← List.append_assoc] at heq
      obtain ⟨rfl, -⟩ := List.append_inj' heq rfl
      exact .inl ⟨before, after, rfl, hno⟩
  · rintro (⟨before, after, rfl, hno⟩ | ⟨rfl, hno⟩)
    · exact ⟨before, after ++ [e], by simp, hno⟩
    · exact ⟨hs, [], rfl, hno⟩

theorem inbox_bytes (d : Drivers) (hs : List Happening) :
    d.port.waiting ++ typed hs = (inbox d hs).acts.filterMap Act.byte ++ (inbox d hs).waiting := by
  induction hs using List.reverseRecOn with
  | nil => exact List.append_nil _
  | append_singleton hs e ih =>
    rw [typed_snoc, inbox_snoc, ← List.append_assoc, ih]
    cases e with
    | press b => exact List.append_assoc _ _ _
    | pause =>
      show _ = ((inbox d hs).acts ++ [Act.pause]).filterMap Act.byte ++ (inbox d hs).waiting
      rw [List.filterMap_append]
      exact (List.append_nil _).trans (congrArg (· ++ _) (List.append_nil _).symm)
    | irq e =>
      refine (List.append_nil _).trans ?_
      cases e with
      | routine v =>
        rw [Inbox.next]
        split_ifs
        · exact (read_bytes _).symm
        · rfl
      | _ => rfl
    | _ => exact List.append_nil _

theorem inbox_installed (d : Drivers) (hs : List Happening) :
    (inbox d hs).installed = true ↔ .installKeyboard ∈ hs := by
  induction hs using List.reverseRecOn with
  | nil => exact iff_of_false Bool.false_ne_true List.not_mem_nil
  | append_singleton hs e ih =>
    rw [inbox_snoc, List.mem_append, List.mem_singleton, ← ih]
    cases e with
    | installKeyboard => exact iff_of_true rfl (.inr rfl)
    | irq e =>
      refine Iff.trans ?_ (or_iff_left fun heq => Happening.noConfusion heq).symm
      cases e with
      | routine v =>
        rw [Inbox.next]
        split_ifs
        · rw [read_installed]
        · rfl
      | _ => rfl
    | _ => exact (or_iff_left fun heq => Happening.noConfusion heq).symm

structure Table (routines : Word → Option (Regs → Drivers → Drivers)) (keyboard : Prop) : Prop where
  timer : routines 0 = none ∨ routines 0 = some timerRoutine
  absent : ¬keyboard → routines 1 = none
  present : keyboard → routines 1 = some keyboardRoutine
  rest : ∀ i, i ≠ 0 → i ≠ 1 → routines i = none

theorem Table.other {keyboard : Prop} (h : Table k.irqRoutines keyboard) (hr : r.intNo ≠ 33) :
    (callRoutine k r).drivers.kbd = k.drivers.kbd ∧ (callRoutine k r).drivers.port = k.drivers.port := by
  have hone : r.intNo - 32 ≠ 1 := by
    intro heq
    apply hr
    rw [show (33 : Word) = 1 + 32 from rfl, ← heq]
    grind
  rw [callRoutine]
  by_cases hzero : r.intNo - 32 = 0
  · rw [hzero]
    rcases h.timer with htimer | htimer
    · rw [htimer]
      exact ⟨rfl, rfl⟩
    · rw [htimer]
      exact ⟨rfl, rfl⟩
  · rw [h.rest _ hzero hone]
    exact ⟨rfl, rfl⟩

theorem Table.snoc {routines : Word → Option (Regs → Drivers → Drivers)}
    (h : Table routines (.installKeyboard ∈ hs)) (he : e ≠ .installKeyboard) :
    Table routines (.installKeyboard ∈ hs ++ [e]) := by
  have hmem : Happening.installKeyboard ∈ hs ++ [e] ↔ .installKeyboard ∈ hs := by
    rw [List.mem_append, List.mem_singleton]
    exact or_iff_left (Ne.symm he)
  exact ⟨h.timer, fun hno => h.absent fun hin => hno (hmem.mpr hin),
    fun hin => h.present (hmem.mp hin), h.rest⟩

structure Wired (hs : List Happening) (s : Machine) : Prop where
  inv : Inv s
  table : Table s.kernel.irqRoutines (.installKeyboard ∈ hs)

theorem Wired.installTimer (h : Wired hs ⟨k, .program⟩) :
    Wired (hs ++ [.installTimer]) ⟨timerInstall k, .program⟩ := by
  have htable := h.table.snoc (e := .installTimer) (by simp)
  refine ⟨⟨h.inv.master, h.inv.slave, h.inv.two, h.inv.serving⟩,
    .inr (install_self k 0 timerRoutine), ?_, ?_, ?_⟩
  · exact fun hno => (install_other (by decide) k timerRoutine).trans (htable.absent hno)
  · exact fun hin => (install_other (by decide) k timerRoutine).trans (htable.present hin)
  · exact fun i hzero hone => (install_other hzero k timerRoutine).trans (htable.rest i hzero hone)

theorem Wired.installKeyboard (h : Wired hs ⟨k, .program⟩) :
    Wired (hs ++ [.installKeyboard]) ⟨keyboardInstall k, .program⟩ := by
  refine ⟨⟨h.inv.master, h.inv.slave, h.inv.two, h.inv.serving⟩, ?_, fun hno => ?_,
    fun _ => install_self k 1 keyboardRoutine, ?_⟩
  · have hzero : (keyboardInstall k).irqRoutines 0 = k.irqRoutines 0 :=
      install_other (by decide) k keyboardRoutine
    exact h.table.timer.imp hzero.trans hzero.trans
  · exact absurd (List.mem_append_right hs (List.mem_singleton.mpr rfl)) hno
  · exact fun i hzero hone => (install_other hone k keyboardRoutine).trans (h.table.rest i hzero hone)

theorem routines_irq {e : Event Drivers} (helse : e.elsewhere) (hstep : Step s e t) :
    t.kernel.irqRoutines = s.kernel.irqRoutines := by
  cases hstep with
  | install k irq handler => exact helse.elim
  | uninstall k irq => exact helse.elim
  | routine k r => exact callRoutine_routines k r
  | slave k r => exact (tellSlave_rest k r).2
  | _ => rfl

theorem Wired.step (h : Wired hs s) (hstep : Happens s e t) : Wired (hs ++ [e]) t := by
  cases hstep with
  | press k p b => exact ⟨⟨h.inv.master, h.inv.slave, h.inv.two, h.inv.serving⟩, h.table.snoc (by simp)⟩
  | transfer k p b rest hfull hqueue =>
    have hinv := h.inv.raise (n := 1) (by decide)
    exact ⟨⟨hinv.master, hinv.slave, hinv.two, hinv.serving⟩, h.table.snoc (by simp)⟩
  | installTimer k => exact h.installTimer
  | installKeyboard k => exact h.installKeyboard
  | pause k => exact ⟨⟨h.inv.master, h.inv.slave, h.inv.two, h.inv.serving⟩, h.table.snoc (by simp)⟩
  | irq _ _ e helse hstep =>
    refine ⟨h.inv.step hstep, ?_⟩
    rw [routines_irq helse hstep]
    exact h.table.snoc (by simp)

/-- The machine refines the queue that its own happenings make of the bytes. -/
structure Follows (start : Machine) (hs : List Happening) (s : Machine) : Prop extends Wired hs s where
  waiting : (inbox start.kernel.drivers hs).waiting = s.kernel.drivers.port.waiting
  kbd : s.kernel.drivers.kbd = (inbox start.kernel.drivers hs).acts.foldl act start.kernel.drivers.kbd
  asks : s.Latched 1 ∨ s.Called 1 → s.kernel.drivers.port.full = true
  once : ¬(s.Latched 1 ∧ s.Called 1)
  stuck : Stuck s ↔ Stuck start ∨ Missed hs

def Unseen (d : Drivers) (hs : List Happening) (e : Happening) : Prop :=
  (inbox d (hs ++ [e])).waiting = (inbox d hs).waiting ∧ (inbox d (hs ++ [e])).acts = (inbox d hs).acts

theorem missed_other (he : e ≠ .irq (.routine 33)) (start : Machine) :
    Stuck start ∨ Missed (hs ++ [e]) ↔ Stuck start ∨ Missed hs :=
  or_congr_right (missed_snoc.trans (or_iff_left fun hand => he hand.1))

theorem Follows.same (h : Follows start hs s) (hwired : Wired (hs ++ [e]) t)
    (hunseen : Unseen start.kernel.drivers hs e) (hkbd : t.kernel.drivers.kbd = s.kernel.drivers.kbd)
    (hport : t.kernel.drivers.port = s.kernel.drivers.port) (hlatched : t.Latched 1 ↔ s.Latched 1)
    (hcalled : t.Called 1 ↔ s.Called 1) (he : e ≠ .irq (.routine 33)) : Follows start (hs ++ [e]) t := by
  refine ⟨hwired, ?_, ?_, ?_, ?_, ?_⟩
  · rw [hunseen.1, hport]
    exact h.waiting
  · rw [hunseen.2, hkbd]
    exact h.kbd
  · rw [hlatched, hcalled, hport]
    exact h.asks
  · rw [hlatched, hcalled]
    exact h.once
  · rw [missed_other he, ← h.stuck, Stuck, Stuck, hlatched, hcalled, hport]

theorem Follows.press (h : Follows start hs ⟨k, place⟩) (b : Byte)
    (hwired : Wired (hs ++ [.press b]) ⟨k.press b, place⟩) :
    Follows start (hs ++ [.press b]) ⟨k.press b, place⟩ := by
  refine ⟨hwired, ?_, ?_, h.asks, h.once, h.stuck.trans
    (missed_other (fun heq => Happening.noConfusion heq) _).symm⟩
  · rw [inbox_snoc]
    show (inbox start.kernel.drivers hs).waiting ++ [b] = (if k.drivers.port.full then _ else _) ++ _
    rw [h.waiting, KeyboardPort.waiting, List.append_assoc]
    rfl
  · rw [inbox_snoc]
    exact h.kbd

theorem Follows.pause (h : Follows start hs ⟨k, .program⟩)
    (hwired : Wired (hs ++ [.pause]) ⟨k.pause, .program⟩) :
    Follows start (hs ++ [.pause]) ⟨k.pause, .program⟩ := by
  refine ⟨hwired, ?_, ?_, h.asks, h.once, h.stuck.trans
    (missed_other (fun heq => Happening.noConfusion heq) _).symm⟩
  · rw [inbox_snoc]
    exact h.waiting
  · rw [inbox_snoc]
    show Keyboard.pause k.drivers.kbd = List.foldl act _ (_ ++ [.pause])
    rw [List.foldl_append, ← h.kbd]
    rfl

theorem Follows.transfer {b : Byte} {rest : List Byte} (h : Follows start hs ⟨k, place⟩)
    (hfull : k.drivers.port.full = false) (hqueue : k.drivers.port.queue = b :: rest)
    (hwired : Wired (hs ++ [.transfer]) ⟨k.transfer b rest, place⟩) :
    Follows start (hs ++ [.transfer]) ⟨k.transfer b rest, place⟩ := by
  have hidle : ¬(System.Latched ⟨k, place⟩ 1 ∨ System.Called ⟨k, place⟩ 1) := by
    intro hasked
    have hone := h.asks hasked
    rw [hfull] at hone
    cases hone
  have hfree : ¬(Stuck start ∨ Missed hs) := by
    rw [← h.stuck]
    intro hstuck
    have hone := hstuck.1
    rw [hfull] at hone
    cases hone
  have hlatched : System.Latched ⟨k.transfer b rest, place⟩ 1 := Pair.latched_raise.mpr (.inl rfl)
  refine ⟨hwired, ?_, ?_, fun _ => rfl, fun hboth => hidle (.inr hboth.2), ?_⟩
  · rw [inbox_snoc]
    refine h.waiting.trans ?_
    rw [KeyboardPort.waiting, hfull, hqueue]
    rfl
  · rw [inbox_snoc]
    exact h.kbd
  · rw [missed_other fun heq => Happening.noConfusion heq]
    exact iff_of_false (fun hstuck => hstuck.2.1 hlatched) hfree

theorem Follows.ack (h : Follows start hs ⟨k, .program⟩) {n : Pair.Line} (hint : k.pics.int.isSome)
    (hvector : k.pics.ack.1 = irqNumber n) (hr : r.intNo = word (32 + n.val))
    (hwired : Wired (hs ++ [.irq (.ack n r)]) ⟨{ k with pics := k.pics.ack.2 }, .called r⟩) :
    Follows start (hs ++ [.irq (.ack n r)]) ⟨{ k with pics := k.pics.ack.2 }, .called r⟩ := by
  have hlatched := latched_step h.inv (.ack k r n hint hvector hr) 1
  have hcalled : System.Called ⟨{ k with pics := k.pics.ack.2 }, .called r⟩ 1 ↔ n = 1 := by
    show r.intNo = word (32 + (1 : Pair.Line).val) ↔ n = 1
    rw [hr, word_line_inj]
  have hunseen : Unseen start.kernel.drivers hs (.irq (.ack n r)) := by
    rw [Unseen, inbox_snoc]
    exact ⟨rfl, rfl⟩
  by_cases hn : n = 1
  · subst hn
    have hbefore : System.Latched ⟨k, .program⟩ 1 := (h.inv.ack_line hint hvector).1
    have hgone : ¬System.Latched ⟨{ k with pics := k.pics.ack.2 }, .called r⟩ 1 :=
      fun hl => (hlatched.mp hl).1 rfl
    have hfree : ¬(Stuck start ∨ Missed hs) := fun hmissed => (h.stuck.mpr hmissed).2.1 hbefore
    refine ⟨hwired, hunseen.1.trans h.waiting, ?_, fun _ => h.asks (.inl hbefore),
      fun hboth => hgone hboth.1, ?_⟩
    · rw [hunseen.2]
      exact h.kbd
    · rw [missed_other (by simp)]
      exact iff_of_false (fun hstuck => hstuck.2.2 (hcalled.mpr rfl)) hfree
  · have hfalse : ¬System.Called ⟨k, .program⟩ 1 := fun hc => hc
    exact h.same hwired hunseen rfl rfl (hlatched.trans (and_iff_right (Ne.symm hn)))
      (hcalled.trans (iff_of_false hn hfalse)) (by simp)

theorem keyboard_index (hr : r.intNo = 33) : r.intNo - 32 = 1 := by
  rw [hr]
  rfl

theorem inbox_read {b : Byte} {rest : List Byte} (hin : .installKeyboard ∈ hs)
    (hwaiting : (inbox d hs).waiting = b :: rest) :
    inbox d (hs ++ [.irq (.routine 33)]) =
      { inbox d hs with waiting := rest, acts := (inbox d hs).acts ++ [.key b] } := by
  rw [inbox_snoc, Inbox.next, if_pos ⟨rfl, (inbox_installed d hs).mpr hin⟩, Inbox.read, hwaiting]

theorem inbox_unread {v : Word} (h : ¬(v = 33 ∧ .installKeyboard ∈ hs)) :
    Unseen d hs (.irq (.routine v)) := by
  rw [← inbox_installed d] at h
  rw [Unseen, inbox_snoc, Inbox.next, if_neg h]
  exact ⟨rfl, rfl⟩

theorem Follows.read (h : Follows start hs ⟨k, .called r⟩) (hr : r.intNo = 33)
    (hin : .installKeyboard ∈ hs)
    (hwired : Wired (hs ++ [.irq (.routine 33)]) ⟨callRoutine k r, .routineLeft r⟩) :
    Follows start (hs ++ [.irq (.routine 33)]) ⟨callRoutine k r, .routineLeft r⟩ := by
  have hcalled : System.Called ⟨k, .called r⟩ 1 := hr
  have hfull : k.drivers.port.full = true := h.asks (.inr hcalled)
  have hnew : ¬System.Latched ⟨callRoutine k r, .routineLeft r⟩ 1 :=
    fun hl => h.once ⟨(latched_step h.inv (.routine k r) 1).mp hl, hcalled⟩
  have hnot : ¬(Stuck start ∨ Missed hs) := fun hmissed => (h.stuck.mpr hmissed).2.2 hcalled
  have hroutine : callRoutine k r = { k with drivers := keyboardRoutine r k.drivers } := by
    rw [callRoutine, keyboard_index hr, h.table.present hin]
  have hread := inbox_read (d := start.kernel.drivers) hin (h.waiting.trans (by
    rw [KeyboardPort.waiting, hfull]
    rfl))
  refine ⟨hwired, ?_, ?_, ?_, fun hboth => hnew hboth.1,
    iff_of_false (fun hstuck => ?_) fun hmissed => ?_⟩
  · rw [hread, hroutine]
    rfl
  · rw [hread, hroutine, List.foldl_append, ← h.kbd]
    rfl
  · rintro (hl | hc)
    · exact absurd hl hnew
    · exact hc.elim
  · have hfull' := hstuck.1
    rw [hroutine] at hfull'
    cases hfull'
  · rcases hmissed with hstuck | hmissed
    · exact hnot (.inl hstuck)
    · rcases missed_snoc.mp hmissed with hmissed | ⟨-, hno⟩
      · exact hnot (.inr hmissed)
      · exact hno hin

theorem Follows.unread (h : Follows start hs ⟨k, .called r⟩) (hr : r.intNo = 33)
    (hin : .installKeyboard ∉ hs)
    (hwired : Wired (hs ++ [.irq (.routine 33)]) ⟨callRoutine k r, .routineLeft r⟩) :
    Follows start (hs ++ [.irq (.routine 33)]) ⟨callRoutine k r, .routineLeft r⟩ := by
  have hcalled : System.Called ⟨k, .called r⟩ 1 := hr
  have hfull : k.drivers.port.full = true := h.asks (.inr hcalled)
  have hnew : ¬System.Latched ⟨callRoutine k r, .routineLeft r⟩ 1 :=
    fun hl => h.once ⟨(latched_step h.inv (.routine k r) 1).mp hl, hcalled⟩
  have hafter : ¬System.Called ⟨callRoutine k r, .routineLeft r⟩ 1 := fun hc => hc
  have hroutine : callRoutine k r = k := by rw [callRoutine, keyboard_index hr, h.table.absent hin]
  have hunseen := inbox_unread (d := start.kernel.drivers) (v := 33) fun hand => hin hand.2
  rw [hroutine] at hwired hnew hafter ⊢
  refine ⟨hwired, hunseen.1.trans h.waiting, ?_, fun _ => hfull, fun hboth => hnew hboth.1, ?_⟩
  · rw [hunseen.2]
    exact h.kbd
  · exact iff_of_true ⟨hfull, hnew, hafter⟩ (.inr (missed_snoc.mpr (.inr ⟨rfl, hin⟩)))

theorem Follows.routine (h : Follows start hs ⟨k, .called r⟩)
    (hwired : Wired (hs ++ [.irq (.routine r.intNo)]) ⟨callRoutine k r, .routineLeft r⟩) :
    Follows start (hs ++ [.irq (.routine r.intNo)]) ⟨callRoutine k r, .routineLeft r⟩ := by
  by_cases hr : r.intNo = 33
  · rw [hr] at hwired ⊢
    by_cases hin : .installKeyboard ∈ hs
    · exact h.read hr hin hwired
    · exact h.unread hr hin hwired
  · have hbefore : ¬System.Called ⟨k, .called r⟩ 1 := hr
    have hafter : ¬System.Called ⟨callRoutine k r, .routineLeft r⟩ 1 := fun hc => hc
    obtain ⟨hkbd, hport⟩ := h.table.other hr
    refine h.same hwired (inbox_unread fun hand => hr hand.1) hkbd hport
      (latched_step h.inv (.routine k r) 1) (iff_of_false hafter hbefore) ?_
    intro heq
    exact hr (by injection heq with heq; injection heq)

theorem Follows.step (h : Follows start hs s) (hstep : Happens s e t) : Follows start (hs ++ [e]) t := by
  have hwired := h.toWired.step hstep
  cases hstep with
  | press k p b => exact h.press b hwired
  | transfer k p b rest hfull hqueue => exact h.transfer hfull hqueue hwired
  | installTimer k =>
    refine h.same hwired ?_ rfl rfl Iff.rfl Iff.rfl (by simp)
    rw [Unseen, inbox_snoc]
    exact ⟨rfl, rfl⟩
  | installKeyboard k =>
    refine h.same hwired ?_ rfl rfl Iff.rfl Iff.rfl (by simp)
    rw [Unseen, inbox_snoc]
    exact ⟨rfl, rfl⟩
  | pause k => exact h.pause hwired
  | irq _ _ e helse hstep =>
    have hlatched := latched_step h.inv hstep 1
    have hunseen (hroutine : ∀ v, e ≠ .routine v) : Unseen start.kernel.drivers hs (.irq e) := by
      rw [Unseen, inbox_snoc]
      cases e with
      | routine v => exact absurd rfl (hroutine v)
      | _ => exact ⟨rfl, rfl⟩
    cases hstep with
    | raise k p n hline hnew =>
      exact h.same hwired (hunseen (by simp)) rfl rfl (hlatched.trans (or_iff_right (Ne.symm helse))) Iff.rfl
        (by simp)
    | again k p n hold => exact h.same hwired (hunseen (by simp)) rfl rfl hlatched Iff.rfl (by simp)
    | install k irq handler => exact helse.elim
    | uninstall k irq => exact helse.elim
    | ack k r n hint hvector hr => exact h.ack hint hvector hr hwired
    | spurious k r hint hr =>
      have hcalled : ¬System.Called ⟨{ k with pics := k.pics.ack.2 }, .called r⟩ 1 := by
        show r.intNo ≠ word (32 + (1 : Pair.Line).val)
        rw [hr, h.inv.spurious_vector hint, ne_eq, word_line_inj]
        decide
      have hbefore : ¬System.Called ⟨k, .program⟩ 1 := fun hc => hc
      exact h.same hwired (hunseen (by simp)) rfl rfl hlatched (iff_of_false hcalled hbefore) (by simp)
    | routine k r => exact h.routine hwired
    | slave k r =>
      have hdrivers := (tellSlave_rest k r).1
      exact h.same hwired (hunseen (by simp)) (congrArg Drivers.kbd hdrivers) (congrArg Drivers.port hdrivers)
        hlatched Iff.rfl (by simp)
    | master k => exact h.same hwired (hunseen (by simp)) rfl rfl hlatched Iff.rfl (by simp)
    | iret k => exact h.same hwired (hunseen (by simp)) rfl rfl hlatched Iff.rfl (by simp)

theorem missed_append (h : Missed hs) (hs' : List Happening) : Missed (hs ++ hs') := by
  obtain ⟨before, after, rfl, hno⟩ := h
  exact ⟨before, after ++ hs', by simp, hno⟩

theorem missed_installed (hin : .installKeyboard ∈ hs) (h : ¬Missed hs) (hs' : List Happening) :
    ¬Missed (hs ++ hs') := by
  induction hs' using List.reverseRecOn with
  | nil => rwa [List.append_nil]
  | append_singleton hs' e ih =>
    rw [← List.append_assoc, missed_snoc]
    rintro (hmissed | ⟨-, hno⟩)
    · exact ih hmissed
    · exact hno (List.mem_append_left hs' hin)

theorem typed_append (hs hs' : List Happening) : typed (hs ++ hs') = typed hs ++ typed hs' :=
  List.filterMap_append

theorem typed_irq (es : List (Event Drivers)) : typed (es.map .irq) = [] := by
  rw [typed, List.filterMap_map, List.filterMap_eq_nil_iff]
  exact fun e _ => rfl

theorem isWork_elsewhere {e : Event Drivers} (h : e.isWork) : e.elsewhere := by
  cases e with
  | ack => trivial
  | routine => trivial
  | work => trivial
  | _ => exact h.elim

theorem callRoutine_queue {keyboard : Prop} (h : Table k.irqRoutines keyboard) (r : Regs) :
    (callRoutine k r).drivers.port.queue = k.drivers.port.queue := by
  by_cases hr : r.intNo = 33
  · rw [callRoutine, keyboard_index hr]
    by_cases hk : keyboard
    · rw [h.present hk]
      rfl
    · rw [h.absent hk]
  · rw [(h.other hr).2]

theorem Wired.queue (h : Wired hs s) {e : Event Drivers} (hwork : e.isWork) (hstep : Step s e t) :
    t.kernel.drivers.port.queue = s.kernel.drivers.port.queue := by
  cases hstep with
  | ack => rfl
  | routine k r => exact callRoutine_queue h.table r
  | slave k r => exact congrArg (fun d => d.port.queue) (tellSlave_rest k r).1
  | master => rfl
  | iret => rfl
  | raise => exact hwork.elim
  | again => exact hwork.elim
  | install => exact hwork.elim
  | uninstall => exact hwork.elim
  | spurious => exact hwork.elim

theorem Follows.work (h : Follows start hs s) {es : List (Event Drivers)} (hrun : Run Step s es t)
    (hes : ∀ e ∈ es, e.isWork) :
    Run Happens s (es.map .irq) t ∧ Follows start (hs ++ es.map .irq) t ∧
      t.kernel.drivers.port.queue = s.kernel.drivers.port.queue := by
  induction hrun generalizing hs with
  | nil =>
    rw [List.map_nil, List.append_nil]
    exact ⟨.nil _, h, rfl⟩
  | @cons s t u e es hstep _ ih =>
    have hwork : e.isWork := hes e List.mem_cons_self
    have happens : Happens s (.irq e) t := .irq s t e (isWork_elsewhere hwork) hstep
    obtain ⟨hrun, hfollows, hqueue⟩ := ih (h.step happens) fun e' he' => hes e' (List.mem_cons_of_mem e he')
    rw [List.map_cons, ← List.singleton_append, ← List.append_assoc]
    exact ⟨.cons happens hrun, hfollows, hqueue.trans (h.queue hwork hstep)⟩

theorem Follows.settle (h : Follows start hs s) (hin : .installKeyboard ∈ hs) (hstart : ¬Stuck start)
    (hfree : ¬Missed hs) :
    ∃ (es : List (Event Drivers)) (t : Machine), Run Happens s (es.map .irq) t ∧
      Follows start (hs ++ es.map .irq) t ∧ t.kernel.drivers.port.full = false ∧
      t.kernel.drivers.port.queue = s.kernel.drivers.port.queue := by
  obtain ⟨es, t, hrun, hes, hdone⟩ := work_finishes h.inv
  obtain ⟨hrun', hfollows, hqueue⟩ := h.work hrun hes
  obtain ⟨hplace, hnone⟩ := todo_zero.mp hdone
  have hcalled : ¬t.Called 1 := by
    rw [System.Called, hplace]
    exact id
  refine ⟨es, t, hrun', hfollows, ?_, hqueue⟩
  rw [← Bool.not_eq_true]
  intro hfull
  rcases hfollows.stuck.mp ⟨hfull, hnone 1, hcalled⟩ with hstuck | hmissed
  · exact hstart hstuck
  · exact missed_installed hin hfree _ hmissed

theorem Follows.drain (h : Follows start hs s) (hin : .installKeyboard ∈ hs) (hstart : ¬Stuck start)
    (hfree : ¬Missed hs) :
    ∃ hs' u, Run Happens s hs' u ∧ typed hs' = [] ∧ u.kernel.drivers.port.waiting = [] := by
  induction hlength : s.kernel.drivers.port.queue.length generalizing hs s with
  | zero =>
    obtain ⟨es, t, hrun, -, hfull, hqueue⟩ := h.settle hin hstart hfree
    refine ⟨es.map .irq, t, hrun, typed_irq es, ?_⟩
    rw [KeyboardPort.waiting, hfull, hqueue, List.eq_nil_of_length_eq_zero hlength]
    rfl
  | succ n ih =>
    obtain ⟨es, t, hrun, hfollows, hfull, hqueue⟩ := h.settle hin hstart hfree
    obtain ⟨b, rest, hbytes⟩ := List.exists_cons_of_length_eq_add_one hlength
    have happens : Happens t .transfer ⟨t.kernel.transfer b rest, t.place⟩ :=
      .transfer t.kernel t.place b rest hfull (hqueue.trans hbytes)
    have hin' : Happening.installKeyboard ∈ hs ++ es.map .irq ++ [.transfer] :=
      List.mem_append_left _ (List.mem_append_left _ hin)
    have hfree' : ¬Missed (hs ++ es.map .irq ++ [.transfer]) := by
      rw [List.append_assoc]
      exact missed_installed hin hfree _
    have hshort : rest.length = n := by
      rw [hbytes] at hlength
      exact Nat.succ.inj hlength
    obtain ⟨hs', u, hrun', htyped, hwaiting⟩ := ih (hfollows.step happens) hin' hfree' hshort
    refine ⟨es.map .irq ++ .transfer :: hs', u, hrun.append (.cons happens hrun'), ?_, hwaiting⟩
    rw [typed_append, typed_irq]
    exact htyped

def Happening.pauses (kbd : KbdState) : Happening → KbdState
  | .pause => Keyboard.pause kbd
  | _ => kbd

theorem Wired.kept (h : Wired hs s) (hcalled : ¬s.Called 1) (hstep : Happens s e t) :
    t.kernel.drivers.kbd = e.pauses s.kernel.drivers.kbd := by
  cases hstep with
  | press => rfl
  | transfer => rfl
  | installTimer => rfl
  | installKeyboard => rfl
  | pause => rfl
  | irq _ _ e helse hstep =>
    cases hstep with
    | routine k r => exact (h.table.other hcalled).1
    | slave k r => exact congrArg Drivers.kbd (tellSlave_rest k r).1
    | _ => rfl

def booted (drivers : Drivers) (p : Pair) (before : List (Pair.Line ⊕ PortWrite)) : Machine :=
  started (fun _ => none) drivers p before

section

variable {before : List (Pair.Line ⊕ PortWrite)} {drivers : Drivers}

theorem Wired.boot (p : Pair) (hwrites : before.filterMap Sum.getRight? = irqRemap)
    (hlines : ∀ n, .inl n ∈ before → n ≠ 2) : Wired [] (booted drivers p before) :=
  ⟨Inv.start (remap_idle p hwrites hlines) _ drivers, .inl rfl, fun _ => rfl,
    fun hin => absurd hin List.not_mem_nil, fun _ _ _ => rfl⟩

theorem Wired.reached (p : Pair) (hwrites : before.filterMap Sum.getRight? = irqRemap)
    (hlines : ∀ n, .inl n ∈ before → n ≠ 2) (hrun : Run Happens (booted drivers p before) hs t) :
    Wired hs t :=
  hrun.history Wired (fun _ _ _ _ h hstep => h.step hstep) (Wired.boot p hwrites hlines)

theorem Follows.boot (p : Pair) (hwrites : before.filterMap Sum.getRight? = irqRemap)
    (hlines : ∀ n, .inl n ∈ before → n ≠ 2)
    (hport : (booted drivers p before).Latched 1 → drivers.port.full = true) :
    Follows (booted drivers p before) [] (booted drivers p before) := by
  refine ⟨Wired.boot p hwrites hlines, rfl, rfl, ?_, fun hboth => hboth.2, (or_iff_left ?_).symm⟩
  · rintro (hlatched | hcalled)
    · exact hport hlatched
    · exact hcalled.elim
  · rintro ⟨first, rest, heq, -⟩
    cases first <;> cases heq

theorem Follows.reached (p : Pair) (hwrites : before.filterMap Sum.getRight? = irqRemap)
    (hlines : ∀ n, .inl n ∈ before → n ≠ 2)
    (hport : (booted drivers p before).Latched 1 → drivers.port.full = true)
    (hrun : Run Happens (booted drivers p before) hs t) : Follows (booted drivers p before) hs t :=
  hrun.history (Follows (booted drivers p before)) (fun _ _ _ _ h hstep => h.step hstep)
    (Follows.boot p hwrites hlines hport)

/-- Whatever happens and in whatever order, the driver is where the bytes that the keyboard sent and
the pauses of the program bring it, each byte once and in their order, up to those that still wait.
A request at the `sti` goes with a byte in the port. -/
theorem keys_in_order (p : Pair) (hwrites : before.filterMap Sum.getRight? = irqRemap)
    (hlines : ∀ n, .inl n ∈ before → n ≠ 2)
    (hport : (booted drivers p before).Latched 1 → drivers.port.full = true)
    (hrun : Run Happens (booted drivers p before) hs t) :
    t.kernel.drivers.kbd = (inbox drivers hs).acts.foldl act drivers.kbd ∧
      t.kernel.drivers.port.waiting = (inbox drivers hs).waiting ∧
      drivers.port.waiting ++ typed hs =
        (inbox drivers hs).acts.filterMap Act.byte ++ t.kernel.drivers.port.waiting := by
  have hfollows := Follows.reached p hwrites hlines hport hrun
  have hwaiting : (inbox drivers hs).waiting = t.kernel.drivers.port.waiting := hfollows.waiting
  refine ⟨hfollows.kbd, hwaiting.symm, ?_⟩
  rw [← hwaiting]
  exact inbox_bytes drivers hs

def keyStruck : List Happening :=
  [.installTimer, .installKeyboard, .press 0x1E, .pause, .press 0x9E, .transfer,
    .irq (.ack .keyboard (frameOf 33)), .irq (.routine 33)]

def quietDrivers : Drivers := ⟨0, ⟨0, 0, []⟩, ⟨0, false, []⟩⟩

def quietBoot : Machine := booted quietDrivers ⟨anyChip, anyChip⟩ (irqRemap.map .inr)

theorem quiet_lines (n : Pair.Line) (hn : (.inl n : Pair.Line ⊕ PortWrite) ∈ irqRemap.map .inr) : n ≠ 2 := by
  simp [irqRemap] at hn

theorem quiet_port : quietBoot.Latched 1 → quietDrivers.port.full = true := by decide

theorem keyStruck_run : ∃ t, Run Happens quietBoot keyStruck t :=
  ⟨_, .cons (.installTimer _) <| .cons (.installKeyboard _) <| .cons (.press _ _ 0x1E) <| .cons (.pause _) <|
    .cons (.press _ _ 0x9E) <| .cons (.transfer _ _ 0x1E [0x9E] rfl rfl) <|
    .cons (.irq _ _ _ trivial (.ack _ (frameOf 33) 1 (by decide) (by decide) rfl)) <|
    .cons (.irq _ _ _ trivial (.routine _ _)) <| .nil _⟩

theorem struck_in_order : ∃ t, Run Happens quietBoot keyStruck t ∧
    t.kernel.drivers.kbd = keyboardHandler (pause quietDrivers.kbd) 0x1E ∧
    t.kernel.drivers.port.waiting = [0x9E] := by
  obtain ⟨t, hrun⟩ := keyStruck_run
  obtain ⟨hkbd, hwaiting, -⟩ := keys_in_order _ rfl quiet_lines quiet_port hrun
  exact ⟨t, hrun, hkbd, hwaiting⟩

/-- The keyboard works exactly if `irq_remap` has forgotten no byte's request and no interrupt of the
keyboard was taken before `keyboard_install`: such a byte stays in the port, and no key is ever
handled. -/
theorem keyboard_works_iff (p : Pair) (hwrites : before.filterMap Sum.getRight? = irqRemap)
    (hlines : ∀ n, .inl n ∈ before → n ≠ 2)
    (hport : (booted drivers p before).Latched 1 → drivers.port.full = true)
    (hrun : Run Happens (booted drivers p before) hs t) (hin : .installKeyboard ∈ hs) :
    ((∃ hs' u, Run Happens t hs' u ∧ typed hs' = [] ∧ u.kernel.drivers.port.waiting = []) ↔
        ¬Stuck (booted drivers p before) ∧ ¬Missed hs) ∧
      (Stuck (booted drivers p before) ∨ Missed hs → ∀ hs' u, Run Happens t hs' u →
        u.kernel.drivers.kbd = hs'.foldl Happening.pauses t.kernel.drivers.kbd) := by
  have hfollows := Follows.reached p hwrites hlines hport hrun
  refine ⟨⟨?_, fun hfree => hfollows.drain hin hfree.1 hfree.2⟩, fun hblocked hs' u hrun' => ?_⟩
  · rintro ⟨hs', u, hrun', -, hwaiting⟩
    rw [← not_or]
    intro hblocked
    have hfull := ((Follows.reached p hwrites hlines hport (hrun.append hrun')).stuck.mpr
      (hblocked.imp_right fun hmissed => missed_append hmissed hs')).1
    rw [KeyboardPort.waiting, hfull] at hwaiting
    cases hwaiting
  · induction hs' using List.reverseRecOn generalizing u with
    | nil =>
      cases hrun'
      rfl
    | append_singleton hs' e ih =>
      obtain ⟨v, hrest, hlast⟩ := run_append.mp hrun'
      obtain ⟨_, hstep, hnil⟩ := run_cons.mp hlast
      cases hnil
      have hreached := Follows.reached p hwrites hlines hport (hrun.append hrest)
      have hstuck : Stuck v := hreached.stuck.mpr
        (hblocked.imp_right fun hmissed => missed_append hmissed hs')
      rw [List.foldl_append, ← ih v hrest]
      exact hreached.kept hstuck.2.2 hstep

theorem struck_handled : ∃ t, Run Happens quietBoot keyStruck t ∧
    ((∃ hs' u, Run Happens t hs' u ∧ typed hs' = [] ∧ u.kernel.drivers.port.waiting = []) ↔
      ¬Stuck quietBoot ∧ ¬Missed keyStruck) := by
  obtain ⟨t, hrun⟩ := keyStruck_run
  exact ⟨t, hrun, (keyboard_works_iff _ rfl quiet_lines quiet_port hrun (by simp [keyStruck])).1⟩

end

end Rinix.Interrupts
