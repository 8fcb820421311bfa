import Rinix.Interrupts.Devices
import Rinix.Timer.Wait

namespace Rinix.Timer

open ByteMemory Runs Pic Descriptors Interrupts

structure Waiter where
  machine : Machine
  place : Place

def Waiter.ticks (w : Waiter) : Word := w.machine.kernel.drivers.timerTicks

inductive Move where
  | happens (e : Happening)
  | look

def isTick : Happening → Bool
  | .irq e => e.isRoutine .timer
  | _ => false

def Move.isTick : Move → Bool
  | .happens e => Timer.isTick e
  | .look => false

def Move.isRequest : Move → Bool
  | .happens (.irq e) => e.isRaise .timer
  | _ => false

def IsMain : Happening → Prop
  | .installTimer | .installKeyboard | .pause => True
  | _ => False

inductive Moves (ticks : Word) : Waiter → Move → Waiter → Prop where
  | happens (s t : Machine) (place : Place) (e : Happening) (hmain : ¬IsMain e) (h : Happens s e t) :
      Moves ticks ⟨s, place⟩ (.happens e) ⟨t, place⟩
  | look (s : Machine) (place : Place) (hplace : s.place = .program) :
      Moves ticks ⟨s, place⟩ .look
        ⟨s, (timerWait ticks ⟨s.kernel.drivers.timerTicks, 0, place⟩).place⟩

def Move.event : Move → Option Event
  | .happens e => if Timer.isTick e then some .interrupt else none
  | .look => some .step

variable {ticks : Word} {s t : Machine} {w u : Waiter} {e : Happening} {m : Move} {es : List Move}
  {hs : List Happening} {k : Kernel Drivers} {r : Interrupts.Regs}

theorem routines_step (h : Happens s e t) (htimer : e ≠ .installTimer) :
    t.kernel.irqRoutines 0 = s.kernel.irqRoutines 0 := by
  cases h with
  | press => rfl
  | transfer => rfl
  | installTimer => exact absurd rfl htimer
  | installKeyboard k => exact install_other (by decide) k keyboardRoutine
  | pause => rfl
  | irq _ _ e helse hstep => exact congrFun (routines_irq helse hstep) 0

theorem not_installs (hmain : ¬IsMain e) : e ≠ .installTimer := by
  rintro rfl
  exact hmain trivial

theorem timer_index (hr : r.intNo - 32 = 0) : r.intNo = 32 := by grind

theorem callRoutine_ticks {keyboard : Prop} (h : Table k.irqRoutines keyboard) (r : Interrupts.Regs) :
    (callRoutine k r).drivers.timerTicks =
      if r.intNo = 32 ∧ (k.irqRoutines 0).isSome then k.drivers.timerTicks + 1 else k.drivers.timerTicks := by
  rw [callRoutine]
  by_cases hzero : r.intNo = 32
  · have hindex : r.intNo - 32 = 0 := by
      rw [hzero]
      rfl
    rw [hindex]
    rcases h.timer with hnone | hsome
    · simp only [hnone, Option.isSome_none, Bool.false_eq_true, and_false, if_false]
    · simp only [hsome, hzero, Option.isSome_some, and_self, if_true, timerRoutine]
  · rw [if_neg fun hboth => hzero hboth.1]
    by_cases hone : r.intNo - 32 = 1
    · rw [hone]
      by_cases hk : keyboard
      · simp only [h.present hk, keyboardRoutine, inb60]
      · simp only [h.absent hk]
    · simp only [h.rest _ (fun hindex => hzero (timer_index hindex)) hone]

theorem ticks_step {keyboard : Prop} (htable : Table s.kernel.irqRoutines keyboard) (h : Happens s e t) :
    t.kernel.drivers.timerTicks = if isTick e ∧ (s.kernel.irqRoutines 0).isSome
      then s.kernel.drivers.timerTicks + 1 else s.kernel.drivers.timerTicks := by
  cases h with
  | press => rfl
  | transfer => rfl
  | installTimer => rfl
  | installKeyboard => rfl
  | pause => rfl
  | irq _ _ e helse hstep =>
    cases hstep with
    | routine k r =>
      rw [callRoutine_ticks htable]
      simp only [isTick, Event.isRoutine, decide_eq_true_eq]
      rfl
    | slave k r => exact congrArg Drivers.timerTicks (tellSlave_rest k r).1
    | _ => rfl

structure Clocked (s : Machine) : Prop where
  wired : ∃ hs, Wired hs s
  routine : s.kernel.irqRoutines 0 = some timerRoutine

theorem Clocked.inv (h : Clocked s) : Interrupts.Inv s := by
  obtain ⟨_, hwired⟩ := h.wired
  exact hwired.inv

theorem Clocked.step (h : Clocked s) (hstep : Happens s e t) (htimer : e ≠ .installTimer) : Clocked t := by
  obtain ⟨hs, hwired⟩ := h.wired
  exact ⟨⟨_, hwired.step hstep⟩, (routines_step hstep htimer).trans h.routine⟩

theorem Clocked.counts (h : Clocked s) (hstep : Happens s e t) : t.kernel.drivers.timerTicks =
    if isTick e then s.kernel.drivers.timerTicks + 1 else s.kernel.drivers.timerTicks := by
  obtain ⟨_, hwired⟩ := h.wired
  have hticks := ticks_step hwired.table hstep
  simp only [h.routine, Option.isSome_some, and_true] at hticks
  exact hticks

theorem Clocked.moves (h : Clocked w.machine) (hmove : Moves ticks w m u) : Clocked u.machine := by
  cases hmove with
  | happens s t place e hmain hstep => exact h.step hstep (not_installs hmain)
  | look s place hplace => exact h

def Alike (w : Waiter) (s : TimerState) : Prop :=
  Clocked w.machine ∧ s.timerTicks = w.ticks ∧ s.place = w.place

theorem look_eq (ticks start : Word) (i j : ℕ) (place : Place) :
    timerWait ticks ⟨start, i, place⟩ = ⟨start, i, (timerWait ticks ⟨start, j, place⟩).place⟩ := by
  cases place with
  | called => rfl
  | waiting deadline =>
    unfold timerWait
    by_cases hlt : start < deadline
    · simp only [if_pos hlt]
    · simp only [if_neg hlt]
  | left => rfl

theorem Alike.step {x : TimerState} (h : Alike w x) (hmove : Moves ticks w m u) :
    ∃ y, Run (Step ticks) x m.event.toList y ∧ Alike u y := by
  obtain ⟨hclocked, hticks, hplace⟩ := h
  have hclocked' := hclocked.moves hmove
  obtain ⟨start, i, place⟩ := x
  cases hmove with
  | happens s t place' e hmain hstep =>
    have hcounts := hclocked.counts hstep
    cases htick : isTick e with
    | true =>
      rw [htick, if_pos rfl] at hcounts
      simp only [Move.event, htick]
      refine ⟨_, .cons (.interrupt _) (.nil _), hclocked', ?_, hplace⟩
      exact (congrArg (· + 1) hticks).trans hcounts.symm
    | false =>
      rw [htick] at hcounts
      simp only [Move.event, htick]
      exact ⟨_, .nil _, hclocked', hticks.trans hcounts.symm, hplace⟩
  | look s place' hprogram =>
    change start = s.kernel.drivers.timerTicks at hticks
    change place = place' at hplace
    subst hticks hplace
    refine ⟨_, .cons (.step _) (.nil _), hclocked', ?_, ?_⟩
    · rw [look_eq _ _ i 0]
      rfl
    · rw [look_eq _ _ i 0]

/-- Refinement: what the main program goes through in `timer_wait` on the machine is a run of
`Wait`. -/
theorem wait_refines (h : Clocked s) (hrun : Run (Moves ticks) ⟨s, .called⟩ es w) :
    ∃ x, Run (Step ticks) (call s.kernel.drivers.timerTicks) (es.filterMap Move.event) x ∧
    x.timerTicks = w.ticks ∧
      x.place = w.place := by
  obtain ⟨x, hx, -, hticks, hplace⟩ := hrun.stutters Alike Move.event
    (fun _ _ _ _ halike hmove => halike.step hmove)
    (⟨h, rfl, rfl⟩ : Alike ⟨s, .called⟩ (call s.kernel.drivers.timerTicks))
  exact ⟨x, hx, hticks, hplace⟩

def isInterrupt : Event → Bool
  | .interrupt => true
  | .step => false

theorem interrupts_counted {x y : TimerState} {fs : List Event} (h : Run (Step ticks) x fs y) :
    y.handled = x.handled + fs.countP isInterrupt ∧ y.timerTicks = x.timerTicks +
    word (fs.countP isInterrupt) := by
  induction h with
  | nil => exact ⟨rfl, (count_zero _).symm⟩
  | @cons x _ _ _ fs hstep _ ih =>
    rw [ih.1, ih.2]
    cases hstep with
    | interrupt =>
      rw [List.countP_cons_of_pos rfl]
      change x.handled + 1 + _ = _ ∧ x.timerTicks + 1 + _ = _
      rw [BitVec.add_assoc, BitVec.add_comm 1, ← BitVec.add_assoc, count_succ]
      exact ⟨by omega, rfl⟩
    | step =>
      obtain ⟨start, i, place⟩ := x
      rw [List.countP_cons_of_neg Bool.false_ne_true, look_eq ticks start i i]
      exact ⟨rfl, rfl⟩

theorem countP_event (es : List Move) : (es.filterMap Move.event).countP isInterrupt =
    es.countP Move.isTick := by
  rw [List.countP_filterMap]
  congr 1
  funext m
  cases m with
  | happens e =>
    rw [Move.event, Move.isTick]
    cases isTick e <;> rfl
  | look => rfl

def pending (s : Machine) : ℕ := (if s.Latched .timer then 1 else 0) + if s.Called .timer then 1 else 0

theorem pending_step (h : Interrupts.Inv s) (hstep : Happens s e t) :
    (Move.isRequest (.happens e)).toNat + pending s = (isTick e).toNat + pending t := by
  cases hstep with
  | press => rfl
  | transfer k p b rest hfull hqueue =>
    have hlatched : System.Latched ⟨k.transfer b rest, p⟩ .timer ↔ System.Latched ⟨k, p⟩ .timer :=
      Pair.latched_raise.trans (or_iff_right (by decide))
    simp only [pending, hlatched]
    rfl
  | installTimer => rfl
  | installKeyboard => rfl
  | pause => rfl
  | irq _ _ e helse hstep =>
    have hrequests := requests_balance h (.cons hstep (.nil _)) .timer
    have hcalls := routines_balance h (.cons hstep (.nil _)) .timer
    have hspurious (e : Interrupts.Event Drivers) : (e.isAck .timer || e.isSpurious .timer) =
      e.isAck .timer := by
      have hline : Pair.Line.timer ≠ .spurious := by decide
      have hnever : e.isSpurious .timer = false := by
        cases e with
        | spurious => exact decide_eq_false hline
        | _ => rfl
      rw [hnever, Bool.or_false]
    have hone (p : Interrupts.Event Drivers → Bool) : [e].countP p = (p e).toNat := by
      rw [List.countP_singleton]
      cases p e <;> rfl
    simp only [hspurious, hone] at hrequests hcalls
    simp only [pending, Move.isRequest, isTick]
    omega

theorem pending_balance (h : Clocked s) {place : Place} (hrun : Run (Moves ticks) ⟨s, place⟩ es w) :
    es.countP Move.isRequest + pending s = es.countP Move.isTick + pending w.machine := by
  refine hrun.balance (fun w => Clocked w.machine) (fun _ _ _ => Clocked.moves) Move.isRequest Move.isTick
    (fun w => pending w.machine) (fun _ _ _ hclocked hmove => ?_) h
  cases hmove with
  | happens s t place e hmain hstep => exact pending_step hclocked.inv hstep
  | look => rfl

def Waiter.counter (w : Waiter) : Word := w.ticks + if w.machine.Called .timer then 1 else 0

def Waiter.missing (deadline : Word) (w : Waiter) : ℕ :=
  deadline.toNat - w.counter.toNat - if w.machine.Latched .timer then 1 else 0

def Waiter.rank (ticks : Word) (w : Waiter) : ℕ :=
  match w.place with
  | .called => 6 * ticks.toNat + w.machine.todo + 2
  | .waiting deadline => 6 * w.missing deadline + w.machine.todo + 1
  | .left => 0

theorem missing_congr {deadline : Word} (hcounter : u.counter = w.counter)
    (hlatched : u.machine.Latched .timer ↔ w.machine.Latched .timer) :
    u.missing deadline = w.missing deadline := by
  simp only [Waiter.missing, hcounter, hlatched]

theorem counter_idle (h : ¬w.machine.Called .timer) : w.counter = w.ticks := by
  rw [Waiter.counter, if_neg h]
  exact BitVec.add_zero _

theorem counter_routine {k : Kernel Drivers} {r : Regs} {place : Place}
    (hcounts : (callRoutine k r).drivers.timerTicks =
      if isTick (.irq (.routine r.intNo)) then k.drivers.timerTicks + 1 else k.drivers.timerTicks) :
    Waiter.counter ⟨⟨callRoutine k r, .routineLeft r⟩, place⟩ =
      Waiter.counter ⟨⟨k, .called r⟩, place⟩ := by
  have hafter : ¬System.Called ⟨callRoutine k r, .routineLeft r⟩ .timer := fun hcalled => hcalled
  rw [counter_idle hafter]
  refine hcounts.trans ?_
  by_cases hr : r.intNo = word (32 + (Pair.Line.timer).val)
  · have hcalled : System.Called ⟨k, .called r⟩ .timer := hr
    have htick : isTick (.irq (.routine r.intNo)) = true := decide_eq_true hr
    rw [Waiter.counter, if_pos hcalled, if_pos htick]
    rfl
  · have hcalled : ¬System.Called ⟨k, .called r⟩ .timer := hr
    have htick : ¬isTick (.irq (.routine r.intNo)) = true := fun htick => hr (of_decide_eq_true htick)
    rw [counter_idle hcalled, if_neg htick]
    rfl

theorem missing_ack {deadline : Word} {k k' : Kernel Drivers} {r : Regs} {place : Place}
    (hticks : k'.drivers = k.drivers) (hcalled : System.Called ⟨k', .called r⟩ .timer)
    (hrequest : System.Latched ⟨k, .program⟩ .timer)
    (htaken : ¬System.Latched ⟨k', .called r⟩ .timer) (hless : k.drivers.timerTicks < deadline) :
    Waiter.missing deadline ⟨⟨k', .called r⟩, place⟩ =
      Waiter.missing deadline ⟨⟨k, .program⟩, place⟩ := by
  have hlt : k.drivers.timerTicks.toNat < deadline.toNat := hless
  have hdeadline := deadline.isLt
  have hnext : (k.drivers.timerTicks + 1).toNat = k.drivers.timerTicks.toNat + 1 := by
    have hone : (1 : Word).toNat = 1 := rfl
    rw [BitVec.toNat_add, hone]
    exact Nat.mod_eq_of_lt (by omega)
  have hcounter : Waiter.counter ⟨⟨k', .called r⟩, place⟩ = k.drivers.timerTicks + 1 := by
    rw [Waiter.counter, if_pos hcalled, ← hticks]
    rfl
  have hidle : Waiter.counter ⟨⟨k, .program⟩, place⟩ = k.drivers.timerTicks :=
    counter_idle fun hcalled => hcalled
  rw [Waiter.missing, Waiter.missing, hcounter, hidle, if_neg htaken, if_pos hrequest]
  omega

theorem missing_step {deadline : Word} {e : Interrupts.Event Drivers} {place : Place}
    (h : Clocked s) (hwork : e.isWork) (hstep : Interrupts.Step s e t)
    (hless : s.place = .program → s.kernel.drivers.timerTicks < deadline) :
    Waiter.missing deadline ⟨t, place⟩ = Waiter.missing deadline ⟨s, place⟩ := by
  have hlatched := latched_step h.inv hstep .timer
  have hcounts := h.counts (.irq s t e (isWork_elsewhere hwork) hstep)
  cases hstep with
  | ack k r n hint hvector hr =>
    have hcalled : System.Called ⟨{ k with pics := k.pics.ack.2 }, .called r⟩ .timer ↔ n = .timer := by
      change r.intNo = word (32 + (Pair.Line.timer).val) ↔ n = .timer
      rw [hr, word_line_inj]
    by_cases hn : n = .timer
    · subst hn
      exact missing_ack rfl (hcalled.mpr rfl) (h.inv.ack_line hint hvector).1
        (fun hl => (hlatched.mp hl).1 rfl) (hless rfl)
    · have hbefore : ¬System.Called ⟨k, .program⟩ .timer := fun hcalled => hcalled
      apply missing_congr
      · rw [counter_idle (hcalled.not.mpr hn), counter_idle hbefore]
        rfl
      · exact hlatched.trans (and_iff_right (Ne.symm hn))
  | routine k r => exact missing_congr (counter_routine hcounts) hlatched
  | slave k r =>
    refine missing_congr ?_ hlatched
    have hbefore : ¬System.Called ⟨k, .routineLeft r⟩ .timer := fun hcalled => hcalled
    have hafter : ¬System.Called ⟨tellSlave k r, .slaveTold⟩ .timer := fun hcalled => hcalled
    rw [counter_idle hbefore, counter_idle hafter]
    exact hcounts
  | master k => exact missing_congr rfl hlatched
  | iret k => exact missing_congr rfl hlatched
  | raise => exact hwork.elim
  | again => exact hwork.elim
  | install => exact hwork.elim
  | uninstall => exact hwork.elim
  | spurious => exact hwork.elim

theorem work_closer (h : Clocked w.machine) (htodo : w.machine.todo ≠ 0) (hleft : w.place ≠ .left)
    (hless : ∀ deadline, w.place = .waiting deadline → w.machine.place = .program → w.ticks < deadline) :
    ∃ m u, Moves ticks w m u ∧ Clocked u.machine ∧ u.rank ticks < w.rank ticks := by
  obtain ⟨s, place⟩ := w
  obtain ⟨e, t, hwork, hstep⟩ := work_possible h.inv htodo
  have happens : Happens s (.irq e) t := .irq s t e (isWork_elsewhere hwork) hstep
  have hfewer : s.todo = t.todo + 1 := todo_step h.inv hwork hstep
  refine ⟨.happens (.irq e), ⟨t, place⟩, .happens s t place _ id happens, h.step happens (by simp), ?_⟩
  cases place with
  | called =>
    change 6 * ticks.toNat + t.todo + 2 < 6 * ticks.toNat + s.todo + 2
    omega
  | waiting deadline =>
    have hmissing : Waiter.missing deadline ⟨t, .waiting deadline⟩ =
      Waiter.missing deadline ⟨s, .waiting deadline⟩ :=
      missing_step h hwork hstep (hless deadline rfl)
    change 6 * Waiter.missing deadline ⟨t, .waiting deadline⟩ + t.todo + 1 <
      6 * Waiter.missing deadline ⟨s, .waiting deadline⟩ + s.todo + 1
    omega
  | left => exact absurd rfl hleft

theorem todo_raise {k : Kernel Drivers} {place : Interrupts.Place} (htodo : System.todo ⟨k, place⟩ = 0) :
    System.todo ⟨{ k with pics := k.pics.raise .timer }, place⟩ = 5 := by
  obtain ⟨hplace, hnone⟩ := todo_zero.mp htodo
  have hrequests : System.requests ⟨{ k with pics := k.pics.raise .timer }, place⟩ = {.timer} := by
    ext n
    rw [mem_requests, Finset.mem_singleton]
    exact Pair.latched_raise.trans (or_iff_left (hnone n))
  have hplace' : place = .program := hplace
  rw [System.todo, hrequests, Finset.card_singleton, hplace']
  rfl

theorem raise_closer {deadline : Word} (h : Clocked s) (htodo : s.todo = 0)
    (hless : s.kernel.drivers.timerTicks < deadline) : ∃ m u, Moves ticks ⟨s, .waiting deadline⟩ m u ∧
      Clocked u.machine ∧ u.rank ticks < Waiter.rank ticks ⟨s, .waiting deadline⟩ := by
  obtain ⟨hplace, hnone⟩ := todo_zero.mp htodo
  obtain ⟨k, place⟩ := s
  have hcalled : ¬System.Called ⟨k, place⟩ .timer := by
    change place = .program at hplace
    rw [hplace]
    exact fun hcalled => hcalled
  have helse : Pair.Line.timer ≠ .keyboard := by decide
  have happens : Happens ⟨k, place⟩ (.irq (.raise .timer)) ⟨{ k with pics := k.pics.raise .timer }, place⟩ :=
    .irq _ _ _ helse (.raise k place .timer (by decide) (hnone .timer))
  refine ⟨_, _, .happens _ _ _ _ id happens, h.step happens (by simp), ?_⟩
  have hlatched : System.Latched ⟨{ k with pics := k.pics.raise .timer }, place⟩ .timer :=
    Pair.latched_raise.mpr (.inl rfl)
  have hcounter : Waiter.counter ⟨⟨{ k with pics := k.pics.raise .timer }, place⟩, .waiting deadline⟩ =
      Waiter.counter ⟨⟨k, place⟩, .waiting deadline⟩ := rfl
  have hidle : Waiter.counter ⟨⟨k, place⟩, .waiting deadline⟩ = k.drivers.timerTicks := counter_idle hcalled
  have hlt : k.drivers.timerTicks.toNat < deadline.toNat := hless
  simp only [Waiter.rank, Waiter.missing, hcounter, hidle, if_pos hlatched, if_neg (hnone .timer),
    todo_raise htodo, htodo]
  omega

theorem closer (h : Clocked w.machine) (hrank : w.rank ticks ≠ 0) :
    ∃ m u, Moves ticks w m u ∧ Clocked u.machine ∧ u.rank ticks < w.rank ticks := by
  obtain ⟨s, place⟩ := w
  by_cases hplace : s.place = .program
  · cases place with
    | called =>
      refine ⟨.look, _, .look s .called hplace, h, ?_⟩
      have hidle : Waiter.counter ⟨s, .waiting (s.kernel.drivers.timerTicks + ticks)⟩ =
          s.kernel.drivers.timerTicks := by
        apply counter_idle
        rw [System.Called, hplace]
        exact fun hcalled => hcalled
      change 6 * Waiter.missing (s.kernel.drivers.timerTicks + ticks)
        ⟨s, .waiting (s.kernel.drivers.timerTicks + ticks)⟩ + s.todo + 1 < 6 * ticks.toNat + s.todo + 2
      rw [Waiter.missing, hidle, BitVec.toNat_add]
      have hmod := Nat.mod_le (s.kernel.drivers.timerTicks.toNat + ticks.toNat) (2 ^ 32)
      omega
    | waiting deadline =>
      by_cases hlt : s.kernel.drivers.timerTicks < deadline
      · by_cases htodo : s.todo = 0
        · exact raise_closer h htodo hlt
        · refine work_closer h htodo (fun hleft => Place.noConfusion hleft) fun deadline' heq _ => ?_
          injection heq with heq
          rwa [← heq]
      · refine ⟨.look, _, .look s _ hplace, h, ?_⟩
        have hleft : timerWait ticks ⟨s.kernel.drivers.timerTicks, 0, .waiting deadline⟩ =
            ⟨s.kernel.drivers.timerTicks, 0, .left⟩ := wait_leaves rfl hlt
        rw [hleft]
        exact Nat.zero_lt_of_ne_zero hrank
    | left => exact absurd rfl hrank
  · have htodo : s.todo ≠ 0 := fun htodo => hplace (todo_zero.mp htodo).1
    refine work_closer h htodo ?_ fun _ _ hprogram => absurd hprogram hplace
    rintro rfl
    exact hrank rfl

theorem wait_can_end (h : Clocked w.machine) : ∃ fs u, Run (Moves ticks) w fs u ∧ u.place = .left := by
  obtain ⟨fs, u, hrun, -, -, hrank⟩ := reaches (fun w : Waiter => Clocked w.machine) (fun _ => True)
    (Waiter.rank ticks) (fun w hw hrank => by
      obtain ⟨m, u, hmove, hu, hless⟩ := closer hw hrank
      exact ⟨m, u, trivial, hmove, hu, hless⟩) h
  refine ⟨fs, u, hrun, ?_⟩
  rw [Waiter.rank] at hrank
  cases hplace : u.place with
  | left => rfl
  | _ =>
    simp only [hplace] at hrank
    omega

theorem work_moves (h : Clocked s) (place : Place) {fs : List (Interrupts.Event Drivers)}
    (hrun : Run Interrupts.Step s fs t)
    (hwork : ∀ e ∈ fs, e.isWork) : Run (Moves ticks) ⟨s, place⟩
    (fs.map fun e => .happens (.irq e)) ⟨t, place⟩ := by
  induction hrun with
  | nil => exact .nil _
  | @cons s t u e fs hstep _ ih =>
    have happens : Happens s (.irq e) t := .irq s t e (isWork_elsewhere (hwork e List.mem_cons_self)) hstep
    exact .cons (.happens s t place _ id happens)
      (ih (h.step happens (by simp)) fun e he => hwork e (List.mem_cons_of_mem _ he))

theorem work_requests {fs : List (Interrupts.Event Drivers)} (hwork : ∀ e ∈ fs, e.isWork) :
    (fs.map fun e => Move.happens (.irq e)).countP Move.isRequest = 0 := by
  rw [List.countP_eq_zero]
  intro m hm
  obtain ⟨e, he, rfl⟩ := List.mem_map.mp hm
  have hallowed := hwork e he
  cases e with
  | raise => exact hallowed.elim
  | _ => exact Bool.false_ne_true

theorem clocked_run (h : Clocked w.machine) (hrun : Run (Moves ticks) w es u) : Clocked u.machine :=
  hrun.invariant (fun w => Clocked w.machine) (fun _ _ _ => Clocked.moves) h

theorem settle_moves (h : Clocked s) (place : Place) : ∃ fs t, Run (Moves ticks) ⟨s, place⟩ fs ⟨t, place⟩ ∧
    fs.countP Move.isRequest = 0 ∧ t.place = .program ∧ pending t = 0 := by
  obtain ⟨fs, t, hrun, hwork, htodo⟩ := work_finishes h.inv
  obtain ⟨hplace, hnone⟩ := todo_zero.mp htodo
  refine ⟨_, t, work_moves h place hrun hwork, work_requests hwork, hplace, ?_⟩
  have hcalled : ¬t.Called .timer := by
    rw [System.Called, hplace]
    exact fun hcalled => hcalled
  rw [pending, if_neg (hnone .timer), if_neg hcalled]

theorem tick_reachable (h : Clocked s) (hplace : s.place = .program) (place : Place) : ∃ fs t,
    Run (Moves ticks) ⟨s, place⟩ fs ⟨t, place⟩ ∧ fs.countP Move.isTick = 1 ∧ t.place = .program ∧
    Clocked t := by
  have hcalled : ¬s.Called .timer := by
    rw [System.Called, hplace]
    exact fun hcalled => hcalled
  by_cases hlatched : s.Latched .timer
  · obtain ⟨fs, t, hrun, hnone, hprogram, hdone⟩ := settle_moves h place
    have hbalance := pending_balance h hrun
    rw [hnone, pending, if_pos hlatched, if_neg hcalled, hdone] at hbalance
    exact ⟨fs, t, hrun, hbalance.symm, hprogram, clocked_run h hrun⟩
  · obtain ⟨k, place'⟩ := s
    have helse : Pair.Line.timer ≠ .keyboard := by decide
    have happens : Happens ⟨k, place'⟩ (.irq (.raise .timer))
      ⟨{ k with pics := k.pics.raise .timer }, place'⟩ :=
      .irq _ _ _ helse (.raise k place' .timer (by decide) hlatched)
    obtain ⟨fs, t, hrun, hnone, hprogram, hdone⟩ := settle_moves (h.step happens (by simp)) place
    have hrun' := Run.cons (Moves.happens _ _ place _ id happens) hrun
    have hbalance := pending_balance h hrun'
    rw [List.countP_cons_of_pos (by rfl), hnone, pending, if_neg hlatched, if_neg hcalled, hdone] at hbalance
    exact ⟨_, t, hrun', hbalance.symm, hprogram, clocked_run h hrun'⟩

theorem ticks_reachable (h : Clocked s) (hplace : s.place = .program) (place : Place) (j : ℕ) : ∃ fs t,
    Run (Moves ticks) ⟨s, place⟩ fs ⟨t, place⟩ ∧ fs.countP Move.isTick = j ∧ t.place = .program ∧
    Clocked t := by
  induction j with
  | zero => exact ⟨[], s, .nil _, rfl, hplace, h⟩
  | succ j ih =>
    obtain ⟨fs, t, hrun, hcount, hprogram, hclocked⟩ := ih
    obtain ⟨gs, u, hrun', hone, hprogram', hclocked'⟩ := tick_reachable hclocked hprogram place
    refine ⟨fs ++ gs, u, hrun.append hrun', ?_, hprogram', hclocked'⟩
    rw [List.countP_append, hcount, hone]

theorem ticks_counted (h : Clocked s) (hrun : Run (Moves ticks) ⟨s, .called⟩ es w) :
    ∃ x, Run (Step ticks) (call s.kernel.drivers.timerTicks) (es.filterMap Move.event) x ∧ x.place = w.place ∧
      x.handled = es.countP Move.isTick ∧ w.ticks = s.kernel.drivers.timerTicks +
      word (es.countP Move.isTick) := by
  obtain ⟨x, hx, hticks, hplace⟩ := wait_refines h hrun
  obtain ⟨hhandled, hcounter⟩ := interrupts_counted hx
  rw [countP_event] at hhandled hcounter
  exact ⟨x, hx, hplace, hhandled.trans (Nat.zero_add _), hticks.symm.trans hcounter⟩

theorem look_calls (hplace : s.place = .program) : Moves ticks ⟨s, .called⟩ .look
    ⟨s, .waiting (s.kernel.drivers.timerTicks + ticks)⟩ := .look s .called hplace

theorem look_leaves (hplace : s.place = .program) {deadline : Word}
    (hlt : ¬s.kernel.drivers.timerTicks < deadline) :
    Moves ticks ⟨s, .waiting deadline⟩ .look ⟨s, .left⟩ := by
  have hmove : Moves ticks ⟨s, .waiting deadline⟩ .look _ := .look s (.waiting deadline) hplace
  have hleft : timerWait ticks ⟨s.kernel.drivers.timerTicks, 0, .waiting deadline⟩ =
      ⟨s.kernel.drivers.timerTicks, 0, .left⟩ := wait_leaves rfl hlt
  rwa [hleft] at hmove

theorem leaves_early (hplace : s.place = .program) (hwrap : ticks = 0 ∨
    4294967296 ≤ s.kernel.drivers.timerTicks.toNat + ticks.toNat) :
    Run (Moves ticks) ⟨s, .called⟩ [.look, .look] ⟨s, .left⟩ := by
  refine .cons (look_calls hplace) (.cons (look_leaves hplace ?_) (.nil _))
  have hcounter := s.kernel.drivers.timerTicks.isLt
  have hticks := ticks.isLt
  rw [BitVec.lt_def, BitVec.toNat_add]
  rcases hwrap with rfl | hwrap
  · have hzero : (0 : Word).toNat = 0 := rfl
    omega
  · omega

theorem last_look {start : Word} (h : ¬(ticks = 0 ∨ start.toNat + 2 * ticks.toNat ≤ 4294967296)) :
    ∃ j < ticks.toNat, 4294967296 ≤ (start + word j).toNat + ticks.toNat := by
  obtain ⟨hzero, hsum⟩ := not_or.mp h
  have hstart := start.isLt
  have hticks := ticks.isLt
  have hpos : ticks.toNat ≠ 0 := fun hz => hzero (BitVec.eq_of_toNat_eq hz)
  refine ⟨min (ticks.toNat - 1) (4294967295 - start.toNat), by omega, ?_⟩
  rw [BitVec.toNat_add, toNat_word (by omega)]
  omega

theorem stands_still (h : Wired hs s)
    (hnone : s.kernel.irqRoutines 0 = none) (hrun : Run (Moves ticks) ⟨s, .called⟩ es w)
    (hlt : s.kernel.drivers.timerTicks < s.kernel.drivers.timerTicks + ticks) : w.place ≠ .left := by
  have hinv := hrun.invariant (fun w : Waiter => (∃ hs, Wired hs w.machine) ∧
      w.machine.kernel.irqRoutines 0 = none ∧ w.ticks = s.kernel.drivers.timerTicks ∧
      (w.place = .called ∨ w.place = .waiting (s.kernel.drivers.timerTicks + ticks)))
    (fun w m u hw hmove => by
      obtain ⟨⟨hs, hwired⟩, hslot, hticks, hplace⟩ := hw
      cases hmove with
      | happens s' t place e hmain hstep =>
        refine ⟨⟨_, hwired.step hstep⟩, (routines_step hstep (not_installs hmain)).trans hslot, ?_, hplace⟩
        refine (ticks_step hwired.table hstep).trans ?_
        simp only [show s'.kernel.irqRoutines 0 = none from hslot, Option.isSome_none,
          Bool.false_eq_true, and_false, if_false]
        exact hticks
      | look s' place hprogram =>
        refine ⟨⟨hs, hwired⟩, hslot, hticks, .inr ?_⟩
        change s'.kernel.drivers.timerTicks = _ at hticks
        rcases hplace with hplace | hplace
        · change place = _ at hplace
          rw [hplace, hticks]
          rfl
        · change place = _ at hplace
          rw [hplace, hticks, wait_stays rfl hlt]) ⟨⟨hs, h⟩, hnone, rfl, .inl rfl⟩
  rcases hinv.2.2.2 with hplace | hplace
  · rw [hplace]
    exact fun hleft => Place.noConfusion hleft
  · rw [hplace]
    exact fun hleft => Place.noConfusion hleft

structure Slot (hs : List Happening) (s : Machine) : Prop where
  installed : .installTimer ∈ hs → s.kernel.irqRoutines 0 = some timerRoutine
  empty : .installTimer ∉ hs → s.kernel.irqRoutines 0 = none

theorem Slot.step (h : Slot hs s) (hstep : Happens s e t) : Slot (hs ++ [e]) t := by
  by_cases htimer : e = .installTimer
  · subst htimer
    have hin : Happening.installTimer ∈ hs ++ [.installTimer] := List.mem_append_right hs List.mem_cons_self
    cases hstep with
    | installTimer k => exact ⟨fun _ => install_self k 0 timerRoutine, fun hout => absurd hin hout⟩
  · have hmem : Happening.installTimer ∈ hs ++ [e] ↔ .installTimer ∈ hs := by
      rw [List.mem_append, List.mem_singleton]
      exact or_iff_left (Ne.symm htimer)
    have hkept := routines_step hstep htimer
    exact ⟨fun hin => hkept.trans (h.installed (hmem.mp hin)),
      fun hout => hkept.trans (h.empty fun hin => hout (hmem.mpr hin))⟩

section

variable {before : List (Pair.Line ⊕ PortWrite)} {drivers : Drivers}

theorem Slot.reached {p : Pair} (hrun : Run Happens (booted drivers p before) hs s) : Slot hs s := by
  have hstart : Slot [] (booted drivers p before) := ⟨fun hin => absurd hin List.not_mem_nil, fun _ => rfl⟩
  exact hrun.history Slot (fun _ _ _ _ hslot hstep => hslot.step hstep) hstart

theorem Clocked.reached (p : Pair) (hwrites : before.filterMap Sum.getRight? = irqRemap)
    (hlines : ∀ n, .inl n ∈ before → n ≠ 2)
    (hrun : Run Happens (booted drivers p before) hs s) (hin : .installTimer ∈ hs) : Clocked s :=
  ⟨⟨_, Wired.reached p hwrites hlines hrun⟩, (Slot.reached hrun).installed hin⟩

/-- `timer_wait` can come to its end exactly if `timer_install` has been called before it, but for
waits that end without a tick, and then from wherever it is. -/
theorem wait_ends_iff (p : Pair) (hwrites : before.filterMap Sum.getRight? = irqRemap)
    (hlines : ∀ n, .inl n ∈ before → n ≠ 2)
    (hrun : Run Happens (booted drivers p before) hs s) (hplace : s.place = .program) :
    ((∃ es w, Run (Moves ticks) ⟨s, .called⟩ es w ∧ w.place = .left) ↔ .installTimer ∈ hs ∨ ticks = 0 ∨
      4294967296 ≤ s.kernel.drivers.timerTicks.toNat + ticks.toNat) ∧
    (.installTimer ∈ hs → ∀ es w, Run (Moves ticks) ⟨s, .called⟩ es w →
      ∃ fs u, Run (Moves ticks) w fs u ∧ u.place = .left) := by
  have hclocked := Clocked.reached p hwrites hlines hrun
  refine ⟨⟨?_, ?_⟩, fun hin es w hwait => wait_can_end (clocked_run (hclocked hin) hwait)⟩
  · rintro ⟨es, w, hwait, hleft⟩
    by_contra hno
    obtain ⟨hout, hno⟩ := not_or.mp hno
    obtain ⟨hzero, hsum⟩ := not_or.mp hno
    refine stands_still (Wired.reached p hwrites hlines hrun) ((Slot.reached hrun).empty hout) hwait ?_ hleft
    have hpos : ticks.toNat ≠ 0 := fun hz => hzero (BitVec.eq_of_toNat_eq hz)
    rw [BitVec.lt_def, BitVec.toNat_add]
    omega
  · rintro (hin | hsoon)
    · exact wait_can_end (hclocked hin)
    · exact ⟨_, _, leaves_early hplace hsoon, rfl⟩

theorem installed_run : Run Happens quietBoot [.installTimer] ⟨timerInstall quietBoot.kernel, .program⟩ :=
  .cons (.installTimer _) (.nil _)

example : ∃ es w,
    Run (Moves 3) ⟨⟨timerInstall quietBoot.kernel, .program⟩, .called⟩ es w ∧ w.place = .left :=
  (wait_ends_iff _ rfl quiet_lines installed_run rfl).1.mpr (.inl List.mem_cons_self)

/-- Behind `timer_install` every request of the timer is one tick, and no other interrupt is. The
wait is long enough in every run exactly if the deadline cannot lie beyond the last number. -/
theorem wait_long_iff (p : Pair) (hwrites : before.filterMap Sum.getRight? = irqRemap)
    (hlines : ∀ n, .inl n ∈ before → n ≠ 2)
    (hrun : Run Happens (booted drivers p before) hs s) (hin : .installTimer ∈ hs)
    (hplace : s.place = .program) :
    (∀ es w, Run (Moves ticks) ⟨s, .called⟩ es w →
      w.ticks = s.kernel.drivers.timerTicks + word (es.countP Move.isTick) ∧
        es.countP Move.isRequest + pending s = es.countP Move.isTick + pending w.machine) ∧
    ((∀ es w, Run (Moves ticks) ⟨s, .called⟩ es w → w.place = .left →
    ticks.toNat ≤ es.countP Move.isTick) ↔
      ticks = 0 ∨ s.kernel.drivers.timerTicks.toNat + 2 * ticks.toNat ≤ 4294967296) := by
  have hclocked := Clocked.reached p hwrites hlines hrun hin
  refine ⟨fun es w hwait => ?_, fun hlong => ?_, fun hsum es w hwait hleft => ?_⟩
  · obtain ⟨-, -, -, -, hticks⟩ := ticks_counted hclocked hwait
    exact ⟨hticks, pending_balance hclocked hwait⟩
  · by_contra hno
    obtain ⟨j, hj, hwrap⟩ := last_look hno
    obtain ⟨fs, t, hticking, hcount, hprogram, -⟩ := ticks_reachable hclocked hplace .called j
    obtain ⟨-, -, -, -, hticks⟩ := ticks_counted hclocked hticking
    change t.kernel.drivers.timerTicks = _ at hticks
    rw [hcount] at hticks
    rw [← hticks] at hwrap
    have henough := hlong _ _ (hticking.append (leaves_early hprogram (.inr hwrap))) rfl
    rw [List.countP_append, hcount] at henough
    exact absurd henough (Nat.not_le.mpr hj)
  · obtain ⟨x, hx, hplace', hhandled, -⟩ := ticks_counted hclocked hwait
    rw [← hhandled]
    exact (waits_iff _ _).mpr hsum _ _ hx (hplace'.trans hleft)

example : ∀ es w, Run (Moves 3) ⟨⟨timerInstall quietBoot.kernel, .program⟩, .called⟩ es w →
    w.place = .left → 3 ≤ es.countP Move.isTick :=
  (wait_long_iff _ rfl quiet_lines installed_run List.mem_cons_self rfl).2.mpr (.inr (by decide))

end

end Rinix.Timer
