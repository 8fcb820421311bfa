import Rinix.Lib.ByteMemory
import Rinix.Lib.Runs

namespace Rinix.Timer

open ByteMemory Runs

inductive Place where
  | called
  | waiting (deadline : Word)
  | left

structure TimerState where
  timerTicks : Word
  handled : ℕ
  place : Place

inductive Event where
  | interrupt
  | step

def timerHandler (s : TimerState) : TimerState :=
  { s with timerTicks := s.timerTicks + 1, handled := s.handled + 1 }

/-- `int` and `unsigned long` are as wide as `unsigned int`, so the sum is one of 32-bit words. -/
def timerWait (ticks : Word) (s : TimerState) : TimerState :=
  match s.place with
  | .called => { s with place := .waiting (s.timerTicks + ticks) }
  | .waiting deadline => if s.timerTicks < deadline then s else { s with place := .left }
  | .left => s

inductive Step (ticks : Word) : TimerState → Event → TimerState → Prop where
  | interrupt (s : TimerState) : Step ticks s .interrupt (timerHandler s)
  | step (s : TimerState) : Step ticks s .step (timerWait ticks s)

def call (start : Word) : TimerState := ⟨start, 0, .called⟩

def inLoop (start ticks : Word) : TimerState := ⟨start, 0, .waiting (start + ticks)⟩

def WaitsLongEnough (ticks : Word) (s : TimerState) : Prop :=
  ∀ es t, Run (Step ticks) s es t → t.place = .left → ticks.toNat ≤ t.handled

variable {start ticks deadline : Word} {s t : TimerState} {first : ℕ → Prop} {place : Place} {i j : ℕ}

def Place.Sound (start ticks : Word) (first : ℕ → Prop) (handled : ℕ) : Place → Prop
  | .called => ∀ j, first j
  | .waiting deadline => ∃ j ≤ handled, first j ∧ deadline = start + word j + ticks
  | .left => ticks.toNat ≤ handled ∨ ∃ j < ticks.toNat, first j ∧ 4294967296 ≤ start.toNat + j + ticks.toNat

def Inv (start ticks : Word) (first : ℕ → Prop) (s : TimerState) : Prop :=
  s.timerTicks = start + word s.handled ∧ s.place.Sound start ticks first s.handled

theorem Place.Sound.later (h : place.Sound start ticks first i) (hij : i ≤ j) :
    place.Sound start ticks first j := by
  cases place with
  | called => exact h
  | waiting deadline =>
    obtain ⟨k, hk, hrest⟩ := h
    exact ⟨k, Nat.le_trans hk hij, hrest⟩
  | left => exact h.imp_left fun henough => Nat.le_trans henough hij

theorem count_succ (start : Word) (i : ℕ) : start + word i + 1 = start + word (i + 1) := by
  rw [← word_add, show word 1 = 1 from rfl, BitVec.add_assoc]

theorem count_zero (start : Word) : start + word 0 = start := by simp [word]

theorem Inv.interrupt (h : Inv start ticks first s) : Inv start ticks first (timerHandler s) := by
  refine ⟨?_, h.2.later (Nat.le_succ _)⟩
  change s.timerTicks + 1 = start + word (s.handled + 1)
  rw [h.1, count_succ]

theorem wait_called (h : s.place = .called) :
    timerWait ticks s = { s with place := .waiting (s.timerTicks + ticks) } := by
  simp only [timerWait, h]

theorem wait_stays (h : s.place = .waiting deadline) (hlt : s.timerTicks < deadline) :
    timerWait ticks s = s := by
  simp only [timerWait, h, if_pos hlt]

theorem wait_leaves (h : s.place = .waiting deadline) (hlt : ¬s.timerTicks < deadline) :
    timerWait ticks s = { s with place := .left } := by
  simp only [timerWait, h, if_neg hlt]

theorem wait_left (h : s.place = .left) : timerWait ticks s = s := by simp only [timerWait, h]

theorem below_deadline (hj : j ≤ i) (hi : i < ticks.toNat)
    (hsum : start.toNat + j + ticks.toNat < 4294967296) : start + word i < start + word j + ticks := by
  have hstart := start.isLt
  rw [BitVec.lt_def, BitVec.toNat_add, BitVec.toNat_add, BitVec.toNat_add, toNat_word (by omega),
    toNat_word (by omega)]
  omega

theorem Inv.step (h : Inv start ticks first s) : Inv start ticks first (timerWait ticks s) := by
  obtain ⟨hticks, hplace⟩ := h
  cases hp : s.place with
  | called =>
    rw [hp] at hplace
    rw [wait_called hp]
    exact ⟨hticks, s.handled, Nat.le_refl _, hplace _, by rw [hticks]⟩
  | waiting deadline =>
    by_cases hlt : s.timerTicks < deadline
    · rw [wait_stays hp hlt]
      exact ⟨hticks, hplace⟩
    · rw [hp] at hplace
      obtain ⟨j, hj, hfirst, rfl⟩ := hplace
      rw [wait_leaves hp hlt]
      refine ⟨hticks, ?_⟩
      by_cases henough : ticks.toNat ≤ s.handled
      · exact Or.inl henough
      · refine Or.inr ⟨j, by omega, hfirst, ?_⟩
        by_contra hsum
        rw [hticks] at hlt
        exact hlt (below_deadline hj (by omega) (by omega))
  | left =>
    rw [wait_left hp]
    exact ⟨hticks, hplace⟩

theorem waits_of_inv (h : Inv start ticks first s)
    (hsum : ∀ j < ticks.toNat, first j → start.toNat + j + ticks.toNat < 4294967296) :
    WaitsLongEnough ticks s := by
  intro es t hrun hleft
  have hstep (s : TimerState) (e : Event) (t : TimerState) (hs : Inv start ticks first s)
    (he : Step ticks s e t) :
      Inv start ticks first t := by
    cases he with
    | interrupt => exact hs.interrupt
    | step => exact hs.step
  obtain ⟨-, hplace⟩ := hrun.invariant (Inv start ticks first) hstep h
  rw [hleft] at hplace
  rcases hplace with henough | ⟨j, hj, hfirst, hwrap⟩
  · exact henough
  · exact absurd (hsum j hj hfirst) (by omega)

theorem leaves_at_once (h : 4294967296 ≤ s.timerTicks.toNat + ticks.toNat)
    (hplace : s.place = .waiting (s.timerTicks + ticks)) : timerWait ticks s = { s with place := .left } := by
  have hlt := s.timerTicks.isLt
  have hlt' := ticks.isLt
  apply wait_leaves hplace
  rw [BitVec.lt_def, BitVec.toNat_add]
  omega

theorem interrupts_run (ticks start : Word) (j : ℕ) :
    Run (Step ticks) (call start) (List.replicate j .interrupt) ⟨start + word j, j, .called⟩ := by
  induction j with
  | zero =>
    rw [count_zero]
    exact .nil _
  | succ j ih =>
    rw [List.replicate_succ', ← count_succ]
    exact ih.append (.cons (.interrupt _) (.nil _))

theorem early_end (hj : j < ticks.toNat) (h : 4294967296 ≤ (start + word j).toNat + ticks.toNat) :
    ¬WaitsLongEnough ticks (call start) := by
  intro hwaits
  have hrun := (interrupts_run ticks start j).append (.cons (.step _) (.cons (.step _) (.nil _)))
  have htaken : timerWait ticks ⟨start + word j, j, .called⟩ = _ := wait_called rfl
  rw [htaken, leaves_at_once h rfl] at hrun
  exact absurd (hwaits _ _ hrun rfl) (Nat.not_le.mpr hj)

theorem waits_iff (start ticks : Word) :
    WaitsLongEnough ticks (call start) ↔ ticks = 0 ∨ start.toNat + 2 * ticks.toNat ≤ 4294967296 := by
  have hstart := start.isLt
  have hticks := ticks.isLt
  constructor
  · intro h
    by_contra hno
    obtain ⟨hzero, hsum⟩ := not_or.mp hno
    have hpos : ticks.toNat ≠ 0 := fun hz => hzero (BitVec.eq_of_toNat_eq hz)
    -- the last interrupt before the wait is long enough, or the one that brings the counter to its end
    by_cases hlast : start.toNat + (ticks.toNat - 1) < 4294967296
    · refine early_end (show ticks.toNat - 1 < ticks.toNat by omega) ?_ h
      rw [BitVec.toNat_add, toNat_word (by omega)]
      omega
    · refine early_end (show 4294967295 - start.toNat < ticks.toNat by omega) ?_ h
      rw [BitVec.toNat_add, toNat_word (by omega)]
      omega
  · intro h
    have hinv : Inv start ticks (fun _ => True) (call start) := ⟨(count_zero start).symm, fun _ => trivial⟩
    refine waits_of_inv hinv fun j hj _ => ?_
    rcases h with rfl | h
    · exact absurd hj (Nat.not_lt_zero j)
    · omega

theorem loop_waits_iff (start ticks : Word) :
    WaitsLongEnough ticks (inLoop start ticks) ↔ start.toNat + ticks.toNat < 4294967296 := by
  have hticks := ticks.isLt
  constructor
  · intro h
    by_contra hsum
    have hrun : Run (Step ticks) (inLoop start ticks) [.step] _ := .cons (.step _) (.nil _)
    rw [leaves_at_once (Nat.le_of_not_lt hsum) rfl] at hrun
    have henough : ticks.toNat ≤ 0 := h _ _ hrun rfl
    have hstart := start.isLt
    omega
  · intro h
    have hinv : Inv start ticks (· = 0) (inLoop start ticks) :=
      ⟨(count_zero start).symm, 0, Nat.le_refl 0, rfl, by rw [count_zero]⟩
    refine waits_of_inv hinv fun j _ hfirst => ?_
    subst hfirst
    exact h

/-- The wait is long enough, whenever the interrupts come, exactly if the deadline cannot lie beyond
the last number: where it may be taken up to `ticks - 1` interrupts after the call, and where it is
taken at the call. -/
theorem timer_waits_iff (start ticks : Word) :
    (WaitsLongEnough ticks (call start) ↔ ticks = 0 ∨ start.toNat + 2 * ticks.toNat ≤ 4294967296) ∧
    (WaitsLongEnough ticks (inLoop start ticks) ↔ start.toNat + ticks.toNat < 4294967296) :=
  ⟨waits_iff start ticks, loop_waits_iff start ticks⟩

theorem wait_skipped : ¬WaitsLongEnough 3 (inLoop 0xFFFFFFFE 3) ∧ ¬WaitsLongEnough 3 (call 0xFFFFFFFE) := by
  rw [loop_waits_iff, waits_iff]
  decide

end Rinix.Timer
