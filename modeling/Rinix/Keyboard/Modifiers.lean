import Mathlib.Data.List.Induction
import Rinix.Keyboard.Handler

namespace Rinix.Keyboard

open ByteMemory

inductive Modifier where
  | leftShift
  | rightShift
  | control
  | alt
deriving DecidableEq

def Modifier.makeCode : Modifier → Byte
  | .leftShift => 0x2A
  | .rightShift => 0x36
  | .control => 0x1D
  | .alt => 0x38

def Modifier.breakCode (m : Modifier) : Byte := m.makeCode ||| 0x80

def Modifier.bit : Modifier → Byte
  | .leftShift => 0x08
  | .rightShift => 0x04
  | .control => 0x02
  | .alt => 0x01

def Modifier.Down (m : Modifier) (flags : Byte) : Prop := flags &&& m.bit ≠ 0

def Modifier.Event (m : Modifier) (scancode : Byte) : Prop := scancode = m.makeCode ∨ scancode = m.breakCode

instance (m : Modifier) (scancode : Byte) : Decidable (m.Event scancode) :=
  inferInstanceAs (Decidable (_ ∨ _))

def Modifier.Held (m : Modifier) (scancodes : List Byte) : Prop :=
  (scancodes.filter fun b => m.Event b).getLast? = some m.makeCode

/-- An interrupt of the keyboard, or the first line of `pause` in the code it interrupts. -/
inductive Input where
  | interrupt (scancode : Byte)
  | pause

def receive (k : KbdState) : Input → KbdState
  | .interrupt scancode => keyboardHandler k scancode
  | .pause => { k with pauseFlag := 1 }

def deliver (k : KbdState) (inputs : List Input) : KbdState := inputs.foldl receive k

def scancodes (inputs : List Input) : List Byte :=
  inputs.filterMap fun
    | .interrupt scancode => some scancode
    | .pause => none

def Tracked (k : KbdState) (inputs : List Input) : Prop :=
  (∀ m : Modifier, m.Down (deliver k inputs).flags ↔ m.Held (scancodes inputs)) ∧
  ∀ pre b post (m m' : Modifier), inputs = pre ++ .interrupt b :: post → m.Event b → m' ≠ m →
    (m'.Down (deliver k (pre ++ [.interrupt b])).flags ↔ m'.Down (deliver k pre).flags)

def nextFlags (flags scancode : Byte) : Byte :=
  if scancode &&& 0x80 ≠ 0 then releasedFlags flags scancode else pressedFlags flags scancode

variable {k : KbdState} {m m' : Modifier} {b flags : Byte} {bs : List Byte} {inputs : List Input}

theorem handler_flags (k : KbdState) (b : Byte) : (keyboardHandler k b).flags = nextFlags k.flags b := by
  simp only [keyboardHandler, nextFlags, unpause]
  split_ifs <;> rfl

def Modifier.place : Modifier → ℕ
  | .leftShift => 3
  | .rightShift => 2
  | .control => 1
  | .alt => 0

theorem and_twoPow_ne {i : ℕ} (hi : i < 8) (flags : Byte) :
    flags &&& BitVec.twoPow 8 i ≠ 0 ↔ flags.getLsbD i = true := by
  have hne : ∀ i < 8, BitVec.twoPow 8 i ≠ 0 := by decide
  rw [BitVec.and_twoPow]
  split_ifs with h
  · exact iff_of_true (hne i hi) h
  · exact iff_of_false (fun h' => h' rfl) h

theorem down_iff : m.Down flags ↔ flags.getLsbD m.place = true := by
  have hbit : m.bit = BitVec.twoPow 8 m.place := by cases m <;> rfl
  have hplace : m.place < 8 := by cases m <;> decide
  rw [Modifier.Down, hbit]
  exact and_twoPow_ne hplace flags

def breakMask : Modifier → Byte
  | .leftShift => 0xF7
  | .rightShift => 0xFA
  | .control => 0xFD
  | .alt => 0xFE

theorem nextFlags_make (m : Modifier) (flags : Byte) : nextFlags flags m.makeCode = flags ||| m.bit := by
  cases m <;> rfl

theorem nextFlags_break (m : Modifier) (flags : Byte) : nextFlags flags m.breakCode = flags &&&
    breakMask m := by
  cases m <;> rfl

theorem make_of_and (b code : Byte) (h : b &&& 0x7F = code) :
    b = code ∨ b = code ||| 0x80 := by
  have hall : ∀ b : Byte, b = b &&& 0x7F ∨ b = (b &&& 0x7F) ||| 0x80 := by decide
  rw [← h]
  exact hall b

theorem nextFlags_other (hb : ∀ m : Modifier, ¬m.Event b) (flags : Byte) :
    ∃ x : Byte, x &&& 0x0F = 0 ∧ nextFlags flags b = flags ^^^ x := by
  have hne (m : Modifier) : b &&& 0x7F ≠ m.makeCode :=
    fun h => hb m (make_of_and b m.makeCode h)
  have h1 : b &&& 0x7F ≠ 0x2A := hne .leftShift
  have h2 : b &&& 0x7F ≠ 0x36 := hne .rightShift
  have h3 : b &&& 0x7F ≠ 0x1D := hne .control
  have h4 : b &&& 0x7F ≠ 0x38 := hne .alt
  have hzero : flags = flags ^^^ 0 := BitVec.xor_zero.symm
  simp only [nextFlags, releasedFlags, pressedFlags, if_neg h1, if_neg h2, if_neg h3, if_neg h4]
  split_ifs
  · exact ⟨0, rfl, hzero⟩
  · exact ⟨0x40, rfl, rfl⟩
  · exact ⟨0x20, rfl, rfl⟩
  · exact ⟨0x10, rfl, rfl⟩
  · exact ⟨0, rfl, hzero⟩

theorem down_make (m m' : Modifier) (flags : Byte) :
    m'.Down (nextFlags flags m.makeCode) ↔ m' = m ∨ m'.Down flags := by
  rw [nextFlags_make, down_iff, down_iff, BitVec.getLsbD_or, Bool.or_eq_true, or_comm]
  apply or_congr_left
  cases m <;> cases m' <;> decide

theorem down_break (m m' : Modifier) (flags : Byte) (h : ¬(m = .rightShift ∧ m' = .alt)) :
    m'.Down (nextFlags flags m.breakCode) ↔ m' ≠ m ∧ m'.Down flags := by
  rw [nextFlags_break, down_iff, down_iff, BitVec.getLsbD_and, Bool.and_eq_true, and_comm]
  apply and_congr_left'
  revert h
  cases m <;> cases m' <;> decide

theorem shift_break_alt (flags : Byte) : ¬Modifier.alt.Down (nextFlags flags 0xB6) := by
  rw [show (0xB6 : Byte) = Modifier.rightShift.breakCode from rfl, nextFlags_break, down_iff,
    BitVec.getLsbD_and]
  simp [breakMask, Modifier.place]

theorem down_other (hb : ∀ m : Modifier, ¬m.Event b) (m : Modifier) (flags : Byte) :
    m.Down (nextFlags flags b) ↔ m.Down flags := by
  obtain ⟨x, hx, hnext⟩ := nextFlags_other hb flags
  have hclear : x.getLsbD m.place = false := by
    have hmask : (0x0F : Byte).getLsbD m.place = true := by cases m <;> rfl
    have hbit := congrArg (fun v : Byte => v.getLsbD m.place) hx
    rwa [BitVec.getLsbD_and, hmask, Bool.and_true, show (0 : Byte).getLsbD m.place =
      false from BitVec.getLsbD_zero] at hbit
  rw [hnext, down_iff, down_iff, BitVec.getLsbD_xor, hclear, Bool.xor_false]

theorem event_unique (h : m.Event b) (h' : m'.Event b) : m = m' := by
  rcases h with rfl | rfl
  all_goals
    revert h'
    cases m <;> cases m' <;> decide

theorem make_ne_break (m : Modifier) : m.makeCode ≠ m.breakCode := by cases m <;> decide

theorem held_append (m : Modifier) (bs : List Byte) (b : Byte) :
    m.Held (bs ++ [b]) ↔ if m.Event b then b = m.makeCode else m.Held bs := by
  rw [Modifier.Held, List.filter_append]
  split_ifs with h
  · simp [h]
  · simp [h, Modifier.Held]

def NoShiftBreakUnderAlt (bs : List Byte) : Prop :=
  ∀ pre post, bs = pre ++ 0xB6 :: post → ¬Modifier.alt.Held pre

theorem noShiftBreak_append : NoShiftBreakUnderAlt (bs ++ [b]) ↔
    NoShiftBreakUnderAlt bs ∧ (b = 0xB6 → ¬Modifier.alt.Held bs) := by
  constructor
  · intro h
    refine ⟨fun pre post heq => h pre (post ++ [b]) (by rw [heq]; simp), ?_⟩
    rintro rfl
    exact h bs [] rfl
  · rintro ⟨h, hlast⟩ pre post heq
    rcases List.eq_nil_or_concat post with rfl | ⟨post, b', rfl⟩
    · obtain ⟨rfl, hb⟩ := List.append_inj' heq rfl
      exact hlast (List.cons.inj hb).1
    · rw [List.concat_eq_append, ← List.cons_append, ← List.append_assoc] at heq
      obtain ⟨rfl, -⟩ := List.append_inj' heq rfl
      exact h pre post rfl

theorem down_own (h : m.Event b) (flags : Byte) : m.Down (nextFlags flags b) ↔ b = m.makeCode := by
  rcases h with rfl | rfl
  · rw [down_make]
    exact iff_of_true (Or.inl rfl) rfl
  · rw [down_break _ _ _ (by cases m <;> decide)]
    exact iff_of_false (fun h => h.1 rfl) (make_ne_break m).symm

theorem down_foreign (h : ¬m.Event b) (hb : b = 0xB6 → m = .alt → ¬m.Down flags) :
    m.Down (nextFlags flags b) ↔ m.Down flags := by
  by_cases hevent : ∃ m' : Modifier, m'.Event b
  · obtain ⟨m', hm'⟩ := hevent
    have hne : m ≠ m' := fun heq => h (heq ▸ hm')
    rcases hm' with rfl | rfl
    · rw [down_make]
      exact or_iff_right hne
    · by_cases hbad : m' = .rightShift ∧ m = .alt
      · obtain ⟨rfl, rfl⟩ := hbad
        exact iff_of_false (shift_break_alt flags) (hb rfl rfl)
      · rw [down_break _ _ _ hbad]
        exact and_iff_right hne
  · exact down_other (fun m' h' => hevent ⟨m', h'⟩) m flags

theorem deliver_append (k : KbdState) (inputs : List Input) (i : Input) :
    deliver k (inputs ++ [i]) = receive (deliver k inputs) i := by
  simp only [deliver, List.foldl_append, List.foldl_cons, List.foldl_nil]

theorem receive_flags (k : KbdState) (b : Byte) : (receive k (.interrupt b)).flags = nextFlags k.flags b :=
  handler_flags k b

theorem scancodes_append (inputs inputs' : List Input) :
    scancodes (inputs ++ inputs') = scancodes inputs ++ scancodes inputs' := List.filterMap_append

def quiet (pauseFlag : Word) (printed : List Byte) : KbdState := ⟨0, pauseFlag, printed⟩

theorem down_held (pauseFlag : Word) (printed : List Byte)
    (h : NoShiftBreakUnderAlt (scancodes inputs)) (m : Modifier) :
    m.Down (deliver (quiet pauseFlag printed) inputs).flags ↔ m.Held (scancodes inputs) := by
  induction inputs using List.reverseRecOn generalizing m with
  | nil => exact iff_of_false (fun h => h BitVec.zero_and) (by simp [Modifier.Held, scancodes])
  | append_singleton inputs i ih =>
    rw [scancodes_append] at h ⊢
    rw [deliver_append]
    cases i with
    | pause =>
      rw [show scancodes [Input.pause] = [] from rfl, List.append_nil] at h ⊢
      exact ih h m
    | interrupt b =>
      rw [show scancodes [Input.interrupt b] = [b] from rfl] at h ⊢
      obtain ⟨h, hlast⟩ := noShiftBreak_append.mp h
      rw [receive_flags, held_append]
      by_cases hevent : m.Event b
      · rw [if_pos hevent, down_own hevent]
      · rw [if_neg hevent, down_foreign hevent ?_, ih h]
        rintro hb rfl
        rw [ih h]
        exact hlast hb

theorem noShiftBreak_of_tracked (pauseFlag : Word) (printed : List Byte)
    (h : ∀ pre b post (m m' : Modifier), inputs = pre ++ .interrupt b :: post → m.Event b → m' ≠ m →
      (m'.Down (deliver (quiet pauseFlag printed) (pre ++ [.interrupt b])).flags ↔
        m'.Down (deliver (quiet pauseFlag printed) pre).flags)) :
    NoShiftBreakUnderAlt (scancodes inputs) := by
  induction inputs using List.reverseRecOn with
  | nil => intro pre post heq; simp [scancodes] at heq
  | append_singleton inputs i ih =>
    have hpre := ih fun pre b post m m' heq => h pre b (post ++ [i]) m m' (by rw [heq]; simp)
    rw [scancodes_append]
    cases i with
    | pause => simpa [scancodes] using hpre
    | interrupt b =>
      refine noShiftBreak_append.mpr ⟨hpre, ?_⟩
      rintro rfl hheld
      have hsame := h inputs 0xB6 [] .rightShift .alt rfl (Or.inr rfl) (by decide)
      rw [down_held pauseFlag printed hpre, deliver_append, receive_flags] at hsame
      exact shift_break_alt _ (hsame.mpr hheld)

/-- The bits follow the four keys exactly when no right shift is released while alt is held. -/
theorem modifiers_tracked_iff (pauseFlag : Word) (printed : List Byte) (inputs : List Input) :
    Tracked (quiet pauseFlag printed) inputs ↔ NoShiftBreakUnderAlt (scancodes inputs) := by
  constructor
  · rintro ⟨-, h⟩
    exact noShiftBreak_of_tracked pauseFlag printed h
  · intro h
    refine ⟨down_held pauseFlag printed h, ?_⟩
    rintro pre b post m m' rfl hevent hne
    rw [deliver_append, receive_flags]
    apply down_foreign (fun hevent' => hne (event_unique hevent' hevent))
    rintro rfl rfl
    rw [scancodes_append] at h
    have hpre : NoShiftBreakUnderAlt (scancodes pre) := by
      intro pre' post' heq
      exact h pre' (post' ++ scancodes (.interrupt 0xB6 :: post)) (by rw [heq]; simp)
    rw [down_held pauseFlag printed hpre]
    exact h (scancodes pre) (scancodes post) rfl

theorem alt_lost : ¬Tracked (quiet 0 []) [.interrupt 0x38, .interrupt 0xB6] := by
  rintro ⟨h, -⟩
  have hheld : Modifier.alt.Held [0x38, 0xB6] := by
    rw [Modifier.Held]
    decide
  exact shift_break_alt _ ((h .alt).mpr hheld)

end Rinix.Keyboard
