import Mathlib.Algebra.Ring.Parity
import Rinix.Keyboard.Modifiers

namespace Rinix.Keyboard

open ByteMemory

inductive Lock where
  | caps
  | num
  | scroll
deriving DecidableEq

def Lock.makeCode : Lock → Byte
  | .caps => 0x3A
  | .num => 0x45
  | .scroll => 0x46

def Lock.breakCode (l : Lock) : Byte := l.makeCode ||| 0x80

def Lock.bit : Lock → Byte
  | .caps => 0x40
  | .num => 0x20
  | .scroll => 0x10

def Lock.On (l : Lock) (flags : Byte) : Prop := flags &&& l.bit ≠ 0

def Lock.makes (l : Lock) (again : Bool) : Bool → List Byte → ℕ
  | _, [] => 0
  | held, b :: bs =>
    if b = l.makeCode then (if held = again then 1 else 0) + l.makes again true bs
    else if b = l.breakCode then l.makes again false bs
    else l.makes again held bs

def Lock.presses (l : Lock) (bs : List Byte) : ℕ := l.makes false false bs

def Lock.repeats (l : Lock) (bs : List Byte) : ℕ := l.makes true false bs

def LocksFollow (k : KbdState) (inputs : List Input) : Prop :=
  ∀ l : Lock, l.On (deliver k inputs).flags ↔ Odd (l.presses (scancodes inputs))

variable {l : Lock} {b flags : Byte} {bs : List Byte} {inputs : List Input}

theorem makes_sum (l : Lock) (held : Bool) (bs : List Byte) :
    l.makes false held bs + l.makes true held bs = bs.count l.makeCode := by
  induction bs generalizing held with
  | nil => rfl
  | cons b bs ih =>
    rw [List.count_cons, Lock.makes, Lock.makes]
    by_cases hmake : b = l.makeCode
    · have hone : (if held = false then 1 else 0) + (if held = true then 1 else 0) = 1 := by
        cases held <;> rfl
      have hrest := ih true
      rw [if_pos hmake, if_pos hmake, if_pos (beq_iff_eq.mpr hmake)]
      omega
    · rw [if_neg hmake, if_neg hmake, if_neg (fun h => hmake (beq_iff_eq.mp h)), Nat.add_zero]
      split_ifs
      · exact ih false
      · exact ih held

def Lock.place : Lock → ℕ
  | .caps => 6
  | .num => 5
  | .scroll => 4

theorem on_iff : l.On flags ↔ flags.getLsbD l.place = true := by
  have hbit : l.bit = BitVec.twoPow 8 l.place := by cases l <;> rfl
  have hplace : l.place < 8 := by cases l <;> decide
  rw [Lock.On, hbit]
  exact and_twoPow_ne hplace flags

theorem lock_bits (l : Lock) (mask : Byte) : mask.getLsbD l.place = (mask &&& 0x70).getLsbD l.place := by
  have hset : (0x70 : Byte).getLsbD l.place = true := by cases l <;> rfl
  rw [BitVec.getLsbD_and, hset, Bool.and_true]

theorem on_and {mask : Byte} (hmask : mask &&& 0x70 = 0x70) : l.On (flags &&& mask) ↔ l.On flags := by
  have hset : (0x70 : Byte).getLsbD l.place = true := by cases l <;> rfl
  rw [on_iff, on_iff, BitVec.getLsbD_and, lock_bits l mask, hmask, hset, Bool.and_true]

theorem on_or {mask : Byte} (hmask : mask &&& 0x70 = 0) : l.On (flags ||| mask) ↔ l.On flags := by
  have hclear : (0 : Byte).getLsbD l.place = false := BitVec.getLsbD_zero
  rw [on_iff, on_iff, BitVec.getLsbD_or, lock_bits l mask, hmask, hclear, Bool.or_false]

theorem on_toggle (l l' : Lock) (flags : Byte) : l.On (flags ^^^ l'.bit) ↔ (l.On flags ↔ l ≠ l') := by
  have hplace : l'.bit.getLsbD l.place = decide (l = l') := by cases l <;> cases l' <;> rfl
  rw [on_iff, on_iff, BitVec.getLsbD_xor, hplace]
  by_cases heq : l = l' <;> simp [heq]

theorem nextFlags_lock (l : Lock) (flags : Byte) : nextFlags flags l.makeCode = flags ^^^
    l.bit := by cases l <;> rfl

theorem makeCode_inj (l l' : Lock) : l.makeCode = l'.makeCode ↔ l = l' := by cases l <;> cases l' <;> decide

theorem on_other (hb : ∀ l' : Lock, b ≠ l'.makeCode) (l : Lock) (flags : Byte) :
    l.On (nextFlags flags b) ↔ l.On flags := by
  have hpress (l' : Lock) (htop : ¬b &&& 0x80 ≠ 0) : b &&& 0x7F ≠ l'.makeCode := by
    intro hcode
    rcases make_of_and b _ hcode with rfl | rfl
    · exact hb l' rfl
    · exact htop (by cases l' <;> decide)
  rw [nextFlags]
  by_cases htop : b &&& 0x80 ≠ 0
  · rw [if_pos htop, releasedFlags]
    split_ifs
    · exact on_and rfl
    · exact on_and rfl
    · exact on_and rfl
    · exact on_and rfl
    · exact Iff.rfl
  · have hcaps : b &&& 0x7F ≠ 0x3A := hpress .caps htop
    have hnum : b &&& 0x7F ≠ 0x45 := hpress .num htop
    have hscroll : b &&& 0x7F ≠ 0x46 := hpress .scroll htop
    rw [if_neg htop, pressedFlags, if_neg hcaps, if_neg hnum, if_neg hscroll]
    split_ifs
    · exact on_or rfl
    · exact on_or rfl
    · exact on_or rfl
    · exact on_or rfl
    · exact Iff.rfl

theorem on_next (l : Lock) (flags b : Byte) : l.On (nextFlags flags b) ↔ (l.On flags ↔ b ≠ l.makeCode) := by
  by_cases hb : ∃ l' : Lock, b = l'.makeCode
  · obtain ⟨l', rfl⟩ := hb
    rw [nextFlags_lock, on_toggle, ne_eq, ne_eq, makeCode_inj, eq_comm]
  · have hne (l' : Lock) : b ≠ l'.makeCode := fun h => hb ⟨l', h⟩
    rw [on_other hne, iff_true_intro (hne l), iff_true]

theorem on_deliver (k : KbdState) (l : Lock) (inputs : List Input) : l.On (deliver k inputs).flags ↔
    (l.On k.flags ↔ Even ((scancodes inputs).count l.makeCode)) := by
  induction inputs using List.reverseRecOn with
  | nil => simp [deliver, scancodes]
  | append_singleton inputs i ih =>
    rw [deliver_append, scancodes_append]
    cases i with
    | pause =>
      rw [show scancodes [Input.pause] = [] from rfl, List.append_nil]
      exact ih
    | interrupt b =>
      rw [show scancodes [Input.interrupt b] = [b] from rfl, receive_flags, on_next, ih, List.count_append,
        List.count_singleton]
      by_cases hb : b = l.makeCode
      · rw [if_pos (beq_iff_eq.mpr hb), Nat.even_add_one]
        tauto
      · rw [if_neg (fun h => hb (beq_iff_eq.mp h)), Nat.add_zero]
        tauto

theorem follows_iff (pauseFlag : Word) (printed : List Byte) (inputs : List Input) (l : Lock) :
    (l.On (deliver (quiet pauseFlag printed) inputs).flags ↔ Odd (l.presses (scancodes inputs))) ↔
      Even (l.repeats (scancodes inputs)) := by
  have hoff : ¬l.On (quiet pauseFlag printed).flags := fun h => h BitVec.zero_and
  have hsum : l.presses (scancodes inputs) + l.repeats (scancodes inputs) =
    (scancodes inputs).count l.makeCode :=
    makes_sum l false (scancodes inputs)
  rw [on_deliver, ← hsum, Nat.even_add, ← Nat.not_even_iff_odd]
  tauto

/-- The lock bits follow the presses exactly when every lock key has repeated an even number of
times. -/
theorem locks_follow_iff (pauseFlag : Word) (printed : List Byte) (inputs : List Input) :
    LocksFollow (quiet pauseFlag printed) inputs ↔ ∀ l : Lock, Even (l.repeats (scancodes inputs)) :=
  forall_congr' (follows_iff pauseFlag printed inputs)

theorem caps_lost : ¬LocksFollow (quiet 0 []) [.interrupt 0x3A, .interrupt 0x3A, .interrupt 0xBA] := by
  intro h
  exact absurd ((follows_iff 0 [] _ .caps).mp (h .caps)) (by decide)

end Rinix.Keyboard
