import Mathlib.Data.Nat.Notation
import Mathlib.Tactic.Common

namespace BitField

variable {w lo n i : ℕ}

def window (w lo n : ℕ) : BitVec w := (BitVec.allOnes n).setWidth w <<< lo

theorem window_bit (h : lo + n ≤ w) : (window w lo n).getLsbD i = decide (lo ≤ i ∧ i < lo + n) := by
  simp only [window, BitVec.getLsbD_shiftLeft, BitVec.getLsbD_setWidth, BitVec.getLsbD_allOnes]
  grind

theorem extract_eq {d : BitVec w} {v : BitVec n} (h : ∀ i < n, d.getLsbD (lo + i) = v.getLsbD i) :
    d.extractLsb' lo n = v := by
  apply BitVec.eq_of_getLsbD_eq
  intro i hi
  rw [BitVec.getLsbD_extractLsb', h i hi, decide_eq_true hi, Bool.true_and]

structure Segment where
  base : BitVec 32
  limit : BitVec 20
  access : BitVec 8
  flags : BitVec 4

def decodeSegment (d : BitVec 64) : Segment where
  base := d.extractLsb' 56 8 ++ (d.extractLsb' 32 8 ++ d.extractLsb' 16 16)
  limit := d.extractLsb' 48 4 ++ d.extractLsb' 0 16
  access := d.extractLsb' 40 8
  flags := d.extractLsb' 52 4

def Segment.flagWord (s : Segment) : BitVec 16 := s.flags ++ ((0 : BitVec 4) ++ s.access)

@[ext] structure Gate where
  base : BitVec 32
  selector : BitVec 16
  reserved : BitVec 8
  flags : BitVec 8

def decodeGate (d : BitVec 64) : Gate where
  base := d.extractLsb' 48 16 ++ d.extractLsb' 0 16
  selector := d.extractLsb' 16 16
  reserved := d.extractLsb' 32 8
  flags := d.extractLsb' 40 8

end BitField
