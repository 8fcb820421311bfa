import Mathlib.Data.Finset.Max
import Mathlib.Data.Fintype.Basic
import Mathlib.Data.Nat.Notation
import Mathlib.Tactic.Common

/-!
Two cascaded 8259A interrupt controllers, as the PC wires them, with fixed priorities and
edge-triggered inputs.
-/

namespace Pic

abbrev Input := Fin 8

inductive Expect where
  | mask | icw2 | icw3 | icw4
  deriving DecidableEq

/-- `irr` are the requests that are latched, `isr` those in service, `imr` those that are masked.
`base` is the vector of input 0. -/
@[ext] structure Chip where
  irr : Finset Input
  isr : Finset Input
  imr : Finset Input
  base : BitVec 8
  cascade : BitVec 8
  single : Bool
  needsIcw4 : Bool
  autoEoi : Bool
  expect : Expect

def first (s : Finset Input) : Option Input := if h : s.Nonempty then some (s.min' h) else none

namespace Chip

def passes (c : Chip) (i : Input) : Prop := ∀ j ∈ c.isr, i < j

instance (c : Chip) (i : Input) : Decidable (c.passes i) := inferInstanceAs (Decidable (∀ j ∈ c.isr, i < j))

def request (c : Chip) : Option Input := (first (c.irr \ c.imr)).filter fun i => c.expect = .mask ∧ c.passes i

def latch (c : Chip) (i : Input) : Chip := { c with irr := insert i c.irr }

def serve (c : Chip) (i : Input) : Chip :=
  { c with irr := c.irr.erase i, isr := if c.autoEoi then c.isr else insert i c.isr }

def endFirst (c : Chip) : Chip :=
  match first c.isr with
  | some i => { c with isr := c.isr.erase i }
  | none => c

def low (v : BitVec 8) : Input := ⟨v.toNat % 8, Nat.mod_lt _ (by decide)⟩

/-- A byte at the command port. Rotations, the special mask and polling are not here. -/
def command (c : Chip) (v : BitVec 8) : Chip :=
  if v.getLsbD 4 then
    { c with irr := ∅, isr := ∅, imr := ∅, single := v.getLsbD 1, needsIcw4 := v.getLsbD 0, autoEoi := false,
             expect := .icw2 }
  else if v.getLsbD 3 then c
  else if v &&& 0xE0 = 0x20 then c.endFirst
  else if v &&& 0xE0 = 0x60 then { c with isr := c.isr.erase (low v) }
  else c

def afterIcw3 (c : Chip) : Expect := if c.needsIcw4 then .icw4 else .mask

def data (c : Chip) (v : BitVec 8) : Chip :=
  match c.expect with
  | .mask => { c with imr := Finset.univ.filter fun i => v.getLsbD i }
  | .icw2 => { c with base := v &&& 0xF8, expect := if c.single then c.afterIcw3 else .icw3 }
  | .icw3 => { c with cascade := v, expect := c.afterIcw3 }
  | .icw4 => { c with autoEoi := v.getLsbD 1, expect := .mask }

def vector (c : Chip) (i : Input) : BitVec 8 := c.base ||| BitVec.ofNat 8 i

end Chip

@[ext] structure Pair where
  master : Chip
  slave : Chip

namespace Pair

abbrev Line := Fin 16

abbrev Line.timer : Line := 0

abbrev Line.keyboard : Line := 1

abbrev Line.slave : Line := 2

abbrev Line.spurious : Line := 7

def inputOf (n : Line) : Input := ⟨n.val % 8, Nat.mod_lt _ (by decide)⟩

def ofMaster (i : Input) : Line := ⟨i.val, Nat.lt_of_lt_of_le i.isLt (by decide)⟩

def ofSlave (j : Input) : Line := ⟨8 + j.val, Nat.add_lt_add_left j.isLt 8⟩

def raise (p : Pair) (n : Line) : Pair :=
  if n.val < 8 then { p with master := p.master.latch (inputOf n) }
  else { p with slave := p.slave.latch (inputOf n) }

def seen (p : Pair) : Chip := if p.slave.request.isSome then p.master.latch 2 else p.master

def Latched (p : Pair) (n : Line) : Prop :=
  if n.val < 8 then inputOf n ∈ p.master.irr else inputOf n ∈ p.slave.irr

instance (p : Pair) (n : Line) : Decidable (p.Latched n) := by
  unfold Latched
  infer_instance

def int (p : Pair) : Option Input := p.seen.request

def Linked (p : Pair) : Prop := p.master.cascade.getLsbD 2 = true ∧ p.slave.cascade &&& 7 = 2

instance (p : Pair) : Decidable p.Linked :=
  inferInstanceAs (Decidable (p.master.cascade.getLsbD 2 = true ∧ p.slave.cascade &&& 7 = 2))

/-- The processor acknowledges: the vector, and the controllers afterwards. An acknowledge that
nothing asked for gets the vector of input 7. -/
def ack (p : Pair) : BitVec 8 × Pair :=
  match p.int with
  | none => (p.master.vector 7, p)
  | some i =>
    if i = 2 ∧ p.Linked then
      match p.slave.request with
      | none => (p.slave.vector 7, { p with master := p.master.serve 2 })
      | some j => (p.slave.vector j, ⟨p.master.serve 2, p.slave.serve j⟩)
    else (p.master.vector i, { p with master := p.master.serve i })

def outb (p : Pair) (port : BitVec 16) (v : BitVec 8) : Pair :=
  if port = 0x20 then { p with master := p.master.command v }
  else if port = 0x21 then { p with master := p.master.data v }
  else if port = 0xA0 then { p with slave := p.slave.command v }
  else if port = 0xA1 then { p with slave := p.slave.data v }
  else p

end Pair

variable {s : Finset Input} {i : Input} {c : Chip}

theorem first_eq_none : first s = none ↔ s = ∅ := by
  rw [first]
  split_ifs with h
  · exact iff_of_false (by simp) h.ne_empty
  · exact iff_of_true rfl (Finset.not_nonempty_iff_eq_empty.mp h)

theorem first_eq_some : first s = some i ↔ i ∈ s ∧ ∀ j ∈ s, i ≤ j := by
  rw [first]
  split_ifs with h
  · rw [Option.some.injEq]
    constructor
    · rintro rfl
      exact ⟨s.min'_mem h, fun j hj => s.min'_le j hj⟩
    · rintro ⟨hi, hle⟩
      exact le_antisymm (s.min'_le i hi) (hle _ (s.min'_mem h))
  · refine iff_of_false (by simp) fun hi => h ⟨i, hi.1⟩

theorem request_open (hexpect : c.expect = .mask) (himr : c.imr = ∅) (hisr : c.isr = ∅) :
    c.request = first c.irr := by
  rw [Chip.request, himr, Finset.sdiff_empty]
  have hall : (fun i => decide (c.expect = .mask ∧ c.passes i)) = fun _ => true := by
    funext i
    simp [hexpect, Chip.passes, hisr]
  rw [hall]
  cases first c.irr <;> rfl

namespace Pair

variable {p : Pair} {n m : Line}

structure Open (p : Pair) : Prop where
  master : p.master.expect = .mask ∧ p.master.imr = ∅ ∧ p.master.isr = ∅
  slave : p.slave.expect = .mask ∧ p.slave.imr = ∅ ∧ p.slave.isr = ∅
  linked : p.Linked
  two : 2 ∉ p.master.irr

def rank (n : Line) : ℕ := if n.val < 2 then n.val else if n.val < 8 then n.val + 8 else n.val - 6

def vectorOf (p : Pair) (n : Line) : BitVec 8 :=
  if n.val < 8 then p.master.vector (inputOf n) else p.slave.vector (inputOf n)

def taken (p : Pair) (n : Line) : Pair :=
  if n.val < 8 then { p with master := p.master.serve (inputOf n) }
  else ⟨p.master.serve 2, p.slave.serve (inputOf n)⟩

theorem inputOf_ofMaster (i : Input) : inputOf (ofMaster i) = i := Fin.ext (Nat.mod_eq_of_lt i.isLt)

theorem inputOf_ofSlave (j : Input) : inputOf (ofSlave j) = j := by
  apply Fin.ext
  show (8 + j.val) % 8 = j.val
  omega

theorem ofSlave_ge (j : Input) : ¬(ofSlave j).val < 8 := Nat.not_lt.mpr (Nat.le_add_right 8 j.val)

theorem latched_small (h : n.val < 8) : p.Latched n ↔ inputOf n ∈ p.master.irr := by rw [Latched, if_pos h]

theorem latched_slave (h : ¬n.val < 8) : p.Latched n ↔ inputOf n ∈ p.slave.irr := by rw [Latched, if_neg h]

theorem inputOf_inj (h : inputOf n = inputOf m) (hside : n.val < 8 ↔ m.val < 8) : n = m := by
  have hval : n.val % 8 = m.val % 8 := congrArg Fin.val h
  apply Fin.ext
  omega

theorem latched_raise : (p.raise n).Latched m ↔ m = n ∨ p.Latched m := by
  by_cases hn : n.val < 8
  · rw [raise, if_pos hn]
    by_cases hm : m.val < 8
    · rw [latched_small hm, latched_small hm, Chip.latch, Finset.mem_insert]
      exact or_congr_left ⟨fun h => inputOf_inj h (by omega), congrArg inputOf⟩
    · rw [latched_slave hm, latched_slave hm]
      refine (or_iff_right ?_).symm
      rintro rfl
      exact hm hn
  · rw [raise, if_neg hn]
    by_cases hm : m.val < 8
    · rw [latched_small hm, latched_small hm]
      refine (or_iff_right ?_).symm
      rintro rfl
      exact hn hm
    · rw [latched_slave hm, latched_slave hm, Chip.latch, Finset.mem_insert]
      exact or_congr_left ⟨fun h => inputOf_inj h (by omega), congrArg inputOf⟩

theorem raise_latched (h : p.Latched n) : p.raise n = p := by
  by_cases hn : n.val < 8
  · rw [raise, if_pos hn, Chip.latch, Finset.insert_eq_of_mem ((latched_small hn).mp h)]
  · rw [raise, if_neg hn, Chip.latch, Finset.insert_eq_of_mem ((latched_slave hn).mp h)]

theorem Open.slave_request (h : p.Open) : p.slave.request = first p.slave.irr :=
  request_open h.slave.1 h.slave.2.1 h.slave.2.2

theorem Open.int_eq (h : p.Open) :
    p.int = first (if p.slave.irr = ∅ then p.master.irr else insert 2 p.master.irr) := by
  have hsome : p.slave.request.isSome = true ↔ ¬p.slave.irr = ∅ := by
    rw [h.slave_request, Option.isSome_iff_ne_none, ne_eq, first_eq_none]
  rw [int, seen]
  by_cases hempty : p.slave.irr = ∅
  · rw [if_pos hempty, if_neg fun hs => hsome.mp hs hempty]
    exact request_open h.master.1 h.master.2.1 h.master.2.2
  · rw [if_neg hempty, if_pos (hsome.mpr hempty)]
    exact request_open h.master.1 h.master.2.1 h.master.2.2

theorem ack_master (hint : p.int = some i) (hi : i ≠ 2) :
    p.ack = (p.vectorOf (ofMaster i), p.taken (ofMaster i)) := by
  have hlt : (ofMaster i).val < 8 := i.isLt
  rw [vectorOf, taken, if_pos hlt, if_pos hlt, inputOf_ofMaster]
  unfold ack
  rw [hint]
  exact if_neg fun hand => hi hand.1

theorem ack_slave {j : Input} (hint : p.int = some 2) (hlinked : p.Linked) (hj : p.slave.request = some j) :
    p.ack = (p.vectorOf (ofSlave j), p.taken (ofSlave j)) := by
  rw [vectorOf, taken, if_neg (ofSlave_ge j), if_neg (ofSlave_ge j), inputOf_ofSlave]
  unfold ack
  rw [hint, hj]
  exact if_pos ⟨rfl, hlinked⟩

theorem Open.ack_least (h : p.Open) (hint : p.int = some i) :
    ∃ n, p.Latched n ∧ (∀ m, p.Latched m → rank n ≤ rank m) ∧ p.ack = (p.vectorOf n, p.taken n) := by
  have hleast := h.int_eq.symm.trans hint
  rw [first_eq_some] at hleast
  obtain ⟨hi, hle⟩ := hleast
  by_cases htwo : i = 2
  · subst htwo
    have hslave : p.slave.irr ≠ ∅ := by
      intro hempty
      rw [if_pos hempty] at hi
      exact h.two hi
    rw [if_neg hslave] at hle
    obtain ⟨j, hj⟩ := Option.ne_none_iff_exists'.mp (mt first_eq_none.mp hslave)
    obtain ⟨hmem, hlow⟩ := first_eq_some.mp hj
    have hrank : rank (ofSlave j) = 2 + j.val := by
      rw [rank, show (ofSlave j).val = 8 + j.val from rfl]
      split_ifs <;> omega
    refine ⟨ofSlave j, ?_, fun m hm => ?_, ack_slave hint h.linked (h.slave_request.trans hj)⟩
    · rw [latched_slave (ofSlave_ge j), inputOf_ofSlave]
      exact hmem
    · by_cases hm8 : m.val < 8
      · have hin := (latched_small hm8).mp hm
        have hge : 2 ≤ m.val % 8 := hle _ (Finset.mem_insert_of_mem hin)
        have hne : m.val % 8 ≠ 2 := fun heq => h.two ((show inputOf m = 2 from Fin.ext heq) ▸ hin)
        rw [hrank, rank]
        split_ifs <;> omega
      · have hge : j.val ≤ m.val % 8 := hlow _ ((latched_slave hm8).mp hm)
        rw [hrank, rank]
        split_ifs <;> omega
  · have hmem : i ∈ p.master.irr := by
      split_ifs at hi with hempty
      · exact hi
      · exact (Finset.mem_insert.mp hi).resolve_left htwo
    have hrank : rank (ofMaster i) = if i.val < 2 then i.val else i.val + 8 := by
      rw [rank, show (ofMaster i).val = i.val from rfl]
      split_ifs <;> omega
    refine ⟨ofMaster i, ?_, fun m hm => ?_, ack_master hint htwo⟩
    · rw [latched_small (show (ofMaster i).val < 8 from i.isLt), inputOf_ofMaster]
      exact hmem
    · have hne : i.val ≠ 2 := fun heq => htwo (Fin.ext heq)
      by_cases hm8 : m.val < 8
      · have hge : i ≤ inputOf m := by
          apply hle
          split_ifs
          · exact (latched_small hm8).mp hm
          · exact Finset.mem_insert_of_mem ((latched_small hm8).mp hm)
        have hge' : i.val ≤ m.val % 8 := hge
        rw [hrank, rank]
        split_ifs <;> omega
      · have hslave : p.slave.irr ≠ ∅ := Finset.ne_empty_of_mem ((latched_slave hm8).mp hm)
        rw [if_neg hslave] at hle
        have hlow : i.val ≤ 2 := hle 2 (Finset.mem_insert_self 2 _)
        rw [hrank, rank]
        split_ifs <;> omega

theorem Open.int_some (h : p.Open) (hn : p.Latched n) : ∃ i, p.int = some i := by
  rw [← Option.ne_none_iff_exists', h.int_eq, ne_eq, first_eq_none]
  by_cases hn8 : n.val < 8
  · have hmem := (latched_small hn8).mp hn
    split_ifs
    · exact Finset.ne_empty_of_mem hmem
    · exact Finset.insert_ne_empty 2 _
  · rw [if_neg (Finset.ne_empty_of_mem ((latched_slave hn8).mp hn))]
    exact Finset.insert_ne_empty 2 _

theorem latched_taken (h : 2 ∉ p.master.irr) : (p.taken n).Latched m ↔ m ≠ n ∧ p.Latched m := by
  by_cases hn : n.val < 8
  · rw [taken, if_pos hn]
    by_cases hm : m.val < 8
    · rw [latched_small hm, latched_small hm, Chip.serve, Finset.mem_erase]
      exact and_congr_left fun _ => not_congr ⟨fun h => inputOf_inj h (by omega), congrArg inputOf⟩
    · rw [latched_slave hm, latched_slave hm]
      refine (and_iff_right ?_).symm
      rintro rfl
      exact hm hn
  · rw [taken, if_neg hn]
    by_cases hm : m.val < 8
    · rw [latched_small hm, latched_small hm, Chip.serve, Finset.erase_eq_of_notMem h]
      refine (and_iff_right ?_).symm
      rintro rfl
      exact hn hm
    · rw [latched_slave hm, latched_slave hm]
      show inputOf m ∈ p.slave.irr.erase (inputOf n) ↔ _
      rw [Finset.mem_erase]
      exact and_congr_left fun _ => not_congr ⟨fun h => inputOf_inj h (by omega), congrArg inputOf⟩

end Pair

theorem endFirst_isr (h : c.isr ⊆ {i}) : c.endFirst.isr = ∅ := by
  rw [Chip.endFirst]
  rcases Finset.subset_singleton_iff.mp h with hisr | hisr
  · rw [hisr, first_eq_none.mpr rfl]
    exact hisr
  · have hfirst : first c.isr = some i := by
      rw [first_eq_some, hisr]
      exact ⟨Finset.mem_singleton_self i, fun j hj => (Finset.mem_singleton.mp hj).ge⟩
    rw [hfirst]
    show c.isr.erase i = ∅
    rw [hisr, Finset.erase_singleton]

end Pic
