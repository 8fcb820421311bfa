import Mathlib.Tactic.IntervalCases
import Rinix.Paging.Page

/-!
Where the addresses of `page.c` lead when the last entry of the directory points to the directory:
the word at `0xFFFFF000 | 4 * i` is entry `i` of the directory, and `0xFFC00000 | i << 12` is the
table it points to.
-/

namespace Rinix.Paging

open ByteMemory PageTable

def Machine.Recursive (s : Machine) : Prop :=
  frameOf (s.tables s.directory 0x3FF) = s.directory ∧
    s.tables s.directory 0x3FF &&& (pageP ||| pageRw) = pageP ||| pageRw

def Machine.pde (s : Machine) (virt : Word) : Word := s.tables s.directory (directorySlot virt)

def Machine.Present (s : Machine) (virt : Word) : Prop := entryFormat.present (s.pde virt)

instance (s : Machine) (virt : Word) : Decidable (s.Present virt) := inferInstanceAs (Decidable (_ = true))

def entryFor (phys flags : Word) : Word := (phys &&& ~~~0xFFF) ||| flags

def Machine.put (s : Machine) (f : Frame) (k : Slot) (e : Word) : Machine :=
  { s with mem := store s.mem (slotAddress f k) e }

variable {s : Machine} {f g : Frame} {i j k : Slot} {e virt phys flags : Word}

theorem present_iff : entryFormat.present e = true ↔ e &&& 0x1 ≠ 0 := decide_eq_true_iff

theorem slotAddress_toNat (f : Frame) (k : Slot) : (slotAddress f k).toNat = f.toNat * 4096 +
    k.toNat * 4 := by
  have hk := k.isLt
  have hlow : (k ++ (0 : BitVec 2)).toNat = k.toNat * 4 := by
    rw [BitVec.toNat_append, Nat.shiftLeft_eq]
    exact Nat.or_zero _
  rw [slotAddress, BitVec.toNat_append, hlow, ← Nat.shiftLeft_add_eq_or_of_lt (by omega), Nat.shiftLeft_eq]

theorem slotAddress_inj : slotAddress f k = slotAddress g j ↔ f = g ∧ k = j := by
  have hk := k.isLt
  have hj := j.isLt
  rw [← BitVec.toNat_inj, ← BitVec.toNat_inj, ← BitVec.toNat_inj, slotAddress_toNat, slotAddress_toNat]
  omega

@[simp] theorem put_tables : (s.put f k e).tables = put s.tables f k e := by
  funext g j
  by_cases h : g = f ∧ j = k
  · rw [h.1, h.2, put_same]
    exact load_store ..
  · rw [put_other h]
    have hne : slotAddress g j ≠ slotAddress f k := fun heq => h (slotAddress_inj.mp heq)
    have hf := slotAddress_toNat f k
    have hg := slotAddress_toNat g j
    apply load_store_miss
    · bv_omega
    · bv_omega

@[simp] theorem put_directory : (s.put f k e).directory = s.directory := rfl

theorem frameOf_toNat (a : Word) : (frameOf a).toNat = a.toNat / 0x1000 := by
  have ha := a.isLt
  rw [frameOf, BitVec.extractLsb'_toNat, Nat.shiftRight_eq_div_pow]
  omega

theorem entry_byte {x : Word} (hx : (x - slotAddress f k).toNat < 4) : frameOf x = f ∧
    x.extractLsb' 2 10 = k := by
  have hslot := slotAddress_toNat f k
  have hk := k.isLt
  have hf := f.isLt
  constructor
  · rw [← BitVec.toNat_inj, frameOf_toNat]
    bv_omega
  · rw [← BitVec.toNat_inj, BitVec.extractLsb'_toNat, Nat.shiftRight_eq_div_pow]
    bv_omega

theorem put_mem {a x : Word} (ha : frameOf a ≠ f) : (s.put f k x).mem a = s.mem a := by
  apply store_miss
  by_contra hlt
  exact ha (entry_byte (Nat.lt_of_not_le hlt)).1

theorem mul_four (x : Word) : x * (4 : Word) = x <<< 2 := by
  apply BitVec.eq_of_toNat_eq
  rw [BitVec.toNat_mul, BitVec.toNat_shiftLeft, Nat.shiftLeft_eq]
  rfl

theorem pde_address (virt : Word) : pageDirVaddr ||| (virt >>> 22) * 4 =
    slotAddress 0xFFFFF (directorySlot virt) := by
  rw [mul_four]
  apply BitVec.eq_of_getLsbD_eq
  intro i hi
  simp only [slotAddress, directorySlot, BitVec.getLsbD_or, BitVec.getLsbD_shiftLeft,
    BitVec.getLsbD_ushiftRight, BitVec.getLsbD_append, BitVec.getLsbD_extractLsb']
  interval_cases i <;> simp [pageDirVaddr]

theorem pte_address (virt : Word) :
    (pageDirBaseVaddr ||| (virt >>> 12) * (4 : Word) &&& (0x3FF000 : Word)) +
    ((virt >>> 12) &&& 0x3FF) * (4 : Word) =
      slotAddress ((0x3FF : Slot) ++ directorySlot virt) (tableSlot virt) := by
  rw [mul_four, mul_four, BitVec.add_eq_or_of_and_eq_zero]
  · apply BitVec.eq_of_getLsbD_eq
    intro i hi
    simp only [slotAddress, directorySlot, tableSlot, BitVec.getLsbD_or, BitVec.getLsbD_and,
      BitVec.getLsbD_shiftLeft,
      BitVec.getLsbD_ushiftRight, BitVec.getLsbD_append, BitVec.getLsbD_extractLsb']
    interval_cases i <;> simp [pageDirBaseVaddr]
  · apply BitVec.eq_of_getLsbD_eq
    intro i hi
    simp only [BitVec.getLsbD_or, BitVec.getLsbD_and, BitVec.getLsbD_shiftLeft, BitVec.getLsbD_ushiftRight]
    interval_cases i <;> simp [pageDirBaseVaddr]

theorem slotAddress_slots (f : Frame) (k : Slot) : directorySlot (slotAddress f k) = f.extractLsb' 10 10 ∧
    tableSlot (slotAddress f k) = f.extractLsb' 0 10 ∧ pageOffset (slotAddress f k) = k ++
    (0 : BitVec 2) := by
  refine ⟨?_, ?_, BitVec.extractLsb'_append_eq_right⟩
  · apply BitVec.eq_of_getLsbD_eq
    intro i hi
    simp only [directorySlot, slotAddress, BitVec.getLsbD_extractLsb', BitVec.getLsbD_append]
    interval_cases i <;> simp
  · apply BitVec.eq_of_getLsbD_eq
    intro i hi
    simp only [tableSlot, slotAddress, BitVec.getLsbD_extractLsb', BitVec.getLsbD_append]
    interval_cases i <;> simp

theorem slots_mask (x : Word) : directorySlot (x &&& ~~~0xFFF) = directorySlot x ∧
    tableSlot (x &&& ~~~0xFFF) = tableSlot x := by
  constructor
  · apply BitVec.eq_of_getLsbD_eq
    intro i hi
    simp only [directorySlot, BitVec.getLsbD_extractLsb', BitVec.getLsbD_and]
    interval_cases i <;> simp
  · apply BitVec.eq_of_getLsbD_eq
    intro i hi
    simp only [tableSlot, BitVec.getLsbD_extractLsb', BitVec.getLsbD_and]
    interval_cases i <;> simp

theorem frameOf_mask (x : Word) : frameOf (x &&& ~~~0xFFF) = frameOf x := by
  apply BitVec.eq_of_getLsbD_eq
  intro i hi
  simp only [frameOf, BitVec.getLsbD_extractLsb', BitVec.getLsbD_and]
  interval_cases i <;> simp

theorem frameOf_entryFor (phys flags : Word) : frameOf (entryFor phys flags) = frameOf phys |||
    frameOf flags := by
  apply BitVec.eq_of_getLsbD_eq
  intro i hi
  simp only [frameOf, entryFor, BitVec.getLsbD_extractLsb', BitVec.getLsbD_and, BitVec.getLsbD_or]
  interval_cases i <;> simp

theorem entryFor_mask (phys flags : Word) : entryFor (phys &&& ~~~0xFFF) flags = entryFor phys flags := by
  rw [entryFor, entryFor, BitVec.and_assoc, BitVec.and_self]

theorem present_entryFor (hflags : flags &&& pageP ≠ 0) : entryFormat.present (entryFor phys flags) := by
  have hbit : entryFor phys flags &&& 0x1 = flags &&& pageP := by
    rw [entryFor, BitVec.and_or_distrib_right, BitVec.and_assoc, show ~~~0xFFF &&& (0x1 : Word) =
      0#32 from rfl, BitVec.and_zero, BitVec.zero_or, pageP]
  rw [present_iff, hbit]
  exact hflags

theorem slotAddress_eq (f : Frame) (k : Slot) : f ++ (k ++ (0 : BitVec 2)) = slotAddress f k := rfl

theorem append_parts (g : Frame) (o : BitVec 12) : frameOf (g ++ o) = g ∧ pageOffset (g ++ o) = o :=
  ⟨BitVec.extractLsb'_append_eq_left, BitVec.extractLsb'_append_eq_right⟩

theorem translate_eq (s : Machine) (virt : Word) : s.translate virt =
    if entryFormat.present (s.pde virt) ∧ entryFormat.present
    (s.tables (frameOf (s.pde virt)) (tableSlot virt)) then
      some (frameOf (s.tables (frameOf (s.pde virt)) (tableSlot virt)) ++ pageOffset virt) else none := by
  rw [Machine.translate, Machine.walk, PageTable.walk]
  split_ifs with hp hp' hp'
  · rfl
  · exact absurd hp hp'
  · exact absurd hp' hp
  · rfl

section Recursive

variable (h : s.Recursive)
include h

theorem Machine.Recursive.present : entryFormat.present (s.tables s.directory 0x3FF) := by
  rw [present_iff]
  intro hzero
  have hp := h.2
  have hbit : s.tables s.directory 0x3FF &&& (pageP ||| pageRw) &&& 0x1 = 0x1 := by rw [hp]; rfl
  rw [BitVec.and_assoc, show (pageP ||| pageRw) &&& 0x1 = 0x1 from rfl, hzero] at hbit
  exact absurd hbit (by decide)

theorem translate_window (hslot : directorySlot virt = 0x3FF)
    (hp : entryFormat.present (s.tables s.directory (tableSlot virt))) :
    s.translate virt = some (frameOf (s.tables s.directory (tableSlot virt)) ++ pageOffset virt) := by
  have hdir : entryFormat.frame (s.tables s.directory 0x3FF) = s.directory := h.1
  rw [Machine.translate, Machine.walk, hslot, walk_of_present h.present (by rw [hdir]; exact hp), hdir]
  rfl

theorem translate_pde (virt : Word) :
    s.translate (pageDirVaddr ||| (virt >>> 22) * 4) =
    some (slotAddress s.directory (directorySlot virt)) := by
  obtain ⟨hd, ht, ho⟩ := slotAddress_slots 0xFFFFF (directorySlot virt)
  have hlast : tableSlot (slotAddress 0xFFFFF (directorySlot virt)) = 0x3FF := ht
  rw [pde_address, translate_window h hd (by rw [hlast]; exact h.present), hlast, h.1, ho, slotAddress_eq]

theorem translate_pte (hp : s.Present virt) :
    s.translate (slotAddress ((0x3FF : Slot) ++ directorySlot virt) (tableSlot virt)) =
      some (slotAddress (frameOf (s.pde virt)) (tableSlot virt)) := by
  obtain ⟨hd, ht, ho⟩ := slotAddress_slots ((0x3FF : Slot) ++ directorySlot virt) (tableSlot virt)
  rw [BitVec.extractLsb'_append_eq_left] at hd
  rw [BitVec.extractLsb'_append_eq_right] at ht
  rw [translate_window h hd (by rw [ht]; exact hp), ht, ho, slotAddress_eq, Machine.pde]

theorem read_pde (virt : Word) : s.read (pageDirVaddr ||| (virt >>> 22) * 4) = some (s.pde virt) := by
  rw [Machine.read, translate_pde h]
  rfl

theorem setPageTable_eq (virt phys flags : Word) :
    setPageTable s virt phys flags = some (s.put s.directory (directorySlot virt) (entryFor phys flags)) := by
  simp only [setPageTable, Machine.write]
  rw [translate_pde h, (slots_mask virt).1]
  rfl

theorem setPage_eq (hp : s.Present virt) (phys flags : Word) : setPage s virt phys flags =
    some (s.put (frameOf (s.pde virt)) (tableSlot virt) (entryFor phys flags)) := by
  obtain ⟨hd, ht⟩ := slots_mask virt
  simp only [setPage, Machine.write]
  rw [pte_address, hd, ht, translate_pte h hp, ← entryFor, entryFor_mask]
  rfl

end Recursive

end Rinix.Paging
