import Rinix.Frames.KernelImage
import Rinix.Paging.Boot
import Rinix.Paging.Coherence

namespace Rinix.Paging

open ByteMemory PageTable WhileLoop Frames I386

def bootMap (pd pt : Frame) (virt : Word) : Option Word :=
  if directorySlot virt = 0 ∨ directorySlot virt = 0x300 then some (virt &&& 0x3FFFFF)
  else if directorySlot virt = 0x3FF then
    if tableSlot virt = 0 ∨ tableSlot virt = 0x300 then some (pt ++ pageOffset virt)
    else if tableSlot virt = 0x3FF then some (pd ++ pageOffset virt)
    else none
  else none

def bootPde (pd pt : Frame) (i : Paging.Slot) : Word :=
  if i = 0x3FF then entryFor (slotAddress pd 0) 3
  else if i = 0 ∨ i = 0x300 then entryFor (slotAddress pt 0) 3 else 0

def bootPte (k : Paging.Slot) : Word := entryFor (slotAddress ((0 : Paging.Slot) ++ k) 0) 3

structure Machine.Booted (s : Machine) (pd pt : Frame) : Prop where
  directory : s.directory = pd
  entry : ∀ i, s.tables pd i = bootPde pd pt i
  table : ∀ k, s.tables pt k = bootPte k

structure BootImage.Placed (image : BootImage) (kernel : KernelImage) : Prop where
  stack : image.stackTop.toNat = kernel.dataStart + 16384
  directory : image.stackTop.toNat ≤ image.initialPD.toNat
  aligned : image.initialPD.toNat % 4096 = 0
  table : image.initialPT = image.initialPD + 0x1000
  data : image.initialPD.toNat + 0x3000 ≤ kernel.dataStart + kernel.data
  multiboot : image.stackTop.toNat ≤ image.multibootInfo.toNat ∧ image.multibootInfo.toNat % 4 = 0 ∧
    image.multibootInfo.toNat + 4 ≤ kernel.bssStart + kernel.bss
  apart : image.multibootInfo.toNat < image.initialPD.toNat ∨
    image.initialPD.toNat + 0x2000 ≤ image.multibootInfo.toNat
  fits : kernel.bssStart + kernel.bss ≤ 0xC0400000

namespace BootImage

def pd (image : BootImage) : Frame := frameOf (image.initialPD - kernelVirtualBase)

def pt (image : BootImage) : Frame := frameOf (image.initialPT - kernelVirtualBase)

end BootImage

variable {image : BootImage} {kernel : KernelImage} {c : Early} {s : Machine} {v : View} {cr0 off base : Word}
  {pd pt f : Frame} {k : Paging.Slot} {virt : Word} {n : ℕ}

theorem frame_slotAddress (f : Frame) (k : Paging.Slot) : frameOf (slotAddress f k) = f :=
  BitVec.extractLsb'_append_eq_left

theorem pte_eq (k : Paging.Slot) : word k.toNat <<< 12 ||| 3 = bootPte k := by
  have hk := k.isLt
  have hplace : word k.toNat <<< 12 = slotAddress ((0 : Paging.Slot) ++ k) 0 := by
    apply BitVec.eq_of_toNat_eq
    have hslot := slotAddress_toNat ((0 : Paging.Slot) ++ k) 0
    have hword := toNat_word (show k.toNat < 4294967296 by omega)
    have happend : ((0 : Paging.Slot) ++ k).toNat = k.toNat := by
      rw [BitVec.toNat_append]
      simp
    rw [BitVec.toNat_shiftLeft, Nat.shiftLeft_eq, hslot, happend, hword]
    simp
    omega
  have hlow : slotAddress ((0 : Paging.Slot) ++ k) 0 &&& ~~~0xFFF =
    slotAddress ((0 : Paging.Slot) ++ k) 0 := by
    apply BitVec.eq_of_getLsbD_eq
    intro i hi
    simp only [slotAddress, BitVec.getLsbD_and, BitVec.getLsbD_append]
    interval_cases i <;> simp
  rw [bootPte, entryFor, hlow, hplace]

theorem populated_tables (hn : n ≤ 1024) (f : Frame) (k : Paging.Slot) : (populated s pt n).tables f k =
    if f = pt ∧ k.toNat < n then bootPte k else s.tables f k := by
  induction n with
  | zero => exact (if_neg fun h => absurd h.2 (Nat.not_lt_zero _)).symm
  | succ n ih =>
    have hnext : populated s pt (n + 1) = (populated s pt n).put pt (BitVec.ofNat 10 n)
      (word n <<< 12 ||| 3) :=
      upTo_succ ..
    have hindex : (BitVec.ofNat 10 n).toNat = n := by
      rw [BitVec.toNat_ofNat]
      omega
    rw [hnext, put_tables]
    by_cases hhere : f = pt ∧ k = BitVec.ofNat 10 n
    · rw [hhere.1, hhere.2, put_same, if_pos ⟨rfl, by omega⟩, ← pte_eq, hindex]
    · rw [put_other hhere, ih (by omega)]
      refine if_congr (and_congr_right fun hf => ?_) rfl rfl
      have hne : k.toNat ≠ n := fun heq => hhere ⟨hf, BitVec.eq_of_toNat_eq (heq.trans hindex.symm)⟩
      omega

theorem tables_cr3 (s : Machine) (x : Word) : Machine.tables { s with cr3 := x } = s.tables := rfl

theorem booted_booted (hne : pd ≠ pt) (hblank : ∀ i, s.tables pd i = 0) : (s.booted pd pt).Booted pd pt := by
  have htables : (s.booted pd pt).tables = ((populated s pt 1024).filled pd pt).tables := tables_cr3 _ _
  refine ⟨frame_slotAddress pd 0, fun i => ?_, fun k => ?_⟩
  · rw [htables, Machine.filled, put_tables, put_tables, put_tables]
    simp only [PageTable.put, true_and, populated_tables (Nat.le_refl 1024), hne, false_and, if_false, hblank]
    rw [bootPde]
    by_cases hlast : i = 0x3FF
    · simp only [hlast, if_true]
    · by_cases hhigh : i = 0x300
      · simp only [hhigh, or_true, if_true]
      · simp only [hlast, hhigh, or_false, if_false]
  · rw [htables, Machine.filled, put_tables, put_tables, put_tables]
    simp only [PageTable.put, hne.symm, false_and, if_false, populated_tables (Nat.le_refl 1024)]
    exact if_pos ⟨trivial, k.isLt⟩

theorem frameOf_entry (f : Frame) : frameOf (entryFor (slotAddress f 0) 3) = f :=
  (frameOf_low (by decide)).trans (frame_slotAddress f 0)

theorem low_address (virt : Word) : (((0 : Paging.Slot) ++ tableSlot virt : Frame) ++
    pageOffset virt : Word) =
    virt &&& 0x3FFFFF := by
  apply BitVec.eq_of_getLsbD_eq
  intro i hi
  simp only [tableSlot, pageOffset, BitVec.getLsbD_append, BitVec.getLsbD_extractLsb', BitVec.getLsbD_and]
  interval_cases i <;> simp

theorem present_entry (f : Frame) : entryFormat.present (entryFor (slotAddress f 0) 3) :=
  present_entryFor (by decide)

theorem translate_low (hpde : s.pde virt = entryFor (slotAddress pt 0) 3)
    (htable : ∀ k, s.tables pt k = bootPte k) :
    s.translate virt = some (virt &&& 0x3FFFFF) := by
  rw [translate_eq, hpde, frameOf_entry, htable, bootPte,
    if_pos ⟨present_entry pt, present_entry _⟩, frameOf_entry, low_address]

theorem recursive_of (hdir : s.directory = pd) (hlast : s.tables pd 0x3FF = bootPde pd pt 0x3FF) :
    s.Recursive := by
  rw [bootPde, if_pos rfl] at hlast
  rw [Machine.Recursive, hdir, hlast, frameOf_entry]
  refine ⟨rfl, ?_⟩
  have hflags : (3 : Word) &&& (pageP ||| pageRw) = pageP ||| pageRw := rfl
  have hmask : ~~~(0xFFF : Word) &&& (pageP ||| pageRw) = 0 := rfl
  rw [entryFor, BitVec.and_or_distrib_right, BitVec.and_assoc, hmask, hflags]
  exact (congrArg (· ||| (pageP ||| pageRw)) BitVec.and_zero).trans BitVec.zero_or

theorem Machine.Booted.congr {t : Machine} (h : s.Booted pd pt) (hcr3 : t.cr3 = s.cr3)
    (hmem : ∀ x, frameOf x = pd ∨ frameOf x = pt → t.mem x = s.mem x) : t.Booted pd pt := by
  have htables (f : Frame) (hf : f = pd ∨ f = pt) (k : Slot) : t.tables f k = s.tables f k := by
    apply load_congr
    intro x hx
    have hframe : frameOf x = f := (entry_byte hx).1
    exact hmem x (hframe ▸ hf)
  refine ⟨?_, fun i => ?_, fun k => ?_⟩
  · rw [← h.directory, Machine.directory, Machine.directory, hcr3]
  · rw [htables pd (.inl rfl), h.entry]
  · rw [htables pt (.inr rfl), h.table]

section Booted

variable (h : s.Booted pd pt)
include h

theorem Machine.Booted.pde (virt : Word) : s.pde virt = bootPde pd pt (directorySlot virt) := by
  rw [Machine.pde, h.directory, h.entry]

theorem Machine.Booted.recursive : s.Recursive := recursive_of h.directory (h.entry 0x3FF)

theorem Machine.Booted.fresh (hpd : f ≠ pd) (hpt : f ≠ pt) : s.Fresh f := by
  refine ⟨fun heq => hpd (heq.trans h.directory), fun i hp => ?_⟩
  rw [h.directory, h.entry, bootPde] at hp ⊢
  split_ifs at hp ⊢ with hlast hlow
  · rw [frameOf_entry]
    exact hpd.symm
  · rw [frameOf_entry]
    exact hpt.symm
  · exact absurd hp (by decide)

theorem Machine.Booted.translate (virt : Word) : s.translate virt = bootMap pd pt virt := by
  have habsent : ¬entryFormat.present 0 := by decide
  rw [bootMap]
  by_cases hlast : directorySlot virt = 0x3FF
  · have hfirst : ¬(directorySlot virt = 0 ∨ directorySlot virt = 0x300) := by
      rw [hlast]
      decide
    rw [if_neg hfirst, if_pos hlast, translate_eq, h.pde, bootPde, if_pos hlast, frameOf_entry,
      h.entry, bootPde]
    by_cases hself : tableSlot virt = 0x3FF
    · have hother : ¬(tableSlot virt = 0 ∨ tableSlot virt = 0x300) := by
        rw [hself]
        decide
      rw [if_pos hself, if_neg hother, if_pos hself, if_pos ⟨present_entry pd, present_entry pd⟩,
        frameOf_entry]
    · rw [if_neg hself, if_neg hself]
      by_cases hp : tableSlot virt = 0 ∨ tableSlot virt = 0x300
      · rw [if_pos hp, if_pos hp, if_pos ⟨present_entry pd, present_entry pt⟩, frameOf_entry]
      · rw [if_neg hp, if_neg hp]
        exact if_neg fun hboth => habsent hboth.2
  · by_cases hlow : directorySlot virt = 0 ∨ directorySlot virt = 0x300
    · rw [if_pos hlow, translate_low ?_ h.table]
      rw [h.pde, bootPde, if_neg hlast, if_pos hlow]
    · rw [if_neg hlow, if_neg hlast, translate_eq, h.pde, bootPde, if_neg hlast, if_neg hlow]
      exact if_neg fun hboth => habsent hboth.1

theorem Machine.Booted.put {x : Word} (hpd : f ≠ pd) (hpt : f ≠ pt) : (s.put f k x).Booted pd pt := by
  refine ⟨h.directory, fun i => ?_, fun j => ?_⟩
  · rw [put_tables, put_other fun heq => hpd heq.1.symm]
    exact h.entry i
  · rw [put_tables, put_other fun heq => hpt heq.1.symm]
    exact h.table j

end Booted

theorem Early.At.load {a : Word} (h : c.At base s cr0 off v) (hout : Off base a) :
    load c.cpu.mem a = load s.mem a := by
  apply load_congr
  intro y hy
  apply h.shows.kept
  rw [h.bottom]
  exact hout y hy

theorem Early.At.tables (h : c.At base s cr0 off v) (hout : Off base (slotAddress f k)) :
    c.machine.tables f k = s.tables f k := h.load hout

section Leads

variable (hpd : ∀ k, Off base (slotAddress pd k)) (hpt : ∀ k, Off base (slotAddress pt k))
include hpd hpt

theorem Early.At.booted (h : c.At base s cr0 off v) (hs : s.Booted pd pt) : c.machine.Booted pd pt := by
  refine ⟨?_, fun i => ?_, fun k => ?_⟩
  · rw [Machine.directory, Early.machine, h.cr3]
    exact hs.directory
  · rw [h.tables (hpd i)]
    exact hs.entry i
  · rw [h.tables (hpt k)]
    exact hs.table k

theorem Early.At.locate (hon : cr0 &&& pagingBit ≠ 0) (h : c.At base s cr0 off v)
    (hs : s.Booted pd pt) (virt : Word) :
    c.locate virt = bootMap pd pt virt := by
  have hpaged : c.Paged := by
    rw [Early.Paged, h.cr0]
    exact hon
  rw [Early.locate, if_pos hpaged, (h.booted hpd hpt hs).translate]

theorem leads_booted (hon : cr0 &&& pagingBit ≠ 0) (hs : s.Booted pd pt)
    (hoff : off = 0 ∨ off = kernelVirtualBase) :
    Leads base s cr0 off := by
  intro c v h a ha
  have hsum : (a + off).toNat = a.toNat ∨ (a + off).toNat = a.toNat + 0xC0000000 := by
    rcases hoff with rfl | rfl
    · left
      exact congrArg BitVec.toNat (BitVec.add_zero a)
    · right
      have hbase : kernelVirtualBase.toNat = 0xC0000000 := rfl
      bv_omega
  have hslot : directorySlot (a + off) = 0 ∨ directorySlot (a + off) = 0x300 := by
    have hzero : (0 : Paging.Slot).toNat = 0 := rfl
    have hhigh : (0x300 : Paging.Slot).toNat = 0x300 := rfl
    rw [← BitVec.toNat_inj, ← BitVec.toNat_inj, hzero, hhigh, directorySlot, BitVec.extractLsb'_toNat,
      Nat.shiftRight_eq_div_pow]
    omega
  have hlow : (a + off) &&& 0x3FFFFF = a := by
    have hmask : (0x3FFFFF : Word).toNat = 2 ^ 22 - 1 := rfl
    rw [← BitVec.toNat_inj, BitVec.toNat_and, hmask, Nat.and_two_pow_sub_one_eq_mod]
    omega
  rw [h.locate hpd hpt hon hs, bootMap, if_pos hslot, hlow]

end Leads

theorem off_above {a : Word} (hlow : 40 ≤ base.toNat) (ha : base.toNat ≤ a.toNat)
    (hhigh : a.toNat < 0xFFFFFFFC) :
    Off base a := by
  intro y hy
  have hword : (word 40).toNat = 40 := rfl
  bv_omega

theorem set_esp (c : Early) (x y : Word) : (c.set .esp x).set .esp y = c.set .esp y := by
  simp only [Early.set, Cpu.set, Function.update_idem]

theorem at_start (c : Early) (hlow : 40 ≤ base.toNat ∧ base.toNat ≤ 0x400000) :
    (c.set .esp base).At base c.machine c.cr0 0 (View.of (c.cpu.set .esp base)) := by
  have hesp : (c.set .esp base).get .esp - 0 = base := by
    rw [Early.get, Early.set, Cpu.set_reg, Function.update_self]
    exact BitVec.sub_zero base
  have hbottom : (View.of (c.cpu.set .esp base)).base = base := by
    rw [View.of, Cpu.set_reg, Function.update_self]
  refine ⟨hbottom, ?_, rfl, rfl, rfl, hlow⟩
  rw [hesp]
  have hset : (c.set .esp base).cpu.set .esp base = c.cpu.set .esp base := by
    simp only [Early.set, Cpu.set, Function.update_idem]
  rw [hset]
  exact shows_of _ 10

namespace BootImage.Placed

variable (h : image.Placed kernel)
include h

theorem numbers : (image.stackTop - kernelVirtualBase).toNat = image.stackTop.toNat - 0xC0000000 ∧
    (image.initialPD - kernelVirtualBase).toNat = image.initialPD.toNat - 0xC0000000 ∧
    (image.initialPT - kernelVirtualBase).toNat = image.initialPD.toNat - 0xC0000000 + 0x1000 ∧
    (image.multibootInfo - kernelVirtualBase).toNat = image.multibootInfo.toNat - 0xC0000000 ∧
    0xC0100000 + 16384 ≤ image.stackTop.toNat ∧ image.initialPD.toNat + 0x3000 ≤ 0xC0400000 := by
  have hstack := h.stack
  have hdirectory := h.directory
  have haligned := h.aligned
  have htable := congrArg BitVec.toNat h.table
  have hdata := h.data
  have hmultiboot := h.multiboot
  have hfits := h.fits
  have hbase : kernelVirtualBase.toNat = 0xC0000000 := rfl
  obtain ⟨hstart, -, -, -, -⟩ := kernel.bounds
  have hsections : kernel.textStart ≤ kernel.dataStart ∧ kernel.dataStart + kernel.data ≤
    kernel.bssStart := by
    simp only [KernelImage.bssStart, KernelImage.dataStart, align4K]
    omega
  have hoffset : kernelOffset = 0xC0000000 := rfl
  have hboot : physAddr ≤ kernel.bootEnd := Nat.le_add_right _ _
  have hphys : physAddr = 0x100000 := rfl
  have hpage : (0x1000 : Word).toNat = 0x1000 := rfl
  rw [BitVec.toNat_add_of_lt (by omega)] at htable
  refine ⟨?_, ?_, ?_, ?_, by omega, by omega⟩
  · bv_omega
  · bv_omega
  · bv_omega
  · bv_omega

theorem directory_place : image.initialPD - kernelVirtualBase = slotAddress image.pd 0 := by
  obtain ⟨-, hpd, -⟩ := h.numbers
  have haligned := h.aligned
  have hframe := frameOf_toNat (image.initialPD - kernelVirtualBase)
  rw [← BitVec.toNat_inj, slotAddress_toNat, pd]
  have hzero : (0 : Paging.Slot).toNat = 0 := rfl
  omega

theorem table_place : image.initialPT - kernelVirtualBase = slotAddress image.pt 0 := by
  obtain ⟨-, -, hpt, -⟩ := h.numbers
  have haligned := h.aligned
  have hframe := frameOf_toNat (image.initialPT - kernelVirtualBase)
  rw [← BitVec.toNat_inj, slotAddress_toNat, pt]
  have hzero : (0 : Paging.Slot).toNat = 0 := rfl
  omega

theorem frames : image.pd.toNat * 4096 + 0xC0000000 = image.initialPD.toNat ∧
    image.pt.toNat = image.pd.toNat + 1 := by
  obtain ⟨-, hpd, hpt, -⟩ := h.numbers
  have hdirectory := congrArg BitVec.toNat h.directory_place
  have htable := congrArg BitVec.toNat h.table_place
  rw [slotAddress_toNat] at hdirectory htable
  have hzero : (0 : Paging.Slot).toNat = 0 := rfl
  have hdir := h.directory
  obtain ⟨-, -, -, -, hstack, -⟩ := h.numbers
  omega

theorem off_stack (hf : f = image.pd ∨ f = image.pt) (k : Paging.Slot) :
    Off (image.stackTop - kernelVirtualBase) (slotAddress f k) := by
  obtain ⟨hstack, hpd, -, -, hlow, hhigh⟩ := h.numbers
  obtain ⟨hdir, hnext⟩ := h.frames
  have hdirectory := h.directory
  have hk := k.isLt
  have hplace := slotAddress_toNat f k
  rcases hf with rfl | rfl
  · exact off_above (by omega) (by omega) (by omega)
  · exact off_above (by omega) (by omega) (by omega)

theorem multiboot_place : ∃ f k, image.multibootInfo - kernelVirtualBase = slotAddress f k ∧ f ≠ image.pd ∧
    f ≠ image.pt ∧ (slotAddress f k).toNat < 0x400000 ∧
      Off (image.stackTop - kernelVirtualBase) (slotAddress f k) := by
  obtain ⟨hstack, -, -, hinfo, hlow, hhigh⟩ := h.numbers
  obtain ⟨hdir, hnext⟩ := h.frames
  obtain ⟨habove, haligned, hend⟩ := h.multiboot
  have hfits := h.fits
  have hapart := h.apart
  have hframe := frameOf_toNat (image.multibootInfo - kernelVirtualBase)
  have hplace : image.multibootInfo - kernelVirtualBase =
    slotAddress (frameOf (image.multibootInfo - kernelVirtualBase))
      ((image.multibootInfo - kernelVirtualBase).extractLsb' 2 10) := by
    rw [← BitVec.toNat_inj, slotAddress_toNat, BitVec.extractLsb'_toNat, Nat.shiftRight_eq_div_pow]
    omega
  refine ⟨_, _, hplace, fun heq => ?_, fun heq => ?_, ?_, ?_⟩
  · rw [heq] at hframe
    omega
  · rw [heq] at hframe
    omega
  · rw [← hplace]
    omega
  · rw [← hplace]
    exact off_above (by omega) (by omega) (by omega)

end BootImage.Placed

theorem populated_mem (s : Machine) (n : ℕ) {a : Word} (ha : frameOf a ≠ pt) :
    (populated s pt n).mem a = s.mem a := by
  refine upTo_invariant (fun _ (t : Machine) => t.mem a = s.mem a) (fun i t _ ht => ?_) rfl
  rw [put_mem ha]
  exact ht

theorem mem_cr3 (s : Machine) (x : Word) : Machine.mem { s with cr3 := x } = s.mem := rfl

theorem booted_mem {a : Word} (hpd : frameOf a ≠ pd) (hpt : frameOf a ≠ pt) :
    (s.booted pd pt).mem a = s.mem a := by
  rw [Machine.booted, mem_cr3, Machine.filled, put_mem hpd, put_mem hpd, put_mem hpd,
    populated_mem s 1024 hpt]

theorem blank_entry {m : Mem} (hblank : ∀ a, frameOf a = f → m a = 0) (k : Paging.Slot) :
    load m (slotAddress f k) = 0 := by
  have hzero : load m (slotAddress f k) = load (fun _ => 0) (slotAddress f k) :=
    load_congr fun y hy => hblank y (entry_byte hy).1
  rw [hzero, load]
  decide

theorem on_paged (cr0 : Word) : (cr0 ||| pagingBit) &&& pagingBit ≠ 0 := by
  rw [BitVec.and_comm, BitVec.and_or_distrib_left, BitVec.and_self]
  intro hzero
  have hbit := congrArg (fun w => w.getLsbD 31) hzero
  simp [pagingBit] at hbit

section Boot

variable (h : image.Placed kernel) (hoff : ¬c.Paged)
  (hblank : ∀ a, frameOf a = image.pd → c.cpu.mem a = 0) {fuel : ℕ} (hfuel : 1024 ≤ fuel)
include h hblank

theorem placed_booted : (c.machine.booted image.pd image.pt).Booted image.pd image.pt := by
  refine booted_booted (fun heq => ?_) (blank_entry hblank)
  have hnext := h.frames.2
  rw [heq] at hnext
  omega

include hoff hfuel

theorem loader_ends : Ends (loader image fuel c) fun d =>
    d.At (image.stackTop - kernelVirtualBase) (c.machine.booted image.pd image.pt) (c.cr0 ||| pagingBit)
      kernelVirtualBase ((View.of (c.cpu.set .esp (image.stackTop - kernelVirtualBase))).push
      (.word image.afterStart)) := by
  obtain ⟨hstack, -, -, -, hlow, hhigh⟩ := h.numbers
  have hdirectory := h.directory
  have hbooted := placed_booted h hblank
  have hpd := h.off_stack (Or.inl rfl)
  have hpt := h.off_stack (Or.inr rfl)
  have hclear : c.cr0 &&& pagingBit = 0 := not_not.mp hoff
  have hleads (off : Word) (ho : off = 0 ∨ off = kernelVirtualBase) :=
    leads_booted hpd hpt (on_paged c.cr0) hbooted ho
  have hget : (c.set .esp image.stackTop).get .esp = image.stackTop := by
    rw [Early.get, Early.set, Cpu.set_reg, Function.update_self]
  have hstart := at_start c (show 40 ≤ (image.stackTop - kernelVirtualBase).toNat ∧
    (image.stackTop - kernelVirtualBase).toNat ≤ 0x400000 by omega)
  rw [← set_esp c image.stackTop] at hstart
  rw [loader]
  simp only [hget]
  refine (hstart.call (leads_off hclear _ _) (hleads 0 (Or.inl rfl)) (Nat.succ_pos 9)
    fun c₁ h₁ => ?_).bind fun c₂ h₂ => ?_
  · exact initPaging_ends hclear hpd h.table_place hpt (hleads 0 (Or.inl rfl)) hfuel h.directory_place
      (Nat.le_refl 10) h₁
  · have h₃ := h₂.shift kernelVirtualBase
    have hzero : c₂.get .esp - 0 = c₂.get .esp := BitVec.sub_zero _
    rw [hzero] at h₃
    exact h₃.push (hleads _ (Or.inr rfl)) (Nat.succ_pos 9) _

theorem boot_ends : Ends (boot image c fuel) fun d => ∃ s, s.Booted image.pd image.pt ∧
    (s.mem = store (c.machine.booted image.pd image.pt).mem (image.multibootInfo -
    kernelVirtualBase) (c.get .ebx)) ∧
    d.At (image.stackTop - kernelVirtualBase) s (c.cr0 ||| pagingBit) kernelVirtualBase
      ((((View.of (c.cpu.set .esp (image.stackTop - kernelVirtualBase))).push (.word image.afterStart)).push
        (.word image.initialPD)).push (.word image.afterInitk)) := by
  have hbooted := placed_booted h hblank
  have hpd := h.off_stack (Or.inl rfl)
  have hpt := h.off_stack (Or.inr rfl)
  have hleads {s : Machine} (hs : s.Booted image.pd image.pt) :
      Leads (image.stackTop - kernelVirtualBase) s (c.cr0 ||| pagingBit) kernelVirtualBase :=
    leads_booted hpd hpt (on_paged c.cr0) hs (Or.inr rfl)
  obtain ⟨f, k, hplace, hfpd, hfpt, hsmall, hout⟩ := h.multiboot_place
  refine (loader_ends h hoff hblank hfuel).bind fun c₁ h₁ => ?_
  refine (h₁.push (hleads hbooted) (Nat.succ_lt_succ (Nat.succ_pos 8)) image.initialPD).bind fun c₂ h₂ => ?_
  have hsum : image.multibootInfo = slotAddress f k + kernelVirtualBase := by
    rw [← hplace, BitVec.sub_add_cancel]
  have hlocate : c₂.locate image.multibootInfo = some (slotAddress f k) := by
    rw [hsum]
    exact hleads hbooted c₂ _ h₂ _ hsmall
  have hebx : c₂.get .ebx = c.get .ebx := h₂.get (by decide)
  refine (h₂.write hlocate hout (c₂.get .ebx)).bind fun c₃ h₃ => ?_
  rw [hebx] at h₃
  have hs := hbooted.put (k := k) (x := c.get .ebx) hfpd hfpt
  refine (h₃.push (hleads hs) (by exact Nat.succ_lt_succ (Nat.succ_lt_succ (Nat.succ_pos 7)))
    _).mono fun d hd => ?_
  refine ⟨_, hs, ?_, hd⟩
  rw [hplace]
  rfl

theorem kernel_entered : ∃ d, boot image c fuel = some d ∧
    (∀ virt, d.locate virt = bootMap image.pd image.pt virt) ∧ d.machine.Recursive ∧
    d.get .esp = image.stackTop - 12 ∧ d.read (d.get .esp + 4) = some image.initialPD ∧
    d.read image.multibootInfo = some (c.get .ebx) ∧ (∀ r, r ≠ .esp → d.get r = c.get r) ∧
    ∀ a, frameOf a ≠ image.pd → frameOf a ≠ image.pt →
      40 ≤ (a - (image.stackTop - kernelVirtualBase - word 40)).toNat →
      4 ≤ (a - (image.multibootInfo - kernelVirtualBase)).toNat → d.cpu.mem a = c.cpu.mem a := by
  obtain ⟨d, hd, s, hs, hmem, hat⟩ := boot_ends h hoff hblank hfuel
  have hpd := h.off_stack (Or.inl rfl)
  have hpt := h.off_stack (Or.inr rfl)
  have hlead : Leads (image.stackTop - kernelVirtualBase) s (c.cr0 ||| pagingBit) kernelVirtualBase :=
    leads_booted hpd hpt (on_paged c.cr0) hs (Or.inr rfl)
  obtain ⟨f, k, hplace, -, -, hsmall, hout⟩ := h.multiboot_place
  refine ⟨d, hd, hat.locate hpd hpt (on_paged c.cr0) hs, (hat.booted hpd hpt hs).recursive, ?_,
    ?_, ?_, ?_, ?_⟩
  · rw [hat.esp, View.esp]
    have hthree : word (4 * ((((View.of (c.cpu.set .esp (image.stackTop - kernelVirtualBase))).push
        (.word image.afterStart)).push (.word image.initialPD)).push
        (.word image.afterInitk)).stack.length) = 12 := rfl
    rw [hthree, hat.bottom]
    grind
  · exact hat.peek (i := 1) hlead rfl
  · have hsum : image.multibootInfo = slotAddress f k + kernelVirtualBase := by
      rw [← hplace, BitVec.sub_add_cancel]
    rw [Early.read, hsum, hlead d _ hat _ hsmall, Option.map_some, hat.load hout, hmem, hplace, load_store]
  · intro r hr
    rw [hat.get hr]
    exact Function.update_of_ne hr _ _
  · intro a hapd hapt hstack hinfo
    have hkept : d.cpu.mem a = s.mem a := by
      apply hat.shows.kept
      rw [hat.bottom]
      exact hstack
    rw [hkept, hmem, store_miss hinfo, booted_mem hapd hapt]
    rfl

end Boot

def bootKernel : KernelImage := ⟨0x220, 0x8000, 0x7000, 0x1000, by decide, by decide⟩

def linkedImage : BootImage :=
  ⟨0xC010D000, 0xC010D000, 0xC010E000, 0xC0110000, 0x10003A, 0x10001C, 0x100027, 0x1000BA⟩

def multibootStart : Early :=
  ⟨⟨fun r => if r = .ebx then 0x9500 else 0, fun _ => 0x10, 0x10000C, 0x2, fun _ => 0⟩, 1, 0,
    ⟨0, 0, 0, fun _ => 0⟩⟩

theorem linked_kernel_entered : ∃ d, boot linkedImage multibootStart 1024 = some d ∧
    d.read 0xC0110000 = some 0x9500 ∧ d.locate 0xC0100000 = some 0x100000 ∧ d.locate 0x400000 = none := by
  have hplaced : linkedImage.Placed bootKernel :=
    ⟨by decide, by decide, by decide, by decide, by decide, by decide, by decide, by decide⟩
  obtain ⟨d, hd, hmap, -, -, -, hinfo, -⟩ :=
    kernel_entered (c := multibootStart) hplaced (by decide) (fun _ _ => rfl) (Nat.le_refl 1024)
  refine ⟨d, hd, hinfo, ?_, ?_⟩
  · rw [hmap]
    decide
  · rw [hmap]
    decide

end Rinix.Paging
