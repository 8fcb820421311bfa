import Rinix.Frames.Hint
import Rinix.Paging.MapPage

/-!
`page.c` with the frame bitmap in the memory that it maps: `bitmap.c` reads and writes
`kernel_bitmap.ptr` through the page tables.
-/

namespace Rinix.Paging

open ByteMemory PageTable WhileLoop Frames

structure Resident where
  mem : Mem
  cr3 : Word
  ptr : Word
  length : BitVec 64
  lastChecked : BitVec 64

namespace Resident

def machine (r : Resident) : Machine :=
  let s : Machine := ⟨r.mem, r.cr3, ⟨r.ptr, r.length, r.lastChecked, fun _ => 0⟩⟩
  { s with bitmap := { s.bitmap with mem := fun a => (s.view a).getD 0 } }

def after (r : Resident) (s : Machine) : Resident := { r with mem := s.mem }

def address (r : Resident) (index : BitVec 64) : Word := r.ptr + index.setWidth 32

/-- A turn of the nested loops in `_get_free_frame`; a byte that is not mapped is a page fault. -/
def searchTurn (r : Resident) :
    BitVec 64 × ℕ → Turn (BitVec 64 × ℕ) (Option (BitVec 64 × ℕ))
  | (index, i) =>
    match r.machine.view (r.address index) with
    | none => .exit none
    | some byte =>
      let pfChunk := byte ^^^ 0xFF
      if 0 < pfChunk then
        if 0 < pfChunk &&& highBit >>> i then .exit (some (index, i)) else .again (index, i + 1)
      else .again (index + 1, 0)

def markFrameUsed (r : Resident) (chunk : BitVec 64) (bit : ℕ) : Option Resident :=
  (r.machine.view (r.address chunk)).bind fun byte =>
    (r.machine.writeByte (r.address chunk) (byte ||| highBit >>> bit)).map r.after

def getFreeFrame (r : Resident) (fuel : ℕ) : Option (Resident × BitVec 64) :=
  (run r.searchTurn fuel (searchStart r.machine.bitmap)).join.bind fun (index, i) =>
    (r.markFrameUsed index i).map fun r => (r, frameNumber index i)

def getFrame (r : Resident) (fuel : ℕ) : Option (Resident × Word) :=
  (r.getFreeFrame fuel).map fun (r, frame) => (r, (frame * 0x1000).setWidth 32)

def pmmAlloc (r : Resident) (size : Word) (fuel : ℕ) : Option (Resident × Word) :=
  if size ≠ 0 then some (r, 0) else r.getFrame fuel

def setPageTable (r : Resident) (virtAddr physAddr flags : Word) : Option Resident :=
  (Paging.setPageTable r.machine virtAddr physAddr flags).map r.after

def allocPageTable (r : Resident) (virtAddr flags : Word) (fuel : ℕ) : Option Resident :=
  (r.pmmAlloc 0 fuel).bind fun (r, physAddr) => r.setPageTable virtAddr physAddr flags

def setPage (r : Resident) (virtAddr physAddr flags : Word) : Option Resident :=
  (Paging.setPage r.machine virtAddr physAddr flags).map r.after

def allocPage (r : Resident) (virtAddr flags : Word) (fuel : ℕ) : Option Resident :=
  (r.pmmAlloc 0 fuel).bind fun (r, phys) => r.setPage virtAddr phys flags

def allocMapPage (r : Resident) (virt flags : Word) (fuel : ℕ) : Option Resident :=
  let pde := pageDirVaddr ||| (virt >>> 22) * 4
  (r.machine.read pde).bind fun entry =>
    if entry &&& 0x1 ≠ 0 then r.allocPage virt flags fuel
    else (r.allocPageTable virt flags fuel).bind fun r => r.allocPage virt flags fuel

def seat (r : Resident) (k : ℕ) : Word := r.ptr + word k

def bytes (r : Resident) (n : ℕ) : Set Word := {p | ∃ k < n, r.machine.translate (r.seat k) = some p}

def seats (r : Resident) (n : ℕ) : Set Frame := {f | ∃ p ∈ r.bytes n, frameOf p = f}

def held (r : Resident) (n : ℕ) : Set Frame :=
  {f | f.toNat < 8 * n → used r.machine.bitmap f.toNat}

/-- The first `n` bytes of the bitmap lie at `n` places, in frames that are not free and that are
neither the directory nor a table. -/
structure Seated (r : Resident) (n : ℕ) : Prop where
  mapped : ∀ k < n, ∃ p, r.machine.translate (r.seat k) = some p
  fresh : ∀ f ∈ r.seats n, f ∈ r.held n ∧ r.machine.Fresh f
  distinct : ∀ k < n, ∀ l < n,
    r.machine.translate (r.seat k) = r.machine.translate (r.seat l) → k = l

end Resident

variable {r t u : Resident} {n k l : ℕ} {f : Frame} {p x addr virt flags : Word}
  {num : BitVec 64} {fuel : ℕ} {index : BitVec 64} {i : ℕ}

theorem searchTurn_mapped {byte : Byte} (hview : r.machine.view (r.address index) = some byte) :
    r.searchTurn (index, i) = (Frames.searchTurn r.machine.bitmap (index, i)).map some := by
  have hchunk : r.machine.bitmap.chunk index = byte := congrArg (Option.getD · 0) hview
  simp only [Resident.searchTurn, hview, Frames.searchTurn, hchunk]
  split_ifs <;> rfl

theorem searchTurn_unfaulted (r : Resident) (u : BitVec 64 × ℕ) : r.searchTurn u = .exit none ∨
    r.searchTurn u = (Frames.searchTurn r.machine.bitmap u).map some := by
  rcases hview : r.machine.view (r.address u.1) with _ | byte
  · left
    simp only [Resident.searchTurn, hview]
  · exact Or.inr (searchTurn_mapped hview)

theorem getFreeFrame_seated (h : r.getFreeFrame fuel = some (t, num)) :
    r.machine.bitmap.bit num.toNat = false ∧ ∃ p,
      r.machine.translate (r.seat (num.toNat / 8)) = some p ∧
      t = { r with
        mem := storeByte r.mem p (r.mem p ||| BitString.mask (num.toNat % 8)) } := by
  rw [Resident.getFreeFrame, Option.bind_eq_some_iff] at h
  obtain ⟨⟨index, i⟩, hrun, hret⟩ := h
  rw [Option.join_eq_some_iff] at hrun
  obtain ⟨t', hmark, hret⟩ := Option.map_eq_some_iff.mp hret
  obtain ⟨rfl, rfl⟩ := Prod.mk.inj hret
  obtain ⟨hi, hclear⟩ := search_result ⟨fuel, run_unfaulted (searchTurn_unfaulted r) hrun⟩
  obtain ⟨haddr, hmod⟩ := frame_address r.machine.bitmap index hi
  have hseat : r.address index = r.seat ((frameNumber index i).toNat / 8) := haddr
  obtain ⟨byte, hbyte, hwrite⟩ := Option.bind_eq_some_iff.mp hmark
  obtain ⟨p, hp, rfl⟩ := Option.map_eq_some_iff.mp hbyte
  refine ⟨hclear, p, hseat ▸ hp, ?_⟩
  rw [Machine.writeByte, hp, Option.map_some, Option.map_some, Option.some.injEq] at hwrite
  rw [← hwrite, hmod]
  rfl

section Off

variable {s t : Machine} {S : Set Frame} (hcr3 : t.cr3 = s.cr3)
  (hmem : ∀ x, frameOf x ∉ S → t.mem x = s.mem x) (hS : ∀ f ∈ S, s.Fresh f)

include hmem in
theorem tables_off (hf : f ∉ S) (j : Slot) : t.tables f j = s.tables f j := by
  apply load_congr
  intro x hx
  apply hmem
  rwa [(entry_byte hx).1]

include hcr3 hmem hS

theorem directory_off (j : Slot) : t.tables t.directory j = s.tables s.directory j := by
  have hdir : t.directory = s.directory := congrArg frameOf hcr3
  rw [hdir]
  exact tables_off hmem (fun hin => (hS _ hin).1 rfl) j

theorem translate_off (virt : Word) : t.translate virt = s.translate virt := by
  have hdir : t.directory = s.directory := congrArg frameOf hcr3
  rw [Machine.translate, Machine.translate, Machine.walk, Machine.walk, hdir]
  refine congrArg (Option.map _) ?_
  have hentry := directory_off hcr3 hmem hS (directorySlot virt)
  rw [hdir] at hentry
  refine walk_congr hentry fun hp => ?_
  exact tables_off hmem (fun hin => (hS _ hin).2 _ hp rfl) _

theorem fresh_off (hf : s.Fresh f) : t.Fresh f := by
  have hentry := directory_off hcr3 hmem hS
  obtain ⟨hne, htables⟩ := hf
  refine ⟨?_, fun i hp => ?_⟩
  · rwa [Machine.directory, hcr3]
  · rw [hentry] at hp ⊢
    exact htables i hp

end Off

theorem resident_bit (hp : r.machine.translate (r.seat (k / 8)) = some p) :
    r.machine.bitmap.bit k = BitString.msb (r.mem p) (k % 8) := by
  have hbyte : r.machine.bitmap.mem (r.seat (k / 8)) = r.mem p := by
    have hview : r.machine.view (r.seat (k / 8)) = some (r.mem p) := by rw [Machine.view, hp]; rfl
    exact congrArg (Option.getD · 0) hview
  rw [← hbyte]
  rfl

theorem mem_held (hf : f.toNat < 8 * n) :
    f ∈ r.held n ↔ r.machine.bitmap.bit f.toNat = true := by
  rw [← used_iff (by omega)]
  exact ⟨fun h => h hf, fun h _ => h⟩

section Seated

theorem bytes_same
    (hsame : ∀ k < n, t.machine.translate (t.seat k) = r.machine.translate (r.seat k)) :
    t.bytes n = r.bytes n := by
  ext p
  constructor
  · rintro ⟨k, hk, hp⟩
    exact ⟨k, hk, hsame k hk ▸ hp⟩
  · rintro ⟨k, hk, hp⟩
    exact ⟨k, hk, (hsame k hk).trans hp⟩

theorem seats_same
    (hsame : ∀ k < n, t.machine.translate (t.seat k) = r.machine.translate (r.seat k)) :
    t.seats n = r.seats n := by
  rw [Resident.seats, bytes_same hsame]
  rfl

theorem off_bytes (hx : frameOf x ∉ r.seats n) : x ∉ r.bytes n := fun hin => hx ⟨x, hin, rfl⟩

variable (h : r.Seated n)
include h

theorem Resident.Seated.same
    (hsame : ∀ k < n, t.machine.translate (t.seat k) = r.machine.translate (r.seat k))
    (hheld : r.held n ⊆ t.held n) (hfresh : ∀ f ∈ r.seats n, t.machine.Fresh f) : t.Seated n := by
  refine ⟨fun k hk => ?_, fun f hf => ?_, fun k hk l hl heq => ?_⟩
  · rw [hsame k hk]
    exact h.mapped k hk
  · rw [seats_same hsame] at hf
    exact ⟨hheld (h.fresh f hf).1, hfresh f hf⟩
  · rw [hsame k hk, hsame l hl] at heq
    exact h.distinct k hk l hl heq

theorem Resident.Seated.held_same
    (hsame : ∀ k < n, t.machine.translate (t.seat k) = r.machine.translate (r.seat k))
    (hmem : ∀ x ∈ r.bytes n, t.mem x = r.mem x) : t.held n = r.held n := by
  ext f
  by_cases hf : f.toNat < 8 * n
  · have hk : f.toNat / 8 < n := by omega
    obtain ⟨p, hp⟩ := h.mapped _ hk
    rw [mem_held hf, mem_held hf, resident_bit hp, resident_bit ((hsame _ hk).trans hp),
      hmem p ⟨_, hk, hp⟩]
  · exact iff_of_true (fun hlt => absurd hlt hf) fun hlt => absurd hlt hf

end Seated

structure Marked (r t : Resident) (n : ℕ) (f : Frame) : Prop where
  cr3 : t.cr3 = r.cr3
  ptr : t.ptr = r.ptr
  hint : t.lastChecked = r.lastChecked
  mem : ∀ x ∉ r.bytes n, t.mem x = r.mem x
  same : ∀ k < n, t.machine.translate (t.seat k) = r.machine.translate (r.seat k)
  seated : t.Seated n
  free : f ∉ r.held n
  held : t.held n = insert f (r.held n)

def Resident.Shallow (r : Resident) (n : ℕ) : Prop :=
  ∀ fuel t num, r.getFreeFrame fuel = some (t, num) → num.toNat < 8 * n

theorem seated_one (hseat : r.machine.translate (r.seat 0) = some p) (hheld : frameOf p ∈ r.held 1)
    (hfresh : r.machine.Fresh (frameOf p)) : r.Seated 1 := by
  have hzero {k : ℕ} (hk : k < 1) : k = 0 := Nat.lt_one_iff.mp hk
  refine ⟨fun k hk => ⟨p, hzero hk ▸ hseat⟩, ?_, fun k hk l hl _ => (hzero hk).trans (hzero hl).symm⟩
  rintro f ⟨q, ⟨k, hk, hq⟩, rfl⟩
  rw [hzero hk, hseat, Option.some.injEq] at hq
  subst hq
  exact ⟨hheld, hfresh⟩

theorem frameOf_number {num : BitVec 64} (hnum : num.toNat < 0x100000) :
    (frameOf ((num * 0x1000).setWidth 32)).toNat = num.toNat := by
  rw [frameOf_toNat, BitVec.toNat_setWidth, BitVec.toNat_mul,
    show (0x1000 : BitVec 64).toNat = 0x1000 from rfl]
  omega

theorem Resident.Seated.stored_bit (h : r.Seated n) {num g : ℕ} (hnum : num < 8 * n)
    (hp : r.machine.translate (r.seat (num / 8)) = some p)
    (hmem : t.mem = storeByte r.mem p (r.mem p ||| BitString.mask (num % 8)))
    (hsame : ∀ k < n, t.machine.translate (t.seat k) = r.machine.translate (r.seat k))
    (hg : g < 8 * n) :
    t.machine.bitmap.bit g = (decide (num = g) || r.machine.bitmap.bit g) := by
  have hl : g / 8 < n := by omega
  obtain ⟨q, hq⟩ := h.mapped _ hl
  rw [resident_bit hq, resident_bit ((hsame _ hl).trans hq), hmem]
  by_cases hbyte : g / 8 = num / 8
  · rw [hbyte, hp, Option.some.injEq] at hq
    subst hq
    have hstored : storeByte r.mem p (r.mem p ||| BitString.mask (num % 8)) p =
        r.mem p ||| BitString.mask (num % 8) := if_pos rfl
    rw [hstored, BitString.msb_or, BitString.msb_mask (by omega) (by omega), Bool.or_comm]
    congr 1
    exact decide_eq_decide.mpr (by omega)
  · have hqp : q ≠ p := by
      rintro rfl
      exact hbyte (h.distinct _ hl _ (by omega) (hq.trans hp.symm))
    have hne : num ≠ g := fun heq => hbyte (by rw [heq])
    rw [storeByte_miss hqp, decide_eq_false hne, Bool.false_or]

theorem Resident.Seated.mark (h : r.Seated n) (hn : n ≤ 0x20000) (hshallow : r.Shallow n)
    (hget : r.getFrame fuel = some (t, addr)) : Marked r t n (frameOf addr) := by
  obtain ⟨⟨t', num⟩, hnum, hret⟩ := Option.map_eq_some_iff.mp hget
  obtain ⟨rfl, rfl⟩ := Prod.mk.inj hret
  have hlt := hshallow _ _ _ hnum
  obtain ⟨hclear, p, hp, rfl⟩ := getFreeFrame_seated hnum
  have hframe : (frameOf ((num * 0x1000).setWidth 32)).toNat = num.toNat := frameOf_number (by omega)
  have hin : p ∈ r.bytes n := ⟨_, by omega, hp⟩
  set t : Resident :=
    { r with mem := storeByte r.mem p (r.mem p ||| BitString.mask (num.toNat % 8)) } with ht
  have hmem (x : Word) (hx : x ∉ r.bytes n) : t.mem x = r.mem x := by
    apply storeByte_miss
    rintro rfl
    exact hx hin
  have hoff (x : Word) (hx : frameOf x ∉ r.seats n) : t.mem x = r.mem x := hmem x (off_bytes hx)
  have hfresh (f : Frame) (hf : f ∈ r.seats n) : r.machine.Fresh f := (h.fresh f hf).2
  have hcr3 : t.machine.cr3 = r.machine.cr3 := rfl
  have hsame (k : ℕ) (_ : k < n) : t.machine.translate (t.seat k) = r.machine.translate (r.seat k) :=
    translate_off hcr3 hoff hfresh _
  have hheld : t.held n = insert (frameOf ((num * 0x1000).setWidth 32)) (r.held n) := by
    ext g
    rw [Set.mem_insert_iff]
    by_cases hg : g.toNat < 8 * n
    · rw [mem_held hg, mem_held hg, h.stored_bit hlt hp rfl hsame hg, Bool.or_eq_true,
        decide_eq_true_iff, ← BitVec.toNat_inj, hframe, eq_comm]
    · exact iff_of_true (fun hlt => absurd hlt hg) (Or.inr fun hlt => absurd hlt hg)
  refine ⟨rfl, rfl, rfl, hmem, hsame, ?_, ?_, hheld⟩
  · refine h.same hsame ?_ fun f hf => fresh_off hcr3 hoff hfresh (hfresh f hf)
    rw [hheld]
    exact Set.subset_insert _ _
  · rw [mem_held (by omega), hframe, hclear]
    simp

theorem translate_kept {s t : Machine} (hw : ∀ e, s.walk virt = some e → t.walk virt = some e)
    (hp : s.translate virt = some p) : t.translate virt = some p := by
  obtain ⟨e, he, rfl⟩ := Option.map_eq_some_iff.mp hp
  exact Option.map_eq_some_iff.mpr ⟨e, hw e he, rfl⟩

section Put

variable {e : Word} {j : Slot} (h : r.Seated n) (hcr3 : t.cr3 = r.cr3) (hptr : t.ptr = r.ptr)
  (hput : t.mem = (r.machine.put f j e).mem)

section Tables

include hput

theorem put_machine_tables : t.machine.tables = put r.machine.tables f j e := by
  rw [← put_tables]
  exact congrArg (fun m g k => load m (slotAddress g k)) hput

theorem put_machine_mem (hx : frameOf x ≠ f) : t.mem x = r.mem x := by
  rw [hput]
  exact put_mem hx

end Tables

include h hcr3 hptr hput

omit hcr3 in
theorem Resident.Seated.put (hf : f ∉ r.seats n)
    (hwalk : ∀ k < n, ∀ x, r.machine.walk (r.seat k) = some x → t.machine.walk (r.seat k) = some x)
    (hfresh : ∀ g ∈ r.seats n, t.machine.Fresh g) : t.Seated n ∧ t.held n = r.held n ∧
      ∀ k < n, t.machine.translate (t.seat k) = r.machine.translate (r.seat k) := by
  have hseat (k : ℕ) : t.seat k = r.seat k := congrArg (· + word k) hptr
  have hsame (k : ℕ) (hk : k < n) :
      t.machine.translate (t.seat k) = r.machine.translate (r.seat k) := by
    obtain ⟨p, hp⟩ := h.mapped k hk
    rw [hseat, hp]
    exact translate_kept (hwalk k hk) hp
  have hheld : t.held n = r.held n :=
    h.held_same hsame fun x hx => put_machine_mem hput fun heq => hf ⟨x, hx, heq⟩
  exact ⟨h.same hsame hheld.ge hfresh, hheld, hsame⟩

theorem Resident.Seated.leaf (hf : f ∉ r.seats n) (hdir : f ≠ r.machine.directory)
    (hclear : ∀ k < n, frameOf (r.machine.pde (r.seat k)) ≠ f) :
    t.Seated n ∧ t.held n = r.held n ∧
      ∀ k < n, t.machine.translate (t.seat k) = r.machine.translate (r.seat k) := by
  have hdirectory : t.machine.directory = r.machine.directory := congrArg frameOf hcr3
  have hentry (i : Slot) : t.machine.tables r.machine.directory i =
      r.machine.tables r.machine.directory i := by
    rw [put_machine_tables hput]
    exact put_other fun heq => hdir heq.1.symm
  refine h.put hptr hput hf (fun k hk x hx => ?_) fun g hg => ?_
  · rw [Machine.walk, hdirectory]
    refine walk_kept hx (fun _ => hentry _) fun _ => ?_
    rw [put_machine_tables hput]
    exact put_other fun heq => hclear k hk heq.1
  · obtain ⟨hne, htables⟩ := (h.fresh g hg).2
    refine ⟨by rwa [hdirectory], fun i hp => ?_⟩
    rw [hdirectory, hentry] at hp ⊢
    exact htables i hp

theorem Resident.Seated.link (hf : f = r.machine.directory)
    (habsent : ¬entryFormat.present (r.machine.tables f j)) (he : frameOf e ∉ r.seats n) :
    t.Seated n ∧ t.held n = r.held n ∧
      ∀ k < n, t.machine.translate (t.seat k) = r.machine.translate (r.seat k) := by
  subst hf
  have hdirectory : t.machine.directory = r.machine.directory := congrArg frameOf hcr3
  have hoff : r.machine.directory ∉ r.seats n := fun hin => (h.fresh _ hin).2.1 rfl
  refine h.put hptr hput hoff (fun k hk x hx => ?_) fun g hg => ?_
  · rw [Machine.walk, hdirectory, put_machine_tables hput]
    exact walk_put_kept (fun hp => absurd hp habsent) hx
  · obtain ⟨hne, htables⟩ := (h.fresh g hg).2
    refine ⟨by rwa [hdirectory], fun i hp => ?_⟩
    rw [hdirectory, put_machine_tables hput] at hp ⊢
    by_cases hi : i = j
    · rw [hi, put_same]
      exact fun heq => he (heq ▸ hg)
    · rw [put_other fun heq => hi heq.2] at hp ⊢
      exact htables i hp

end Put

end Rinix.Paging
