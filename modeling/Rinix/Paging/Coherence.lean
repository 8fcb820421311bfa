import Rinix.Paging.Tlb

namespace Rinix.Paging

open ByteMemory PageTable WhileLoop Frames Runs LookupCache

structure Machine.Keeps (s t : Machine) : Prop where
  directory : t.directory = s.directory
  entries : ∀ q x, s.entries q = some x → t.entries q = some x

def Blank (T : PageTable.Tables Frame Slot Word) (f : Frame) (k : Slot) (e : Word) : Prop :=
  entryFormat.present (T f k) → T f k = e

namespace Machine

def Through (s : Machine) (virt flags : Word) (b : PfBitmap) (link : Word) : Prop :=
  (s.Present virt ∧ b = s.bitmap ∧ link = s.pde virt) ∨
    (¬s.Present virt ∧ ∃ table, GetFrameReturns s.bitmap b table ∧ link = entryFor table flags)

def Takes (s : Machine) (virt link leaf : Word) : Prop :=
  Blank (PageTable.put s.tables s.directory (directorySlot virt) link) (frameOf link) (tableSlot virt) leaf

def Loose (s : Machine) (p : Word) : Prop :=
  s.Fresh (frameOf p) ∨ ¬entryFormat.present (s.tables (frameOf p) (p.extractLsb' 2 10))

def Tolerates (s : Machine) (p : Word) (value : Byte) : Prop := s.Loose p ∨ s.mem p = value

structure Linked (s u : Machine) (virt link : Word) : Prop where
  keeps : s.Keeps u
  tables : u.tables = PageTable.put s.tables s.directory (directorySlot virt) link

end Machine

variable {s t u : Machine} {d : Cpu} {f : Frame} {k : Slot}
  {e virt phys flags link leaf value : Word} {fuel : ℕ}

theorem Machine.Keeps.refl (s : Machine) : s.Keeps s := ⟨rfl, fun _ _ h => h⟩

theorem Machine.Keeps.trans (h : s.Keeps t) (h' : t.Keeps u) : s.Keeps u :=
  ⟨h'.directory.trans h.directory, fun q x hx => h'.entries q x (h.entries q x hx)⟩

theorem keeps_put (hblank : Blank s.tables f k e) : s.Keeps (s.put f k e) := by
  refine ⟨rfl, fun q x hx => ?_⟩
  rw [Machine.entries, put_tables]
  exact walk_put_kept hblank hx

theorem keeps_loose (hdir : t.directory = s.directory) (hmem : ∀ x, s.Loose x ∨ t.mem x = s.mem x) :
    s.Keeps t := by
  have hkept (g : Frame) (k : Slot) (hlive : ¬s.Fresh g) (hp : entryFormat.present (s.tables g k)) :
      t.tables g k = s.tables g k := by
    apply load_congr
    intro x hx
    obtain ⟨rfl, rfl⟩ := entry_byte hx
    rcases hmem x with (hfresh | habsent) | hsame
    · exact absurd hfresh hlive
    · exact absurd hp habsent
    · exact hsame
  refine ⟨hdir, fun q x hx => ?_⟩
  have hp : entryFormat.present (s.tables s.directory q.1) := by
    rw [(walk_eq_some.mp hx).2.2.1]
    exact (walk_eq_some.mp hx).1
  rw [Machine.entries, hdir]
  apply walk_kept hx
  · exact hkept _ _ fun hfresh => hfresh.1 rfl
  · exact hkept _ _ fun hfresh => hfresh.2 _ hp rfl

theorem live_linked (hrec : s.Recursive) (hlive : ¬s.Fresh f) :
    ∃ i, entryFormat.present (s.tables s.directory i) ∧ frameOf (s.tables s.directory i) = f := by
  by_cases hdir : f = s.directory
  · rw [hdir]
    exact ⟨0x3FF, hrec.present, hrec.1⟩
  · by_contra hnone
    exact hlive ⟨hdir, fun i hi heq => hnone ⟨i, hi, heq⟩⟩

theorem byte_entry (x : Word) : (x - slotAddress (frameOf x) (x.extractLsb' 2 10)).toNat < 4 := by
  have hslot := slotAddress_toNat (frameOf x) (x.extractLsb' 2 10)
  rw [frameOf_toNat, BitVec.extractLsb'_toNat, Nat.shiftRight_eq_div_pow] at hslot
  bv_omega

theorem keeps_iff (hrec : s.Recursive) (hdir : t.directory = s.directory) :
    s.Keeps t ↔ ∀ x, s.Tolerates x (t.mem x) := by
  constructor
  · intro h x
    by_contra hx
    obtain ⟨hloose, hne⟩ := not_or.mp hx
    obtain ⟨hlive, hp⟩ := not_or.mp hloose
    rw [not_not] at hp
    obtain ⟨i, hi, hframe⟩ := live_linked hrec hlive
    have hframe' : entryFormat.frame (s.tables s.directory i) = frameOf x := hframe
    have hfound : s.entries (i, x.extractLsb' 2 10) =
        some (s.tables s.directory i, s.tables (frameOf x) (x.extractLsb' 2 10)) := by
      rw [Machine.entries, walk_of_present hi (by rw [hframe']; exact hp), hframe']
    have hkept := (walk_eq_some.mp (h.entries _ _ hfound)).2.2.2
    rw [hframe'] at hkept
    exact hne (load_inj hkept (byte_entry x)).symm
  · intro h
    refine keeps_loose hdir fun x => ?_
    exact (h x).imp_right Eq.symm

theorem keeps_fresh (hfresh : s.Fresh f) (hdir : t.directory = s.directory)
    (hmem : ∀ x, frameOf x ≠ f → t.mem x = s.mem x) : s.Keeps t := by
  refine keeps_loose hdir fun x => ?_
  by_cases hx : frameOf x = f
  · rw [← hx] at hfresh
    exact Or.inl (Or.inl hfresh)
  · exact Or.inr (hmem x hx)

theorem fresh_outside (hfresh : s.Fresh f) (hdir : t.directory = s.directory)
    (hmem : ∀ x, frameOf x ≠ f → t.mem x = s.mem x) : t.Fresh f := by
  have hkept (i : Slot) : t.tables s.directory i = s.tables s.directory i :=
    tables_outside hmem (Ne.symm hfresh.1)
  rw [Machine.Fresh, hdir]
  simp only [hkept]
  exact hfresh

theorem Machine.Keeps.recursive (h : s.Keeps t) (hrec : s.Recursive) : t.Recursive := by
  have hlast : s.entries (0x3FF, 0x3FF) = some (s.tables s.directory 0x3FF, s.tables s.directory 0x3FF) := by
    have hself : entryFormat.frame (s.tables s.directory 0x3FF) = s.directory := hrec.1
    have hp := hrec.present
    rw [Machine.entries, walk_of_present hp (by rw [hself]; exact hp), hself]
  have hkept : t.tables t.directory 0x3FF = s.tables s.directory 0x3FF :=
    (walk_eq_some.mp (h.entries _ _ hlast)).2.2.1
  rw [Machine.Recursive, hkept, h.directory]
  exact hrec

namespace Cpu

theorem become_flushed (h : s.Keeps t) : (flushed s).become t = flushed t := by
  rw [become, flushed, remember_filled h.entries]
  rfl

theorem flushed_current (s : Machine) (virt : Word) : ¬(flushed s).Stale virt := filled_current _ _

/-- After a change of memory, nothing that may be held is out of date if and only if all that was
found is kept. -/
theorem become_current_iff (hdir : t.directory = s.directory) :
    (∀ virt, ¬((flushed s).become t).Stale virt) ↔ s.Keeps t := by
  constructor
  · refine fun h => ⟨hdir, fun q x hx => ?_⟩
    obtain ⟨hd, ht, -⟩ := slotAddress_slots (q.1 ++ q.2) 0
    rw [BitVec.extractLsb'_append_eq_left] at hd
    rw [BitVec.extractLsb'_append_eq_right] at ht
    have hq : pageOf (slotAddress (q.1 ++ q.2) 0) = q := Prod.ext hd ht
    by_contra hne
    apply h (slotAddress (q.1 ++ q.2) 0)
    rw [Stale, hq]
    exact remember_stale_iff.mpr ⟨x, hx, hne⟩
  · intro h virt
    rw [become_flushed h]
    exact flushed_current t virt

theorem invlpg_flushed (s : Machine) (addr : Word) : (flushed s).invlpg addr = flushed s := by
  rw [invlpg, flushed, forget_filled]

theorem translate_flushed (s : Machine) (virt : Word) :
    (flushed s).translate virt = (s.translate virt).toList := by
  rw [Machine.translate, Option.toList_map]
  rfl

theorem read_flushed (s : Machine) (virt : Word) : (flushed s).read virt = (s.read virt).toList := by
  rw [read, translate_flushed, Machine.read, Option.toList_map]
  rfl

theorem mem_become {α : Type} {o : Option α} {g : α → Machine} :
    d ∈ o.toList.map (fun p => (flushed s).become (g p)) ↔
    ∃ t, o.map g = some t ∧ d = (flushed s).become t := by
  simp only [List.mem_map, Option.mem_toList, Option.map_eq_some_iff]
  constructor
  · rintro ⟨p, hp, rfl⟩
    exact ⟨g p, ⟨p, hp, rfl⟩, rfl⟩
  · rintro ⟨t, ⟨p, hp, rfl⟩, rfl⟩
    exact ⟨p, hp, rfl⟩

theorem mem_write : d ∈ (flushed s).write virt value ↔
    ∃ t, s.write virt value = some t ∧ d = (flushed s).become t := by
  rw [write, translate_flushed]
  exact mem_become

theorem writeByte_flushed {value : Byte} (h : ∀ t, s.writeByte virt value = some t → s.Keeps t) :
    (flushed s).writeByte virt value = (s.writeByte virt value).toList.map flushed := by
  rw [writeByte, translate_flushed]
  rw [Machine.writeByte] at *
  cases hp : s.translate virt with
  | none => rfl
  | some p =>
    rw [hp] at h
    exact congrArg (fun c => [c]) (become_flushed (h _ rfl))

theorem places_flushed (s : Machine) (virt : Word) : (flushed s).places virt = (s.places virt).toList := by
  simp only [places, translate_flushed, Machine.places, Option.toList_bind, Option.toList_map,
    Function.comp_def]

theorem mem_writeAny : d ∈ (flushed s).writeAny virt value ↔
    ∃ t, s.writeAny virt value = some t ∧ d = (flushed s).become t := by
  rw [writeAny, places_flushed]
  exact mem_become

theorem mem_pmmAlloc {r : Cpu × Word} : r ∈ (flushed s).pmmAlloc 0 fuel ↔
    ∃ b frame, getFrame s.bitmap fuel = some (b, frame) ∧ r = (flushed (s.allocated b), frame) := by
  have halloc : Paging.pmmAlloc s.bitmap 0 fuel = getFrame s.bitmap fuel := if_neg fun h => h rfl
  simp only [pmmAlloc, List.mem_map, Option.mem_toList]
  constructor
  · rintro ⟨⟨b, frame⟩, hget, rfl⟩
    exact ⟨b, frame, halloc.symm.trans hget, rfl⟩
  · rintro ⟨b, frame, hget, rfl⟩
    exact ⟨(b, frame), halloc.trans hget, rfl⟩

theorem mem_setPage : d ∈ (flushed s).setPage virt phys flags ↔
    ∃ t, Paging.setPage s virt phys flags = some t ∧ d = (flushed s).become t := mem_write

theorem mem_setPageTable : d ∈ (flushed s).setPageTable virt phys flags ↔
    ∃ t, Paging.setPageTable s virt phys flags = some t ∧
    d = ((flushed s).become t).invlpg (virt &&& ~~~0xFFF) := by
  simp only [setPageTable, List.mem_map, mem_write]
  constructor
  · rintro ⟨c, ⟨t, ht, rfl⟩, rfl⟩
    exact ⟨t, ht, rfl⟩
  · rintro ⟨t, ht, rfl⟩
    exact ⟨_, ⟨t, ht, rfl⟩, rfl⟩

theorem allocPageTable_outcome (hrec : s.Recursive) (hp : ¬s.Present virt)
    (h : d ∈ (flushed s).allocPageTable virt flags fuel) :
    ∃ u link, s.Through virt flags u.bitmap link ∧ s.Linked u virt link ∧ d = flushed u := by
  obtain ⟨⟨c, table⟩, hc, hset⟩ := List.mem_flatMap.mp h
  obtain ⟨b, frame, hget, hpair⟩ := mem_pmmAlloc.mp hc
  obtain ⟨rfl, rfl⟩ := Prod.mk.inj hpair
  obtain ⟨t, ht, rfl⟩ := mem_setPageTable.mp hset
  rw [setPageTable_eq (s := s.allocated b) hrec, Option.some.injEq] at ht
  obtain rfl := ht
  have hkeeps : (s.allocated b).Keeps ((s.allocated b).put s.directory (directorySlot virt)
    (entryFor table flags)) :=
    keeps_put fun hpresent => absurd hpresent hp
  refine ⟨_, entryFor table flags, Or.inr ⟨hp, table, ⟨fuel, hget⟩, rfl⟩,
    ⟨⟨hkeeps.directory, hkeeps.entries⟩, put_tables⟩, ?_⟩
  exact (congrArg (fun c => c.invlpg (virt &&& ~~~0xFFF)) (become_flushed hkeeps)).trans (invlpg_flushed _ _)

theorem linked_first (hrec : s.Recursive) {g : Cpu → List Cpu}
    (h : d ∈ ((flushed s).read (pageDirVaddr ||| (virt >>> 22) * 4)).flatMap fun entry =>
      if entry &&& 0x1 ≠ 0 then g (flushed s) else ((flushed s).allocPageTable virt flags fuel).flatMap g) :
    ∃ u link, s.Through virt flags u.bitmap link ∧ s.Linked u virt link ∧ d ∈ g (flushed u) := by
  rw [read_flushed, read_pde hrec, Option.toList_some, List.flatMap_singleton] at h
  split_ifs at h with hp
  · have hpresent : s.Present virt := present_iff.mpr hp
    exact ⟨s, s.pde virt, Or.inl ⟨hpresent, rfl, rfl⟩, ⟨Machine.Keeps.refl s, (put_self _ _ _).symm⟩, h⟩
  · obtain ⟨c, hc, hd⟩ := List.mem_flatMap.mp h
    have habsent : ¬s.Present virt := fun hpresent => hp (present_iff.mp hpresent)
    obtain ⟨u, link, hthrough, hlink, rfl⟩ := allocPageTable_outcome hrec habsent hc
    exact ⟨u, link, hthrough, hlink, hd⟩

theorem mapPage_outcome (hrec : s.Recursive) (h : d ∈ (flushed s).mapPage virt phys flags fuel) :
    ∃ u link, s.Through virt flags u.bitmap link ∧ s.Linked u virt link ∧
    d ∈ (flushed u).setPage virt phys flags :=
  linked_first (g := fun c => c.setPage virt phys flags) hrec h

theorem allocMapPage_outcome (hrec : s.Recursive) (h : d ∈ (flushed s).allocMapPage virt flags fuel) :
    ∃ u link, s.Through virt flags u.bitmap link ∧ s.Linked u virt link ∧
    d ∈ (flushed u).allocPage virt flags fuel :=
  linked_first (g := fun c => c.allocPage virt flags fuel) hrec h

theorem setPage_absent (hrec : s.Recursive) (hp : ¬s.Present virt) :
    Paging.setPage s virt phys flags = none := by
  obtain ⟨hd, ht, -⟩ := slotAddress_slots ((0x3FF : Slot) ++ directorySlot virt) (tableSlot virt)
  rw [BitVec.extractLsb'_append_eq_left] at hd
  rw [BitVec.extractLsb'_append_eq_right] at ht
  have hself : entryFormat.frame (s.tables s.directory 0x3FF) = s.directory := hrec.1
  have hwalk : s.walk (slotAddress ((0x3FF : Slot) ++ directorySlot virt) (tableSlot virt)) = none := by
    rw [Machine.walk, hd, ht]
    refine if_neg fun h => hp ?_
    rw [hself] at h
    exact h.2
  simp only [Paging.setPage, Machine.write]
  rw [pte_address, (slots_mask virt).1, (slots_mask virt).2, Machine.translate, hwalk]
  rfl

theorem setPage_outcome (hrec : u.Recursive) (h : d ∈ (flushed u).setPage virt phys flags) : u.Present virt ∧
    d = (flushed u).become (u.put (frameOf (u.pde virt)) (tableSlot virt) (entryFor phys flags)) := by
  obtain ⟨t, ht, rfl⟩ := mem_setPage.mp h
  by_cases hp : u.Present virt
  · rw [setPage_eq hrec hp, Option.some.injEq] at ht
    rw [ht]
    exact ⟨hp, rfl⟩
  · rw [setPage_absent hrec hp] at ht
    cases ht

theorem mapPage_written (hrec : s.Recursive) (hp : s.Present virt) (phys flags : Word) (fuel : ℕ) :
    (flushed s).become (s.put (frameOf (s.pde virt)) (tableSlot virt) (entryFor phys flags)) ∈
      (flushed s).mapPage virt phys flags fuel := by
  simp only [mapPage, read_flushed, read_pde hrec, Option.toList_some, List.flatMap_singleton]
  rw [if_pos (present_iff.mp hp)]
  exact mem_setPage.mpr ⟨_, setPage_eq hrec hp phys flags, rfl⟩

section Linked

variable (hlink : s.Linked u virt link)
include hlink

theorem linked_pde : u.pde virt = link := by
  rw [Machine.pde, hlink.tables, hlink.keeps.directory, put_same]

theorem takes_iff : s.Takes virt link leaf ↔ Blank u.tables (frameOf (u.pde virt)) (tableSlot virt) leaf := by
  rw [linked_pde hlink, hlink.tables]
  rfl

theorem written_current_iff (hrec : s.Recursive) (h : d ∈ (flushed u).setPage virt phys flags) :
    ¬d.Stale virt ↔ s.Takes virt link (entryFor phys flags) := by
  obtain ⟨hp, rfl⟩ := setPage_outcome (hlink.keeps.recursive hrec) h
  rw [takes_iff hlink]
  constructor
  · intro hcurrent hleaf
    have hold : u.entries (pageOf virt) = some (u.pde virt,
      u.tables (frameOf (u.pde virt)) (tableSlot virt)) :=
      walk_of_present hp hleaf
    have hkept : (u.put (frameOf (u.pde virt)) (tableSlot virt) (entryFor phys flags)).entries (pageOf virt) =
        some (u.pde virt, u.tables (frameOf (u.pde virt)) (tableSlot virt)) := by
      by_contra hne
      exact hcurrent (remember_stale_iff.mpr ⟨_, hold, hne⟩)
    have hpte := (walk_eq_some.mp hkept).2.2.2
    rw [put_tables] at hpte
    exact hpte.symm.trans put_same
  · intro hblank
    rw [become_flushed (keeps_put hblank)]
    exact flushed_current _ _

end Linked

theorem deallocPage_outcome (hrec : s.Recursive) (h : d ∈ (flushed s).deallocPage virt) :
    ∃ b q, s.places (entryPointer (s.pde virt) virt) = some q ∧
      d = (flushed (s.allocated b)).become { s.allocated b with mem := storeAny s.mem 0 q } := by
  simp only [deallocPage, pde_sum] at h
  rw [pde_mask, read_flushed, read_pde hrec, Option.toList_some, List.flatMap_singleton, pointer_mask] at h
  obtain ⟨a, -, hwrite⟩ := List.mem_flatMap.mp h
  obtain ⟨t, ht, rfl⟩ := mem_writeAny (s := s.allocated (freeFrame s.bitmap (a &&& ~~~0xFFF)).1).mp hwrite
  obtain ⟨q, hq, rfl⟩ := Option.map_eq_some_iff.mp ht
  exact ⟨_, q, hq, rfl⟩

section Temporary

variable {m : Machine} {temp pde : Word} (hwalk : m.walk temp = some (pde, leaf))
  (hfresh : m.Fresh (frameOf leaf))
include hwalk hfresh

theorem fresh_apart : frameOf leaf ≠ m.directory ∧ frameOf leaf ≠ frameOf pde := by
  obtain ⟨hp, -, rfl, -⟩ := walk_eq_some.mp hwalk
  exact ⟨hfresh.1, Ne.symm (hfresh.2 _ hp)⟩

theorem memset_flushed (halign : (pageOffset temp).toNat = 0) {n : ℕ} (hn : n ≤ 4096) :
    (flushed m).memset temp 0 n = [flushed (m.cleared (frameOf leaf) n)] := by
  have hf := fresh_apart hwalk hfresh
  induction n with
  | zero =>
    have hnone : Paging.memset m temp 0 0 = some (m.cleared (frameOf leaf) 0) :=
      memset_clears hwalk hf halign hn
    rw [Paging.memset, Option.some.injEq] at hnone
    rw [memset, ← hnone]
  | succ n ih =>
    have hnext := cleared_next hwalk hf halign (Nat.lt_of_succ_le hn)
    rw [memset, ih (Nat.le_of_succ_le hn), List.flatMap_singleton, writeByte_flushed, hnext]
    · rfl
    · intro t ht
      rw [hnext, Option.some.injEq] at ht
      rw [← ht]
      have hsame (n : ℕ) := cleared_outside m (frameOf leaf) n
      refine keeps_fresh (fresh_outside hfresh rfl (hsame n)) rfl fun x hx => ?_
      rw [hsame _ x hx, hsame _ x hx]

end Temporary

end Cpu

end Rinix.Paging
