import Rinix.Paging.Sharing

namespace Rinix.Paging

open ByteMemory PageTable WhileLoop Frames

def entryPointer (pt virt : Word) : Word := pt + ((virt >>> 12) &&& (0x3FF : Word)) * (4 : Word)

def Machine.FindsEntry (s : Machine) (virt a : Word) : Prop :=
  ∃ pt, s.read (pageDirVaddr ||| (virt >>> 22) * 4) = some pt ∧
    s.places (entryPointer pt virt) = some (a, a + 1, a + 2, a + 3)

structure Undone (s m t : Machine) (virt : Word) : Prop where
  finds : m.FindsEntry virt (slotAddress (frameOf (s.pde virt)) (tableSlot virt))
  cleared : t.tables (frameOf (s.pde virt)) (tableSlot virt) = 0
  others : ∀ f k, ¬(f = frameOf (s.pde virt) ∧ k = tableSlot virt) → t.tables f k = s.tables f k
  freed : ∀ f < 0x100000, used t.bitmap f ↔
    used m.bitmap f ∧ f ≠ (frameOf (m.tables (frameOf (s.pde virt)) (tableSlot virt))).toNat

variable {s m t : Machine} {b : PfBitmap} {a pt virt flags page p : Word} {f : Frame} {k : Slot} {e : Word}

theorem pde_sum (virt : Word) : pageDirVaddr + (virt >>> 22) * (4 : Word) = pageDirVaddr |||
    (virt >>> 22) * 4 := by
  rw [mul_four, BitVec.add_eq_or_of_and_eq_zero]
  apply BitVec.eq_of_getLsbD_eq
  intro i hi
  simp only [BitVec.getLsbD_and, BitVec.getLsbD_shiftLeft, BitVec.getLsbD_ushiftRight]
  interval_cases i <;> simp [pageDirVaddr]

theorem pde_mask (virt : Word) :
    pageDirVaddr ||| ((virt &&& ~~~0xFFF) >>> 22) * (4 : Word) = pageDirVaddr ||| (virt >>> 22) *
    (4 : Word) := by
  rw [pde_address, pde_address, (slots_mask virt).1]

theorem tableSlot_toNat (virt : Word) : ((virt >>> 12) &&& (0x3FF : Word)).toNat =
    (tableSlot virt).toNat := by
  have hmask : (0x3FF : Word).toNat = 2 ^ 10 - 1 := rfl
  rw [BitVec.toNat_and, hmask, Nat.and_two_pow_sub_one_eq_mod, tableSlot, BitVec.extractLsb'_toNat,
    BitVec.toNat_ushiftRight]

theorem pointer_mask (pt virt : Word) :
    pt + ((virt &&& ~~~0xFFF) >>> 12 &&& (0x3FF : Word)) * (4 : Word) = entryPointer pt virt := by
  have hslot : ((virt &&& ~~~0xFFF) >>> 12) &&& (0x3FF : Word) = (virt >>> 12) &&& 0x3FF := by
    apply BitVec.eq_of_toNat_eq
    rw [tableSlot_toNat, tableSlot_toNat, (slots_mask virt).2]
  rw [entryPointer, hslot]

theorem deallocPage_eq (s : Machine) (virt : Word) : deallocPage s virt =
    (s.read (pageDirVaddr ||| (virt >>> 22) * 4)).bind fun pt =>
      (s.readAny (entryPointer pt virt)).bind fun a =>
        (s.allocated (freeFrame s.bitmap (a &&& ~~~0xFFF)).1).writeAny (entryPointer pt virt) 0 := by
  simp only [deallocPage, pde_sum]
  rw [pde_mask]
  simp only [pointer_mask]
  rfl

theorem translate_offset (h : s.translate virt = some p) : pageOffset p = pageOffset virt := by
  obtain ⟨x, -, rfl⟩ := Option.map_eq_some_iff.mp h
  exact BitVec.extractLsb'_append_eq_right

theorem places_some {q : Word × Word × Word × Word} (h : s.places virt = some q) :
    s.translate virt = some q.1 ∧ s.translate (virt + 1) = some q.2.1 ∧
    s.translate (virt + 2) = some q.2.2.1 ∧
      s.translate (virt + 3) = some q.2.2.2 := by
  obtain ⟨p₀, h₀, h⟩ := Option.bind_eq_some_iff.mp h
  obtain ⟨p₁, h₁, h⟩ := Option.bind_eq_some_iff.mp h
  obtain ⟨p₂, h₂, h⟩ := Option.bind_eq_some_iff.mp h
  obtain ⟨p₃, h₃, rfl⟩ := Option.map_eq_some_iff.mp h
  exact ⟨h₀, h₁, h₂, h₃⟩

theorem storeAny_word (m : Mem) (v a : Word) : storeAny m v (a, a + 1, a + 2, a + 3) = store m a v := by
  have hoffset (x : Word) (i : ℕ) (hi : i < 4) : x = a + word i ↔ (x - a).toNat = i := eq_offset (by omega)
  funext x
  have h0 : x = a ↔ (x - a).toNat = 0 := by simpa [word] using hoffset x 0 (by decide)
  have h1 := hoffset x 1 (by decide)
  have h2 := hoffset x 2 (by decide)
  have h3 := hoffset x 3 (by decide)
  rw [show word 1 = 1 from rfl] at h1
  rw [show word 2 = 2 from rfl] at h2
  rw [show word 3 = 3 from rfl] at h3
  simp only [storeAny, storeByte, store, h0, h1, h2, h3]
  by_cases hx : (x - a).toNat < 4
  · rw [if_pos hx]
    generalize (x - a).toNat = i at hx ⊢
    interval_cases i <;> rfl
  · rw [if_neg hx, if_neg (by omega), if_neg (by omega), if_neg (by omega), if_neg (by omega)]

theorem pointer_low (pt virt : Word) : (entryPointer pt virt).toNat % 4 = pt.toNat % 4 := by
  rw [entryPointer, BitVec.toNat_add, BitVec.toNat_mul, show (4 : Word).toNat = 4 from rfl]
  omega

theorem slotAddress_low (f : Frame) (k : Slot) : (slotAddress f k).toNat % 4 = 0 := by
  rw [slotAddress_toNat]
  omega

theorem offset_low (h : pageOffset a = pageOffset e) : a.toNat % 4096 = e.toNat % 4096 := by
  have hnat := congrArg BitVec.toNat h
  rw [pageOffset, pageOffset, BitVec.extractLsb'_toNat, BitVec.extractLsb'_toNat] at hnat
  exact hnat

theorem present_odd : entryFormat.present e = true ↔ e.toNat % 2 = 1 := by
  have hlow : (e &&& 0x1).toNat = e.toNat % 2 := by
    rw [BitVec.toNat_and, show (0x1 : Word).toNat = 2 ^ 1 - 1 from rfl, Nat.and_two_pow_sub_one_eq_mod]
  rw [present_iff, ne_eq, ← BitVec.toNat_inj, hlow]
  change ¬e.toNat % 2 = 0 ↔ _
  omega

theorem present_not_pointer (hp : entryFormat.present e) {q : Word × Word × Word}
    (h : s.places (entryPointer e virt) = some (slotAddress f k, q)) :
    False := by
  have hoffset : (slotAddress f k).toNat % 4096 = (entryPointer e virt).toNat % 4096 :=
    offset_low (translate_offset (places_some h).1)
  have hlow := pointer_low e virt
  have haddr := slotAddress_low f k
  have hodd := present_odd.mp hp
  omega

theorem freed_iff (b : PfBitmap) (addr : Word) {f : ℕ} (hf : f < 0x100000) :
    used (freeFrame b addr).1 f ↔ used b f ∧ f ≠ (frameOf addr).toNat := by
  obtain ⟨-, hused, hfree⟩ := free_changes b addr (frameOf_toNat addr)
  by_cases hown : used b (frameOf addr).toNat
  · obtain ⟨hcleared, hother⟩ := hused hown
    by_cases heq : f = (frameOf addr).toNat
    · rw [heq]
      exact iff_of_false hcleared fun h => h.2 rfl
    · rw [hother f hf heq]
      exact (and_iff_left heq).symm
  · rw [(hfree hown).2 f hf]
    exact (and_iff_left_of_imp fun h heq => hown (by rw [← heq]; exact h)).symm

theorem deallocPage_finds (h : m.FindsEntry virt (slotAddress f k)) : deallocPage m virt =
    some ((m.allocated (freeFrame m.bitmap (m.tables f k &&& ~~~0xFFF)).1).put f k 0) := by
  obtain ⟨pt, hread, hplaces⟩ := h
  have hvalue : m.readAny (entryPointer pt virt) = some (m.tables f k) := by
    rw [Machine.readAny, hplaces]
    rfl
  have hkept (c : PfBitmap) : (m.allocated c).places (entryPointer pt virt) =
    m.places (entryPointer pt virt) := rfl
  rw [deallocPage_eq, hread, Option.bind_some, hvalue, Option.bind_some, Machine.writeAny, hkept,
    hplaces, Option.map_some, storeAny_word]
  rfl

theorem allocPage_returns (hrec : s.Recursive) (hp : s.Present virt)
    (h : Returns (allocPage s virt flags) m) :
    ∃ c page, GetFrameReturns s.bitmap c page ∧
      m = (s.allocated c).put (frameOf (s.pde virt)) (tableSlot virt) (entryFor page flags) := by
  obtain ⟨fuel, h⟩ := h
  rw [allocPage_eq hrec hp] at h
  obtain ⟨r, hr, rfl⟩ := Option.map_eq_some_iff.mp h
  exact ⟨r.1, r.2, ⟨fuel, hr⟩, rfl⟩

theorem not_found (hrec : s.Recursive) (hp : s.Present virt) (hleaf : entryFormat.present e)
    (hnormal : ¬(frameOf (s.pde virt) = s.directory ∧ tableSlot virt = 0x3FF)) :
    ¬(s.put (frameOf (s.pde virt)) (tableSlot virt) e).FindsEntry virt (slotAddress f k) := by
  rintro ⟨pt, hread, hplaces⟩
  have hkept : (s.put (frameOf (s.pde virt)) (tableSlot virt) e).tables s.directory 0x3FF =
    s.tables s.directory 0x3FF := by
    rw [put_tables, put_other fun h => hnormal ⟨h.1.symm, h.2.symm⟩]
  have hrec' : (s.put (frameOf (s.pde virt)) (tableSlot virt) e).Recursive := by
    rw [Machine.Recursive, put_directory, hkept]
    exact hrec
  have hpt := Option.some.inj ((read_pde hrec' virt).symm.trans hread)
  rw [← hpt] at hplaces
  have hentry : entryFormat.present ((s.put (frameOf (s.pde virt)) (tableSlot virt) e).pde virt) := by
    rw [Machine.pde, put_tables, put_directory, put]
    split_ifs
    · exact hleaf
    · exact hp
  exact present_not_pointer hentry hplaces

/-- `dealloc_page` never finds the entry of a page in a table of its own. It can find it only where
`alloc_page` has overwritten the recursive entry of the directory. -/
theorem dealloc_undoes_iff (hrec : s.Recursive) (hp : s.Present virt) (hflags : flags &&& pageP ≠ 0)
    (h : Returns (allocPage s virt flags) m) :
    (∃ t, deallocPage m virt = some t ∧ Undone s m t virt) ↔ frameOf (s.pde virt) = s.directory ∧
      tableSlot virt = 0x3FF ∧ m.FindsEntry virt (slotAddress s.directory 0x3FF) := by
  obtain ⟨c, page, -, rfl⟩ := allocPage_returns hrec hp h
  constructor
  · rintro ⟨t, -, hundone⟩
    by_cases hnormal : frameOf (s.pde virt) = s.directory ∧ tableSlot virt = 0x3FF
    · have hfinds := hundone.finds
      rw [hnormal.1, hnormal.2] at hfinds
      rw [hnormal.1, hnormal.2]
      exact ⟨rfl, rfl, hfinds⟩
    · have hleaf : entryFormat.present (entryFor page flags) := present_entryFor hflags
      exact absurd hundone.finds (not_found (s := s.allocated c) hrec hp hleaf hnormal)
  · rintro ⟨hdir, hslot, hfinds⟩
    rw [← hdir, ← hslot] at hfinds
    refine ⟨_, deallocPage_finds hfinds, hfinds, ?_, ?_, ?_⟩
    · rw [put_tables, put_same]
    · intro f k hne
      rw [put_tables, put_other hne]
      change (Machine.put (s.allocated c) _ _ _).tables f k = _
      rw [put_tables, put_other hne]
      rfl
    · intro f hf
      refine (freed_iff _ _ hf).trans ?_
      rw [frameOf_mask]

theorem storeAny_miss {m : Mem} {v x : Word} {q : Word × Word × Word × Word}
    (h : x ≠ q.1 ∧ x ≠ q.2.1 ∧ x ≠ q.2.2.1 ∧ x ≠ q.2.2.2) : storeAny m v q x = m x := by
  simp only [storeAny, storeByte, if_neg h.1, if_neg h.2.1, if_neg h.2.2.1, if_neg h.2.2.2]

theorem present_byte (m : Mem) (a : Word) : entryFormat.present (load m a) = (m a).getLsbD 0 := by
  have hbit : (load m a).getLsbD 0 = (m a).getLsbD 0 := by
    simp only [load, BitVec.getLsbD_append]
    simp
  rw [← hbit, Bool.eq_iff_iff, present_odd, BitVec.getLsbD, Nat.testBit_zero, decide_eq_true_iff]

theorem dealloc_keeps_page (hrec : m.Recursive) (hp : m.Present virt)
    (hflags : (m.pde virt).toNat % 4096 < 0xFFD) (h : deallocPage m virt = some t) (f : Frame) :
    entryFormat.present (t.tables f (tableSlot virt)) = entryFormat.present
    (m.tables f (tableSlot virt)) := by
  rw [deallocPage_eq, read_pde hrec, Option.bind_some] at h
  obtain ⟨a, -, h⟩ := Option.bind_eq_some_iff.mp h
  obtain ⟨q, hq, rfl⟩ := Option.map_eq_some_iff.mp h
  obtain ⟨h₀, h₁, h₂, h₃⟩ := places_some hq
  have hodd := present_odd.mp hp
  have hpointer : (entryPointer (m.pde virt) virt).toNat % 4096 =
      ((m.pde virt).toNat + (tableSlot virt).toNat * 4) % 4096 := by
    rw [entryPointer, BitVec.toNat_add, BitVec.toNat_mul, tableSlot_toNat, show (4 : Word).toNat = 4 from rfl]
    omega
  have hslot := slotAddress_toNat f (tableSlot virt)
  have hmiss {p : Word} (i : ℕ) (hi : i < 4) (hp :
    m.translate (entryPointer (m.pde virt) virt + word i) = some p) :
      slotAddress f (tableSlot virt) ≠ p := by
    intro heq
    have hoffset := offset_low (translate_offset hp)
    rw [← heq, hslot, BitVec.toNat_add, toNat_word (by omega)] at hoffset
    omega
  rw [Machine.tables, Machine.tables, present_byte, present_byte]
  congr 1
  exact storeAny_miss ⟨hmiss 0 (by decide) (by rw [show word 0 = 0#32 from rfl, BitVec.add_zero]; exact h₀),
    hmiss 1 (by decide) h₁, hmiss 2 (by decide) h₂, hmiss 3 (by decide) h₃⟩

def identityTable : Machine := ((emptyDirectory.put 0 0 0x1003).put 1 7 0x7003).put 0 1 0x7003

theorem table_not_found : ∃ m, Returns (allocPage identityTable 0x400000 0x3) m ∧
    ¬∃ t, deallocPage m 0x400000 = some t ∧ Undone identityTable m t 0x400000 := by
  have hreturns : Returns (allocPage identityTable 0x400000 0x3) _ := ⟨10, rfl⟩
  refine ⟨_, hreturns, fun h => ?_⟩
  have hdir := ((dealloc_undoes_iff ⟨by decide, by decide⟩ (by decide) (by decide) hreturns).mp h).1
  exact absurd hdir (by decide)

theorem wrong_frame_freed : identityTable.Recursive ∧ ∃ m t,
    Returns (allocPage identityTable 0x400000 0x3) m ∧
    deallocPage m 0x400000 = some t ∧ t.translate 0x400000 = some 0x8000 ∧ used t.bitmap 8 ∧
    ¬used t.bitmap 0 :=
  ⟨⟨by decide, by decide⟩, _, _, ⟨10, rfl⟩, rfl, by decide, by decide, by decide⟩

end Rinix.Paging
