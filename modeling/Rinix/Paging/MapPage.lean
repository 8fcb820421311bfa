import Rinix.Frames.Refinement
import Rinix.Paging.Window

namespace Rinix.Paging

open ByteMemory PageTable WhileLoop Frames

def Machine.Fresh (s : Machine) (f : Frame) : Prop :=
  f ≠ s.directory ∧ ∀ i, entryFormat.present (s.tables s.directory i) → frameOf (s.tables s.directory i) ≠ f

def Machine.SelfOnce (s : Machine) : Prop :=
  ∀ i, entryFormat.present (s.tables s.directory i) →
    frameOf (s.tables s.directory i) = s.directory → i = 0x3FF

def SamePage (v w : Word) : Prop := directorySlot v = directorySlot w ∧ tableSlot v = tableSlot w

instance (v w : Word) : Decidable (SamePage v w) := inferInstanceAs (Decidable (_ ∧ _))

def Machine.Aliased (s : Machine) (v w : Word) : Prop :=
  directorySlot v ≠ directorySlot w ∧ s.Present v ∧ s.Present w ∧
    frameOf (s.pde v) = frameOf (s.pde w) ∧ tableSlot v = tableSlot w

namespace Machine

def allocated (s : Machine) (bitmap : PfBitmap) : Machine := { s with bitmap }

def enter (s : Machine) (virt link leaf : Word) : Machine :=
  if s.Present virt then s.put (frameOf (s.pde virt)) (tableSlot virt) leaf
  else (s.put s.directory (directorySlot virt) link).put (frameOf link) (tableSlot virt) leaf

end Machine

variable {s t : Machine} {b c : PfBitmap} {f : Frame} {k : Slot}
  {virt phys flags link leaf e frame page w : Word} {fuel : ℕ}

theorem enter_tables : (s.enter virt link leaf).tables =
    enter entryFormat s.tables s.directory (directorySlot virt) (tableSlot virt) link leaf := by
  rw [Machine.enter, enter]
  split_ifs with hp hp' hp'
  · exact put_tables
  · exact absurd hp hp'
  · exact absurd hp' hp
  · rw [put_tables, put_tables]
    rfl

@[simp] theorem enter_directory_frame : (s.enter virt link leaf).directory = s.directory := by
  rw [Machine.enter]
  split_ifs <;> rfl

@[simp] theorem enter_bitmap : (s.enter virt link leaf).bitmap = s.bitmap := by
  rw [Machine.enter]
  split_ifs <;> rfl

@[simp] theorem allocated_directory : (s.allocated b).directory = s.directory := rfl

theorem last_slot (hvirt : virt < 0xFFC00000) : directorySlot virt ≠ 0x3FF := by
  intro hlast
  have hslot : (directorySlot virt).toNat = 0x3FF := by rw [hlast]; rfl
  rw [directorySlot, BitVec.extractLsb'_toNat, Nat.shiftRight_eq_div_pow] at hslot
  bv_omega

theorem allocPageTable_eq (h : s.Recursive) (virt flags : Word) (fuel : ℕ) :
    allocPageTable s virt flags fuel =
    (getFrame s.bitmap fuel).map fun r => (s.allocated r.1).put s.directory (directorySlot virt)
    (entryFor r.2 flags) := by
  rw [Option.map_eq_bind]
  refine congrArg _ (funext fun r => ?_)
  exact setPageTable_eq (s := s.allocated r.1) h virt r.2 flags

theorem allocPage_eq (h : s.Recursive) (hp : s.Present virt) (flags : Word) (fuel : ℕ) :
    allocPage s virt flags fuel =
    (getFrame s.bitmap fuel).map fun r =>
      (s.allocated r.1).put (frameOf (s.pde virt)) (tableSlot virt) (entryFor r.2 flags) := by
  rw [Option.map_eq_bind]
  refine congrArg _ (funext fun r => ?_)
  exact setPage_eq (s := s.allocated r.1) h hp r.2 flags

theorem enter_present (hp : s.Present virt) (link leaf : Word) :
    s.enter virt link leaf = s.put (frameOf (s.pde virt)) (tableSlot virt) leaf := if_pos hp

theorem enter_absent (hp : ¬s.Present virt) (link leaf : Word) : s.enter virt link leaf =
    (s.put s.directory (directorySlot virt) link).put (frameOf link) (tableSlot virt) leaf := if_neg hp

theorem put_pde : (s.put s.directory (directorySlot virt) e).pde virt = e := by
  rw [Machine.pde, put_directory, put_tables, put_same]

theorem mapPage_present (h : s.Recursive) (hp : s.Present virt) (link : Word) :
    mapPage s virt phys flags fuel = some (s.enter virt link (entryFor phys flags)) := by
  simp only [mapPage, read_pde h, Option.bind_some]
  rw [if_pos (present_iff.mp hp), setPage_eq h hp, enter_present hp]

theorem allocMapPage_present (h : s.Recursive) (hp : s.Present virt) (link : Word) :
    allocMapPage s virt flags fuel = (getFrame s.bitmap fuel).map fun r =>
      (s.allocated r.1).enter virt link (entryFor r.2 flags) := by
  simp only [allocMapPage, read_pde h, Option.bind_some]
  rw [if_pos (present_iff.mp hp), allocPage_eq h hp]
  refine congrArg (fun g => Option.map g _) (funext fun r => ?_)
  exact (enter_present (s := s.allocated r.1) hp link _).symm

theorem put_recursive (h : s.Recursive) (hlast : directorySlot virt ≠ 0x3FF) :
    (s.put s.directory (directorySlot virt) e).Recursive := by
  have hkept : (s.put s.directory (directorySlot virt) e).tables s.directory 0x3FF =
    s.tables s.directory 0x3FF := by
    rw [put_tables, put_other fun heq => hlast heq.2.symm]
  rw [Machine.Recursive, put_directory, hkept]
  exact h

theorem put_present (he : entryFormat.present e) :
    (s.put s.directory (directorySlot virt) e).Present virt := by
  rw [Machine.Present, put_pde]
  exact he

section Absent

variable (h : s.Recursive) (hlast : directorySlot virt ≠ 0x3FF) (hp : ¬s.Present virt)
  (hlink : entryFormat.present link)
include h hlast hp hlink

theorem setPage_linked : setPage (s.put s.directory (directorySlot virt) link) virt phys flags =
    some (s.enter virt link (entryFor phys flags)) := by
  rw [setPage_eq (put_recursive h hlast) (put_present hlink), put_pde, enter_absent hp]

theorem allocPage_linked : allocPage (s.put s.directory (directorySlot virt) link) virt flags fuel =
    (getFrame s.bitmap fuel).map fun r => (s.allocated r.1).enter virt link (entryFor r.2 flags) := by
  rw [allocPage_eq (put_recursive h hlast) (put_present hlink), put_pde]
  refine congrArg (fun g => Option.map g _) (funext fun r => ?_)
  exact (enter_absent (s := s.allocated r.1) hp link _).symm

end Absent

theorem mapPage_absent (h : s.Recursive) (hlast : directorySlot virt ≠ 0x3FF) (hp : ¬s.Present virt)
    (hflags : flags &&& pageP ≠ 0) : mapPage s virt phys flags fuel = (getFrame s.bitmap fuel).map fun r =>
      (s.allocated r.1).enter virt (entryFor r.2 flags) (entryFor phys flags) := by
  simp only [mapPage, read_pde h, Option.bind_some]
  rw [if_neg fun hne => hp (present_iff.mpr hne), allocPageTable_eq h, Option.map_eq_bind, Option.map_eq_bind,
    Option.bind_assoc]
  refine congrArg _ (funext fun r => ?_)
  exact setPage_linked (s := s.allocated r.1) h hlast hp (present_entryFor hflags)

theorem allocMapPage_absent (h : s.Recursive) (hlast : directorySlot virt ≠ 0x3FF) (hp : ¬s.Present virt)
    (hflags : flags &&& pageP ≠ 0) : allocMapPage s virt flags fuel = (getFrame s.bitmap fuel).bind fun r =>
      (getFrame r.1 fuel).map fun q => (s.allocated q.1).enter virt (entryFor r.2 flags)
      (entryFor q.2 flags) := by
  simp only [allocMapPage, read_pde h, Option.bind_some]
  rw [if_neg fun hne => hp (present_iff.mpr hne), allocPageTable_eq h, Option.map_eq_bind, Option.bind_assoc]
  refine congrArg _ (funext fun r => ?_)
  exact allocPage_linked (s := s.allocated r.1) h hlast hp (present_entryFor hflags)

theorem getFrame_fuelled (b : PfBitmap) : Fuelled (getFrame b) :=
  Fuelled.map (Fuelled.map (run_fuelled (searchTurn b) (searchStart b)) _) _

theorem getFrame_unique {b b' c : PfBitmap} {frame frame' : Word} (h : GetFrameReturns b c frame)
    (h' : GetFrameReturns b b' frame') : c = b' ∧ frame = frame' :=
  Prod.mk.inj ((getFrame_fuelled b).unique h h')

theorem mapPage_returns_present (h : s.Recursive) (hp : s.Present virt) (link : Word) :
    Returns (mapPage s virt phys flags) t ↔ t = s.enter virt link (entryFor phys flags) := by
  simp only [Returns, mapPage_present h hp link, exists_const, Option.some.injEq, eq_comm]

theorem mapPage_returns_absent (h : s.Recursive) (hlast : directorySlot virt ≠ 0x3FF) (hp : ¬s.Present virt)
    (hflags : flags &&& pageP ≠ 0) (hget : GetFrameReturns s.bitmap b frame) :
    Returns (mapPage s virt phys flags) t ↔
      t = (s.allocated b).enter virt (entryFor frame flags) (entryFor phys flags) := by
  have hf : Fuelled (fun fuel => mapPage s virt phys flags fuel) := by
    simp only [mapPage_absent h hlast hp hflags]
    exact Fuelled.map (getFrame_fuelled _) _
  have hr : Returns (fun fuel => mapPage s virt phys flags fuel)
      ((s.allocated b).enter virt (entryFor frame flags) (entryFor phys flags)) := by
    simp only [mapPage_absent h hlast hp hflags]
    exact Returns.map hget _
  constructor
  · intro ht
    exact hf.unique ht hr
  · rintro rfl
    exact hr

theorem allocMapPage_returns_absent (h : s.Recursive) (hlast : directorySlot virt ≠ 0x3FF)
    (hp : ¬s.Present virt)
    (hflags : flags &&& pageP ≠ 0) : Returns (allocMapPage s virt flags) t ↔ ∃ b frame c page,
      GetFrameReturns s.bitmap b frame ∧ GetFrameReturns b c page ∧
        t = (s.allocated c).enter virt (entryFor frame flags) (entryFor page flags) := by
  have hsecond (r : PfBitmap × Word) : Fuelled fun fuel => (getFrame r.1 fuel).map fun q =>
      (s.allocated q.1).enter virt (entryFor r.2 flags) (entryFor q.2 flags) :=
    Fuelled.map (getFrame_fuelled r.1) _
  change Returns (fun fuel => allocMapPage s virt flags fuel) t ↔ _
  simp only [allocMapPage_absent h hlast hp hflags]
  rw [returns_bind (getFrame_fuelled s.bitmap) hsecond]
  constructor
  · rintro ⟨⟨b, frame⟩, hget, fuel, hr⟩
    obtain ⟨⟨c, page⟩, hget', rfl⟩ := Option.map_eq_some_iff.mp hr
    exact ⟨b, frame, c, page, hget, ⟨fuel, hget'⟩, rfl⟩
  · rintro ⟨b, frame, c, page, hget, hget', rfl⟩
    exact ⟨(b, frame), hget, Returns.map hget' _⟩

theorem allocMapPage_returns_present (h : s.Recursive) (hp : s.Present virt) (link : Word) :
    Returns (allocMapPage s virt flags) t ↔ ∃ c page, GetFrameReturns s.bitmap c page ∧
      t = (s.allocated c).enter virt link (entryFor page flags) := by
  simp only [Returns, allocMapPage_present h hp link]
  constructor
  · rintro ⟨fuel, hr⟩
    obtain ⟨⟨c, page⟩, hget, rfl⟩ := Option.map_eq_some_iff.mp hr
    exact ⟨c, page, ⟨fuel, hget⟩, rfl⟩
  · rintro ⟨c, page, ⟨fuel, hget⟩, rfl⟩
    exact ⟨fuel, Option.map_eq_some_iff.mpr ⟨_, hget, rfl⟩⟩

theorem frameOf_low (hlow : flags &&& ~~~0xFFF = 0) : frameOf (entryFor phys flags) = frameOf phys := by
  have hzero : frameOf flags = 0 := by
    rw [← frameOf_mask, hlow]
    rfl
  rw [frameOf_entryFor, hzero]
  exact BitVec.or_zero

theorem flags_low (hlow : flags &&& ~~~0xFFF = 0) : entryFor phys flags &&& 0xFFF = flags := by
  have hsplit : flags &&& 0xFFF = flags := by
    have hall : flags &&& ~~~0xFFF ||| flags &&& 0xFFF = flags := by
      rw [← BitVec.and_or_distrib_left, show ~~~0xFFF ||| (0xFFF : Word) =
        BitVec.allOnes 32 from rfl, BitVec.and_allOnes]
    rw [hlow] at hall
    exact BitVec.zero_or.symm.trans hall
  rw [entryFor, BitVec.and_or_distrib_right, BitVec.and_assoc, show ~~~0xFFF &&& (0xFFF : Word) =
    0#32 from rfl, BitVec.and_zero, BitVec.zero_or, hsplit]

theorem pageP_of_rw (hflags : flags &&& (pageP ||| pageRw) = pageP ||| pageRw) : flags &&& pageP ≠ 0 := by
  have hbit : flags &&& (pageP ||| pageRw) &&& pageP = pageP := by rw [hflags]; rfl
  rw [BitVec.and_assoc, show (pageP ||| pageRw) &&& pageP = pageP from rfl] at hbit
  rw [hbit]
  decide

section Mapped

variable (hrec : s.Recursive) (hself : s.SelfOnce) (hvirt : virt < 0xFFC00000) (hlow : flags &&& ~~~0xFFF = 0)
  (hflags : flags &&& (pageP ||| pageRw) = pageP ||| pageRw)
include hself hvirt hlow

theorem table_ne_directory (hfresh : ¬s.Present virt → s.Fresh (frameOf frame)) :
    frameOf (linked entryFormat s.tables s.directory (directorySlot virt) (entryFor frame flags)) ≠
    s.directory := by
  rw [linked]
  split_ifs with hp
  · exact fun heq => last_slot hvirt (hself _ hp heq)
  · rw [frameOf_low hlow]
    exact (hfresh hp).1

omit hself hvirt in
theorem linked_fresh (hp : ¬s.Present virt) :
    frameOf (linked entryFormat s.tables s.directory (directorySlot virt) (entryFor frame flags)) =
    frameOf frame := by
  rw [linked_of_absent hp, frameOf_low hlow]

theorem enter_walk_other (hfresh : ¬s.Present virt → s.Fresh (frameOf frame)) (hw : w < 0xFFC00000)
    (hpage : ¬SamePage w virt) (halias : ¬s.Aliased w virt)
    (hother : s.Present w ∨ directorySlot w ≠ directorySlot virt) :
    (s.enter virt (entryFor frame flags) leaf).walk w = s.walk w := by
  rw [Machine.walk, enter_tables, enter_directory_frame]
  refine walk_enter_other (table_ne_directory hself hvirt hlow hfresh) ?_ ?_ ?_
  · intro hslot
    rcases hother with hp | hne
    · rw [Machine.Present, Machine.pde, hslot] at hp
      exact hp
    · exact absurd hslot hne
  · intro hp hframe hslot
    by_cases hpv : s.Present virt
    · rw [linked_of_present hpv] at hframe
      exact halias ⟨fun hdir => hpage ⟨hdir, hslot⟩, hp, hpv, hframe, hslot⟩
    · exact (hfresh hpv).2 _ hp (hframe.trans (linked_fresh hlow hpv))
  · intro hp hframe _
    exact absurd (hself _ hp hframe) (last_slot hw)

end Mapped

def blank : Machine := ⟨fun _ => 0, 0, ⟨0, 0x20000, 0, fun a => if a = 0 then 0xFF else 0⟩⟩

def emptyDirectory : Machine := blank.put 0 0x3FF 0x3

def bootDirectory : Machine := ((emptyDirectory.put 0 0 0x1003).put 0 0x300 0x1003).put 1 5 0x5003

def twiceDirectory : Machine := emptyDirectory.put 0 0 0x3

theorem emptyDirectory_tables : emptyDirectory.tables = put (fun _ _ => 0) 0 0x3FF 0x3 := by
  have hblank : blank.tables = fun _ _ => 0 :=
    funext fun f => funext fun k => show ((0 : Byte) ++ (0 : Byte)) ++ ((0 : Byte) ++ (0 : Byte)) =
      (0 : Word) by decide
  rw [emptyDirectory, put_tables, hblank]

theorem emptyDirectory_entry (i : Slot) :
    emptyDirectory.tables emptyDirectory.directory i = if i = 0x3FF then 0x3 else 0 := by
  have hdir : emptyDirectory.directory = 0 := rfl
  rw [hdir, emptyDirectory_tables]
  simp only [put, true_and]

theorem bootDirectory_entry (i : Slot) : bootDirectory.tables bootDirectory.directory i =
    if i = 0x300 then 0x1003 else if i = 0 then 0x1003 else if i = 0x3FF then 0x3 else 0 := by
  have hdir : bootDirectory.directory = 0 := rfl
  have hne : ¬((0 : Frame) = 1 ∧ i = 5) := fun h => absurd h.1 (by decide)
  rw [hdir, bootDirectory, put_tables, put_other hne, put_tables, put_tables, emptyDirectory_tables]
  simp only [put, true_and]

end Rinix.Paging
