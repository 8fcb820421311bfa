import Rinix.Paging.Sharing

namespace Rinix.Paging

open ByteMemory PageTable WhileLoop Frames Runs

inductive Request where
  | mapPage (virt phys flags : Word)
  | allocMapPage (virt flags : Word)

namespace Request

def virt : Request → Word
  | mapPage virt _ _ => virt
  | allocMapPage virt _ => virt

def flags : Request → Word
  | mapPage _ _ flags => flags
  | allocMapPage _ flags => flags

def call (s : Machine) : Request → ℕ → Option Machine
  | mapPage virt phys flags, fuel => Paging.mapPage s virt phys flags fuel
  | allocMapPage virt flags, fuel => Paging.allocMapPage s virt flags fuel

def Proper (e : Request) : Prop :=
  e.virt < 0xFFC00000 ∧ e.flags &&& pageP ≠ 0 ∧ e.flags &&& ~~~(pageP ||| pageRw ||| pageU) = 0

end Request

def rightsMask : Word := pageRw ||| pageU

/-- What the processor allows for a page: the bits that both entries have. -/
def Machine.rights (s : Machine) (virt : Word) : Option Word :=
  (s.walk virt).map fun (pde, pte) => pde &&& pte &&& rightsMask

def Machine.Apart (s : Machine) (virt : Word) : Prop :=
  (s.Present virt → frameOf (s.pde virt) ≠ s.directory ∧
    ∀ i, entryFormat.present (s.tables s.directory i) →
      frameOf (s.tables s.directory i) = frameOf (s.pde virt) → i = directorySlot virt) ∧
  (¬s.Present virt → ∀ b frame, GetFrameReturns s.bitmap b frame → s.Fresh (frameOf frame))

def Machine.Grants (s : Machine) (e : Request) : Prop :=
  s.Present e.virt → s.pde e.virt &&& e.flags &&& rightsMask = e.flags &&& rightsMask

def Requested (s : Machine) (e : Request) (t : Machine) : Prop :=
  Returns (e.call s) t ∧ e.Proper ∧ s.Apart e.virt

structure Entered (s : Machine) (e : Request) (t : Machine) (b : PfBitmap) (link leaf : Word) : Prop where
  result : t = (s.allocated b).enter e.virt link leaf
  linkPresent : entryFormat.present link
  leafPresent : entryFormat.present leaf
  linkRights : link &&& rightsMask = e.flags &&& rightsMask
  leafRights : leaf &&& rightsMask = e.flags &&& rightsMask
  table : frameOf (linked entryFormat s.tables s.directory (directorySlot e.virt) link) ≠ s.directory
  own : ∀ i, entryFormat.present (s.tables s.directory i) →
    frameOf (s.tables s.directory i) =
      frameOf (linked entryFormat s.tables s.directory (directorySlot e.virt) link) →
    i = directorySlot e.virt ∧ s.Present e.virt

variable {s t u v : Machine} {e : Request} {es : List Request} {b : PfBitmap}
  {virt phys flags link leaf w : Word}

theorem rights_low (hflags : flags &&& ~~~(pageP ||| pageRw ||| pageU) = 0) : flags &&& ~~~0xFFF = 0 := by
  have hmask : ~~~(pageP ||| pageRw ||| pageU) &&& ~~~0xFFF = ~~~0xFFF := by decide
  rw [← hmask, ← BitVec.and_assoc, hflags]
  exact BitVec.zero_and

theorem entryFor_rights (phys flags : Word) : entryFor phys flags &&& rightsMask = flags &&& rightsMask := by
  rw [entryFor, BitVec.and_or_distrib_right, BitVec.and_assoc, show ~~~0xFFF &&& rightsMask = 0#32 from rfl,
    BitVec.and_zero, BitVec.zero_or]

theorem entered_enter (hproper : e.Proper) (b : PfBitmap) (frame phys : Word)
    (htable : frameOf (linked entryFormat s.tables s.directory (directorySlot e.virt)
    (entryFor frame e.flags)) ≠
      s.directory)
    (hown : ∀ i, entryFormat.present (s.tables s.directory i) → frameOf (s.tables s.directory i) =
      frameOf (linked entryFormat s.tables s.directory (directorySlot e.virt) (entryFor frame e.flags)) →
      i = directorySlot e.virt ∧ s.Present e.virt) :
    Entered s e ((s.allocated b).enter e.virt (entryFor frame e.flags) (entryFor phys e.flags)) b
      (entryFor frame e.flags) (entryFor phys e.flags) where
  result := rfl
  linkPresent := present_entryFor hproper.2.1
  leafPresent := present_entryFor hproper.2.1
  linkRights := entryFor_rights _ _
  leafRights := entryFor_rights _ _
  table := htable
  own := hown

theorem entered_present (hproper : e.Proper) (hapart : s.Apart e.virt) (hp : s.Present e.virt) (b : PfBitmap)
    (frame phys : Word) : Entered s e ((s.allocated b).enter e.virt (entryFor frame e.flags)
    (entryFor phys e.flags)) b
      (entryFor frame e.flags) (entryFor phys e.flags) := by
  refine entered_enter hproper b frame phys ?_ fun i hi heq => ?_
  · rw [linked_of_present hp]
    exact (hapart.1 hp).1
  · rw [linked_of_present hp] at heq
    exact ⟨(hapart.1 hp).2 i hi heq, hp⟩

theorem entered_absent (hproper : e.Proper) (hapart : s.Apart e.virt) (hp : ¬s.Present e.virt)
    {b c : PfBitmap} {frame : Word} (hget : GetFrameReturns s.bitmap b frame) (phys : Word) :
    Entered s e ((s.allocated c).enter e.virt (entryFor frame e.flags) (entryFor phys e.flags)) c
      (entryFor frame e.flags) (entryFor phys e.flags) := by
  refine entered_enter hproper c frame phys ?_ fun i hi heq => ?_
  · rw [linked_of_absent hp, frameOf_low (rights_low hproper.2.2)]
    exact (hapart.2 hp b frame hget).1
  · rw [linked_of_absent hp, frameOf_low (rights_low hproper.2.2)] at heq
    exact absurd heq ((hapart.2 hp b frame hget).2 i hi)

theorem requested_entered (hrec : s.Recursive) (h : Requested s e t) :
    ∃ b link leaf, Entered s e t b link leaf := by
  obtain ⟨hreturns, hproper, hapart⟩ := h
  cases e with
  | mapPage virt phys flags =>
    have hlast : directorySlot virt ≠ 0x3FF := last_slot hproper.1
    by_cases hp : s.Present virt
    · obtain rfl := (mapPage_returns_present hrec hp (entryFor 0 flags)).mp hreturns
      exact ⟨s.bitmap, _, _, entered_present hproper hapart hp s.bitmap 0 phys⟩
    · obtain ⟨b, frame, hget⟩ : ∃ b frame, GetFrameReturns s.bitmap b frame := by
        obtain ⟨fuel, ht⟩ := hreturns
        have hflags : flags &&& pageP ≠ 0 := hproper.2.1
        rw [Request.call, mapPage_absent hrec hlast hp hflags] at ht
        obtain ⟨r, hr, -⟩ := Option.map_eq_some_iff.mp ht
        exact ⟨r.1, r.2, fuel, hr⟩
      obtain rfl := (mapPage_returns_absent hrec hlast hp hproper.2.1 hget).mp hreturns
      exact ⟨b, _, _, entered_absent hproper hapart hp hget phys⟩
  | allocMapPage virt flags =>
    by_cases hp : s.Present virt
    · obtain ⟨c, page, hget, rfl⟩ := (allocMapPage_returns_present hrec hp (entryFor 0 flags)).mp hreturns
      exact ⟨c, _, _, entered_present hproper hapart hp c 0 page⟩
    · obtain ⟨b, frame, c, page, hget, -, rfl⟩ :=
        (allocMapPage_returns_absent hrec (last_slot hproper.1) hp hproper.2.1).mp hreturns
      exact ⟨c, _, _, entered_absent hproper hapart hp hget page⟩

section Entered

variable (h : Entered s e t b link leaf)
include h

theorem Entered.tables : t.tables = enter entryFormat s.tables s.directory (directorySlot e.virt)
    (tableSlot e.virt) link leaf := by
  rw [h.result]
  exact enter_tables

theorem Entered.directory : t.directory = s.directory := by
  rw [h.result]
  exact enter_directory_frame

theorem Entered.entry (i : Slot) : t.tables t.directory i = if i = directorySlot e.virt then
    linked entryFormat s.tables s.directory (directorySlot e.virt) link else s.tables s.directory i := by
  rw [h.tables, h.directory]
  exact enter_directory h.table

theorem Entered.recursive (hlast : directorySlot e.virt ≠ 0x3FF) (hrec : s.Recursive) : t.Recursive := by
  rw [Machine.Recursive, h.entry, if_neg (Ne.symm hlast), h.directory]
  exact hrec

theorem Entered.apart (hslot : directorySlot w = directorySlot e.virt) : t.Apart w := by
  have hpde : t.pde w = linked entryFormat s.tables s.directory (directorySlot e.virt) link := by
    rw [Machine.pde, h.entry, if_pos hslot]
  refine ⟨fun _ => ⟨?_, fun i hi heq => ?_⟩, fun hp => absurd ?_ hp⟩
  · rw [hpde, h.directory]
    exact h.table
  · by_contra hne
    rw [h.entry, if_neg (hslot ▸ hne)] at hi heq
    rw [hpde] at heq
    exact hne (hslot ▸ (h.own i hi heq).1)
  · rw [Machine.Present, hpde]
    exact linked_present h.linkPresent

theorem Entered.walk_page : t.walk e.virt =
    some (linked entryFormat s.tables s.directory (directorySlot e.virt) link, leaf) := by
  rw [Machine.walk, h.tables, h.directory]
  exact walk_enter h.table h.linkPresent h.leafPresent

theorem Entered.rights_iff : t.rights e.virt = some (e.flags &&& rightsMask) ↔ s.Grants e := by
  have hboth : t.rights e.virt =
      some (linked entryFormat s.tables s.directory (directorySlot e.virt) link &&& leaf &&& rightsMask) := by
    rw [Machine.rights, h.walk_page]
    rfl
  rw [hboth, Option.some.injEq, Machine.Grants, BitVec.and_assoc, h.leafRights]
  by_cases hp : s.Present e.virt
  · rw [linked_of_present hp, ← BitVec.and_assoc, forall_prop_of_true hp]
    rfl
  · rw [linked_of_absent hp, BitVec.and_comm e.flags, ← BitVec.and_assoc, h.linkRights, BitVec.and_assoc,
      BitVec.and_comm rightsMask, ← BitVec.and_assoc, BitVec.and_self]
    exact iff_of_true rfl fun hpresent => absurd hpresent hp

theorem Entered.keeps {x : Word × Word} (hw : s.walk w = some x) (htable : frameOf x.1 ≠ s.directory)
    (hpage : ¬SamePage w e.virt) : t.walk w = some x := by
  obtain ⟨hi, -, hpde, -⟩ := walk_eq_some.mp hw
  rw [← hpde] at hi htable
  have hp : directorySlot w = directorySlot e.virt → s.Present e.virt := by
    intro hslot
    rw [Machine.Present, Machine.pde, ← hslot]
    exact hi
  rw [Machine.walk, h.tables, h.directory]
  apply walk_kept hw
  · intro _
    rw [enter_directory h.table]
    split_ifs with hslot
    · rw [linked_of_present (hp hslot), hslot]
    · rfl
  · intro _
    refine enter_other (fun heq => htable heq.1) fun heq => hpage ⟨?_, heq.2⟩
    exact (h.own _ hi heq.1).1

end Entered

theorem run_keeps (hrec : s.Recursive) (h : Run Requested s es t) {x : Word × Word} (hw : s.walk w = some x)
    (htable : frameOf x.1 ≠ s.directory) (hes : ∀ e ∈ es, ¬SamePage w e.virt) : t.walk w = some x := by
  induction h with
  | nil => exact hw
  | cons hcall _ ih =>
    obtain ⟨b, link, leaf, he⟩ := requested_entered hrec hcall
    apply ih (he.recursive (last_slot hcall.2.1.1) hrec) (he.keeps hw htable (hes _ List.mem_cons_self))
    · rw [he.directory]
      exact htable
    · intro e' he'
      exact hes e' (List.mem_cons_of_mem _ he')

theorem run_recursive (hrec : s.Recursive) (h : Run Requested s es t) : t.Recursive := by
  refine h.invariant Machine.Recursive (fun s e t hs hcall => ?_) hrec
  obtain ⟨b, link, leaf, he⟩ := requested_entered hs hcall
  exact he.recursive (last_slot hcall.2.1.1) hs

/-- In a run, the last request for a page decides its rights, as far as the directory entry that it
finds allows. -/
theorem rights_effective_iff {es₁ es₂ : List Request} (hrec : s.Recursive) (h : Run Requested s es₁ u)
    (hcall : Requested u e v) (h' : Run Requested v es₂ t) (hlast : ∀ e' ∈ es₂, ¬SamePage e.virt e'.virt) :
    t.rights e.virt = some (e.flags &&& rightsMask) ↔ u.Grants e := by
  have hu := run_recursive hrec h
  obtain ⟨b, link, leaf, he⟩ := requested_entered hu hcall
  have hwalk := run_keeps (he.recursive (last_slot hcall.2.1.1) hu) h' he.walk_page
    (by rw [he.directory]; exact he.table) hlast
  rw [← he.rights_iff, Machine.rights, Machine.rights, hwalk, he.walk_page]

theorem first_requested : ∃ u, Requested emptyDirectory (.mapPage 0x400000 0x9000 0x7) u := by
  refine ⟨_, ⟨10, rfl⟩, ⟨by decide, by decide, by decide⟩, fun hp => absurd hp (by decide),
    fun _ b frame hget => ?_⟩
  obtain ⟨rfl, rfl⟩ := getFrame_unique hget ⟨10, rfl⟩
  refine ⟨by decide, fun i hp hframe => ?_⟩
  rw [emptyDirectory_entry] at hp hframe
  split_ifs at hp hframe with hi
  · exact absurd hframe (by decide)
  · exact absurd hp (by decide)

theorem second_page_rights : ∃ t, Run Requested emptyDirectory
    [.mapPage 0x400000 0x9000 0x7, .mapPage 0x401000 0xA000 0x3] t ∧
    t.rights 0x401000 = some (0x3 &&& rightsMask) := by
  obtain ⟨u, hu⟩ := first_requested
  have hrec : emptyDirectory.Recursive := ⟨by decide, by decide⟩
  have hrun : Run Requested emptyDirectory [.mapPage 0x400000 0x9000 0x7] u := .cons hu (.nil u)
  obtain ⟨b, link, leaf, he⟩ := requested_entered hrec hu
  have hp : u.Present 0x401000 := by
    rw [Machine.Present, Machine.pde, he.entry, if_pos (by decide)]
    exact linked_present he.linkPresent
  have hsecond : Requested u (.mapPage 0x401000 0xA000 0x3) (u.enter 0x401000 0x3 (entryFor 0xA000 0x3)) :=
    ⟨(mapPage_returns_present (run_recursive hrec hrun) hp _).mpr rfl, ⟨by decide, by decide, by decide⟩,
      he.apart (by decide)⟩
  refine ⟨_, .cons hu (.cons hsecond (.nil _)),
    (rights_effective_iff hrec hrun hsecond (.nil _) ?_).mpr fun _ => ?_⟩
  · intro e' he'
    cases he'
  · have hlink := he.linkRights
    have hpde : u.pde 0x401000 = link := by
      rw [Machine.pde, he.entry, if_pos (by decide)]
      exact linked_of_absent (by decide)
    change u.pde 0x401000 &&& 0x3 &&& rightsMask = 0x3 &&& rightsMask
    rw [hpde, BitVec.and_comm link, BitVec.and_assoc, hlink]
    decide

theorem rights_missing : emptyDirectory.Recursive ∧ ∃ u t,
    Returns (mapPage emptyDirectory 0x400000 0x9000 0x1) u ∧
    Returns (mapPage u 0x401000 0xA000 0x7) t ∧ t.rights 0x401000 = some 0 :=
  ⟨⟨by decide, by decide⟩, _, _, ⟨10, rfl⟩, ⟨10, rfl⟩, by decide⟩

end Rinix.Paging
