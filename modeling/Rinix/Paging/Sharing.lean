import Rinix.Lib.Runs
import Rinix.Paging.AllocMap

namespace Rinix.Paging

open ByteMemory PageTable WhileLoop Frames Runs

/-- A call whose searches stop at frames that have their bits in the first `n` bytes. -/
def Call (n : ℕ) (r : Resident) (c : Word × Word) (t : Resident) : Prop :=
  Returns (r.allocMapPage c.1 c.2) t ∧ r.Stops n c.1 c.2

def pageOf (virt : Word) : Slot × Slot := (directorySlot virt, tableSlot virt)

def pagesOf (es : List (Word × Word)) : Set (Slot × Slot) := {q | ∃ c ∈ es, pageOf c.1 = q}

def Machine.pte (s : Machine) (virt : Word) : Word :=
  s.tables (frameOf (s.pde virt)) (tableSlot virt)

def Proper (c : Word × Word) : Prop :=
  c.1 < 0xFFC00000 ∧ c.2 &&& ~~~0xFFF = 0 ∧ c.2 &&& (pageP ||| pageRw) = pageP ||| pageRw

instance (c : Word × Word) : Decidable (Proper c) := inferInstanceAs (Decidable (_ ∧ _ ∧ _))

def Resident.Unshared (r : Resident) (n : ℕ) (pages : Set (Slot × Slot)) : Prop :=
  PageTable.Unshared entryFormat r.machine.tables r.machine.directory (r.held n) pages

structure Resident.Orderly (r : Resident) (n : ℕ) (pages : Set (Slot × Slot)) : Prop where
  recursive : r.machine.Recursive
  seated : r.Seated n
  unshared : r.Unshared n pages
  slots : ∀ k < n, ∀ q ∈ pages, q.1 ≠ directorySlot (r.seat k)

structure Keeps (s t : Machine) (pages new : Set (Slot × Slot)) : Prop where
  directory : t.directory = s.directory
  leaves : ∀ q ∈ pages, t.tables t.directory q.1 = s.tables s.directory q.1 ∧
    leafOf entryFormat t.tables t.directory q = leafOf entryFormat s.tables s.directory q
  slots : ∀ i, (∀ q ∈ new, q.1 ≠ i) → t.tables t.directory i = s.tables s.directory i

variable {s t u : Machine} {r v w : Resident} {n k : ℕ} {f : Frame} {link leaf virt flags : Word}
  {call : Word × Word} {es es₁ es₂ : List (Word × Word)} {pages : Set (Slot × Slot)} {fuel : ℕ}

theorem Keeps.present {new : Set (Slot × Slot)} (h : Keeps s t pages new) (hp : t.Present virt) :
    s.Present virt ∨ ∃ k, (directorySlot virt, k) ∈ new := by
  by_cases hnew : ∃ q ∈ new, q.1 = directorySlot virt
  · obtain ⟨q, hq, hqi⟩ := hnew
    exact Or.inr ⟨q.2, hqi ▸ hq⟩
  · left
    rw [Machine.Present, Machine.pde, h.slots _ fun q hq hqi => hnew ⟨q, hq, hqi⟩] at hp
    exact hp

theorem Keeps.trans {pages' new new' : Set (Slot × Slot)} (h : Keeps s u pages new)
    (h' : Keeps u t pages' new') (hsub : pages ⊆ pages') : Keeps s t pages (new ∪ new') where
  directory := h'.directory.trans h.directory
  leaves q hq := ⟨(h'.leaves q (hsub hq)).1.trans (h.leaves q hq).1,
    (h'.leaves q (hsub hq)).2.trans (h.leaves q hq).2⟩
  slots i hi :=
    (h'.slots i fun q hq => hi q (Or.inr hq)).trans (h.slots i fun q hq => hi q (Or.inl hq))

theorem Enters.tables (he : Enters r v n virt link leaf) (hf : f ∉ r.seats n) (j : Slot) :
    v.machine.tables f j = enter entryFormat r.machine.tables r.machine.directory
      (directorySlot virt) (tableSlot virt) link leaf f j := by
  rw [← enter_tables]
  exact tables_off (fun x hx => he.mem x (off_bytes hx)) hf j

theorem Resident.Seated.off_directory (h : r.Seated n) : r.machine.directory ∉ r.seats n :=
  fun hin => (h.fresh _ hin).2.1 rfl

theorem Resident.Seated.slot_present (h : r.Seated n) (hk : k < n) :
    r.machine.Present (r.seat k) := by
  obtain ⟨p, hp⟩ := h.mapped k hk
  obtain ⟨e, hwalk, -⟩ := Option.map_eq_some_iff.mp hp
  exact (walk_isSome.mp (Option.isSome_of_eq_some hwalk)).1

section Call

variable (h : r.Orderly n pages) (hn : n ≤ 0x20000) (hproper : Proper call)
  (hcall : Call n r call v)
  (hslot : r.machine.Present call.1 → ∃ k, (directorySlot call.1, k) ∈ pages)
include h hslot

theorem Resident.Orderly.slot_apart (hk : k < n) :
    directorySlot (r.seat k) ≠ directorySlot call.1 := by
  intro heq
  have hp := h.seated.slot_present hk
  rw [Machine.Present, Machine.pde, heq] at hp
  obtain ⟨j, hj⟩ := hslot hp
  exact h.slots k hk _ hj heq.symm

include hn hproper hcall

theorem Resident.Orderly.enters : ∃ link leaf, Enters r v n call.1 link leaf := by
  obtain ⟨hvirt, hlow, hflags⟩ := hproper
  refine allocMapPage_enters h.seated hn h.recursive hlow (pageP_of_rw hflags) (last_slot hvirt)
    hcall.2 h.unshared.directory h.unshared.links (fun hp => ?_) (fun hp k hk heq => ?_) hcall.1
  · obtain ⟨j, hj⟩ := hslot hp
    exact (h.unshared.tables _ hj).2
  · obtain ⟨j, hj⟩ := hslot hp
    exact h.slot_apart hslot hk (h.unshared.own _ hj _ (h.seated.slot_present hk) heq)

theorem call_orderly (hnew : pageOf call.1 ∉ pages) :
    v.Orderly n (insert (pageOf call.1) pages) ∧
      Keeps r.machine v.machine pages {pageOf call.1} := by
  obtain ⟨link, leaf, he⟩ := h.enters hn hproper hcall hslot
  have htable := h.unshared.table_ne hslot he.link_fresh
  have hdirectory : v.machine.directory = r.machine.directory := congrArg frameOf he.cr3
  have hentry (i : Slot) : v.machine.tables r.machine.directory i =
      enter entryFormat r.machine.tables r.machine.directory (directorySlot call.1)
        (tableSlot call.1) link leaf r.machine.directory i :=
    he.tables h.seated.off_directory i
  have hother (i : Slot) (hi : i ≠ directorySlot call.1) :
      v.machine.tables r.machine.directory i = r.machine.tables r.machine.directory i := by
    rw [hentry, enter_directory htable, if_neg hi]
  have hunshared := PageTable.Unshared.enter h.unshared hslot he.link_fresh hnew he.link_present
    he.leaf_present he.leaf_fresh he.link_ne he.mono he.link_held he.leaf_held
  -- A table of the run is not in the bitmap, so that its entries are those that were entered.
  have hleaf (q : Slot × Slot) (hq : q ∈ insert (pageOf call.1) pages) :
      leafOf entryFormat v.machine.tables r.machine.directory q =
        leafOf entryFormat (enter entryFormat r.machine.tables r.machine.directory
          (directorySlot call.1) (tableSlot call.1) link leaf) r.machine.directory q := by
    have hp := (hunshared.tables q hq).1
    rw [leafOf, leafOf, ← hentry]
    rw [← hentry] at hp
    refine he.tables (fun hin => ?_) q.2
    rw [← seats_same he.same] at hin
    refine (he.seated.fresh _ hin).2.2 q.1 ?_ ?_
    · rwa [hdirectory]
    · rw [hdirectory]
      rfl
  refine ⟨⟨?_, he.seated, ?_, ?_⟩, hdirectory, fun q hq => ?_, fun i hi => ?_⟩
  · rw [Machine.Recursive, hdirectory, hother _ (Ne.symm (last_slot hproper.1))]
    exact h.recursive
  · rw [Resident.Unshared, hdirectory]
    exact hunshared.congr hentry hleaf
  · intro k hk q hq
    have hseat : v.seat k = r.seat k := congrArg (· + word k) he.ptr
    rw [hseat]
    rcases hq with rfl | hq
    · exact (h.slot_apart hslot hk).symm
    · exact h.slots k hk q hq
  · rw [hdirectory, hentry, hleaf q (Set.mem_insert_of_mem _ hq)]
    exact PageTable.Unshared.enter_keeps h.unshared hslot he.link_fresh hnew hq
  · rw [hdirectory]
    exact hother i fun heq => hi _ rfl heq.symm

end Call

theorem pageOf_eq {v w : Word} : pageOf v = pageOf w ↔ SamePage v w := Prod.mk_inj

theorem pagesOf_nil : pagesOf [] = ∅ :=
  Set.eq_empty_of_forall_notMem fun _ ⟨_, hc, _⟩ => absurd hc List.not_mem_nil

theorem pagesOf_cons : pagesOf (call :: es) = {pageOf call.1} ∪ pagesOf es := by
  ext q
  constructor
  · rintro ⟨c, hc, rfl⟩
    rcases List.mem_cons.mp hc with rfl | hc
    · exact Or.inl rfl
    · exact Or.inr ⟨c, hc, rfl⟩
  · rintro (rfl | ⟨c, hc, rfl⟩)
    · exact ⟨call, List.mem_cons_self, rfl⟩
    · exact ⟨c, List.mem_cons_of_mem _ hc, rfl⟩

structure Pending (s : Machine) (pages : Set (Slot × Slot)) (es : List (Word × Word)) : Prop where
  proper : ∀ c ∈ es, Proper c
  distinct : es.Pairwise fun c d => ¬SamePage c.1 d.1
  fresh : ∀ c ∈ es, pageOf c.1 ∉ pages
  slots : ∀ c ∈ es, s.Present c.1 → ∃ k, (directorySlot c.1, k) ∈ pages

theorem Pending.later (h : Pending s pages (es₁ ++ es₂)) (hkeeps : Keeps s u pages (pagesOf es₁)) :
    Pending u (pages ∪ pagesOf es₁) es₂ := by
  obtain ⟨-, hlater, hacross⟩ := List.pairwise_append.mp h.distinct
  refine ⟨fun c hc => h.proper c (List.mem_append_right _ hc), hlater, ?_, fun c hc hp => ?_⟩
  · rintro c hc (hin | ⟨d, hd, heq⟩)
    · exact h.fresh c (List.mem_append_right _ hc) hin
    · exact hacross d hd c hc (pageOf_eq.mp heq)
  · rcases hkeeps.present hp with hs | ⟨k, hk⟩
    · obtain ⟨k, hk⟩ := h.slots c (List.mem_append_right _ hc) hs
      exact ⟨k, Or.inl hk⟩
    · exact ⟨k, Or.inr hk⟩

theorem run_orderly (hn : n ≤ 0x20000) (h : Run (Call n) r es v) (hr : r.Orderly n pages)
    (hpending : Pending r.machine pages es) :
    v.Orderly n (pages ∪ pagesOf es) ∧ Keeps r.machine v.machine pages (pagesOf es) := by
  induction h generalizing pages with
  | nil r =>
    rw [pagesOf_nil, Set.union_empty]
    exact ⟨hr, rfl, fun _ _ => ⟨rfl, rfl⟩, fun _ _ => rfl⟩
  | @cons r w v call es hcall hrun ih =>
    have hmem : call ∈ call :: es := List.mem_cons_self
    have hone : pagesOf [call] = {pageOf call.1} := by rw [pagesOf_cons, pagesOf_nil, Set.union_empty]
    obtain ⟨hw, hkeeps⟩ := call_orderly hr hn (hpending.proper _ hmem) hcall
      (hpending.slots _ hmem) (hpending.fresh _ hmem)
    have hfirst : Pending r.machine pages ([call] ++ es) := hpending
    have hpending' : Pending w.machine (pages ∪ {pageOf call.1}) es :=
      hone ▸ hfirst.later (hone.symm ▸ hkeeps)
    rw [← Set.union_singleton] at hw
    obtain ⟨hv, hkeeps'⟩ := ih hw hpending'
    rw [pagesOf_cons, ← Set.union_assoc]
    exact ⟨hv, hkeeps.trans hkeeps' Set.subset_union_left⟩

def mappedBitmap (b : Byte) : Resident where
  mem := storeByte (((blank.put 0 0 0x1003).put 0 0x3FF 0x3).put 1 2 0x2003).mem 0x2000 b
  cr3 := 0
  ptr := 0x2000
  length := 0x20000
  lastChecked := 0

theorem mappedBitmap_entry (b : Byte) (i : Slot) :
    (mappedBitmap b).machine.tables (mappedBitmap b).machine.directory i =
      if i = 0x3FF then 0x3 else if i = 0 then 0x1003 else 0 := by
  have hdir : (mappedBitmap b).machine.directory = 0 := (by decide : frameOf 0 = 0)
  have hne : ¬((0 : Frame) = 1 ∧ i = 2) := fun h => absurd h.1 (by decide)
  have hblank : blank.tables 0 i = 0 := by
    change ((0 : Byte) ++ (0 : Byte)) ++ ((0 : Byte) ++ (0 : Byte)) = (0 : Word)
    decide
  rw [hdir, tables_off (s := ((blank.put 0 0 0x1003).put 0 0x3FF 0x3).put 1 2 0x2003) (S := {2})
    (fun x hx => ?_) (by decide), put_tables, put_other hne, put_tables, put_tables]
  · simp only [put, true_and, hblank]
  · apply storeByte_miss
    rintro rfl
    exact hx rfl

theorem two_mapped {b : Byte} {P : Resident → Bool}
    (hfirst : ((mappedBitmap b).getFreeFrame 20).any fun x => x.2.toNat < 8 * n)
    (hsecond : (((mappedBitmap b).allocPageTable 0x400000 0x3 20).bind fun u => u.getFreeFrame 20).any
      fun x => x.2.toNat < 8 * n)
    (hthen : ((mappedBitmap b).allocMapPage 0x400000 0x3 20).any fun u =>
      u.machine.Present 0x401000 ∧ ((u.getFreeFrame 20).any fun x => x.2.toNat < 8 * n) ∧
        (u.allocMapPage 0x401000 0x3 20).any P) :
    ∃ v, P v ∧ Run (Call n) (mappedBitmap b) [(0x400000, 0x3), (0x401000, 0x3)] v := by
  obtain ⟨u, hu, hnext⟩ := (Option.any_eq_true _ _).mp hthen
  obtain ⟨hp, hshallow, hlast⟩ := of_decide_eq_true hnext
  obtain ⟨v, hv, hP⟩ := (Option.any_eq_true _ _).mp hlast
  exact ⟨v, hP, .cons ⟨⟨20, hu⟩, stops_of _ hfirst hsecond⟩
    (.cons ⟨⟨20, hv⟩, shallow_of _ hshallow, fun hnp => absurd hp hnp⟩ (.nil _))⟩

theorem mappedBitmap_seated : (mappedBitmap 0xE0).Seated 1 := by
  have hseat : (mappedBitmap 0xE0).machine.translate ((mappedBitmap 0xE0).seat 0) = some 0x2000 := by
    decide +kernel
  refine seated_one hseat (fun _ => by decide +kernel) ⟨by decide +kernel, fun i hp => ?_⟩
  rw [mappedBitmap_entry] at hp ⊢
  split_ifs at hp ⊢ with hlast hzero
  · decide
  · decide
  · exact absurd hp (by decide)

theorem alloc_map_unshared (hn : n ≤ 0x20000) (hrec : r.machine.Recursive) (hseated : r.Seated n)
    (h : Run (Call n) r es v) (hproper : ∀ c ∈ es, Proper c)
    (hdistinct : es.Pairwise fun c d => ¬SamePage c.1 d.1)
    (habsent : ∀ c ∈ es, ¬r.machine.Present c.1) (hdirectory : r.machine.directory ∈ r.held n)
    (htables : ∀ i, entryFormat.present (r.machine.tables r.machine.directory i) →
      frameOf (r.machine.tables r.machine.directory i) ∈ r.held n) :
    (∀ c ∈ es, v.machine.walk c.1 = some (v.machine.pde c.1, v.machine.pte c.1) ∧
      v.machine.Fresh (frameOf (v.machine.pte c.1))) ∧
    (∀ c ∈ es, ∀ d ∈ es,
      frameOf (v.machine.pte c.1) = frameOf (v.machine.pte d.1) → SamePage c.1 d.1) ∧
    ∀ es₁ es₂ u, es = es₁ ++ es₂ → Run (Call n) r es₁ u → Run (Call n) u es₂ v →
      ∀ c ∈ es₁, v.machine.pde c.1 = u.machine.pde c.1 ∧ v.machine.pte c.1 = u.machine.pte c.1 := by
  have hstart : r.Orderly n ∅ := by
    refine ⟨hrec, hseated, ⟨hdirectory, htables, ?_, ?_, ?_, ?_, ?_⟩, ?_⟩
    all_goals intros; exact absurd ‹_› (Set.notMem_empty _)
  have hpending : Pending r.machine ∅ es :=
    ⟨hproper, hdistinct, fun _ _ => Set.notMem_empty _, fun c hc hp => absurd hp (habsent c hc)⟩
  have hv := (run_orderly hn h hstart hpending).1.unshared
  rw [Set.empty_union] at hv
  have hin {c : Word × Word} (hc : c ∈ es) : pageOf c.1 ∈ pagesOf es := ⟨c, hc, rfl⟩
  refine ⟨fun c hc => ⟨?_, ?_⟩,
    fun c hc d hd heq => pageOf_eq.mp (hv.distinct _ (hin hc) _ (hin hd) heq), ?_⟩
  · exact walk_of_present (hv.tables _ (hin hc)).1 (hv.leaves _ (hin hc)).1
  · have hpte : leafOf entryFormat v.machine.tables v.machine.directory (pageOf c.1) =
        v.machine.pte c.1 := rfl
    have hapart := hv.apart _ (hin hc)
    rw [hpte] at hapart
    exact hapart
  · rintro es₁ es₂ u rfl hu hut c hc
    have hfirst : Pending r.machine ∅ es₁ :=
      ⟨fun c hc => hproper c (List.mem_append_left _ hc), (List.pairwise_append.mp hdistinct).1,
        fun _ _ => Set.notMem_empty _,
        fun c hc hp => absurd hp (habsent c (List.mem_append_left _ hc))⟩
    obtain ⟨horderly, hkeeps⟩ := run_orderly hn hu hstart hfirst
    have hkept := (run_orderly hn hut horderly (hpending.later hkeeps)).2
    exact hkept.leaves (pageOf c.1) (Or.inr ⟨c, hc, rfl⟩)

theorem two_pages_unshared : ∃ v, Run (Call 1) (mappedBitmap 0xE0) [(0x400000, 0x3), (0x401000, 0x3)] v ∧
    frameOf (v.machine.pte 0x400000) ≠ frameOf (v.machine.pte 0x401000) := by
  obtain ⟨v, -, hrun⟩ := two_mapped (n := 1) (b := 0xE0) (P := fun _ => true) (by decide +kernel)
    (by decide +kernel) (by decide +kernel)
  have hcalls : ∀ c ∈ [((0x400000, 0x3) : Word × Word), (0x401000, 0x3)],
      Proper c ∧ ¬(mappedBitmap 0xE0).machine.Present c.1 :=
    List.forall_mem_cons.mpr ⟨by decide +kernel, List.forall_mem_singleton.mpr (by decide +kernel)⟩
  have hdistinct : [((0x400000, 0x3) : Word × Word), (0x401000, 0x3)].Pairwise
      fun c d => ¬SamePage c.1 d.1 := by
    decide
  have hheld : ∀ i, entryFormat.present
      ((mappedBitmap 0xE0).machine.tables (mappedBitmap 0xE0).machine.directory i) →
      frameOf ((mappedBitmap 0xE0).machine.tables (mappedBitmap 0xE0).machine.directory i) ∈
        (mappedBitmap 0xE0).held 1 := by
    intro i hp _
    rw [mappedBitmap_entry] at hp ⊢
    split_ifs at hp ⊢ with hlast hzero
    · decide +kernel
    · decide +kernel
    · exact absurd hp (by decide)
  obtain ⟨-, hpages, -⟩ := alloc_map_unshared (by decide) ⟨by decide +kernel, by decide +kernel⟩
    mappedBitmap_seated hrun (fun c hc => (hcalls c hc).1) hdistinct (fun c hc => (hcalls c hc).2)
    (fun _ => by decide +kernel) hheld
  refine ⟨v, hrun, fun heq => ?_⟩
  exact absurd (hpages (0x400000, 0x3) List.mem_cons_self (0x401000, 0x3)
    (List.mem_cons_of_mem _ List.mem_cons_self) heq) (by decide)

/-- Where the bitmap's own frame is free, it becomes a table, and then the directory a page. -/
theorem bitmap_handed_out : ∃ r v : Resident, r.machine.Recursive ∧
    Run (Call 0x20000) r [(0x400000, 0x3), (0x401000, 0x3)] v ∧
    (∀ c ∈ [((0x400000, 0x3) : Word × Word), (0x401000, 0x3)], Proper c ∧ ¬r.machine.Present c.1) ∧
    ¬SamePage 0x400000 0x401000 ∧ used r.machine.bitmap r.machine.directory.toNat ∧
    (∀ i, entryFormat.present (r.machine.tables r.machine.directory i) →
      used r.machine.bitmap (frameOf (r.machine.tables r.machine.directory i)).toNat) ∧
    frameOf (v.machine.pte 0x401000) = v.machine.directory := by
  obtain ⟨v, hv, hrun⟩ := two_mapped (n := 0x20000) (b := 0xC0)
    (P := fun v => frameOf (v.machine.pte 0x401000) = v.machine.directory)
    (by decide +kernel) (by decide +kernel) (by decide +kernel)
  have hcalls : ∀ c ∈ [((0x400000, 0x3) : Word × Word), (0x401000, 0x3)],
      Proper c ∧ ¬(mappedBitmap 0xC0).machine.Present c.1 :=
    List.forall_mem_cons.mpr ⟨by decide +kernel, List.forall_mem_singleton.mpr (by decide +kernel)⟩
  refine ⟨mappedBitmap 0xC0, v, ⟨by decide +kernel, by decide +kernel⟩, hrun, hcalls,
    by decide, by decide +kernel, fun i hp => ?_, of_decide_eq_true hv⟩
  rw [mappedBitmap_entry] at hp ⊢
  split_ifs at hp ⊢ with hlast hzero
  · decide +kernel
  · decide +kernel
  · exact absurd hp (by decide)

end Rinix.Paging
