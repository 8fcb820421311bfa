import Rinix.Lib.Runs
import Rinix.Paging.Coherence

namespace Rinix.Paging

open ByteMemory PageTable WhileLoop Frames Runs LookupCache

inductive Action where
  | mapPage (virt phys flags : Word)
  | allocMapPage (virt flags : Word)
  | deallocPage (virt : Word)
  | createPageTable (tempAddr pageFrame : Word)
  | createPageDir (tempAddr pageFrame : Word)
  | read (virt : Word)
  | write (virt : Word) (value : Byte)

def Action.Outcome (c : Cpu) : Action → Cpu → Prop
  | mapPage virt phys flags, d => ∃ fuel, d ∈ c.mapPage virt phys flags fuel
  | allocMapPage virt flags, d => ∃ fuel, d ∈ c.allocMapPage virt flags fuel
  | deallocPage virt, d => d ∈ c.deallocPage virt
  | createPageTable tempAddr pageFrame, d => ∃ fuel, (d, pageFrame) ∈ c.createPageTable tempAddr fuel
  | createPageDir tempAddr pageFrame, d => ∃ fuel, (d, pageFrame) ∈ c.createPageDir tempAddr fuel
  | read virt, d => c.read virt ≠ [] ∧ d = c
  | write virt value, d => d ∈ c.writeByte virt value

structure Machine.Spare (s : Machine) (temp frame : Word) : Prop where
  aligned : temp &&& 0xFFF = 0
  fresh : s.Fresh (frameOf frame)
  table : ∀ b c link, GetFrameReturns s.bitmap b frame → (s.allocated b).Through temp 3 c link →
    frameOf link ≠ s.directory ∧ frameOf link ≠ frameOf frame ∧ s.Takes temp link (entryFor frame 3)

/-- No entry that is present is changed: a page is mapped where it has no entry, or the same one,
and what `dealloc_page` clears, or another access writes, is in no entry that is present, or is
there already. -/
def Machine.Safe (s : Machine) : Action → Prop
  | .mapPage virt phys flags => ∀ b link, s.Through virt flags b link →
      s.Takes virt link (entryFor phys flags)
  | .allocMapPage virt flags => ∀ b c link page, s.Through virt flags b link → GetFrameReturns b c page →
      s.Takes virt link (entryFor page flags)
  | .deallocPage virt => ∀ q p, s.places (entryPointer (s.pde virt) virt) = some q →
      p = q.1 ∨ p = q.2.1 ∨ p = q.2.2.1 ∨ p = q.2.2.2 → s.Tolerates p 0
  | .createPageTable tempAddr pageFrame => s.Spare tempAddr pageFrame
  | .createPageDir tempAddr pageFrame => s.Spare tempAddr pageFrame
  | .read _ => True
  | .write virt value => ∀ p, s.translate virt = some p → s.Tolerates p value

def Guarded (c : Cpu) (e : Action) (d : Cpu) : Prop := e.Outcome c d ∧ c.machine.Safe e

def Machine.Zeroed (t : Machine) : Action → Prop
  | .createPageTable _ pageFrame => ∀ k, t.tables (frameOf pageFrame) k = 0
  | .createPageDir _ pageFrame => ∀ k ≠ 0x3FF, t.tables (frameOf pageFrame) k = 0
  | _ => True

variable {s t u : Machine} {c d : Cpu} {b : PfBitmap} {e : Action} {es : List Action}
  {virt phys flags link temp frame : Word} {fuel : ℕ}

theorem Machine.Linked.allocated (h : s.Linked u virt link) (b : PfBitmap) :
    s.Linked (u.allocated b) virt link :=
  ⟨⟨h.keeps.directory, h.keeps.entries⟩, h.tables⟩

theorem entered_keeps (hrec : s.Recursive) (hlink : s.Linked u virt link)
    (htakes : s.Takes virt link (entryFor phys flags)) (h : d ∈ (Cpu.flushed u).setPage virt phys flags) :
    d = Cpu.flushed (u.put (frameOf link) (tableSlot virt) (entryFor phys flags)) ∧ u.Present virt ∧
      s.Keeps (u.put (frameOf link) (tableSlot virt) (entryFor phys flags)) := by
  obtain ⟨hp, rfl⟩ := Cpu.setPage_outcome (hlink.keeps.recursive hrec) h
  have hkeeps := keeps_put ((Cpu.takes_iff hlink).mp htakes)
  rw [Cpu.linked_pde hlink] at hkeeps ⊢
  exact ⟨Cpu.become_flushed hkeeps, hp, hlink.keeps.trans hkeeps⟩

theorem map_keeps (hrec : s.Recursive) (hsafe : s.Safe (.mapPage virt phys flags))
    (h : d ∈ (Cpu.flushed s).mapPage virt phys flags fuel) : ∃ t, d = Cpu.flushed t ∧ s.Keeps t := by
  obtain ⟨u, link, hthrough, hlink, hset⟩ := Cpu.mapPage_outcome hrec h
  obtain ⟨hd, -, hkeeps⟩ := entered_keeps hrec hlink (hsafe _ _ hthrough) hset
  exact ⟨_, hd, hkeeps⟩

theorem alloc_map_keeps (hrec : s.Recursive) (hsafe : s.Safe (.allocMapPage virt flags))
    (h : d ∈ (Cpu.flushed s).allocMapPage virt flags fuel) : ∃ t, d = Cpu.flushed t ∧ s.Keeps t := by
  obtain ⟨u, link, hthrough, hlink, halloc⟩ := Cpu.allocMapPage_outcome hrec h
  obtain ⟨r, hr, hset⟩ := List.mem_flatMap.mp halloc
  obtain ⟨b, page, hget, rfl⟩ := Cpu.mem_pmmAlloc.mp hr
  obtain ⟨hd, -, hkeeps⟩ := entered_keeps hrec (hlink.allocated b) (hsafe _ _ _ _ hthrough ⟨_, hget⟩) hset
  exact ⟨_, hd, hkeeps⟩

theorem storeAny_zero (m : Mem) (q : Word × Word × Word × Word) (x : Word) :
    storeAny m 0 q x = if x = q.1 ∨ x = q.2.1 ∨ x = q.2.2.1 ∨ x = q.2.2.2 then 0 else m x := by
  have hbyte (i : ℕ) : byteOf 0 i = 0 := BitVec.extractLsb'_zero
  split_ifs with hx
  · simp only [storeAny, storeByte, hbyte]
    split_ifs with h3 h2 h1 h0
    · rfl
    · rfl
    · rfl
    · rfl
    · exact absurd hx (by simp only [not_or]; exact ⟨h0, h1, h2, h3⟩)
  · simp only [not_or] at hx
    exact storeAny_miss hx

theorem cleared_keeps_iff {q : Word × Word × Word × Word} (hrec : s.Recursive)
    (hq : s.places (entryPointer (s.pde virt) virt) = some q) (b : PfBitmap) :
    (s.allocated b).Keeps { s.allocated b with mem := storeAny s.mem 0 q } ↔ s.Safe (.deallocPage virt) := by
  refine (keeps_iff (s := s.allocated b)
    (t := { s.allocated b with mem := storeAny s.mem 0 q }) hrec rfl).trans ?_
  change (∀ x, s.Tolerates x (storeAny s.mem 0 q x)) ↔ s.Safe (.deallocPage virt)
  constructor
  · intro h q' p hq' hp
    obtain rfl := Option.some.inj (hq.symm.trans hq')
    have hbyte := h p
    rw [storeAny_zero, if_pos hp] at hbyte
    exact hbyte
  · intro h x
    rw [storeAny_zero]
    split_ifs with hx
    · exact h q x hq hx
    · exact Or.inr rfl

theorem dealloc_keeps (hrec : s.Recursive) (hsafe : s.Safe (.deallocPage virt))
    (h : d ∈ (Cpu.flushed s).deallocPage virt) : ∃ t, d = Cpu.flushed t ∧ s.Keeps t := by
  obtain ⟨b, q, hq, rfl⟩ := Cpu.deallocPage_outcome hrec h
  have hkeeps := (cleared_keeps_iff hrec hq b).mpr hsafe
  exact ⟨_, Cpu.become_flushed hkeeps, hkeeps.directory, hkeeps.entries⟩

theorem write_keeps {value : Byte} (hrec : s.Recursive) (hsafe : s.Safe (.write virt value))
    (h : d ∈ (Cpu.flushed s).writeByte virt value) : ∃ t, d = Cpu.flushed t ∧ s.Keeps t := by
  have hkeeps : ∀ t, s.writeByte virt value = some t → s.Keeps t := by
    intro t ht
    obtain ⟨p, hp, rfl⟩ := Option.map_eq_some_iff.mp ht
    refine (keeps_iff (t := { s with mem := storeByte s.mem p value }) hrec rfl).mpr fun x => ?_
    change s.Tolerates x (storeByte s.mem p value x)
    rw [storeByte]
    split_ifs with hx
    · rw [hx]
      exact hsafe p hp
    · exact Or.inr rfl
  rw [Cpu.writeByte_flushed hkeeps] at h
  obtain ⟨t, ht, rfl⟩ := List.mem_map.mp h
  exact ⟨t, rfl, hkeeps t (Option.mem_toList.mp ht)⟩

theorem spare_maps (hrec : s.Recursive) (hspare : s.Spare temp frame)
    (hget : GetFrameReturns s.bitmap b frame)
    (h : d ∈ (Cpu.flushed (s.allocated b)).mapPage temp frame 3 fuel) : ∃ m, d = Cpu.flushed m ∧ s.Keeps m ∧
      m.Fresh (frameOf frame) ∧ ∃ pde, m.walk temp = some (pde, entryFor frame 3) := by
  obtain ⟨u, link, hthrough, hlink, hset⟩ := Cpu.mapPage_outcome (s := s.allocated b) hrec h
  obtain ⟨hdir, hown, htakes⟩ := hspare.table _ _ _ hget hthrough
  obtain ⟨hd, hp, hkeeps⟩ := entered_keeps (s := s.allocated b) hrec hlink htakes hset
  have hentry (i : Slot) : (u.put (frameOf link) (tableSlot temp) (entryFor frame 3)).tables s.directory i =
      if i = directorySlot temp then link else s.tables s.directory i := by
    have hother : ¬(s.directory = frameOf link ∧ i = tableSlot temp) := fun heq => hdir heq.1.symm
    rw [put_tables, put_other hother, hlink.tables]
    exact if_congr (and_iff_right rfl) rfl rfl
  have hsame : (u.put (frameOf link) (tableSlot temp) (entryFor frame 3)).directory = s.directory :=
    hkeeps.directory
  have hlinked : entryFormat.present link := by
    rw [← Cpu.linked_pde hlink]
    exact hp
  refine ⟨u.put (frameOf link) (tableSlot temp) (entryFor frame 3), hd,
    ⟨hkeeps.directory, hkeeps.entries⟩, ?_, link, ?_⟩
  · rw [Machine.Fresh, hsame]
    refine ⟨hspare.fresh.1, fun i hi => ?_⟩
    rw [hentry] at hi ⊢
    split_ifs at hi ⊢ with hslot
    · exact hown
    · exact hspare.fresh.2 i hi
  · have hleaf : (u.put (frameOf link) (tableSlot temp) (entryFor frame 3)).tables (frameOf link)
      (tableSlot temp) =
        entryFor frame 3 := by
      rw [put_tables, put_same]
    have hpde := hentry (directorySlot temp)
    rw [if_pos rfl] at hpde
    have hp' : entryFormat.frame link = frameOf link := rfl
    rw [Machine.walk, hsame, walk_of_present (by rw [hpde]; exact hlinked)
      (by rw [hpde, hp', hleaf]; exact present_entryFor (by decide)), hpde, hp', hleaf]

theorem spare_cleared (hrec : s.Recursive) (hspare : s.Spare temp frame)
    (hget : GetFrameReturns s.bitmap b frame)
    (hmap : c ∈ (Cpu.flushed (s.allocated b)).mapPage temp frame 3 fuel)
    (hclear : d ∈ c.memset temp 0 0x1000) :
    ∃ (m : Machine) (pde : Word), d = Cpu.flushed (m.cleared (frameOf (entryFor frame 3)) 4096) ∧
      s.Keeps (m.cleared (frameOf (entryFor frame 3)) 4096) ∧ m.Fresh (frameOf (entryFor frame 3)) ∧
        m.walk temp = some (pde, entryFor frame 3) := by
  obtain ⟨m, rfl, hkeeps, hfresh, pde, hwalk⟩ := spare_maps hrec hspare hget hmap
  have hframe : frameOf (entryFor frame 3) = frameOf frame := frameOf_low (by decide)
  rw [← hframe] at hfresh
  rw [Cpu.memset_flushed hwalk hfresh (offset_zero_iff.mp hspare.aligned) le_rfl,
    List.mem_singleton] at hclear
  exact ⟨m, pde, hclear, hkeeps.trans (keeps_fresh hfresh rfl (cleared_outside _ _ _)), hfresh, hwalk⟩

theorem create_table_zeroed (hrec : s.Recursive) (hspare : s.Spare temp frame)
    (h : (d, frame) ∈ (Cpu.flushed s).createPageTable temp fuel) :
    ∃ t, d = Cpu.flushed t ∧ s.Keeps t ∧ ∀ k, t.tables (frameOf frame) k = 0 := by
  obtain ⟨r, hr, h⟩ := List.mem_flatMap.mp h
  obtain ⟨b, pageFrame, hget, rfl⟩ := Cpu.mem_pmmAlloc.mp hr
  obtain ⟨c, hc, h⟩ := List.mem_flatMap.mp h
  obtain ⟨c', hc', hpair⟩ := List.mem_map.mp h
  obtain ⟨rfl, rfl⟩ := Prod.mk.inj hpair
  obtain ⟨m, pde, rfl, hkeeps, -, -⟩ := spare_cleared hrec hspare ⟨_, hget⟩ hc hc'
  have hframe : frameOf (entryFor pageFrame 3) = frameOf pageFrame := frameOf_low (by decide)
  refine ⟨_, Cpu.invlpg_flushed _ _, hkeeps, ?_⟩
  rw [← hframe]
  exact cleared_tables m _

theorem create_dir_zeroed (hrec : s.Recursive) (hspare : s.Spare temp frame)
    (h : (d, frame) ∈ (Cpu.flushed s).createPageDir temp fuel) :
    ∃ t, d = Cpu.flushed t ∧ s.Keeps t ∧ ∀ k ≠ 0x3FF, t.tables (frameOf frame) k = 0 := by
  obtain ⟨r, hr, h⟩ := List.mem_flatMap.mp h
  obtain ⟨b, pageFrame, hget, rfl⟩ := Cpu.mem_pmmAlloc.mp hr
  obtain ⟨c, hc, h⟩ := List.mem_flatMap.mp h
  obtain ⟨c', hc', h⟩ := List.mem_flatMap.mp h
  obtain ⟨c'', hc'', hpair⟩ := List.mem_map.mp h
  obtain ⟨rfl, rfl⟩ := Prod.mk.inj hpair
  obtain ⟨m, pde, rfl, hkeeps, hfresh, hwalk⟩ := spare_cleared hrec hspare ⟨_, hget⟩ hc hc'
  have hframe : frameOf (entryFor pageFrame 3) = frameOf pageFrame := frameOf_low (by decide)
  obtain ⟨t, ht, rfl⟩ := Cpu.mem_writeAny.mp hc''
  rw [last_word hwalk (Cpu.fresh_apart hwalk hfresh) (offset_zero_iff.mp hspare.aligned),
    Option.some.injEq] at ht
  obtain rfl := ht
  have hsame (n : ℕ) := cleared_outside m (frameOf (entryFor pageFrame 3)) n
  have hlast : (m.cleared (frameOf (entryFor pageFrame 3)) 4096).Keeps
      ((m.cleared (frameOf (entryFor pageFrame 3)) 4096).put (frameOf (entryFor pageFrame 3)) 0x3FF
        (0xFFC00000 ||| 3)) := by
    refine keeps_put fun hp => absurd hp ?_
    rw [cleared_tables]
    decide
  rw [Cpu.become_flushed hlast]
  refine ⟨_, Cpu.invlpg_flushed _ _, hkeeps.trans hlast, fun k hk => ?_⟩
  rw [← hframe, put_tables, put_other fun heq => hk heq.2]
  exact cleared_tables m _ k

theorem guarded_step (hrec : s.Recursive) (h : Guarded (Cpu.flushed s) e d) :
    ∃ t, d = Cpu.flushed t ∧ s.Keeps t ∧ t.Zeroed e := by
  obtain ⟨houtcome, hsafe⟩ := h
  cases e with
  | mapPage virt phys flags =>
    obtain ⟨fuel, hd⟩ := houtcome
    obtain ⟨t, rfl, hkeeps⟩ := map_keeps hrec hsafe hd
    exact ⟨t, rfl, hkeeps, trivial⟩
  | allocMapPage virt flags =>
    obtain ⟨fuel, hd⟩ := houtcome
    obtain ⟨t, rfl, hkeeps⟩ := alloc_map_keeps hrec hsafe hd
    exact ⟨t, rfl, hkeeps, trivial⟩
  | deallocPage virt =>
    obtain ⟨t, rfl, hkeeps⟩ := dealloc_keeps hrec hsafe houtcome
    exact ⟨t, rfl, hkeeps, trivial⟩
  | createPageTable tempAddr pageFrame =>
    obtain ⟨fuel, hd⟩ := houtcome
    exact create_table_zeroed hrec hsafe hd
  | createPageDir tempAddr pageFrame =>
    obtain ⟨fuel, hd⟩ := houtcome
    exact create_dir_zeroed hrec hsafe hd
  | read virt => exact ⟨s, houtcome.2, Machine.Keeps.refl s, trivial⟩
  | write virt value =>
    obtain ⟨t, rfl, hkeeps⟩ := write_keeps hrec hsafe houtcome
    exact ⟨t, rfl, hkeeps, trivial⟩

/-- From a load of `%cr3` on, no step of the run leaves a translation that the page tables do not
have, and every new table and directory has been cleared, also where the temporary address has been
used before. -/
theorem translations_current (hrec : s.Recursive) (h : Run Guarded (Cpu.flushed s) es c)
    (hstep : Guarded c e d) :
    (∀ virt, ¬d.Stale virt) ∧ d.machine.Zeroed e := by
  obtain ⟨t, rfl, ht⟩ : ∃ t, c = Cpu.flushed t ∧ t.Recursive := by
    refine h.invariant (fun c => ∃ t, c = Cpu.flushed t ∧ t.Recursive) ?_ ⟨s, rfl, hrec⟩
    rintro c e d ⟨t, rfl, ht⟩ hguarded
    obtain ⟨u, rfl, hkeeps, -⟩ := guarded_step ht hguarded
    exact ⟨u, rfl, hkeeps.recursive ht⟩
  obtain ⟨u, rfl, -, hzeroed⟩ := guarded_step ht hstep
  exact ⟨Cpu.flushed_current u, hzeroed⟩

theorem through_unique {c : PfBitmap} {link' : Word} (h : s.Through virt flags b link)
    (h' : s.Through virt flags c link') : b = c ∧ link = link' := by
  rcases h with ⟨hp, rfl, rfl⟩ | ⟨hp, table, hget, rfl⟩
  · rcases h' with ⟨-, rfl, rfl⟩ | ⟨hp', -⟩
    · exact ⟨rfl, rfl⟩
    · exact absurd hp hp'
  · rcases h' with ⟨hp', -⟩ | ⟨-, table', hget', rfl⟩
    · exact absurd hp' hp
    · obtain ⟨rfl, rfl⟩ := getFrame_unique hget hget'
      exact ⟨rfl, rfl⟩

theorem map_current_iff (hrec : s.Recursive) (h : d ∈ (Cpu.flushed s).mapPage virt phys flags fuel) :
    ¬d.Stale virt ↔ s.Safe (.mapPage virt phys flags) := by
  obtain ⟨u, link, hthrough, hlink, hset⟩ := Cpu.mapPage_outcome hrec h
  rw [Cpu.written_current_iff hlink hrec hset]
  constructor
  · intro htakes b link' hthrough'
    obtain ⟨-, rfl⟩ := through_unique hthrough hthrough'
    exact htakes
  · intro hsafe
    exact hsafe _ _ hthrough

theorem alloc_map_current_iff (hrec : s.Recursive) (h : d ∈ (Cpu.flushed s).allocMapPage virt flags fuel) :
    ¬d.Stale virt ↔ s.Safe (.allocMapPage virt flags) := by
  obtain ⟨u, link, hthrough, hlink, halloc⟩ := Cpu.allocMapPage_outcome hrec h
  obtain ⟨r, hr, hset⟩ := List.mem_flatMap.mp halloc
  obtain ⟨b, page, hget, rfl⟩ := Cpu.mem_pmmAlloc.mp hr
  rw [Cpu.written_current_iff (hlink.allocated b) hrec hset]
  constructor
  · intro htakes b' c link' page' hthrough' hget'
    obtain ⟨rfl, rfl⟩ := through_unique hthrough hthrough'
    obtain ⟨-, rfl⟩ := getFrame_unique ⟨_, hget⟩ hget'
    exact htakes
  · intro hsafe
    exact hsafe _ _ _ _ hthrough ⟨_, hget⟩

theorem dealloc_current_iff (hrec : s.Recursive) (h : d ∈ (Cpu.flushed s).deallocPage virt) :
    (∀ w, ¬d.Stale w) ↔ s.Safe (.deallocPage virt) := by
  obtain ⟨b, q, hq, rfl⟩ := Cpu.deallocPage_outcome hrec h
  refine Iff.trans ?_ (cleared_keeps_iff hrec hq b)
  exact Cpu.become_current_iff (t := { s.allocated b with mem := storeAny s.mem 0 q }) rfl

theorem memset_stale {pde pte : Word} (hheld : (pde, pte) ∈ c.tlb (pageOf temp))
    (halign : (pageOffset temp).toNat = 0)
    {n : ℕ} (hn : n ≤ 4096) : ∃ d ∈ c.memset temp 0 n, (pde, pte) ∈ d.tlb (pageOf temp) ∧
      ∀ x, frameOf x ≠ frameOf pte → d.machine.mem x = c.machine.mem x := by
  induction n with
  | zero => exact ⟨c, List.mem_singleton_self c, hheld, fun x _ => rfl⟩
  | succ n ih =>
    obtain ⟨d, hd, hheld', hmem⟩ := ih (Nat.le_of_succ_le hn)
    have hi : (pageOffset temp).toNat + n < 4096 := by omega
    obtain ⟨hdir, hslot, -⟩ := offset_page hi
    have hpage : pageOf (temp + word n) = pageOf temp := Prod.ext hdir hslot
    have hplace : frameOf pte ++ pageOffset (temp + word n) ∈ d.translate (temp + word n) := by
      refine List.mem_map.mpr ⟨(pde, pte), ?_, rfl⟩
      rw [hpage]
      exact hheld'
    refine ⟨_, List.mem_flatMap.mpr ⟨d, hd, List.mem_map_of_mem hplace⟩, mem_remember hheld', fun x hx => ?_⟩
    rw [← hmem x hx]
    exact storeByte_miss fun heq => hx (append_inj_iff.mp heq).1

theorem create_table_misses {pde pte : Word} (hrec : s.Recursive) (hget : GetFrameReturns s.bitmap b frame)
    (hold : s.walk temp = some (pde, pte)) (halign : temp &&& 0xFFF = 0) (hpte : frameOf frame ≠ frameOf pte)
    (hpde : frameOf frame ≠ frameOf pde) : ∃ d, Action.Outcome (Cpu.flushed s)
    (.createPageTable temp frame) d ∧
      ∀ k, d.machine.tables (frameOf frame) k = s.tables (frameOf frame) k := by
  obtain ⟨fuel, hget⟩ := hget
  have htable : s.pde temp = pde := (walk_eq_some.mp hold).2.2.1
  have hp : s.Present temp := by
    rw [Machine.Present, htable]
    exact (walk_eq_some.mp hold).1
  have hmap := Cpu.mapPage_written (s := s.allocated b) hrec hp frame 3 fuel
  have hheld : (pde, pte) ∈ ((Cpu.flushed (s.allocated b)).become
      ((s.allocated b).put (frameOf (s.pde temp)) (tableSlot temp) (entryFor frame 3))).tlb
      (pageOf temp) := mem_remember (Option.mem_toList.mpr hold)
  obtain ⟨d, hd, -, hmem⟩ := memset_stale hheld (offset_zero_iff.mp halign) le_rfl
  have hreturn : (d.invlpg temp, frame) ∈ (Cpu.flushed s).createPageTable temp fuel := by
    refine List.mem_flatMap.mpr ⟨_, Cpu.mem_pmmAlloc.mpr ⟨b, frame, hget, rfl⟩, ?_⟩
    exact List.mem_flatMap.mpr ⟨_, hmap, List.mem_map.mpr ⟨d, hd, rfl⟩⟩
  refine ⟨d.invlpg temp, ⟨fuel, hreturn⟩, fun k => ?_⟩
  have hkept : d.machine.tables (frameOf frame) k =
      (s.put (frameOf (s.pde temp)) (tableSlot temp) (entryFor frame 3)).tables (frameOf frame) k :=
    tables_outside hmem hpte
  refine hkept.trans ?_
  rw [put_tables, htable, put_other fun heq => hpde heq.1]

def onePage : Machine := (emptyDirectory.put 0 1 0x1003).put 1 0 0x2003

theorem second_page_current : ∃ c d, Run Guarded (Cpu.flushed onePage) [.read 0x400000] c ∧
    Guarded c (.mapPage 0x401000 0x9000 0x3) d ∧ (∀ virt, ¬d.Stale virt) ∧
      d.machine.Zeroed (.mapPage 0x401000 0x9000 0x3) := by
  have hrec : onePage.Recursive := ⟨by decide, by decide⟩
  have hread : Guarded (Cpu.flushed onePage) (.read 0x400000) (Cpu.flushed onePage) := by
    refine ⟨⟨?_, rfl⟩, trivial⟩
    rw [Cpu.read_flushed]
    decide
  obtain ⟨d, hd⟩ : ∃ d, d ∈ (Cpu.flushed onePage).mapPage 0x401000 0x9000 0x3 0 :=
    ⟨_, Cpu.mapPage_written hrec (by decide) 0x9000 0x3 0⟩
  have hmap : Guarded (Cpu.flushed onePage) (.mapPage 0x401000 0x9000 0x3) d := by
    refine ⟨⟨0, hd⟩, ?_⟩
    rintro b link (⟨-, -, rfl⟩ | ⟨hp, -⟩)
    · exact fun hleaf => absurd hleaf (by decide)
    · exact absurd (by decide) hp
  have hrun : Run Guarded (Cpu.flushed onePage) [.read 0x400000] (Cpu.flushed onePage) := .cons hread (.nil _)
  exact ⟨_, d, hrun, hmap, translations_current hrec hrun hmap⟩

theorem remapped_stale : onePage.Recursive ∧ onePage.translate 0x400000 = some 0x2000 ∧
    (∃ d, Run Action.Outcome (Cpu.flushed onePage) [.mapPage 0x400000 0x9000 0x3] d ∧ d.Stale 0x400000) ∧
      ∃ d, Run Action.Outcome (Cpu.flushed (onePage.put 8 0 0x7)) [.createPageTable 0x400000 0x8000] d ∧
        d.machine.tables 8 0 = 0x7 := by
  have hrec : onePage.Recursive := ⟨by decide, by decide⟩
  have hp : onePage.Present 0x400000 := by decide
  have hmap := Cpu.mapPage_written hrec hp 0x9000 0x3 0
  refine ⟨hrec, by decide, ⟨_, .cons ⟨0, hmap⟩ (.nil _), ?_⟩, ?_⟩
  · by_contra hcurrent
    have hsafe := (map_current_iff hrec hmap).mp hcurrent
    have htakes := hsafe _ _ (Or.inl ⟨hp, rfl, rfl⟩)
    exact absurd (htakes (by decide)) (by decide)
  · have hold : (onePage.put 8 0 0x7).walk 0x400000 = some (0x1003, 0x2003) := by decide
    obtain ⟨b, hget⟩ : ∃ b, GetFrameReturns (onePage.put 8 0 0x7).bitmap b 0x8000 := ⟨_, 10, rfl⟩
    have hrec' : (onePage.put 8 0 0x7).Recursive := ⟨by decide, by decide⟩
    obtain ⟨d, hd, htables⟩ := create_table_misses hrec' hget hold (by decide) (by decide) (by decide)
    refine ⟨d, .cons hd (.nil d), ?_⟩
    exact (htables 0).trans (by rw [put_tables]; exact put_same)

end Rinix.Paging
