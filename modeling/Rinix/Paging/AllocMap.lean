import Rinix.Paging.Resident

namespace Rinix.Paging

open ByteMemory PageTable WhileLoop Frames

def Resident.Stops (r : Resident) (n : ℕ) (virt flags : Word) : Prop :=
  r.Shallow n ∧ (¬r.machine.Present virt →
    ∀ fuel u, r.allocPageTable virt flags fuel = some u → u.Shallow n)

structure Links (r t : Resident) (n : ℕ) (virt link : Word) : Prop where
  cr3 : t.cr3 = r.cr3
  ptr : t.ptr = r.ptr
  hint : t.lastChecked = r.lastChecked
  mem : ∀ x ∉ r.bytes n,
    t.mem x = (r.machine.put r.machine.directory (directorySlot virt) link).mem x
  same : ∀ k < n, t.machine.translate (t.seat k) = r.machine.translate (r.seat k)
  seated : t.Seated n
  present : entryFormat.present link
  free : frameOf link ∉ r.held n
  held : t.held n = insert (frameOf link) (r.held n)

variable {r t : Resident} {n : ℕ} {f : Frame} {virt flags : Word} {fuel : ℕ}

theorem pmmAlloc_zero (r : Resident) (fuel : ℕ) : r.pmmAlloc 0 fuel = r.getFrame fuel :=
  if_neg fun hne => hne rfl

theorem resident_search_fuelled (r : Resident) : Fuelled r.getFreeFrame :=
  Fuelled.bind (Fuelled.bind (run_fuelled r.searchTurn (searchStart r.machine.bitmap))
    fun o => fuelled_const o) fun _ => fuelled_const _

theorem allocPageTable_fuelled (r : Resident) (virt flags : Word) :
    Fuelled (r.allocPageTable virt flags) := by
  have hzero : r.pmmAlloc 0 = r.getFrame := funext (pmmAlloc_zero r)
  refine Fuelled.bind ?_ fun _ => fuelled_const _
  rw [hzero]
  exact Fuelled.map (resident_search_fuelled r) _

theorem shallow_of (fuel : ℕ) (h : (r.getFreeFrame fuel).any fun x => x.2.toNat < 8 * n) : r.Shallow n := by
  intro fuel' t num hnum
  obtain ⟨x, hx, hlt⟩ := (Option.any_eq_true _ _).mp h
  obtain rfl : (t, num) = x := (resident_search_fuelled r).unique ⟨fuel', hnum⟩ ⟨fuel, hx⟩
  exact of_decide_eq_true hlt

theorem stops_of (fuel : ℕ) (hfirst : (r.getFreeFrame fuel).any fun x => x.2.toNat < 8 * n)
    (hsecond : ((r.allocPageTable virt flags fuel).bind fun u => u.getFreeFrame fuel).any
      fun x => x.2.toNat < 8 * n) : r.Stops n virt flags := by
  refine ⟨shallow_of fuel hfirst, fun _ fuel' u hu => ?_⟩
  obtain ⟨x, hx, hlt⟩ := (Option.any_eq_true _ _).mp hsecond
  obtain ⟨u', hu', hx⟩ := Option.bind_eq_some_iff.mp hx
  obtain rfl : u = u' := (allocPageTable_fuelled r virt flags).unique ⟨fuel', hu⟩ ⟨fuel, hu'⟩
  exact shallow_of fuel (by rw [hx]; exact hlt)

/-- What a call does: outside the bitmap it writes the page's entry, and the link if there was none;
both point to frames that were free. -/
structure Enters (r t : Resident) (n : ℕ) (virt link leaf : Word) : Prop where
  cr3 : t.cr3 = r.cr3
  ptr : t.ptr = r.ptr
  mem : ∀ x ∉ r.bytes n, t.mem x = (r.machine.enter virt link leaf).mem x
  same : ∀ k < n, t.machine.translate (t.seat k) = r.machine.translate (r.seat k)
  seated : t.Seated n
  link_present : entryFormat.present link
  leaf_present : entryFormat.present leaf
  link_fresh : ¬r.machine.Present virt → frameOf link ∉ r.held n
  link_held : ¬r.machine.Present virt → frameOf link ∈ t.held n
  link_ne : ¬r.machine.Present virt → frameOf link ≠ frameOf leaf
  leaf_fresh : frameOf leaf ∉ r.held n
  leaf_held : frameOf leaf ∈ t.held n
  mono : r.held n ⊆ t.held n

section Marked

variable {m : Resident} (h : r.Seated n) (hm : Marked r m n f)
include h hm

theorem Marked.entry (i : Slot) : m.machine.tables m.machine.directory i =
    r.machine.tables r.machine.directory i :=
  directory_off hm.cr3 (fun x hx => hm.mem x (off_bytes hx)) (fun g hg => (h.fresh g hg).2) i

theorem Marked.recursive (hrec : r.machine.Recursive) : m.machine.Recursive := by
  have hdir : m.machine.directory = r.machine.directory := congrArg frameOf hm.cr3
  rwa [Machine.Recursive, hm.entry h, hdir]

end Marked

theorem store_congr {m m' : Mem} {a v : Word} (hx : m' x = m x) :
    store m' a v x = store m a v x := by
  rw [store, store]
  split_ifs
  · rfl
  · exact hx

theorem Links.entry (h : r.Seated n) {link : Word} (hl : Links r t n virt link) (i : Slot) :
    t.machine.tables t.machine.directory i =
      if i = directorySlot virt then link else r.machine.tables r.machine.directory i := by
  have hdir : t.machine.directory = r.machine.directory := congrArg frameOf hl.cr3
  have hoff : r.machine.directory ∉ r.seats n := fun hin => (h.fresh _ hin).2.1 rfl
  rw [hdir, tables_off (s := r.machine.put r.machine.directory (directorySlot virt) link)
    (fun x hx => hl.mem x (off_bytes hx)) hoff, put_tables]
  simp only [put, true_and]

theorem Links.recursive {link : Word} (hl : Links r t n virt link) (h : r.Seated n)
    (hrec : r.machine.Recursive) (hlast : directorySlot virt ≠ 0x3FF) : t.machine.Recursive := by
  have hdir : t.machine.directory = r.machine.directory := congrArg frameOf hl.cr3
  have hkept := (hl.entry h 0x3FF).trans (if_neg (Ne.symm hlast))
  rw [Machine.Recursive, hkept, hdir]
  exact hrec

theorem Links.apart {link : Word} {k : ℕ} (hl : Links r t n virt link) (h : r.Seated n)
    (hp : ¬r.machine.Present virt) (hk : k < n)
    (hlinks : ∀ i, entryFormat.present (r.machine.tables r.machine.directory i) →
      frameOf (r.machine.tables r.machine.directory i) ∈ r.held n) :
    frameOf (t.machine.pde (t.seat k)) ≠ frameOf link := by
  obtain ⟨p, hseat⟩ := h.mapped k hk
  obtain ⟨e, hwalk, -⟩ := Option.map_eq_some_iff.mp hseat
  have hpk : r.machine.Present (r.seat k) := (walk_isSome.mp (Option.isSome_of_eq_some hwalk)).1
  have hslot : directorySlot (r.seat k) ≠ directorySlot virt := by
    intro heq
    rw [Machine.Present, Machine.pde, heq] at hpk
    exact hp hpk
  have hsame : t.seat k = r.seat k := congrArg (· + word k) hl.ptr
  have hkept : t.machine.pde (r.seat k) = r.machine.pde (r.seat k) :=
    (hl.entry h _).trans (if_neg hslot)
  rw [hsame, hkept]
  exact fun heq => hl.free (heq ▸ hlinks _ hpk)

section Call

variable (h : r.Seated n) (hn : n ≤ 0x20000) (hrec : r.machine.Recursive)
  (hlow : flags &&& ~~~0xFFF = 0) (hP : flags &&& pageP ≠ 0) (hshallow : r.Shallow n)
include h hn hrec hlow hP hshallow

theorem allocPage_enters (hp : r.machine.Present virt)
    (hdir : frameOf (r.machine.pde virt) ≠ r.machine.directory)
    (hclear : ∀ k < n, frameOf (r.machine.pde (r.seat k)) ≠ frameOf (r.machine.pde virt))
    (hret : r.allocPage virt flags fuel = some t) (link : Word)
    (hlink : entryFormat.present link) : ∃ leaf, Enters r t n virt link leaf := by
  obtain ⟨⟨m, phys⟩, hget, hset⟩ := Option.bind_eq_some_iff.mp hret
  rw [pmmAlloc_zero] at hget
  have hm := h.mark hn hshallow hget
  have hpde (v : Word) : m.machine.pde v = r.machine.pde v := hm.entry h _
  have hpm : m.machine.Present virt := by rwa [Machine.Present, hpde]
  have hmdir : m.machine.directory = r.machine.directory := congrArg frameOf hm.cr3
  have hseat (k : ℕ) : m.seat k = r.seat k := congrArg (· + word k) hm.ptr
  change (Paging.setPage m.machine virt phys flags).map m.after = some t at hset
  rw [setPage_eq (hm.recursive h hrec) hpm, Option.map_some, Option.some.injEq, hpde] at hset
  subst hset
  have hoff : frameOf (r.machine.pde virt) ∉ r.seats n := fun hin => (h.fresh _ hin).2.2 _ hp rfl
  obtain ⟨hseated, hheld, hsame⟩ := hm.seated.leaf
    (t := m.after (m.machine.put (frameOf (r.machine.pde virt)) (tableSlot virt)
      (entryFor phys flags))) rfl rfl rfl (by rwa [seats_same hm.same]) (by rwa [hmdir]) fun k hk => by
      rw [hpde, hseat]
      exact hclear k hk
  have hframe : frameOf (entryFor phys flags) = frameOf phys := frameOf_low hlow
  refine ⟨entryFor phys flags, hm.cr3, hm.ptr, fun x hx => ?_, fun k hk => ?_, hseated, hlink,
    present_entryFor hP, fun hnp => absurd hp hnp, fun hnp => absurd hp hnp,
    fun hnp => absurd hp hnp, ?_, ?_, ?_⟩
  · rw [enter_present hp]
    exact store_congr (hm.mem x hx)
  · exact (hsame k hk).trans (hm.same k hk)
  · rw [hframe]
    exact hm.free
  · rw [hheld, hm.held, hframe]
    exact Set.mem_insert _ _
  · rw [hheld, hm.held]
    exact Set.subset_insert _ _

theorem allocPageTable_links (hp : ¬r.machine.Present virt)
    (hret : r.allocPageTable virt flags fuel = some t) : ∃ link, Links r t n virt link := by
  obtain ⟨⟨m, phys⟩, hget, hset⟩ := Option.bind_eq_some_iff.mp hret
  rw [pmmAlloc_zero] at hget
  have hm := h.mark hn hshallow hget
  have hmdir : m.machine.directory = r.machine.directory := congrArg frameOf hm.cr3
  have habsent : ¬entryFormat.present (m.machine.tables m.machine.directory (directorySlot virt)) := by
    rwa [hm.entry h]
  change (Paging.setPageTable m.machine virt phys flags).map m.after = some t at hset
  rw [setPageTable_eq (hm.recursive h hrec), Option.map_some, Option.some.injEq] at hset
  subst hset
  have hframe : frameOf (entryFor phys flags) = frameOf phys := frameOf_low hlow
  have hfree : frameOf phys ∉ m.seats n := by
    rw [seats_same hm.same]
    exact fun hin => hm.free (h.fresh _ hin).1
  obtain ⟨hseated, hheld, hsame⟩ := hm.seated.link
    (t := m.after (m.machine.put m.machine.directory (directorySlot virt) (entryFor phys flags)))
    rfl rfl rfl rfl habsent (by rwa [hframe])
  refine ⟨entryFor phys flags, hm.cr3, hm.ptr, hm.hint, fun x hx => ?_, fun k hk => ?_, hseated,
    present_entryFor hP, ?_, ?_⟩
  · rw [← hmdir]
    exact store_congr (hm.mem x hx)
  · exact (hsame k hk).trans (hm.same k hk)
  · rw [hframe]
    exact hm.free
  · rw [hheld, hm.held, hframe]

omit hshallow in
theorem allocMapPage_enters (hlast : directorySlot virt ≠ 0x3FF) (hstops : r.Stops n virt flags)
    (hdirectory : r.machine.directory ∈ r.held n)
    (hlinks : ∀ i, entryFormat.present (r.machine.tables r.machine.directory i) →
      frameOf (r.machine.tables r.machine.directory i) ∈ r.held n)
    (hdir : r.machine.Present virt → frameOf (r.machine.pde virt) ≠ r.machine.directory)
    (hclear : r.machine.Present virt →
      ∀ k < n, frameOf (r.machine.pde (r.seat k)) ≠ frameOf (r.machine.pde virt))
    (hret : Returns (r.allocMapPage virt flags) t) : ∃ link leaf, Enters r t n virt link leaf := by
  obtain ⟨fuel, hret⟩ := hret
  simp only [Resident.allocMapPage, read_pde hrec, Option.bind_some] at hret
  by_cases hp : r.machine.Present virt
  · rw [if_pos (present_iff.mp hp)] at hret
    exact ⟨_, allocPage_enters h hn hrec hlow hP hstops.1 hp (hdir hp) (hclear hp) hret _ hp⟩
  · rw [if_neg fun hne => hp (present_iff.mpr hne)] at hret
    obtain ⟨u, hu, hret⟩ := Option.bind_eq_some_iff.mp hret
    obtain ⟨link, hl⟩ := allocPageTable_links h hn hrec hlow hP hstops.1 hp hu
    have hudir : u.machine.directory = r.machine.directory := congrArg frameOf hl.cr3
    have hpde : u.machine.pde virt = link := (hl.entry h _).trans (if_pos rfl)
    have hup : u.machine.Present virt := by
      rw [Machine.Present, hpde]
      exact hl.present
    have hune : frameOf (u.machine.pde virt) ≠ u.machine.directory := by
      rw [hpde, hudir]
      exact fun heq => hl.free (heq ▸ hdirectory)
    have huclear (k : ℕ) (hk : k < n) :
        frameOf (u.machine.pde (u.seat k)) ≠ frameOf (u.machine.pde virt) := by
      rw [hpde]
      exact hl.apart h hp hk hlinks
    obtain ⟨leaf, he⟩ := allocPage_enters hl.seated hn (hl.recursive h hrec hlast) hlow hP
      (hstops.2 hp fuel u hu) hup hune huclear hret link hl.present
    have hmono : r.held n ⊆ u.held n := by
      rw [hl.held]
      exact Set.subset_insert _ _
    have hheld : frameOf link ∈ u.held n := by
      rw [hl.held]
      exact Set.mem_insert _ _
    refine ⟨link, leaf, he.cr3.trans hl.cr3, he.ptr.trans hl.ptr, fun x hx => ?_, fun k hk => ?_,
      he.seated, hl.present, he.leaf_present, fun _ => hl.free, fun _ => he.mono hheld, fun _ heq => ?_,
      fun hin => he.leaf_fresh (hmono hin), he.leaf_held, hmono.trans he.mono⟩
    · rw [he.mem x (by rwa [bytes_same hl.same]), enter_present hup, enter_absent hp, hpde]
      exact store_congr (hl.mem x hx)
    · exact (he.same k hk).trans (hl.same k hk)
    · exact he.leaf_fresh (heq ▸ hheld)

end Call

theorem pageFrame_held (hf : f ∉ r.held n) :
    f.toNat < 8 * n ∧ r.machine.bitmap.bit f.toNat = false := by
  have hlt : f.toNat < 8 * n := by
    by_contra hge
    exact hf fun h => absurd h hge
  refine ⟨hlt, ?_⟩
  rw [mem_held hlt] at hf
  simpa using hf

theorem Resident.Seated.search_ends (h : r.Seated n) (hn : n ≤ 0x20000) (hfree : f ∉ r.held n)
    (hhint : 8 * (r.lastChecked.toNat / 8) ≤ f.toNat) :
    r.Shallow n ∧ ∃ t addr, Returns r.getFrame (t, addr) := by
  obtain ⟨hf, hclear⟩ := pageFrame_held hfree
  have hlength : (BitVec.ofNat 64 n).toNat = n := by
    rw [BitVec.toNat_ofNat]
    omega
  -- The hint and the bits are those of the bitmap, and the length is as far as its bytes are mapped.
  obtain ⟨⟨c, num, ⟨fuel, hsearch⟩, hnum⟩, hinside⟩ :=
    search_inside (b := { r.machine.bitmap with length := BitVec.ofNat 64 n })
      (by simp only [hlength]; omega) ⟨f.toNat, hhint, by simp only [hlength]; exact hf, hclear⟩
  simp only [hlength] at hnum hinside
  obtain ⟨⟨index, i⟩, hrun, hret⟩ := Option.map_eq_some_iff.mp hsearch
  obtain ⟨-, rfl⟩ := Prod.mk.inj hret
  have hturn (u : BitVec 64 × ℕ)
      (hu : Visits (Frames.searchTurn r.machine.bitmap) (searchStart r.machine.bitmap) u) :
      r.searchTurn u = (Frames.searchTurn r.machine.bitmap u).map some := by
    obtain ⟨p, hp⟩ := h.mapped _ (hinside u hu)
    exact searchTurn_mapped (congrArg (Option.map r.mem) hp)
  have hresident := run_faulting hturn hrun
  obtain ⟨hi, -⟩ := search_result ⟨fuel, hrun⟩
  obtain ⟨p, hp⟩ := h.mapped ((frameNumber index i).toNat / 8) (by omega)
  have hplace : r.machine.translate (r.address index) = some p := by
    have haddr : r.address index = r.seat ((frameNumber index i).toNat / 8) :=
      (frame_address r.machine.bitmap index hi).1
    rw [haddr]
    exact hp
  have hget : r.getFreeFrame fuel = some ({ r with
      mem := storeByte r.mem p (r.mem p ||| highBit >>> i) }, frameNumber index i) := by
    simp only [Resident.getFreeFrame, hresident, Option.join_some, Option.bind_some,
      Resident.markFrameUsed, Machine.view, Machine.writeByte, hplace, Option.map_some]
    rfl
  refine ⟨shallow_of fuel ?_, _, _, fuel, congrArg (Option.map _) hget⟩
  rw [hget]
  exact decide_eq_true hnum

theorem allocPage_fuelled (r : Resident) (virt flags : Word) :
    Fuelled (r.allocPage virt flags) := by
  have hzero : r.pmmAlloc 0 = r.getFrame := funext (pmmAlloc_zero r)
  refine Fuelled.bind ?_ fun _ => fuelled_const _
  rw [hzero]
  exact Fuelled.map (resident_search_fuelled r) _

section Ends

variable (h : r.Seated n) (hn : n ≤ 0x20000) (hrec : r.machine.Recursive)
include h hn hrec

theorem allocPage_ends (flags : Word) (hp : r.machine.Present virt) (hfree : f ∉ r.held n)
    (hhint : 8 * (r.lastChecked.toNat / 8) ≤ f.toNat) : ∃ t, Returns (r.allocPage virt flags) t := by
  obtain ⟨hshallow, m, phys, fuel, hget⟩ := h.search_ends hn hfree hhint
  have hm := h.mark hn hshallow hget
  have hpm : m.machine.Present virt := by
    rw [Machine.Present, Machine.pde, hm.entry h]
    exact hp
  have hcall : r.allocPage virt flags fuel =
      (Paging.setPage m.machine virt phys flags).map m.after := by
    rw [Resident.allocPage, pmmAlloc_zero, hget]
    rfl
  rw [setPage_eq (hm.recursive h hrec) hpm] at hcall
  exact ⟨_, fuel, hcall⟩

theorem allocPageTable_ends (virt flags : Word) (hfree : f ∉ r.held n)
    (hhint : 8 * (r.lastChecked.toNat / 8) ≤ f.toNat) :
    ∃ t, Returns (r.allocPageTable virt flags) t := by
  obtain ⟨hshallow, m, phys, fuel, hget⟩ := h.search_ends hn hfree hhint
  have hm := h.mark hn hshallow hget
  have hcall : r.allocPageTable virt flags fuel =
      (Paging.setPageTable m.machine virt phys flags).map m.after := by
    rw [Resident.allocPageTable, pmmAlloc_zero, hget]
    rfl
  rw [setPageTable_eq (hm.recursive h hrec)] at hcall
  exact ⟨_, fuel, hcall⟩

theorem allocMapPage_ends (hlow : flags &&& ~~~0xFFF = 0) (hP : flags &&& pageP ≠ 0)
    (hlast : directorySlot virt ≠ 0x3FF) {g : Frame} (hfg : f ≠ g) (hf : f ∉ r.held n)
    (hg : g ∉ r.held n) (hhint : 8 * (r.lastChecked.toNat / 8) ≤ f.toNat)
    (hhint' : 8 * (r.lastChecked.toNat / 8) ≤ g.toNat) :
    r.Stops n virt flags ∧ ∃ t, Returns (r.allocMapPage virt flags) t := by
  have hshallow := (h.search_ends hn hf hhint).1
  -- The table takes one of the two frames, or none of them.
  have hthen (u : Resident) (link : Word) (hl : Links r u n virt link) :
      ∃ e ∉ u.held n, 8 * (u.lastChecked.toNat / 8) ≤ e.toNat := by
    rw [hl.held, hl.hint]
    by_cases heq : f = frameOf link
    · exact ⟨g, fun hin => hin.elim (fun hgl => hfg (heq.trans hgl.symm)) hg, hhint'⟩
    · exact ⟨f, fun hin => hin.elim heq hf, hhint⟩
  refine ⟨⟨hshallow, fun hp fuel u hu => ?_⟩, ?_⟩
  · obtain ⟨link, hl⟩ := allocPageTable_links h hn hrec hlow hP hshallow hp hu
    obtain ⟨e, he, hhint⟩ := hthen u link hl
    exact (hl.seated.search_ends hn he hhint).1
  · have hread (fuel : ℕ) : r.allocMapPage virt flags fuel =
        if r.machine.pde virt &&& 0x1 ≠ 0 then r.allocPage virt flags fuel
        else (r.allocPageTable virt flags fuel).bind fun u => u.allocPage virt flags fuel := by
      simp only [Resident.allocMapPage, read_pde hrec, Option.bind_some]
    by_cases hp : r.machine.Present virt
    · obtain ⟨t, fuel, ht⟩ := allocPage_ends h hn hrec flags hp hf hhint
      exact ⟨t, fuel, by rw [hread, if_pos (present_iff.mp hp), ht]⟩
    · obtain ⟨u, fuel, hu⟩ := allocPageTable_ends h hn hrec virt flags hf hhint
      obtain ⟨link, hl⟩ := allocPageTable_links h hn hrec hlow hP hshallow hp hu
      obtain ⟨e, he, hhint⟩ := hthen u link hl
      have hup : u.machine.Present virt := by
        rw [Machine.Present, Machine.pde, (hl.entry h _).trans (if_pos rfl)]
        exact hl.present
      obtain ⟨t, ht⟩ := allocPage_ends hl.seated hn (hl.recursive h hrec hlast) flags hup he hhint
      obtain ⟨fuel', hcall⟩ := (returns_bind (allocPageTable_fuelled r virt flags) fun u =>
        allocPage_fuelled u virt flags).mpr ⟨u, ⟨fuel, hu⟩, ht⟩
      exact ⟨t, fuel', by rw [hread, if_neg fun hne => hp (present_iff.mpr hne)]; exact hcall⟩

end Ends

end Rinix.Paging
