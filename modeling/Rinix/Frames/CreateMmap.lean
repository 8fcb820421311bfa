import Rinix.Frames.Placement
import Mathlib.Data.List.TakeWhile

namespace Rinix.Frames

open ByteMemory WhileLoop

structure MultibootInfo where
  flags : Word
  mmapLength : Word
  mmapAddr : Word

def multibootMemoryInfo : Word := 0x2

def mmapRegionNum : ℕ := 16

def mmapUnusable : Word := 1

def load64 (m : Mem) (a : Word) : BitVec 64 := load m (a + 4) ++ load m a

structure MultibootEntry where
  size : Word
  addr : BitVec 64
  len : BitVec 64
  type : Word
  deriving DecidableEq

def readEntry (m : Mem) (p : Word) : MultibootEntry :=
  ⟨load m p, load64 m (p + 4), load64 m (p + 12), load m (p + 20)⟩

def MultibootEntry.toChunk (e : MultibootEntry) : MmapChunk :=
  if e.type = 1 then ⟨e.addr.setWidth 32, e.len.setWidth 32, mmapUsable⟩
  else ⟨e.addr.setWidth 32, e.len.setWidth 32, mmapUnusable⟩

/-- A turn of the loop over the map, with the array `mmap_regions`. `panic` stays in its own loop
for ever. -/
def mmapTurn (info : MultibootInfo) (m : Mem) :
    Word × ℕ × List MmapChunk → Turn (Word × ℕ × List MmapChunk) (List MmapChunk)
  | (mbtMap, nr, regions) =>
    if mbtMap < info.mmapAddr + info.mmapLength then
      if mmapRegionNum ≤ nr then .again (mbtMap, nr, regions)
      else
        .again (mbtMap + (readEntry m mbtMap).size + 4, nr + 1,
          regions.set nr (readEntry m mbtMap).toChunk)
    else .exit regions

/-- `create_mmap`. The first loop clears one element sixteen times. -/
def createMmap (info : MultibootInfo) (m : Mem) (regions : List MmapChunk) (fuel : ℕ) :
    Option (List MmapChunk × Int) :=
  if info.flags &&& multibootMemoryInfo = 0 then none
  else
    let regions := upTo mmapRegionNum (fun regions _ => regions.set 0 ⟨0, 0, 0⟩) regions
    (run (mmapTurn info m) fuel (info.mmapAddr, 0, regions)).map fun regions => (regions, 0)

def blankRegions : List MmapChunk := List.replicate mmapRegionNum ⟨0, 0, 0⟩

def Listed (m : Mem) : ℕ → List MultibootEntry → ℕ → Prop
  | p, [], q => p = q
  | p, e :: es, q => readEntry m (word p) = e ∧ Listed m (p + e.size.toNat + 4) es q

def MmapChunk.Holds (r : MmapChunk) (a : ℕ) : Prop := r.start.toNat ≤ a ∧ a < r.start.toNat + r.size.toNat

def MultibootEntry.Holds (e : MultibootEntry) (a : ℕ) : Prop :=
  e.addr.toNat ≤ a ∧ a < e.addr.toNat + e.len.toNat

def MultibootEntry.CutHolds (e : MultibootEntry) (a : ℕ) : Prop :=
  e.addr.toNat % 0x100000000 ≤ a ∧ a < e.addr.toNat % 0x100000000 + e.len.toNat % 0x100000000

/-- A walk over the regions sees the usable bytes and the others below 4 GiB where the entries have
them. -/
def Faithful (es : List MultibootEntry) (regions : List MmapChunk) : Prop :=
  ∀ a < 0x100000000,
    ((∃ r ∈ visible regions, r.type = mmapUsable ∧ r.Holds a) ↔ ∃ e ∈ es, e.type = 1 ∧ e.Holds a) ∧
    ((∃ r ∈ visible regions, r.type ≠ mmapUsable ∧ r.Holds a) ↔ ∃ e ∈ es, e.type ≠ 1 ∧ e.Holds a)

def foremost (es : List MultibootEntry) : List MultibootEntry :=
  es.takeWhile fun e => e.len.toNat % 0x100000000 ≠ 0

/-- Entries of one kind lose nothing and add nothing: what a foremost entry above 4 GiB turns into
is held by some entry, and what an entry holds that is not foremost, or 4 GiB long, is held by a
foremost one after the cut. -/
def CutsHarmless (kind : MultibootEntry → Prop) (es : List MultibootEntry) : Prop :=
  (∀ e ∈ foremost es, kind e → 0x100000000 ≤ e.addr.toNat → ∀ a < 0x100000000, e.CutHolds a →
    ∃ e' ∈ es, kind e' ∧ e'.Holds a) ∧
  ∀ e ∈ es, kind e → e ∉ foremost es ∨ 0x100000000 ≤ e.len.toNat → ∀ a < 0x100000000, e.Holds a →
    ∃ e' ∈ foremost es, kind e' ∧ e'.CutHolds a

variable {info : MultibootInfo} {m : Mem} {es done : List MultibootEntry}
  {prior regions : List MmapChunk} {pos : Word} {ret : Int} {p q : ℕ} {kind : MultibootEntry → Prop}

theorem Listed.le (h : Listed m p es q) : p ≤ q := by
  induction es generalizing p with
  | nil => exact Nat.le_of_eq h
  | cons e es ih =>
    have hle := ih h.2
    omega

def filled (done : List MultibootEntry) : List MmapChunk :=
  done.map MultibootEntry.toChunk ++ List.replicate (mmapRegionNum - done.length) ⟨0, 0, 0⟩

def written (done : List MultibootEntry) (prior : List MmapChunk) : List MmapChunk :=
  done.map MultibootEntry.toChunk ++ prior.drop done.length

def Walked (info : MultibootInfo) (m : Mem) (pos : Word) : List MultibootEntry → Prop
  | [] => ¬pos < info.mmapAddr + info.mmapLength
  | e :: es => pos < info.mmapAddr + info.mmapLength ∧ readEntry m pos = e ∧
      Walked info m (pos + e.size + 4) es

theorem filled_eq (done : List MultibootEntry) : filled done = written done blankRegions := by
  rw [filled, written, blankRegions, List.drop_replicate]

theorem written_snoc (e : MultibootEntry) (hdone : done.length < prior.length) :
    (written done prior).set done.length e.toChunk = written (done ++ [e]) prior := by
  rw [written, written, List.set_append_right _ _ (by rw [List.length_map]), List.length_map, Nat.sub_self,
    List.drop_eq_getElem_cons hdone, List.set_cons_zero, List.map_append, List.append_assoc,
    List.length_append]
  rfl

theorem mmapTurn_entry (hgo : pos < info.mmapAddr + info.mmapLength) (hlen : prior.length = mmapRegionNum)
    (hdone : done.length < mmapRegionNum) : mmapTurn info m (pos, done.length, written done prior) =
      .again (pos + (readEntry m pos).size + 4, (done ++ [readEntry m pos]).length,
        written (done ++ [readEntry m pos]) prior) := by
  rw [mmapTurn, if_pos hgo, if_neg (Nat.not_le_of_lt hdone), written_snoc _ (by rw [hlen]; exact hdone),
    List.length_append, List.length_singleton]

theorem walk_exits (done : List MultibootEntry) (hlen : prior.length = mmapRegionNum)
    (hwalk : Walked info m pos es) (hfits : (done ++ es).length ≤ mmapRegionNum) :
    Exits (mmapTurn info m) (pos, done.length, written done prior) (written (done ++ es) prior) := by
  induction es generalizing pos done with
  | nil =>
    rw [List.append_nil]
    exact Exits.of_exit (if_neg hwalk)
  | cons e es ih =>
    obtain ⟨hgo, rfl, hrest⟩ := hwalk
    have hdone : done.length < mmapRegionNum := by
      rw [List.length_append, List.length_cons] at hfits
      omega
    rw [List.append_cons] at hfits ⊢
    exact (exits_again (mmapTurn_entry hgo hlen hdone)).mpr (ih _ hrest hfits)

theorem exits_walk (done : List MultibootEntry) (hlen : prior.length = mmapRegionNum)
    (hdone : done.length ≤ mmapRegionNum)
    (h : Exits (mmapTurn info m) (pos, done.length, written done prior) regions) :
    ∃ es, Walked info m pos es ∧ (done ++ es).length ≤ mmapRegionNum ∧
    regions = written (done ++ es) prior := by
  obtain ⟨fuel, h⟩ := h
  induction fuel generalizing pos done with
  | zero => cases h
  | succ fuel ih =>
    by_cases hgo : pos < info.mmapAddr + info.mmapLength
    · by_cases hfull : mmapRegionNum ≤ done.length
      -- the call has panicked, and the loop does not end
      · have hturn : mmapTurn info m (pos, done.length, written done prior) =
            .again (pos, done.length, written done prior) := by
          rw [mmapTurn, if_pos hgo, if_pos hfull]
        rw [run, hturn] at h
        exact ih done hdone h
      · have hroom := Nat.lt_of_not_le hfull
        rw [run, mmapTurn_entry hgo hlen hroom] at h
        have hnext : (done ++ [readEntry m pos]).length ≤ mmapRegionNum := by
          rw [List.length_append, List.length_singleton]
          omega
        obtain ⟨es, hwalk, hfits, rfl⟩ := ih _ hnext h
        rw [← List.append_cons] at hfits ⊢
        exact ⟨readEntry m pos :: es, ⟨hgo, rfl, hwalk⟩, hfits, rfl⟩
    · rw [run, mmapTurn, if_neg hgo, Option.some.injEq] at h
      exact ⟨[], hgo, by rwa [List.append_nil], by rw [List.append_nil, h]⟩

theorem clearing (prior : List MmapChunk) :
    upTo mmapRegionNum (fun regions _ => regions.set 0 ⟨0, 0, 0⟩) prior = prior.set 0 ⟨0, 0, 0⟩ :=
  upTo_idempotent (g := fun regions : List MmapChunk => regions.set 0 ⟨0, 0, 0⟩)
  (fun _ => List.set_set ..) 15 prior

theorem createMmap_iff (hlen : prior.length = mmapRegionNum) :
    Returns (createMmap info m prior) (regions, ret) ↔
    info.flags &&& multibootMemoryInfo ≠ 0 ∧ ∃ es, Walked info m info.mmapAddr es ∧
    es.length ≤ mmapRegionNum ∧
      regions = written es (prior.set 0 ⟨0, 0, 0⟩) ∧ ret = 0 := by
  have hlen' : (prior.set 0 ⟨0, 0, 0⟩).length = mmapRegionNum := by rw [List.length_set, hlen]
  constructor
  · rintro ⟨fuel, h⟩
    rw [createMmap] at h
    split_ifs at h with hflags
    obtain ⟨regions', hrun, heq⟩ := Option.map_eq_some_iff.mp h
    obtain ⟨rfl, rfl⟩ := Prod.mk.inj heq
    rw [clearing] at hrun
    obtain ⟨es, hwalk, hfits, rfl⟩ := exits_walk [] hlen' (Nat.zero_le _) ⟨fuel, hrun⟩
    exact ⟨hflags, es, hwalk, hfits, rfl, rfl⟩
  · rintro ⟨hflags, es, hwalk, hfits, rfl, rfl⟩
    obtain ⟨fuel, hrun⟩ := walk_exits [] hlen' hwalk hfits
    refine ⟨fuel, ?_⟩
    rw [createMmap, if_neg hflags, clearing]
    exact Option.map_eq_some_iff.mpr ⟨_, hrun, rfl⟩

theorem Listed.walked (h : Listed m p es q) (hq : q < 0x100000000)
    (hend : (info.mmapAddr + info.mmapLength).toNat = q) : Walked info m (word p) es := by
  induction es generalizing p with
  | nil =>
    obtain rfl : p = q := h
    rw [Walked, BitVec.lt_def, toNat_word hq, hend]
    exact Nat.lt_irrefl p
  | cons e es ih =>
    obtain ⟨he, hrest⟩ := h
    have hle := hrest.le
    have hnext : word p + e.size + 4 = word (p + e.size.toNat + 4) := by
      rw [← word_add, ← word_add, word_toNat]
      rfl
    refine ⟨?_, he, ?_⟩
    · rw [BitVec.lt_def, toNat_word (by omega), hend]
      omega
    · rw [hnext]
      exact ih hrest

theorem createMmap_returns (hflags : info.flags &&& multibootMemoryInfo ≠ 0)
    (hlisted : Listed m info.mmapAddr.toNat es (info.mmapAddr.toNat + info.mmapLength.toNat))
    (hq : info.mmapAddr.toNat + info.mmapLength.toNat < 0x100000000) (hlen : es.length ≤ mmapRegionNum) :
    Returns (createMmap info m blankRegions) (filled es, 0) := by
  have hwalk := hlisted.walked hq (BitVec.toNat_add_of_lt hq)
  rw [word_toNat] at hwalk
  exact (createMmap_iff List.length_replicate).mpr ⟨hflags, es, hwalk, hlen, filled_eq es, rfl⟩

theorem createMmap_fuelled (info : MultibootInfo) (m : Mem) (regions : List MmapChunk) :
    Fuelled (createMmap info m regions) :=
  Fuelled.ite (fuelled_const _) (Fuelled.map (run_fuelled _ _) _)

theorem toChunk_cut (e : MultibootEntry) : e.toChunk.start.toNat = e.addr.toNat % 0x100000000 ∧
    e.toChunk.size.toNat = e.len.toNat % 0x100000000 ∧ (e.toChunk.type = mmapUsable ↔ e.type = 1) := by
  rw [MultibootEntry.toChunk]
  split_ifs with htype
  · exact ⟨BitVec.toNat_setWidth .., BitVec.toNat_setWidth .., iff_of_true rfl htype⟩
  · exact ⟨BitVec.toNat_setWidth .., BitVec.toNat_setWidth .., iff_of_false (fun h => by cases h) htype⟩

theorem toChunk_holds (e : MultibootEntry) (a : ℕ) : e.toChunk.Holds a ↔ e.CutHolds a := by
  obtain ⟨hstart, hsize, -⟩ := toChunk_cut e
  rw [MmapChunk.Holds, hstart, hsize]
  rfl

theorem visible_entries (es : List MultibootEntry) (rest : List MmapChunk) :
    visible (es.map MultibootEntry.toChunk ++ ⟨0, 0, 0⟩ :: rest) =
    (foremost es).map MultibootEntry.toChunk := by
  induction es with
  | nil => rfl
  | cons e es ih =>
    obtain ⟨-, hsize, -⟩ := toChunk_cut e
    have hpos : 0 < e.toChunk.size ↔ e.len.toNat % 0x100000000 ≠ 0 := by
      rw [← hsize]
      exact Nat.pos_iff_ne_zero
    rw [List.map_cons, List.cons_append, visible, foremost]
    by_cases h : e.len.toNat % 0x100000000 = 0
    · rw [List.takeWhile_cons_of_neg, List.takeWhile_cons_of_neg]
      · rfl
      · simpa only [decide_eq_true_iff, ne_eq, not_not] using h
      · simpa only [decide_eq_true_iff, hpos, ne_eq, not_not] using h
    · rw [List.takeWhile_cons_of_pos, List.takeWhile_cons_of_pos, ← visible, ih]
      · rfl
      · simpa only [decide_eq_true_iff] using h
      · simpa only [decide_eq_true_iff, hpos] using h

theorem seen_iff (kind : MultibootEntry → Prop) (es : List MultibootEntry) :
    (∀ a < 0x100000000, (∃ e ∈ foremost es, kind e ∧ e.CutHolds a) ↔ ∃ e ∈ es, kind e ∧ e.Holds a) ↔
      CutsHarmless kind es := by
  have hsubset : ∀ e ∈ foremost es, e ∈ es := fun e he => (List.takeWhile_prefix _).subset he
  constructor
  · intro h
    refine ⟨fun e he hkind _ a ha hcut => (h a ha).mp ⟨e, he, hkind, hcut⟩, ?_⟩
    exact fun e he hkind _ a ha hholds => (h a ha).mpr ⟨e, he, hkind, hholds⟩
  · rintro ⟨hadd, hlose⟩ a ha
    constructor
    · rintro ⟨e, he, hkind, hcut⟩
      by_cases hhigh : 0x100000000 ≤ e.addr.toNat
      · exact hadd e he hkind hhigh a ha hcut
      · obtain ⟨hle, hlt⟩ := hcut
        exact ⟨e, hsubset e he, hkind, by omega, by omega⟩
    · rintro ⟨e, he, hkind, hholds⟩
      by_cases hcut : e ∉ foremost es ∨ 0x100000000 ≤ e.len.toNat
      · exact hlose e he hkind hcut a ha hholds
      · obtain ⟨hmem, hlen⟩ := not_or.mp hcut
        obtain ⟨hle, hlt⟩ := hholds
        exact ⟨e, not_not.mp hmem, hkind, by omega, by omega⟩

theorem seen_entries (kind : MultibootEntry → Prop) (seen : MmapChunk → Prop)
    (hseen : ∀ e, seen e.toChunk ↔ kind e) (es : List MultibootEntry) (a : ℕ) :
    (∃ r ∈ (foremost es).map MultibootEntry.toChunk, seen r ∧ r.Holds a) ↔
      ∃ e ∈ foremost es, kind e ∧ e.CutHolds a := by
  constructor
  · rintro ⟨r, hr, hkind, hholds⟩
    obtain ⟨e, he, rfl⟩ := List.mem_map.mp hr
    exact ⟨e, he, (hseen e).mp hkind, (toChunk_holds e a).mp hholds⟩
  · rintro ⟨e, he, hkind, hcut⟩
    exact ⟨_, List.mem_map_of_mem he, (hseen e).mpr hkind, (toChunk_holds e a).mpr hcut⟩

theorem visible_filled (hlen : es.length < mmapRegionNum) :
    visible (filled es) = (foremost es).map MultibootEntry.toChunk := by
  obtain ⟨free, hfree⟩ := Nat.exists_eq_add_of_lt hlen
  rw [filled, show mmapRegionNum - es.length = free + 1 by omega, List.replicate_succ]
  exact visible_entries es _

theorem faithful_iff (hlen : es.length < mmapRegionNum) :
    Faithful es (filled es) ↔ CutsHarmless (fun e => e.type = 1) es ∧
    CutsHarmless (fun e => e.type ≠ 1) es := by
  have husable : ∀ e : MultibootEntry, e.toChunk.type = mmapUsable ↔
    e.type = 1 := fun e => (toChunk_cut e).2.2
  rw [Faithful, visible_filled hlen, ← seen_iff, ← seen_iff, ← forall₂_and]
  refine forall₂_congr fun a _ => ?_
  rw [seen_entries (fun e => e.type = 1) _ husable, seen_entries (fun e => e.type ≠ 1) _ fun e =>
    not_congr (husable e)]

theorem create_mmap_faithful_iff (hflags : info.flags &&& multibootMemoryInfo ≠ 0)
    (hlisted : Listed m info.mmapAddr.toNat es (info.mmapAddr.toNat + info.mmapLength.toNat))
    (hq : info.mmapAddr.toNat + info.mmapLength.toNat < 0x100000000) (hlen : es.length ≤ 15) :
    ∃ regions, (∀ r, Returns (createMmap info m blankRegions) r ↔ r = (regions, 0)) ∧
      (Faithful es regions ↔ CutsHarmless (fun e => e.type = 1) es ∧
      CutsHarmless (fun e => e.type ≠ 1) es) := by
  have hreturns := createMmap_returns hflags hlisted hq (show es.length ≤ 16 by omega)
  refine ⟨filled es, fun r => ⟨fun h => (createMmap_fuelled info m blankRegions).unique h hreturns, ?_⟩,
    faithful_iff (Nat.lt_succ_of_le hlen)⟩
  rintro rfl
  exact hreturns

theorem cutsHarmless_of_low
    (hlow : ∀ e ∈ es, e.addr.toNat < 0x100000000 ∧ 0 < e.len.toNat ∧ e.len.toNat < 0x100000000) :
    CutsHarmless kind es := by
  have hall : foremost es = es := by
    apply List.takeWhile_eq_self_iff.mpr
    intro e he
    obtain ⟨-, hpos, hlt⟩ := hlow e he
    rw [decide_eq_true_iff, Nat.mod_eq_of_lt hlt]
    exact Nat.pos_iff_ne_zero.mp hpos
  constructor
  · intro e he _ hhigh
    rw [hall] at he
    have haddr := (hlow e he).1
    omega
  · intro e he _ hcut
    rw [hall] at hcut
    obtain ⟨-, -, hlt⟩ := hlow e he
    exact absurd hcut (not_or.mpr ⟨not_not.mpr he, by omega⟩)

def onePage (high : Word) : MultibootEntry := ⟨20, high ++ (0 : Word), 0x1000, 1⟩

def onePageMem (high : Word) : Mem :=
  store (store (store (store (fun _ => 0) 0x9000 20) 0x9008 high) 0x900C 0x1000) 0x9014 1

theorem onePage_listed (high : Word) : Listed (onePageMem high) 0x9000 [onePage high] 0x9018 := by
  refine ⟨?_, rfl⟩
  have hsize : load (onePageMem high) 0x9000 = 20 := by
    simp (disch := decide) only [onePageMem, load_store_miss, load_store]
  have hlow : load (onePageMem high) 0x9004 = 0 := by
    simp (disch := decide) only [onePageMem, load_store_miss]
    rfl
  have hhigh : load (onePageMem high) 0x9008 = high := by
    simp (disch := decide) only [onePageMem, load_store_miss, load_store]
  have hlen : load (onePageMem high) 0x900C = 0x1000 := by
    simp (disch := decide) only [onePageMem, load_store_miss, load_store]
  have hlen' : load (onePageMem high) 0x9010 = 0 := by
    simp (disch := decide) only [onePageMem, load_store_miss]
    rfl
  have htype : load (onePageMem high) 0x9014 = 1 := load_store ..
  change MultibootEntry.mk (load _ 0x9000) (load _ 0x9008 ++ load _ 0x9004) (load _ 0x9010 ++ load _ 0x900C)
    (load _ 0x9014) = _
  rw [hsize, hlow, hhigh, hlen, hlen', htype]
  rfl

theorem create_mmap_onePage : ∃ regions,
    (∀ r, Returns (createMmap ⟨2, 24, 0x9000⟩ (onePageMem 0) blankRegions) r ↔ r = (regions, 0)) ∧
      Faithful [onePage 0] regions := by
  have hlow : ∀ e ∈ [onePage 0], e.addr.toNat < 0x100000000 ∧ 0 < e.len.toNat ∧
    e.len.toNat < 0x100000000 := by
    decide
  have hflags : (MultibootInfo.mk 2 24 0x9000).flags &&& multibootMemoryInfo ≠ 0 := by decide
  obtain ⟨regions, hreturns, hiff⟩ := create_mmap_faithful_iff hflags (onePage_listed 0) (by decide)
    (by decide)
  exact ⟨regions, hreturns, hiff.mpr ⟨cutsHarmless_of_low hlow, cutsHarmless_of_low hlow⟩⟩

theorem highPage_seen : Listed (onePageMem 1) 0x9000 [onePage 1] 0x9018 ∧
    ∃ regions, Returns (createMmap ⟨2, 24, 0x9000⟩ (onePageMem 1) blankRegions) (regions, 0) ∧
      (∃ r ∈ visible regions, r.type = mmapUsable ∧ r.Holds 0) ∧ ¬∃ e ∈ [onePage 1], e.type = 1 ∧
      e.Holds 0 := by
  refine ⟨onePage_listed 1, filled [onePage 1],
    createMmap_returns (by decide) (onePage_listed 1) (by decide) (by decide), ?_, ?_⟩
  · refine ⟨(onePage 1).toChunk, ?_, rfl, by decide, by decide⟩
    rw [visible_filled (by decide)]
    exact List.mem_map_of_mem (by decide)
  · rintro ⟨e, he, -, hle, -⟩
    obtain rfl := List.mem_singleton.mp he
    exact absurd hle (by decide)

end Rinix.Frames
