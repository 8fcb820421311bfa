import Rinix.Paging.Dealloc

namespace Rinix.Paging

open ByteMemory PageTable WhileLoop Frames

def Machine.entries (s : Machine) (q : Slot × Slot) : Option (Word × Word) :=
  PageTable.walk entryFormat s.tables s.directory q.1 q.2

def Machine.cleared (s : Machine) (f : Frame) (n : ℕ) : Machine :=
  { s with mem := fun x => if frameOf x = f ∧ (pageOffset x).toNat < n then 0 else s.mem x }

/-- A pointer to a word, and a new frame that is not the directory and not the table of its page.
The entry of the page is not the one that leads to its table. Where there is no table yet, there is
one more frame. -/
structure Machine.Room (s : Machine) (temp : Word) (b : PfBitmap) (frame : Word) : Prop where
  words : temp &&& 0x3 = 0
  get : GetFrameReturns s.bitmap b frame
  apart : frameOf frame ≠ s.directory ∧ (s.Present temp → frameOf frame ≠ frameOf (s.pde temp))
  entry : s.Present temp → ¬(frameOf (s.pde temp) = s.directory ∧ tableSlot temp = directorySlot temp)
  link : ¬s.Present temp → ∃ c table, GetFrameReturns b c table ∧ frameOf table ≠ s.directory ∧
    frameOf frame ≠ frameOf table

def Machine.Reaches (u : Machine) : Prop := ∀ virt : Word,
  u.translate (pageDirVaddr ||| (virt >>> 22) * 4) = some (slotAddress u.directory (directorySlot virt)) ∧
    (u.Present virt → u.translate ((pageDirBaseVaddr ||| (virt >>> 12) * (4 : Word) &&& (0x3FF000 : Word)) +
      ((virt >>> 12) &&& 0x3FF) * (4 : Word)) = some (slotAddress (frameOf (u.pde virt)) (tableSlot virt)))

structure Usable (t : Machine) (pd : Word) : Prop where
  empty : ∀ k ≠ 0x3FF, t.tables (frameOf pd) k = 0
  link : frameOf (t.tables (frameOf pd) 0x3FF) = frameOf pd
  flags : t.tables (frameOf pd) 0x3FF &&& 0xFFF = pageP ||| pageRw
  reaches : ∀ u : Machine, u.cr3 = pd → u.tables u.directory 0x3FF = t.tables (frameOf pd) 0x3FF → u.Reaches

variable {s t m : Machine} {b c : PfBitmap} {f : Frame} {k : Slot}
  {temp virt frame phys link leaf a x : Word} {n i : ℕ}

theorem pageOffset_toNat (a : Word) : (pageOffset a).toNat = a.toNat % 4096 := by
  rw [pageOffset, BitVec.extractLsb'_toNat, Nat.shiftRight_zero]

theorem slots_toNat (a : Word) :
    (directorySlot a).toNat = a.toNat / 4194304 ∧ (tableSlot a).toNat = a.toNat / 4096 % 1024 := by
  have ha := a.isLt
  rw [directorySlot, tableSlot, BitVec.extractLsb'_toNat, BitVec.extractLsb'_toNat, Nat.shiftRight_eq_div_pow,
    Nat.shiftRight_eq_div_pow]
  omega

theorem offset_zero_iff : temp &&& 0xFFF = 0 ↔ (pageOffset temp).toNat = 0 := by
  rw [pageOffset_toNat, ← BitVec.toNat_inj, BitVec.toNat_and, show (0xFFF : Word).toNat = 2 ^ 12 - 1 from rfl,
    Nat.and_two_pow_sub_one_eq_mod]
  rfl

theorem offset_add (a : Word) (hi : i < 4294967296) :
    (pageOffset (a + word i)).toNat = ((pageOffset a).toNat + i) % 4096 := by
  rw [pageOffset_toNat, pageOffset_toNat, BitVec.toNat_add, toNat_word hi]
  omega

theorem offset_page (hi : (pageOffset temp).toNat + i < 4096) :
    directorySlot (temp + word i) = directorySlot temp ∧
    tableSlot (temp + word i) = tableSlot temp ∧
      (pageOffset (temp + word i)).toNat = (pageOffset temp).toNat + i := by
  have htemp := temp.isLt
  have hoffset := offset_add temp (show i < 4294967296 by omega)
  rw [pageOffset_toNat] at hi
  have hsum : (temp + word i).toNat = temp.toNat + i := by
    rw [BitVec.toNat_add, toNat_word (by omega)]
    omega
  refine ⟨?_, ?_, ?_⟩
  · rw [← BitVec.toNat_inj, (slots_toNat _).1, (slots_toNat _).1, hsum]
    omega
  · rw [← BitVec.toNat_inj, (slots_toNat _).2, (slots_toNat _).2, hsum]
    omega
  · rw [hoffset, pageOffset_toNat]
    exact Nat.mod_eq_of_lt hi

theorem load_slot {m m' : Mem} (h : ∀ x, frameOf x = f → m' x = m x) :
    load m' (slotAddress f k) = load m (slotAddress f k) := by
  apply load_congr
  intro x hx
  apply h
  have hslot := slotAddress_toNat f k
  have hk := k.isLt
  rw [← BitVec.toNat_inj, frameOf_toNat]
  bv_omega

theorem tables_outside {g : Frame} (hmem : ∀ x, frameOf x ≠ f → t.mem x = s.mem x) (hg : g ≠ f) :
    t.tables g k = s.tables g k := by
  apply load_slot
  intro x hx
  apply hmem
  rw [hx]
  exact hg

theorem walk_entries : s.walk virt = s.entries (pageOf virt) := rfl

theorem entries_outside {q : Slot × Slot} {pde pte : Word} (hq : s.entries q = some (pde, pte))
    (hf : f ≠ s.directory ∧ f ≠ frameOf pde) (hdir : t.directory = s.directory)
    (hmem : ∀ x, frameOf x ≠ f → t.mem x = s.mem x) : t.entries q = some (pde, pte) := by
  have hpde : s.tables s.directory q.1 = pde := (walk_eq_some.mp hq).2.2.1
  rw [Machine.entries, hdir]
  apply walk_kept hq
  · intro _
    exact tables_outside hmem (Ne.symm hf.1)
  · intro _
    apply tables_outside hmem
    rw [hpde]
    exact Ne.symm hf.2

theorem cleared_outside (s : Machine) (f : Frame) (n : ℕ) (x : Word) (hx : frameOf x ≠ f) :
    (s.cleared f n).mem x = s.mem x := if_neg fun h => hx h.1

theorem cleared_tables (s : Machine) (f : Frame) (k : Slot) : (s.cleared f 4096).tables f k = 0 := by
  have hzero : load (s.cleared f 4096).mem (slotAddress f k) = load (fun _ => 0) (slotAddress f k) := by
    apply load_congr
    intro x hx
    apply if_pos
    have hslot := slotAddress_toNat f k
    have hk := k.isLt
    refine ⟨?_, (pageOffset x).isLt⟩
    rw [← BitVec.toNat_inj, frameOf_toNat]
    bv_omega
  rw [Machine.tables, hzero]
  change ((0 : Byte) ++ (0 : Byte)) ++ ((0 : Byte) ++ (0 : Byte)) = (0 : Word)
  decide

theorem frame_offset (a : Word) : a = frameOf a ++ pageOffset a := by
  apply BitVec.eq_of_toNat_eq
  have hoffset := (pageOffset a).isLt
  rw [BitVec.toNat_append, ← Nat.shiftLeft_add_eq_or_of_lt hoffset, Nat.shiftLeft_eq, frameOf_toNat,
    pageOffset_toNat]
  omega

theorem append_inj_iff {g : Frame} {o : BitVec 12} : x = g ++ o ↔ frameOf x = g ∧ pageOffset x = o := by
  constructor
  · rintro rfl
    exact ⟨BitVec.extractLsb'_append_eq_left, BitVec.extractLsb'_append_eq_right⟩
  · rintro ⟨rfl, rfl⟩
    exact frame_offset x

theorem clear_byte {o : BitVec 12} (ho : o.toNat = n) (s : Machine) (f : Frame) :
    { s.cleared f n with mem := storeByte (s.cleared f n).mem (f ++ o) 0 } = s.cleared f (n + 1) := by
  have hmem : storeByte (s.cleared f n).mem (f ++ o) 0 = (s.cleared f (n + 1)).mem := by
    funext x
    rw [storeByte]
    by_cases hx : x = f ++ o
    · obtain ⟨hframe, hoffset⟩ := append_inj_iff.mp hx
      rw [if_pos hx]
      exact (if_pos ⟨hframe, by rw [hoffset]; omega⟩).symm
    · rw [if_neg hx]
      refine if_congr (and_congr_right fun hframe => ?_) rfl rfl
      have hne : (pageOffset x).toNat ≠ n := by
        rw [← ho]
        exact fun heq => hx (append_inj_iff.mpr ⟨hframe, BitVec.eq_of_toNat_eq heq⟩)
      omega
  rw [hmem]
  rfl

section Temporary

-- the temporary page is mapped to a frame that is not used to find it
variable {pde : Word} (hwalk : m.walk temp = some (pde, leaf))
  (hf : frameOf leaf ≠ m.directory ∧ frameOf leaf ≠ frameOf pde)
include hwalk hf

theorem translate_temporary (hdir : t.directory = m.directory)
    (hmem : ∀ x, frameOf x ≠ frameOf leaf → t.mem x = m.mem x) (hi : (pageOffset temp).toNat + i < 4096) :
    t.translate (temp + word i) = some (frameOf leaf ++ pageOffset (temp + word i)) := by
  obtain ⟨hd, ht, -⟩ := offset_page hi
  have hpage : t.walk (temp + word i) = t.walk temp := by
    rw [Machine.walk, Machine.walk, hd, ht]
  rw [walk_entries] at hwalk
  rw [Machine.translate, hpage, walk_entries, entries_outside hwalk hf hdir hmem]
  rfl

theorem translate_cleared (n : ℕ) (hi : (pageOffset temp).toNat + i < 4096) :
    (m.cleared (frameOf leaf) n).translate (temp + word i) =
    some (frameOf leaf ++ pageOffset (temp + word i)) :=
  translate_temporary (t := m.cleared (frameOf leaf) n) hwalk hf rfl (cleared_outside m (frameOf leaf) n) hi

theorem memset_outside (hn : (pageOffset temp).toNat + n ≤ 4096) : ∃ t, memset m temp 0 n = some t ∧
    t.directory = m.directory ∧ ∀ x, frameOf x ≠ frameOf leaf → t.mem x = m.mem x := by
  induction n with
  | zero => exact ⟨m, rfl, rfl, fun x _ => rfl⟩
  | succ n ih =>
    obtain ⟨u, hu, hdir, hmem⟩ := ih (Nat.le_of_succ_le hn)
    have hbyte := translate_temporary hwalk hf hdir hmem (Nat.lt_of_succ_le hn)
    refine ⟨{ u with mem := storeByte u.mem (frameOf leaf ++ pageOffset (temp + word n)) 0 }, ?_,
      hdir, fun x hx => ?_⟩
    · rw [memset, hu, Option.bind_some, Machine.writeByte, hbyte, Option.map_some]
    · rw [← hmem x hx]
      exact storeByte_miss fun heq => hx (append_inj_iff.mp heq).1

theorem cleared_next (halign : (pageOffset temp).toNat = 0) (hn : n < 4096) :
    (m.cleared (frameOf leaf) n).writeByte (temp + word n) 0 = some (m.cleared (frameOf leaf) (n + 1)) := by
  have hi : (pageOffset temp).toNat + n < 4096 := by omega
  obtain ⟨-, -, ho⟩ := offset_page hi
  rw [halign, Nat.zero_add] at ho
  rw [Machine.writeByte, translate_cleared hwalk hf n hi, Option.map_some, clear_byte ho]

theorem memset_clears (halign : (pageOffset temp).toNat = 0) (hn : n ≤ 4096) :
    memset m temp 0 n = some (m.cleared (frameOf leaf) n) := by
  induction n with
  | zero =>
    have hsame : m.cleared (frameOf leaf) 0 = m := by
      rw [Machine.cleared]
      congr 1
      funext x
      exact if_neg fun h => absurd h.2 (Nat.not_lt_zero _)
    rw [memset, hsame]
  | succ n ih =>
    rw [memset, ih (Nat.le_of_succ_le hn), Option.bind_some,
      cleared_next hwalk hf halign (Nat.lt_of_succ_le hn)]

theorem last_word (halign : (pageOffset temp).toNat = 0) (value : Word) :
    (m.cleared (frameOf leaf) 4096).writeAny (temp + 1023 * 4) value =
      some ((m.cleared (frameOf leaf) 4096).put (frameOf leaf) 0x3FF value) := by
  have hbyte (i : ℕ) (hi : i < 4) : (m.cleared (frameOf leaf) 4096).translate (temp + word (4092 + i)) =
      some (slotAddress (frameOf leaf) 0x3FF + word i) := by
    have hpage : (pageOffset temp).toNat + (4092 + i) < 4096 := by omega
    obtain ⟨-, -, ho⟩ := offset_page hpage
    rw [translate_cleared hwalk hf 4096 hpage, Option.some.injEq, eq_comm, append_inj_iff]
    have hslot := slotAddress_toNat (frameOf leaf) 0x3FF
    have hframe := (frameOf leaf).isLt
    have hlast : (0x3FF : Slot).toNat = 1023 := rfl
    have hsum : (slotAddress (frameOf leaf) 0x3FF + word i).toNat = (frameOf leaf).toNat * 4096 +
      4092 + i := by
      rw [BitVec.toNat_add, hslot, toNat_word (by omega), hlast]
      omega
    constructor
    · rw [← BitVec.toNat_inj, frameOf_toNat, hsum]
      omega
    · rw [← BitVec.toNat_inj, ho, pageOffset_toNat, hsum]
      omega
  have haddr (i : ℕ) : temp + 1023 * 4 + word i = temp + word (4092 + i) := by
    rw [BitVec.add_assoc, show (1023 * 4 : Word) = word 4092 from rfl, word_add]
  have hzero (a : Word) : a + word 0 = a := by simp [word]
  have h0 := hbyte 0 (by decide)
  have h1 := hbyte 1 (by decide)
  have h2 := hbyte 2 (by decide)
  have h3 := hbyte 3 (by decide)
  rw [← haddr] at h0 h1 h2 h3
  rw [hzero, hzero] at h0
  have hplaces : (m.cleared (frameOf leaf) 4096).places (temp + 1023 * 4) =
      some (slotAddress (frameOf leaf) 0x3FF, slotAddress (frameOf leaf) 0x3FF + 1,
        slotAddress (frameOf leaf) 0x3FF + 2, slotAddress (frameOf leaf) 0x3FF + 3) := by
    rw [Machine.places, h0, Option.bind_some, show (1 : Word) = word 1 from rfl, h1, Option.bind_some,
      show (2 : Word) = word 2 from rfl, h2, Option.bind_some, show (3 : Word) = word 3 from rfl,
        h3, Option.map_some]
  rw [Machine.writeAny, hplaces, Option.map_some, storeAny_word]
  rfl

theorem memset_last (hwords : (pageOffset temp).toNat ≤ 4092) (h : memset m temp 0 n = some t)
    (hn : 4092 < (pageOffset temp).toNat + n) : t.mem (slotAddress (frameOf leaf) 0x3FF) = 0 := by
  induction n generalizing t with
  | zero => omega
  | succ n ih =>
    obtain ⟨u, hu, ht⟩ := Option.bind_eq_some_iff.mp h
    obtain ⟨phys, hphys, rfl⟩ := Option.map_eq_some_iff.mp ht
    change storeByte u.mem phys 0 (slotAddress (frameOf leaf) 0x3FF) = 0
    rw [storeByte]
    split_ifs with hx
    · rfl
    · by_cases hlast : (pageOffset temp).toNat + n = 4092
      · obtain ⟨u', hu', hdir, hmem⟩ := memset_outside (n := n) hwalk hf (by omega)
        obtain rfl : u' = u := Option.some.inj (hu'.symm.trans hu)
        have hi : (pageOffset temp).toNat + n < 4096 := by omega
        obtain ⟨-, -, ho⟩ := offset_page hi
        rw [translate_temporary hwalk hf hdir hmem hi, Option.some.injEq] at hphys
        have hoffset : pageOffset (temp + word n) = (0x3FF : Slot) ++ (0 : BitVec 2) := by
          rw [← BitVec.toNat_inj, ho, hlast]
          rfl
        rw [hoffset] at hphys
        exact absurd hphys hx
      · exact ih hu (by omega)

end Temporary

theorem last_untouched {value : Word} (h : t.writeAny (temp + 1023 * 4) value = some m)
    (hwords : (pageOffset temp).toNat ≤ 4092) (halign : (pageOffset temp).toNat ≠ 0) (f : Frame) :
    m.mem (slotAddress f 0x3FF) = t.mem (slotAddress f 0x3FF) := by
  obtain ⟨q, hq, rfl⟩ := Option.map_eq_some_iff.mp h
  obtain ⟨h0, h1, h2, h3⟩ := places_some hq
  have haddr (i : ℕ) : temp + 1023 * 4 + word i = temp + word (4092 + i) := by
    rw [BitVec.add_assoc, show (1023 * 4 : Word) = word 4092 from rfl, word_add]
  -- the word would end where the frame does only if the page began there
  have hmiss (i : ℕ) (hi : i < 4) {p : Word} (hp : t.translate (temp + 1023 * 4 + word i) = some p) :
      slotAddress f 0x3FF ≠ p := by
    rintro rfl
    have hoffset := congrArg BitVec.toNat (translate_offset hp)
    rw [haddr, offset_add temp (by omega), (slotAddress_slots f 0x3FF).2.2] at hoffset
    have hlast : ((0x3FF : Slot) ++ (0 : BitVec 2)).toNat = 4092 := rfl
    rw [hlast] at hoffset
    have hlt := (pageOffset temp).isLt
    omega
  apply storeAny_miss
  refine ⟨hmiss 0 (by decide) ?_, hmiss 1 (by decide) h1, hmiss 2 (by decide) h2, hmiss 3 (by decide) h3⟩
  rw [show word 0 = 0#32 from rfl, BitVec.add_zero]
  exact h0

theorem mapPage_fuelled (s : Machine) (virt phys flags : Word) : Fuelled (mapPage s virt phys flags) :=
  Fuelled.bind (fuelled_const _) fun _ => Fuelled.ite (fuelled_const _) <|
    Fuelled.bind (Fuelled.bind (getFrame_fuelled _) fun _ => fuelled_const _) fun _ => fuelled_const _

theorem last_present (hrec : s.Recursive) (hp : ¬s.Present virt) : directorySlot virt ≠ 0x3FF := by
  intro hlast
  apply hp
  rw [Machine.Present, Machine.pde, hlast]
  exact hrec.present

theorem room_maps (hrec : s.Recursive) (h : s.Room temp b frame) :
    ∃ m, (∀ r, Returns (mapPage (s.allocated b) temp frame 3) r ↔ r = m) ∧
      ∃ pde, m.walk temp = some (pde, entryFor frame 3) ∧ frameOf (entryFor frame 3) ≠ m.directory ∧
      frameOf (entryFor frame 3) ≠ frameOf pde := by
  have hleaf (phys : Word) : entryFormat.present (entryFor phys 3) := present_entryFor (by decide)
  have hframe (phys : Word) : frameOf (entryFor phys 3) = frameOf phys := frameOf_low (by decide)
  have entered (c : PfBitmap) (link : Word) (hlink : entryFormat.present link)
      (hown : ¬(frameOf (linked entryFormat s.tables s.directory (directorySlot temp) link) = s.directory ∧
        tableSlot temp = directorySlot temp)) :
      ((s.allocated c).enter temp link (entryFor frame 3)).walk temp =
        some (linked entryFormat s.tables s.directory (directorySlot temp) link, entryFor frame 3) := by
    rw [Machine.walk, enter_tables, enter_directory_frame]
    exact walk_enter_apart hown hlink (hleaf frame)
  by_cases hp : s.Present temp
  · have hold : linked entryFormat s.tables s.directory (directorySlot temp) (entryFor 0 3) = s.pde temp :=
      linked_of_present hp
    have hown := h.entry hp
    rw [← hold] at hown
    have hwalk := entered b (entryFor 0 3) (hleaf 0) hown
    rw [hold] at hwalk
    refine ⟨(s.allocated b).enter temp (entryFor 0 3) (entryFor frame 3),
      fun r => mapPage_returns_present (s := s.allocated b) hrec hp (entryFor 0 3), s.pde temp, hwalk, ?_⟩
    rw [hframe, enter_directory_frame]
    exact ⟨h.apart.1, h.apart.2 hp⟩
  · obtain ⟨c, table, hget, htable, hne⟩ := h.link hp
    have hnew : linked entryFormat s.tables s.directory (directorySlot temp) (entryFor table 3) =
      entryFor table 3 :=
      linked_of_absent hp
    have hwalk := entered c (entryFor table 3) (hleaf table) fun heq =>
      htable <| by rw [← heq.1, hnew, hframe]
    rw [hnew] at hwalk
    have hlast := last_present hrec hp
    refine ⟨(s.allocated c).enter temp (entryFor table 3) (entryFor frame 3), fun r =>
      mapPage_returns_absent (s := s.allocated b) hrec hlast hp (by decide) hget, entryFor table 3, hwalk, ?_⟩
    rw [hframe, hframe, enter_directory_frame]
    exact ⟨h.apart.1, hne⟩

theorem createPageDir_returns {m : Machine} {r : Machine × Word} (h : GetFrameReturns s.bitmap b frame)
    (hmap : Returns (mapPage (s.allocated b) temp frame 3) m) : Returns (createPageDir s temp) r ↔
      (memset m temp 0 0x1000).bind (fun s =>
      (s.writeAny (temp + 1023 * 4) (0xFFC00000 ||| 3)).map fun s => (s, frame)) =
        some r := by
  have hrest (a : PfBitmap × Word) : Fuelled fun fuel =>
      (mapPage { s with bitmap := a.1 } temp a.2 3 fuel).bind fun s =>
        (memset s temp 0 0x1000).bind fun s =>
          (s.writeAny (temp + 1023 * 4) (0xFFC00000 ||| 3)).map fun s => (s, a.2) :=
    Fuelled.bind (mapPage_fuelled _ _ _ _) fun _ => fuelled_const _
  refine (returns_bind_of (getFrame_fuelled s.bitmap) hrest h).trans ?_
  refine (returns_bind_of (mapPage_fuelled _ _ _ _) (fun _ => fuelled_const _) hmap).trans ?_
  exact returns_const

theorem recursive_reaches (h : s.Recursive) : s.Reaches := by
  rw [Machine.Reaches]
  intro virt
  constructor
  · exact translate_pde h virt
  · intro hp
    rw [pte_address]
    exact translate_pte h hp

theorem usable_iff (m : Machine) (frame : Word) :
    Usable ((m.cleared (frameOf frame) 4096).put (frameOf frame) 0x3FF (0xFFC00000 ||| 3)) frame ↔
      frameOf frame = 0xFFC00 := by
  have hlast : ((m.cleared (frameOf frame) 4096).put (frameOf frame) 0x3FF
    (0xFFC00000 ||| 3)).tables (frameOf frame)
      0x3FF = 0xFFC00003 := by
    rw [put_tables, put_same]
    rfl
  have hwindow : frameOf 0xFFC00003 = 0xFFC00 := by decide
  constructor
  · intro h
    rw [← h.link, hlast, hwindow]
  · intro hframe
    refine ⟨fun k hk => ?_, ?_, ?_, fun u hu hentry => recursive_reaches ?_⟩
    · rw [put_tables, put_other fun heq => hk heq.2]
      exact cleared_tables m (frameOf frame) k
    · rw [hlast, hwindow, hframe]
    · rw [hlast]
      decide
    · rw [hlast] at hentry
      rw [Machine.Recursive, hentry, Machine.directory, hu, hframe]
      exact ⟨hwindow, by decide⟩

theorem createPageDir_aligned (hrec : s.Recursive) (h : s.Room temp b frame) (halign : temp &&& 0xFFF = 0) :
    ∃ m : Machine, ∀ r, Returns (createPageDir s temp) r ↔
      r = ((m.cleared (frameOf frame) 4096).put (frameOf frame) 0x3FF (0xFFC00000 ||| 3), frame) := by
  obtain ⟨m, hmap, pde, hwalk, hf⟩ := room_maps hrec h
  have hframe : frameOf (entryFor frame 3) = frameOf frame := frameOf_low (by decide)
  have hzero := offset_zero_iff.mp halign
  refine ⟨m, fun r => ?_⟩
  rw [createPageDir_returns h.get ((hmap m).mpr rfl), memset_clears hwalk hf hzero le_rfl, Option.bind_some,
    last_word hwalk hf hzero, Option.map_some, Option.some.injEq, eq_comm, hframe]

theorem words_offset (h : temp &&& 0x3 = 0) : (pageOffset temp).toNat ≤ 4092 := by
  have hand := congrArg BitVec.toNat h
  rw [BitVec.toNat_and, show (0x3 : Word).toNat = 2 ^ 2 - 1 from rfl, Nat.and_two_pow_sub_one_eq_mod] at hand
  rw [pageOffset_toNat]
  change temp.toNat % 4 = 0 at hand
  omega

theorem last_byte_zero {pd : Word} (hrec : s.Recursive) (h : s.Room temp b frame)
    (halign : ¬temp &&& 0xFFF = 0)
    (hret : Returns (createPageDir s temp) (t, pd)) : t.mem (slotAddress (frameOf pd) 0x3FF) = 0 := by
  obtain ⟨m, hmap, pde, hwalk, hf⟩ := room_maps hrec h
  have hframe : frameOf (entryFor frame 3) = frameOf frame := frameOf_low (by decide)
  obtain ⟨u, hclear, hlast⟩ := Option.bind_eq_some_iff.mp
    ((createPageDir_returns h.get ((hmap m).mpr rfl)).mp hret)
  obtain ⟨v, hwrite, hpair⟩ := Option.map_eq_some_iff.mp hlast
  obtain ⟨rfl, rfl⟩ := Prod.mk.inj hpair
  have hoffset := words_offset h.words
  have hne : (pageOffset temp).toNat ≠ 0 := fun hzero => halign (offset_zero_iff.mpr hzero)
  rw [last_untouched hwrite hoffset hne, ← hframe]
  exact memset_last hwalk hf hoffset hclear (by omega)

/-- The last entry has a constant for a frame, and not the frame of the directory; and it is not the
last entry where the address is not that of a page. -/
theorem create_page_dir_usable_iff (hrec : s.Recursive) (h : s.Room temp b frame) :
    (∀ t pd, Returns (createPageDir s temp) (t, pd) →
    (Usable t pd ↔ temp &&& 0xFFF = 0 ∧ frameOf pd = 0xFFC00)) ∧
      (temp &&& 0xFFF = 0 → ∃ t, ∀ r, Returns (createPageDir s temp) r ↔ r = (t, frame)) := by
  constructor
  · intro t pd hret
    by_cases halign : temp &&& 0xFFF = 0
    · obtain ⟨m, hreturns⟩ := createPageDir_aligned hrec h halign
      obtain ⟨rfl, rfl⟩ := Prod.mk.inj ((hreturns _).mp hret)
      rw [and_iff_right halign]
      exact usable_iff m pd
    · refine iff_of_false (fun hu => ?_) fun hand => halign hand.1
      have hbyte := last_byte_zero hrec h halign hret
      have habsent : ¬entryFormat.present (t.tables (frameOf pd) 0x3FF) := by
        rw [Machine.tables, present_byte, hbyte]
        decide
      apply habsent
      rw [present_iff, show (0x1 : Word) = 0xFFF &&& 0x1 from rfl, ← BitVec.and_assoc, hu.flags]
      decide
  · intro halign
    obtain ⟨m, hreturns⟩ := createPageDir_aligned hrec h halign
    exact ⟨_, hreturns⟩

def lastFrames : PfBitmap := ⟨0, 0x20000, 0x1FF80 * 8, fun _ => 0⟩

theorem window_frame_usable : (∀ t pd, Returns
    (createPageDir (emptyDirectory.allocated lastFrames) 0x400000) (t, pd) →
    (Usable t pd ↔ (0x400000 : Word) &&& 0xFFF = 0 ∧ frameOf pd = 0xFFC00)) ∧
      ((0x400000 : Word) &&& 0xFFF = 0 → ∃ t, ∀ r,
      Returns (createPageDir (emptyDirectory.allocated lastFrames) 0x400000) r ↔
        r = (t, 0xFFC00000)) := by
  refine create_page_dir_usable_iff ⟨by decide, by decide⟩
    ⟨by decide, ⟨10, rfl⟩, ?_, fun hp => ?_, fun _ => ?_⟩
  · exact ⟨by decide, fun hp => absurd hp (by decide)⟩
  · exact absurd hp (by decide)
  · exact ⟨_, 0xFFC01000, ⟨10, rfl⟩, by decide, by decide⟩

theorem emptyDirectory_unusable : emptyDirectory.Recursive ∧
    ∃ t, Returns (createPageDir emptyDirectory 0x400000) (t, 0x8000) ∧ ¬Usable t 0x8000 := by
  have hrec : emptyDirectory.Recursive := ⟨by decide, by decide⟩
  obtain ⟨b, hget⟩ : ∃ b, GetFrameReturns emptyDirectory.bitmap b 0x8000 := ⟨_, 10, rfl⟩
  obtain ⟨c, hlink⟩ : ∃ c, GetFrameReturns b c 0x9000 := by
    obtain ⟨rfl, -⟩ := getFrame_unique hget ⟨10, rfl⟩
    exact ⟨_, 10, rfl⟩
  have hroom : emptyDirectory.Room 0x400000 b 0x8000 := by
    refine ⟨by decide, hget, ⟨by decide, fun hp => absurd hp (by decide)⟩,
      fun hp => absurd hp (by decide), fun _ => ?_⟩
    exact ⟨c, 0x9000, hlink, by decide, by decide⟩
  obtain ⟨m, hreturns⟩ := createPageDir_aligned hrec hroom (by decide)
  refine ⟨hrec, _, (hreturns _).mpr rfl, ?_⟩
  rw [usable_iff]
  decide

end Rinix.Paging
