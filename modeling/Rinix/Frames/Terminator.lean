import Rinix.Frames.CreateMmap

namespace Rinix.Frames

open ByteMemory WhileLoop

def Terminated (es : List MultibootEntry) (regions : List MmapChunk) : Prop :=
  (∃ r, regions[es.length]? = some r ∧ r.size = 0) ∧ visible regions = es.map MultibootEntry.toChunk

instance walkedDecidable (info : MultibootInfo) (m : Mem) : ∀ pos es, Decidable (Walked info m pos es)
  | _, [] => inferInstanceAs (Decidable (¬_))
  | pos, e :: es =>
    have := walkedDecidable info m (pos + e.size + 4) es
    inferInstanceAs (Decidable (_ ∧ _ ∧ _))

variable {info : MultibootInfo} {m : Mem} {es es' : List MultibootEntry} {prior : List MmapChunk} {pos : Word}

theorem Walked.unique (h : Walked info m pos es) (h' : Walked info m pos es') : es = es' := by
  induction es generalizing pos es' with
  | nil =>
    cases es' with
    | nil => rfl
    | cons e' es' => exact absurd h'.1 h
  | cons e es ih =>
    cases es' with
    | nil => exact absurd h.1 h'
    | cons e' es' =>
      obtain ⟨-, he, hrest⟩ := h
      obtain ⟨-, he', hrest'⟩ := h'
      obtain rfl : e = e' := he.symm.trans he'
      rw [ih hrest hrest']

theorem written_behind (es : List MultibootEntry) (prior : List MmapChunk) :
    (written es prior)[es.length]? = prior[es.length]? := by
  rw [written, List.getElem?_append_right (by rw [List.length_map]), List.length_map, Nat.sub_self,
    List.getElem?_drop, Nat.add_zero]

theorem toChunk_visible {e : MultibootEntry} (h : e.len.toNat % 0x100000000 ≠ 0) : 0 < e.toChunk.size := by
  obtain ⟨-, hsize, -⟩ := toChunk_cut e
  have hpos : 0 < e.toChunk.size.toNat := by
    rw [hsize]
    exact Nat.pos_of_ne_zero h
  exact hpos

theorem visible_written (hsizes : ∀ e ∈ es, e.len.toNat % 0x100000000 ≠ 0) (prior : List MmapChunk) :
    visible (written es prior) = es.map MultibootEntry.toChunk ++ visible (prior.drop es.length) := by
  apply List.takeWhile_append_of_pos
  intro r hr
  obtain ⟨e, he, rfl⟩ := List.mem_map.mp hr
  exact decide_eq_true (toChunk_visible (hsizes e he))

theorem terminated_written (hsizes : ∀ e ∈ es, e.len.toNat % 0x100000000 ≠ 0) :
    Terminated es (written es prior) ↔ ∃ r, prior[es.length]? = some r ∧ r.size = 0 := by
  rw [Terminated, written_behind]
  apply and_iff_left_of_imp
  rintro ⟨r, hr, hsize⟩
  obtain ⟨hlt, rfl⟩ := List.getElem?_eq_some_iff.mp hr
  rw [visible_written hsizes, List.drop_eq_getElem_cons hlt, visible, List.takeWhile_cons_of_neg,
    List.append_nil]
  rw [hsize]
  decide

/-- The array is terminated if and only if an element is left over whose size was 0 before. -/
theorem terminated_iff (info : MultibootInfo) (m : Mem) (prior regions : List MmapChunk) (ret : Int)
    (es : List MultibootEntry) (hlen : prior.length = mmapRegionNum)
    (hret : Returns (createMmap info m prior) (regions, ret)) (hwalk : Walked info m info.mmapAddr es)
    (hsizes : ∀ e ∈ es, e.len.toNat % 0x100000000 ≠ 0) :
    Terminated es regions ↔
      es.length < mmapRegionNum ∧ (es = [] ∨ ∀ r, prior[es.length]? = some r → r.size = 0) := by
  obtain ⟨-, es', hwalk', -, rfl, -⟩ := (createMmap_iff hlen).mp hret
  obtain rfl := hwalk.unique hwalk'
  rw [terminated_written hsizes]
  cases es with
  | nil =>
    refine iff_of_true ⟨⟨0, 0, 0⟩, ?_, rfl⟩ ⟨by decide, Or.inl rfl⟩
    rw [List.length_nil, List.getElem?_set_self (by rw [hlen]; decide)]
  | cons e es =>
    rw [List.length_cons, List.getElem?_set_ne (Nat.succ_ne_zero _).symm]
    constructor
    · rintro ⟨r, hr, hsize⟩
      obtain ⟨hlt, -⟩ := List.getElem?_eq_some_iff.mp hr
      refine ⟨by omega, Or.inr fun q hq => ?_⟩
      rw [hr, Option.some.injEq] at hq
      rw [← hq, hsize]
    · rintro ⟨hlt, hnil | hclear⟩
      · cases hnil
      · rw [← hlen] at hlt
        exact ⟨_, List.getElem?_eq_getElem hlt, hclear _ (List.getElem?_eq_getElem hlt)⟩

theorem onePage_terminated : ∃ regions,
    Returns (createMmap ⟨2, 24, 0x9000⟩ (onePageMem 0) blankRegions) (regions, 0) ∧
    Terminated [onePage 0] regions := by
  have hret : Returns (createMmap ⟨2, 24, 0x9000⟩ (onePageMem 0) blankRegions) (filled [onePage 0], 0) :=
    createMmap_returns (by decide) (onePage_listed 0) (by decide) (by decide)
  have hwalk : Walked ⟨2, 24, 0x9000⟩ (onePageMem 0) 0x9000 [onePage 0] :=
    (onePage_listed 0).walked (by decide) (by decide)
  refine ⟨_, hret, (terminated_iff _ _ _ _ 0 _ (by decide) hret hwalk (by decide)).mpr ⟨by decide, Or.inr ?_⟩⟩
  rintro r hr
  obtain rfl := Option.some.inj hr
  rfl

def sixteenMem : Mem := fun a =>
  match a.toNat % 24 with
  | 0 => 20
  | 6 => BitVec.ofNat 8 (a.toNat / 24)
  | 13 => 0x10
  | 20 => 1
  | _ => 0

def sixteenPages : List MultibootEntry :=
  (List.range 16).map fun i => ⟨20, BitVec.ofNat 64 (i * 0x10000), 0x1000, 1⟩

theorem sixteen_unterminated : ∃ regions,
    Returns (createMmap ⟨2, 384, 0x9000⟩ sixteenMem blankRegions) (regions, 0) ∧
      Walked ⟨2, 384, 0x9000⟩ sixteenMem 0x9000 sixteenPages ∧
      (∀ e ∈ sixteenPages, e.len.toNat % 0x100000000 ≠ 0) ∧ ¬Terminated sixteenPages regions := by
  have hwalk : Walked ⟨2, 384, 0x9000⟩ sixteenMem 0x9000 sixteenPages := by decide +kernel
  have hsizes : ∀ e ∈ sixteenPages, e.len.toNat % 0x100000000 ≠ 0 := by decide
  refine ⟨_, (createMmap_iff (by decide)).mpr ⟨by decide, _, hwalk, by decide, rfl, rfl⟩, hwalk, hsizes, ?_⟩
  rw [terminated_written hsizes]
  rintro ⟨r, hr, -⟩
  cases hr

end Rinix.Frames
