import Mathlib.Data.List.Induction
import Rinix.Frames.RejectedFree
import Rinix.Paging.Dealloc

namespace Rinix.Paging

open ByteMemory PageTable WhileLoop Frames Runs

inductive Op where
  | allocMapPage (virt flags : Word)
  | deallocPage (virt : Word)
  | deallocPageTable (virt : Word)

def Op.result (s : Machine) : Op → ℕ → Option Machine
  | .allocMapPage virt flags, fuel => Paging.allocMapPage s virt flags fuel
  | .deallocPage virt, _ => Paging.deallocPage s virt
  | .deallocPageTable virt, _ => Paging.deallocPageTable s virt

def Steps (s : Machine) (e : Op) (t : Machine) : Prop := Returns (e.result s) t

def Machine.passed (s : Machine) : Op → Option Word
  | .allocMapPage _ _ => none
  | .deallocPage virt => (s.read (pageDirVaddr ||| (virt >>> 22) * 4)).bind fun pt =>
      s.readAny (entryPointer pt virt)
  | .deallocPageTable virt => s.read (pageDirVaddr ||| (virt >>> 22) * 4)

def Machine.Unmapped (s : Machine) : Op → Prop
  | .allocMapPage _ _ => False
  | .deallocPage virt => s.walk virt = none
  | .deallocPageTable virt => ¬s.Present virt

def SameFrames (b c : PfBitmap) : Prop := ∀ f < 0x100000, used c f ↔ used b f

def LowUsed (b : PfBitmap) : Prop := ∀ f < 0x100, used b f

/-- In every step of the run, a deallocation of what is not there leaves the bitmap alone, and the
first megabyte stays used. -/
def Spared (s : Machine) (es : List Op) (t : Machine) : Prop :=
  ∀ es₁ e es₂ u v, es = es₁ ++ e :: es₂ → Run Steps s es₁ u → Steps u e v → Run Steps v es₂ t →
    (u.Unmapped e → SameFrames u.bitmap v.bitmap) ∧ LowUsed v.bitmap

def Machine.Harmless (s : Machine) (e : Op) : Prop :=
  ∀ a, s.passed e = some a → used s.bitmap (frameOf a).toNat → ¬s.Unmapped e ∧ 0x100 ≤ (frameOf a).toNat

variable {s t u v : Machine} {b c : PfBitmap} {e : Op} {es : List Op} {a virt flags : Word} {fuel : ℕ}

theorem getFrame_keeps (h : getFrame b fuel = some (c, a)) {f : ℕ} (hf : f < 0x100000)
    (hused : used b f) : used c f := by
  obtain ⟨g, -, rfl, -⟩ := getFrame_iff.mp ⟨fuel, h⟩
  rw [used_iff hf] at hused ⊢
  rw [PfBitmap.bit, BitString.bit_setBit_mod, Bool.or_eq_true]
  exact Or.inr hused

theorem write_bitmap {value : Word} (h : s.write virt value = some t) : t.bitmap = s.bitmap := by
  obtain ⟨p, -, rfl⟩ := Option.map_eq_some_iff.mp h
  rfl

theorem allocPageTable_keeps (h : allocPageTable s virt flags fuel = some t) {f : ℕ} (hf : f < 0x100000)
    (hused : used s.bitmap f) : used t.bitmap f := by
  obtain ⟨⟨c, page⟩, hget, hset⟩ := Option.bind_eq_some_iff.mp h
  rw [write_bitmap hset]
  exact getFrame_keeps hget hf hused

theorem allocPage_keeps (h : allocPage s virt flags fuel = some t) {f : ℕ} (hf : f < 0x100000)
    (hused : used s.bitmap f) : used t.bitmap f := by
  obtain ⟨⟨c, page⟩, hget, hset⟩ := Option.bind_eq_some_iff.mp h
  rw [write_bitmap hset]
  exact getFrame_keeps hget hf hused

theorem allocMapPage_keeps (h : allocMapPage s virt flags fuel = some t) {f : ℕ} (hf : f < 0x100000)
    (hused : used s.bitmap f) : used t.bitmap f := by
  obtain ⟨entry, -, h⟩ := Option.bind_eq_some_iff.mp h
  split_ifs at h
  · exact allocPage_keeps h hf hused
  · obtain ⟨u, hu, h⟩ := Option.bind_eq_some_iff.mp h
    exact allocPage_keeps h hf (allocPageTable_keeps hu hf hused)

theorem dealloc_frees (h : Steps s e t) (halloc : ∀ virt flags, e ≠ .allocMapPage virt flags) :
    ∃ a, s.passed e = some a ∧
      ∀ f < 0x100000, used t.bitmap f ↔ used s.bitmap f ∧ f ≠ (frameOf a).toNat := by
  obtain ⟨fuel, h⟩ := h
  cases e with
  | allocMapPage virt flags => exact absurd rfl (halloc virt flags)
  | deallocPage virt =>
    rw [Op.result, deallocPage_eq] at h
    obtain ⟨pt, hpt, h⟩ := Option.bind_eq_some_iff.mp h
    obtain ⟨a, ha, h⟩ := Option.bind_eq_some_iff.mp h
    obtain ⟨q, -, rfl⟩ := Option.map_eq_some_iff.mp h
    refine ⟨a, Option.bind_eq_some_iff.mpr ⟨pt, hpt, ha⟩, fun f hf => ?_⟩
    refine (freed_iff _ _ hf).trans ?_
    rw [frameOf_mask]
  | deallocPageTable virt =>
    rw [Op.result, deallocPageTable, pde_mask] at h
    obtain ⟨a, ha, h⟩ := Option.bind_eq_some_iff.mp h
    refine ⟨a, ha, fun f hf => ?_⟩
    rw [write_bitmap h]
    exact freed_iff _ _ hf

theorem frame_lt (a : Word) : (frameOf a).toNat < 0x100000 := (frameOf a).isLt

theorem step_spared (h : Steps s e t) (hlow : LowUsed s.bitmap) :
    (s.Unmapped e → SameFrames s.bitmap t.bitmap) ∧ LowUsed t.bitmap ↔ s.Harmless e := by
  by_cases halloc : ∀ virt flags, e ≠ .allocMapPage virt flags
  · obtain ⟨a, ha, hfreed⟩ := dealloc_frees h halloc
    constructor
    · rintro ⟨hsame, hlow'⟩ a' ha' hused
      obtain rfl := Option.some.inj (ha.symm.trans ha')
      refine ⟨fun hun => ?_, ?_⟩
      · exact ((hfreed _ (frame_lt a)).mp ((hsame hun _ (frame_lt a)).mpr hused)).2 rfl
      · by_contra hlt
        exact ((hfreed _ (frame_lt a)).mp (hlow' _ (by omega))).2 rfl
    · intro hharmless
      have hkept (f : ℕ) (hf : f < 0x100000) (hused : used s.bitmap f)
          (hne : used s.bitmap (frameOf a).toNat → f ≠ (frameOf a).toNat) : used t.bitmap f := by
        rw [hfreed f hf]
        refine ⟨hused, fun heq => hne ?_ heq⟩
        rw [← heq]
        exact hused
      refine ⟨fun hun f hf => ⟨fun hused => ((hfreed f hf).mp hused).1, fun hused => ?_⟩, fun f hf => ?_⟩
      · exact hkept f hf hused fun hpassed => absurd hun (hharmless a ha hpassed).1
      · refine hkept f (by omega) (hlow f hf) fun hpassed heq => ?_
        have hle := (hharmless a ha hpassed).2
        omega
  · simp only [not_forall, not_not] at halloc
    obtain ⟨virt, flags, rfl⟩ := halloc
    obtain ⟨fuel, h⟩ := h
    refine iff_of_true ⟨False.elim, fun f hf => ?_⟩ fun a ha => ?_
    · exact allocMapPage_keeps h (by omega) (hlow f hf)
    · cases ha

theorem low_throughout (hlow : LowUsed s.bitmap)
    (hstep : ∀ es₁ e es₂ u v, es = es₁ ++ e :: es₂ → Run Steps s es₁ u → Steps u e v →
    Run Steps v es₂ t →
      LowUsed u.bitmap → LowUsed v.bitmap) :
    ∀ es₁ es₂ u, es = es₁ ++ es₂ → Run Steps s es₁ u → Run Steps u es₂ t → LowUsed u.bitmap := by
  intro es₁
  induction es₁ using List.reverseRecOn with
  | nil =>
    rintro es₂ u - hu -
    cases hu
    exact hlow
  | append_singleton es₁ e ih =>
    intro es₂ v hes hv hrest
    obtain ⟨u, hu, hlast⟩ := run_append.mp hv
    obtain ⟨v', hcall, hnil⟩ := run_cons.mp hlast
    cases hnil
    rw [List.append_assoc, List.singleton_append] at hes
    exact hstep es₁ e es₂ u v hes hu hcall hrest (ih (e :: es₂) u hes hu (.cons hcall hrest))

/-- A run frees nothing that is not mapped and nothing of the first megabyte if and only if each of
its deallocations is harmless. -/
theorem spared_iff (hlow : LowUsed s.bitmap) : Spared s es t ↔
    ∀ es₁ e es₂ u v, es = es₁ ++ e :: es₂ → Run Steps s es₁ u → Steps u e v → Run Steps v es₂ t →
    u.Harmless e := by
  constructor
  · intro h es₁ e es₂ u v hes hu hcall hrest
    have hthrough := low_throughout hlow fun es₁ e es₂ u v hes hu hcall hrest _ =>
      (h es₁ e es₂ u v hes hu hcall hrest).2
    have hlowu := hthrough es₁ (e :: es₂) u hes hu (.cons hcall hrest)
    exact (step_spared hcall hlowu).mp (h es₁ e es₂ u v hes hu hcall hrest)
  · intro h es₁ e es₂ u v hes hu hcall hrest
    have hthrough := low_throughout hlow fun es₁ e es₂ u v hes hu hcall hrest hlowu =>
      ((step_spared hcall hlowu).mpr (h es₁ e es₂ u v hes hu hcall hrest)).2
    have hlowu := hthrough es₁ (e :: es₂) u hes hu (.cons hcall hrest)
    exact (step_spared hcall hlowu).mpr (h es₁ e es₂ u v hes hu hcall hrest)

def lowFrames : PfBitmap := ⟨0, 0x20000, 0, fun a => if a < 32 then 0xFF else 0⟩

theorem lowFrames_used : LowUsed lowFrames := by
  intro f hf
  rw [used_iff (by omega), PfBitmap.bit, BitString.bit]
  have hbyte : lowFrames.mem (lowFrames.ptr + word (f / 8)) = 0xFF := by
    apply if_pos
    rw [BitVec.lt_def, show lowFrames.ptr = word 0 from rfl, word_add, toNat_word (by omega)]
    change 0 + f / 8 < 32
    omega
  rw [hbyte, BitString.msb]
  have hall : ∀ k < 8, (0xFF : Byte).getLsbD k = true := by decide
  exact hall _ (by omega)

def mappedAbove : Machine := (emptyDirectory.allocated lowFrames).put 0 1 0x100003

theorem mapped_table_freed : ∃ t, Run Steps mappedAbove [.deallocPageTable 0x400000] t ∧
    Spared mappedAbove [.deallocPageTable 0x400000] t := by
  have hlow : LowUsed mappedAbove.bitmap := lowFrames_used
  refine ⟨_, .cons ⟨0, rfl⟩ (.nil _), (spared_iff hlow).mpr ?_⟩
  intro es₁ e es₂ u v hes hu _ _ a ha _
  cases es₁ with
  | cons e' es₁ => simp at hes
  | nil =>
    obtain ⟨rfl, -⟩ := List.cons.inj hes
    cases hu
    obtain rfl : (0x100003 : Word) = a := Option.some.inj ha
    exact ⟨fun hun => hun (by decide), by decide⟩

theorem frame_zero_freed : LowUsed (emptyDirectory.allocated lowFrames).bitmap ∧
    (emptyDirectory.allocated lowFrames).Unmapped (.deallocPageTable 0x400000) ∧
    ∃ t, Steps (emptyDirectory.allocated lowFrames) (.deallocPageTable 0x400000) t ∧ ¬used t.bitmap 0 :=
  ⟨lowFrames_used, fun hp => absurd hp (by decide), _, ⟨0, rfl⟩, by decide⟩

end Rinix.Paging
