import Rinix.Frames.Boot

namespace Rinix.Frames

open ByteMemory WhileLoop BitString

def clearedIf : Option Bool → Option Bool → Option Bool
  | some true, _ => some false
  | some false, bit => bit
  | none, some false => some false
  | none, _ => none

def usableKnown (r : MmapChunk) (known : ℕ → Option Bool) : ℕ → Option Bool
  | 0 => if r.Visits 0 then clearedIf (known 7) (known 0) else known 0
  | f + 1 =>
    if r.Visits (f + 1) then
      if (f + 1) % 32 = 0 then clearedIf (known (f + 8)) (known (f + 1))
      else if 25 ≤ (f + 1) % 32 then clearedIf (usableKnown r known f) (known (f + 1))
      else known (f + 1)
    else known (f + 1)

def regionKnown (known : ℕ → Option Bool) (r : MmapChunk) (f : ℕ) : Option Bool :=
  if r.type = mmapUsable then usableKnown r known f else if r.Visits f then some true else known f

def knownBits (regions : List MmapChunk) : ℕ → Option Bool := regions.foldl regionKnown fun _ => none

/-- A way to read what is known of a bit that agrees with the turns of the loop. The bit that is
tested and the one that is cleared are an odd number of bits apart. -/
structure Reading (rel : ℕ → Option Bool → Bool → Prop) : Prop where
  known : ∀ f v, rel f (some v) v
  cleared : ∀ f g t bit known knownBit, (f + g) % 2 = 1 → rel g known t → rel f knownBit bit →
    rel f (clearedIf known knownBit) (if t then false else bit)

def PagesEnd (kernelStart kernelEnd loc : Word) (size : BitVec 64) : Prop :=
  (unmapKernel kernelEnd).toNat < 0xFFFFF000 + (unmapKernel kernelStart).toNat % 0x1000 ∧
    (loc + size.setWidth 32).toNat < 0xFFFFF000 + loc.toNat % 0x1000

def ForgetsMemory (regions rest : List MmapChunk) (last : MmapChunk) (kernelStart kernelEnd loc : Word)
    (size : BitVec 64) : Prop :=
  (∀ mem mem' c c' ret ret',
    CreateBitmapReturns (regions ++ last :: rest) kernelStart kernelEnd loc size mem c ret →
    CreateBitmapReturns (regions ++ last :: rest) kernelStart kernelEnd loc size mem' c' ret' →
      ∀ f, (∃ r ∈ regions, r.Overlaps f) → (used c f ↔ used c' f)) ∧
  ∀ mem c ret, CreateBitmapReturns (regions ++ last :: rest) kernelStart kernelEnd loc size mem c ret →
    ∀ r ∈ regions, r.type = mmapUsable → ∀ f, r.start.toNat ≤ f * 0x1000 →
      (f + 1) * 0x1000 ≤ r.start.toNat + r.size.toNat → 0x100 ≤ f →
      ¬PageIn (unmapKernel kernelStart) (unmapKernel kernelEnd) f → ¬PageIn loc (loc + size.setWidth 32) f →
      (∀ q ∈ regions, q.type ≠ mmapUsable → ¬q.Overlaps f) → ¬used c f

def Settled (regions : List MmapChunk) (kernelStart kernelEnd loc : Word) (size : BitVec 64) (f : ℕ) : Prop :=
  f < 0x100 ∨ PageIn (unmapKernel kernelStart) (unmapKernel kernelEnd) f ∨
  PageIn loc (loc + size.setWidth 32) f ∨ (knownBits regions f).isSome

variable {rel : ℕ → Option Bool → Bool → Prop} {r last : MmapChunk} {regions rest : List MmapChunk}
  {old : ℕ → Bool} {known : ℕ → Option Bool} {kernelStart kernelEnd loc : Word} {size : BitVec 64} {mem : Mem}
  {c : PfBitmap} {ret : Int} {f g : ℕ} {v : Bool}

theorem usableKnown_tested (r : MmapChunk) (known : ℕ → Option Bool) (f : ℕ) : usableKnown r known f =
    if r.Visits f then
      if f % 32 = 0 then clearedIf (known (f + 7)) (known f)
      else if 25 ≤ f % 32 then clearedIf (usableKnown r known (f - 1)) (known f)
      else known f
    else known f := by
  cases f with
  | zero => rfl
  | succ f => rfl

theorem Reading.usable (h : Reading rel) (r : MmapChunk) (hold : ∀ f, rel f (known f) (old f)) (f : ℕ) :
    rel f (usableKnown r known f) (usableBits r old f) := by
  induction f using Nat.strong_induction_on with
  | h f ih =>
    rw [usableKnown_tested, usableBits_tested]
    by_cases hvisits : r.Visits f
    · simp only [hvisits, true_and, ↓reduceIte]
      by_cases hzero : f % 32 = 0
      · simp only [if_pos hzero]
        exact h.cleared f (f + 7) _ _ _ _ (by omega) (hold (f + 7)) (hold f)
      · simp only [if_neg hzero]
        by_cases hhigh : 25 ≤ f % 32
        · simp only [if_pos hhigh, decide_eq_true hhigh, Bool.true_and]
          exact h.cleared f (f - 1) _ _ _ _ (by omega) (ih (f - 1) (by omega)) (hold f)
        · simp only [if_neg hhigh, decide_eq_false hhigh, Bool.false_and, Bool.false_eq_true, ↓reduceIte]
          exact hold f
    · simp only [hvisits, false_and, ↓reduceIte]
      exact hold f

theorem Reading.region (h : Reading rel) (r : MmapChunk) (hold : ∀ f, rel f (known f) (old f)) (f : ℕ) :
    rel f (regionKnown known r f) (regionBits r old f) := by
  rw [regionKnown, regionBits]
  split_ifs with hr hvisits
  · exact h.usable r hold f
  · rw [decide_eq_true hvisits, Bool.true_or]
    exact h.known f true
  · rw [decide_eq_false hvisits, Bool.false_or]
    exact hold f

theorem mapBits_stored (hlast : last.size = 0) (hregions : ∀ r ∈ regions, r.FitsInt) (old : ℕ → Bool) :
    mapBits (regions ++ last :: rest) old = regions.foldl (fun old r => regionBits r old) old := by
  induction regions generalizing old with
  | nil =>
    rw [List.nil_append, mapBits, if_neg (by rw [hlast]; decide)]
    rfl
  | cons r regions ih =>
    rw [List.cons_append, mapBits, if_pos (hregions r List.mem_cons_self).1,
      ih fun q hq => hregions q (List.mem_cons_of_mem _ hq)]
    rfl

theorem Reading.pass (h : Reading rel) (regions : List MmapChunk) (known : ℕ → Option Bool)
    (hold : ∀ f, rel f (known f) (old f)) (f : ℕ) :
    rel f (regions.foldl regionKnown known f) (regions.foldl (fun old r => regionBits r old) old f) := by
  induction regions generalizing known old with
  | nil => exact hold f
  | cons r regions ih => exact ih _ (h.region r hold)

theorem reading_sound : Reading fun _ known bit => ∀ v, known = some v → bit = v := by
  refine ⟨fun f v w h => Option.some.inj h, fun f g t bit known knownBit _ ht hbit v hv => ?_⟩
  rcases known with _ | _ | _
  · rcases knownBit with _ | _ | _
    · cases hv
    · rw [hbit false rfl, ite_self]
      exact Option.some.inj hv
    · cases hv
  · rw [ht false rfl]
    exact hbit v hv
  · rw [ht true rfl]
    exact Option.some.inj hv

theorem reading_alternates (p : ℕ) :
    Reading fun f known bit => bit = known.getD (decide ((f + p) % 2 = 0)) := by
  refine ⟨fun f v => rfl, fun f g t bit known knownBit hfg ht hbit => ?_⟩
  have hother : decide ((g + p) % 2 = 0) = !decide ((f + p) % 2 = 0) := by
    rw [← decide_not]
    exact decide_eq_decide.mpr (by omega)
  rw [ht, hbit, hother]
  cases decide ((f + p) % 2 = 0) <;> rcases known with _ | _ | _ <;> rcases knownBit with _ | _ | _ <;> rfl

theorem knownBits_sound (hlast : last.size = 0) (hregions : ∀ r ∈ regions, r.FitsInt) (old : ℕ → Bool)
    (h : knownBits regions f = some v) : mapBits (regions ++ last :: rest) old f = v := by
  rw [mapBits_stored hlast hregions]
  exact reading_sound.pass regions (fun _ => none) (fun f v hv => by cases hv) f v h

theorem knownBits_alternate (hlast : last.size = 0) (hregions : ∀ r ∈ regions, r.FitsInt) (p : ℕ)
    (hold : ∀ f, old f = decide ((f + p) % 2 = 0)) (h : knownBits regions f = none) :
    mapBits (regions ++ last :: rest) old f = decide ((f + p) % 2 = 0) := by
  have hpass := (reading_alternates p).pass regions (fun _ => none) hold f
  rw [show regions.foldl regionKnown (fun _ => none) f = none from h] at hpass
  rw [mapBits_stored hlast hregions]
  exact hpass

theorem mapBits_clear (hlast : last.size = 0) (hregions : ∀ r ∈ regions, r.FitsInt)
    (hno : ∀ q ∈ regions, q.type ≠ mmapUsable → ¬q.Overlaps f) (hold : old f = false) :
    mapBits (regions ++ last :: rest) old f = false := by
  rw [mapBits_stored hlast hregions]
  induction regions generalizing old with
  | nil => exact hold
  | cons r regions ih =>
    have hclear : regionBits r old f = false := by
      rw [regionBits]
      split_ifs with hr
      · rw [usableBits_tested, hold, ite_self]
      · rw [hold, Bool.or_false, decide_eq_false_iff_not, ← overlaps_visits (hregions r List.mem_cons_self)]
        exact hno r List.mem_cons_self hr
    exact ih (fun q hq => hregions q (List.mem_cons_of_mem _ hq))
      (fun q hq => hno q (List.mem_cons_of_mem _ hq)) hclear

theorem ends_of_returns (h : CreateBitmapReturns regions kernelStart kernelEnd loc size mem c ret) :
    PagesEnd kernelStart kernelEnd loc size := by
  obtain ⟨fuel, h⟩ := h
  obtain ⟨-, b, d, -, hd, hc⟩ := createBitmap_iff.mp h
  exact ⟨pages_stop hd, pages_stop hc⟩

theorem overlaps_low (hr : r.FitsInt) (h : r.Overlaps f) : f < 0x100000 := by
  obtain ⟨a, -, ha, rfl⟩ := h
  have hend := hr.2
  omega

theorem bit_alternates (p : ℕ) (hp : p < 2) (f : ℕ) :
    BitString.bit (fun _ => if p = 0 then 0xAA else 0x55) loc f = decide ((f + p) % 2 = 0) := by
  have hbyte : ∀ p < 2, ∀ i < 8, msb (if p = 0 then 0xAA else 0x55) i = decide ((i + p) % 2 = 0) := by decide
  rw [BitString.bit, hbyte p hp _ (by omega)]
  exact decide_eq_decide.mpr (by omega)

theorem Settled.same {mem' : Mem} {c' : PfBitmap} {ret' : Int} (hlast : last.size = 0)
    (hregions : ∀ r ∈ regions, r.FitsInt) (h : Settled regions kernelStart kernelEnd loc size f)
    (hf : f < 0x100000)
    (hc : CreateBitmapReturns (regions ++ last :: rest) kernelStart kernelEnd loc size mem c ret)
    (hc' : CreateBitmapReturns (regions ++ last :: rest) kernelStart kernelEnd loc size mem' c' ret') :
    used c f ↔ used c' f := by
  rw [used_iff hf, used_iff hf, created_bit hc hf, created_bit hc' hf]
  rcases h with hlow | hkernel | hmap | hknown
  · exact iff_of_true (Or.inl hlow) (Or.inl hlow)
  · exact iff_of_true (Or.inr (Or.inl hkernel)) (Or.inr (Or.inl hkernel))
  · exact iff_of_true (Or.inr (Or.inr (Or.inl hmap))) (Or.inr (Or.inr (Or.inl hmap)))
  · obtain ⟨v, hv⟩ := Option.isSome_iff_exists.mp hknown
    rw [knownBits_sound hlast hregions _ hv, knownBits_sound hlast hregions _ hv]

/-- The map does not depend on the memory it is made in if and only if every bit of a frame of the
regions is settled, unless the code has no end anyway. -/
theorem forgets_memory_iff (regions rest : List MmapChunk) (last : MmapChunk)
    (kernelStart kernelEnd loc : Word)
    (size : BitVec 64) (hlast : last.size = 0) (hregions : ∀ r ∈ regions, r.FitsInt) :
    ForgetsMemory regions rest last kernelStart kernelEnd loc size ↔
      ¬PagesEnd kernelStart kernelEnd loc size ∨
        ∀ f, (∃ r ∈ regions, r.Overlaps f) → Settled regions kernelStart kernelEnd loc size f := by
  constructor
  · rintro ⟨hsame, -⟩
    by_contra hno
    rw [not_or, not_not] at hno
    obtain ⟨⟨hkernel, hmap⟩, hsettled⟩ := hno
    simp only [not_forall] at hsettled
    obtain ⟨f, ⟨r, hr, hover⟩, hopen⟩ := hsettled
    simp only [Settled, not_or, Option.not_isSome_iff_eq_none] at hopen
    obtain ⟨hlow, hkernelPage, hmapPage, hnone⟩ := hopen
    have hf := overlaps_low (hregions r hr) hover
    have hused (p : ℕ) (hp : p < 2) : ∃ c,
        CreateBitmapReturns (regions ++ last :: rest) kernelStart kernelEnd loc size
          (fun _ => if p = 0 then 0xAA else 0x55) c 0 ∧ (used c f ↔ (f + p) % 2 = 0) := by
      obtain ⟨c, hc⟩ := createBitmap_ends hlast hregions hkernel hmap
      refine ⟨c, hc, ?_⟩
      rw [used_iff hf, created_bit hc hf, knownBits_alternate hlast hregions p (bit_alternates p hp) hnone,
        decide_eq_true_iff]
      tauto
    obtain ⟨c, hc, heven⟩ := hused 0 (by omega)
    obtain ⟨c', hc', hodd⟩ := hused 1 (by omega)
    have hiff := hsame _ _ c c' 0 0 hc hc' f ⟨r, hr, hover⟩
    rw [heven, hodd] at hiff
    omega
  · intro h
    have hsettled (mem : Mem) (c : PfBitmap) (ret : Int)
        (hc : CreateBitmapReturns (regions ++ last :: rest) kernelStart kernelEnd loc size mem c ret) (f : ℕ)
        (hcovered : ∃ r ∈ regions, r.Overlaps f) : Settled regions kernelStart kernelEnd loc size f :=
      h.resolve_left (not_not.mpr (ends_of_returns hc)) f hcovered
    refine ⟨fun mem mem' c c' ret ret' hc hc' f hcovered => ?_,
      fun mem c ret hc r hr husable f hstart hend hlow hkernel hmap hno => ?_⟩
    · obtain ⟨r, hr, hover⟩ := hcovered
      exact (hsettled mem c ret hc f ⟨r, hr, hover⟩).same hlast hregions
        (overlaps_low (hregions r hr) hover) hc hc'
    · have hover : r.Overlaps f := ⟨f * 0x1000, hstart, by omega, Nat.mul_div_cancel f (by decide)⟩
      have hf := overlaps_low (hregions r hr) hover
      have hends := ends_of_returns hc
      have hrun : ∃ c', CreateBitmapReturns (regions ++ last :: rest) kernelStart kernelEnd loc size
        (fun _ => 0) c' 0 :=
        createBitmap_ends hlast hregions hends.1 hends.2
      obtain ⟨c', hc'⟩ := hrun
      have hzero : BitString.bit (fun _ => 0) loc f = false := BitVec.getLsbD_zero
      rw [(hsettled mem c ret hc f ⟨r, hr, hover⟩).same hlast hregions hf hc hc', used_iff hf,
        created_bit hc' hf, mapBits_clear hlast hregions hno hzero]
      simp only [hkernel, hmap, Bool.false_eq_true, or_false]
      omega

def besideReserved : List MmapChunk := [⟨0x218000, 0x1000, 1⟩, ⟨0x219000, 0x1000, 0⟩]

theorem besideReserved_forgotten :
    ForgetsMemory besideReserved [] ⟨0, 0, 0⟩ 0xC0100000 0xC0120000 0x121000 0x20000 := by
  have hfits : ∀ r ∈ besideReserved, r.FitsInt := by
    simp only [besideReserved, List.mem_cons, List.not_mem_nil, or_false, forall_eq_or_imp, forall_eq]
    exact ⟨⟨by decide, by decide⟩, by decide, by decide⟩
  refine (forgets_memory_iff besideReserved [] ⟨0, 0, 0⟩ _ _ _ _ rfl hfits).mpr (Or.inr ?_)
  rintro f ⟨r, hr, hover⟩
  rw [overlaps_iff (hfits r hr)] at hover
  simp only [besideReserved, List.mem_cons, List.not_mem_nil, or_false] at hr
  refine Or.inr (Or.inr (Or.inr ?_))
  rcases hr with rfl | rfl
  · rw [show f = 0x218 from Nat.le_antisymm hover.2 hover.1]
    decide
  · rw [show f = 0x219 from Nat.le_antisymm hover.2 hover.1]
    decide

def alone : List MmapChunk := [⟨0x201000, 0x1000, 0⟩]

def mapOf (v : Byte) : Mem := fun a => if (a - 0x101000).toNat < 0x1000 then v else 0

theorem alone_not_forgotten : ¬ForgetsMemory alone [] ⟨0, 0, 0⟩ 0xC0100000 0xC0100000 0x101000 0x1000 := by
  have hrun (v : Byte) (hv : v = 0 ∨ v = 0xFF) : ∃ c,
      CreateBitmapReturns (alone ++ [⟨0, 0, 0⟩]) 0xC0100000 0xC0100000 0x101000 0x1000 (mapOf v) c 0 ∧
        (used c 0x201 ↔ v = 0xFF) := by
    rcases hv with rfl | rfl
    · exact ⟨_, ⟨4, rfl⟩, by decide⟩
    · exact ⟨_, ⟨4, rfl⟩, by decide⟩
  obtain ⟨c, hc, hused⟩ := hrun 0xFF (Or.inr rfl)
  obtain ⟨c', hc', hused'⟩ := hrun 0 (Or.inl rfl)
  rintro ⟨hsame, -⟩
  have hiff := hsame _ _ c c' 0 0 hc hc' 0x201 ⟨_, List.mem_cons_self,
    0x201000, by decide, by decide, by decide⟩
  exact absurd (hused'.mp (hiff.mp (hused.mpr rfl))) (by decide)

end Rinix.Frames
