import Rinix.Frames.Refinement
import Rinix.Frames.RegionPass

namespace Rinix.Frames

open ByteMemory WhileLoop BitString Runs

variable {b c d : PfBitmap} {r last : MmapChunk} {regions rest pre post : List MmapChunk}
  {kernelStart kernelEnd loc : Word} {size : BitVec 64} {mem : Mem} {ret : Int} {fuel f g : ℕ}

theorem markRegions_cons (hr : r.FitsInt) (h : markRegions fuel (r :: regions) b = some d) :
    ∃ c, run (forTurn (bitmapSecEnd r) 1 (markSection r)) fuel (bitmapSecStart r, b) = some c ∧
      markRegions fuel regions c = some d := by
  rw [markRegions, if_pos hr.1] at h
  exact Option.bind_eq_some_iff.mp h

theorem markRegions_end (hlast : last.size = 0) (b : PfBitmap) :
    markRegions fuel (last :: rest) b = some b := by
  rw [markRegions, if_neg (by rw [hlast]; decide)]

theorem regions_other (hlast : last.size = 0) (hregions : ∀ r ∈ regions, r.FitsInt)
    (h : markRegions fuel (regions ++ last :: rest) b = some d) :
    SameMap b d ∧ ∀ g < 0x100000, (∀ r ∈ regions, ¬r.Overlaps g) → d.bit g = b.bit g := by
  induction regions generalizing b with
  | nil =>
    rw [List.nil_append, markRegions_end hlast, Option.some.injEq] at h
    rw [← h]
    exact ⟨⟨rfl, rfl⟩, fun g _ _ => rfl⟩
  | cons r regions ih =>
    obtain ⟨c, hc, hd⟩ := markRegions_cons (hregions r List.mem_cons_self) h
    obtain ⟨hsame, hother, -⟩ := region_bits (hregions r List.mem_cons_self) hc
    obtain ⟨hsame', hother'⟩ := ih (fun q hq => hregions q (List.mem_cons_of_mem _ hq)) hd
    refine ⟨hsame.trans hsame', fun g hg hno => ?_⟩
    rw [hother' g hg fun q hq => hno q (List.mem_cons_of_mem _ hq), hother g hg (hno r List.mem_cons_self)]

theorem regions_keep (hlast : last.size = 0) (hregions : ∀ r ∈ regions, r.FitsInt)
    (h : markRegions fuel (regions ++ last :: rest) b = some d) (hf : f < 0x100000)
    (husable : ∀ r ∈ regions, r.type = mmapUsable → ¬r.Overlaps f) (hbit : b.bit f = true) :
    d.bit f = true := by
  induction regions generalizing b with
  | nil =>
    rw [List.nil_append, markRegions_end hlast, Option.some.injEq] at h
    rwa [← h]
  | cons r regions ih =>
    obtain ⟨c, hc, hd⟩ := markRegions_cons (hregions r List.mem_cons_self) h
    obtain ⟨-, hother, hunusable⟩ := region_bits (hregions r List.mem_cons_self) hc
    refine ih (fun q hq => hregions q (List.mem_cons_of_mem _ hq)) hd
      (fun q hq => husable q (List.mem_cons_of_mem _ hq)) ?_
    by_cases hover : r.Overlaps f
    · exact hunusable (fun hu => husable r List.mem_cons_self hu hover) f hf hover
    · rw [hother f hf hover, hbit]

theorem regions_unusable (hlast : last.size = 0) (hregions : ∀ q ∈ pre ++ r :: post, q.FitsInt)
    (h : markRegions fuel (pre ++ r :: post ++ last :: rest) b = some d) (hf : f < 0x100000)
    (hr : r.type ≠ mmapUsable) (hover : r.Overlaps f)
    (husable : ∀ q ∈ post, q.type = mmapUsable → ¬q.Overlaps f) : d.bit f = true := by
  induction pre generalizing b with
  | nil =>
    obtain ⟨c, hc, hd⟩ := markRegions_cons (hregions r List.mem_cons_self) h
    obtain ⟨-, -, hunusable⟩ := region_bits (hregions r List.mem_cons_self) hc
    exact regions_keep hlast (fun q hq => hregions q (List.mem_cons_of_mem _ hq)) hd hf husable
      (hunusable hr f hf hover)
  | cons q pre ih =>
    obtain ⟨c, -, hd⟩ := markRegions_cons (hregions q List.mem_cons_self) h
    exact ih (fun q hq => hregions q (List.mem_cons_of_mem _ hq)) hd

theorem markRegions_ends (rest : List MmapChunk) (b : PfBitmap) (hlast : last.size = 0)
    (hregions : ∀ r ∈ regions, r.FitsInt) (hfuel : 0x100000000 ≤ fuel) :
    ∃ d, markRegions fuel (regions ++ last :: rest) b = some d := by
  induction regions generalizing b with
  | nil => exact ⟨b, markRegions_end hlast b⟩
  | cons r regions ih =>
    have hr := hregions r List.mem_cons_self
    have hend := bitmapSecEnd_toNat hr
    have hbound := hr.2
    have hone : (1 : Word).toNat = 1 := rfl
    have hends : ∃ c, run (forTurn (bitmapSecEnd r) 1 (markSection r)) fuel (bitmapSecStart r, b) = some c :=
      for_ends (by omega) (BitVec.toNat_add_of_lt (by omega)) (by omega) (by omega)
    obtain ⟨c, hc⟩ := hends
    obtain ⟨d, hd⟩ := ih c fun q hq => hregions q (List.mem_cons_of_mem _ hq)
    refine ⟨d, ?_⟩
    rw [List.cons_append, markRegions, if_pos hr.1, hc]
    exact hd

def markLowMemory (b : PfBitmap) : PfBitmap :=
  { b with mem := memset b.mem b.ptr 0xFF (0x100000 / 0x1000 / 8) }

theorem markLowMemory_bit (hg : g < 0x100000) : (markLowMemory b).bit g =
    (decide (g < 0x100) || b.bit g) := by
  rw [PfBitmap.bit, markLowMemory, memset_bit (by omega) hg]
  congr 1
  exact decide_eq_decide.mpr (by omega)

theorem createBitmap_iff : createBitmap regions kernelStart kernelEnd loc size mem fuel = some (d, ret) ↔
    ret = 0 ∧ ∃ b c, markRegions fuel regions ⟨loc, size, 0, mem⟩ = some b ∧
      markPages fuel (unmapKernel kernelStart) (unmapKernel kernelEnd) (markLowMemory b) = some c ∧
      markPages fuel loc (loc + size.setWidth 32) c = some d := by
  have hplace {b c : PfBitmap} (hb : markRegions fuel regions ⟨loc, size, 0, mem⟩ = some b)
      (hc : markPages fuel (unmapKernel kernelStart) (unmapKernel kernelEnd) (markLowMemory b) = some c) :
      c.ptr = loc ∧ c.address c.length = loc + size.setWidth 32 := by
    have hsame := (markRegions_bits hb).1
    have hsame' := (pages_keep hc).1
    have hptr : c.ptr = loc := hsame'.1.trans hsame.1
    have hlength : c.length = size := hsame'.2.trans hsame.2
    exact ⟨hptr, by rw [PfBitmap.address, hptr, hlength]⟩
  constructor
  · intro h
    obtain ⟨b, hb, h⟩ := Option.bind_eq_some_iff.mp h
    obtain ⟨c, hc, h⟩ := Option.bind_eq_some_iff.mp h
    obtain ⟨d', hd, h⟩ := Option.bind_eq_some_iff.mp h
    cases h
    obtain ⟨hptr, haddress⟩ := hplace hb hc
    rw [hptr, haddress] at hd
    exact ⟨rfl, b, c, hb, hc, hd⟩
  · rintro ⟨rfl, b, c, hb, hc, hd⟩
    obtain ⟨hptr, haddress⟩ := hplace hb hc
    rw [← haddress, ← hptr] at hd
    exact Option.bind_eq_some_iff.mpr ⟨b, hb, Option.bind_eq_some_iff.mpr
      ⟨c, hc, Option.bind_eq_some_iff.mpr ⟨d, hd, rfl⟩⟩⟩

theorem created_ptr (h : CreateBitmapReturns regions kernelStart kernelEnd loc size mem d ret) :
    d.ptr = loc := by
  obtain ⟨fuel, h⟩ := h
  obtain ⟨-, b, c, hb, hc, hd⟩ := createBitmap_iff.mp h
  exact (pages_keep hd).1.1.trans ((pages_keep hc).1.1.trans (markRegions_bits hb).1.1)

theorem boot_unusable (hlast : last.size = 0) (hregions : ∀ q ∈ pre ++ r :: post, q.FitsInt)
    (h : CreateBitmapReturns (pre ++ r :: post ++ last :: rest) kernelStart kernelEnd loc size mem d ret)
    (hf : f < 0x100000) (hr : r.type ≠ mmapUsable) (hover : r.Overlaps f)
    (husable : ∀ q ∈ post, q.type = mmapUsable → ¬q.Overlaps f) : d.bit f = true := by
  obtain ⟨fuel, h⟩ := h
  obtain ⟨-, b, c, hb, hc, hd⟩ := createBitmap_iff.mp h
  have hbit := regions_unusable hlast hregions hb hf hr hover husable
  refine (pages_keep hd).2 f hf ((pages_keep hc).2 f hf ?_)
  rw [markLowMemory_bit hf, hbit, Bool.or_true]

theorem created_bit (h : CreateBitmapReturns regions kernelStart kernelEnd loc size mem d ret)
    (hf : f < 0x100000) :
    d.bit f = true ↔ f < 0x100 ∨ PageIn (unmapKernel kernelStart) (unmapKernel kernelEnd) f ∨
      PageIn loc (loc + size.setWidth 32) f ∨ mapBits regions (BitString.bit mem loc) f = true := by
  obtain ⟨fuel, h⟩ := h
  obtain ⟨-, b, c, hb, hc, hd⟩ := createBitmap_iff.mp h
  rw [pages_bits hd hf, pages_bits hc hf, markLowMemory_bit hf, Bool.or_eq_true, decide_eq_true_iff,
    (markRegions_bits hb).2 f (by omega)]
  tauto

theorem boot_uncovered (hlast : last.size = 0) (hregions : ∀ r ∈ regions, r.FitsInt)
    (h : CreateBitmapReturns (regions ++ last :: rest) kernelStart kernelEnd loc size mem d ret)
    (hf : f < 0x100000) (hno : ∀ r ∈ regions, ¬r.Overlaps f) :
    d.bit f = true ↔ f < 0x100 ∨ PageIn (unmapKernel kernelStart) (unmapKernel kernelEnd) f ∨
      PageIn loc (loc + size.setWidth 32) f ∨ (PfBitmap.mk loc size 0 mem).bit f = true := by
  obtain ⟨fuel, hfuel⟩ := h
  obtain ⟨-, b, c, hb, -, -⟩ := createBitmap_iff.mp hfuel
  have hkept := (regions_other hlast hregions hb).2 f hf hno
  rw [(markRegions_bits hb).2 f (by omega)] at hkept
  rw [created_bit ⟨fuel, hfuel⟩ hf, ← hkept]
  rfl

theorem createBitmap_ends (hlast : last.size = 0) (hregions : ∀ r ∈ regions, r.FitsInt)
    (hkernel : (unmapKernel kernelEnd).toNat < 0xFFFFF000 + (unmapKernel kernelStart).toNat % 0x1000)
    (hmap : (loc + size.setWidth 32).toNat < 0xFFFFF000 + loc.toNat % 0x1000) :
    ∃ d, CreateBitmapReturns (regions ++ last :: rest) kernelStart kernelEnd loc size mem d 0 := by
  obtain ⟨fuel, hfuel⟩ : ∃ fuel : ℕ, 0x100000000 ≤ fuel := ⟨_, Nat.le_refl _⟩
  obtain ⟨b, hb⟩ := markRegions_ends rest ⟨loc, size, 0, mem⟩ hlast hregions hfuel
  obtain ⟨c, hc⟩ := pages_end (unmapKernel kernelStart) (markLowMemory b) hkernel hfuel
  obtain ⟨d, hd⟩ := pages_end loc c hmap hfuel
  exact ⟨d, fuel, createBitmap_iff.mpr ⟨rfl, b, c, hb, hc, hd⟩⟩

/-- A frame of an unusable region is marked and never handed out, unless a usable region listed
later overlaps it. A frame that no region overlaps keeps the bit it had, outside the first MiB, the
kernel and the map. -/
theorem boot_map_safe (regions rest : List MmapChunk) (last : MmapChunk) (kernelStart kernelEnd loc : Word)
    (size : BitVec 64) (mem : Mem) (hlast : last.size = 0) (hregions : ∀ r ∈ regions, r.FitsInt) :
    (∀ c ret, CreateBitmapReturns (regions ++ last :: rest) kernelStart kernelEnd loc size mem c ret →
      ∀ pre r post f, regions = pre ++ r :: post → r.type ≠ mmapUsable → f < 0x100000 → r.Overlaps f →
        (∀ q ∈ post, q.type = mmapUsable → ¬q.Overlaps f) →
        used c f ∧ ∀ es d, Run Step c es d → FreesGiven es → .get (word (f * 0x1000)) ∉ es) ∧
    ((unmapKernel kernelEnd).toNat < 0xFFFFF000 → (loc + size.setWidth 32).toNat < 0xFFFFF000 →
      (∃ c, CreateBitmapReturns (regions ++ last :: rest) kernelStart kernelEnd loc size mem c 0) ∧
      ∀ c ret, CreateBitmapReturns (regions ++ last :: rest) kernelStart kernelEnd loc size mem c ret →
        ∀ f < 0x100000, (∀ r ∈ regions, ¬r.Overlaps f) →
          (used c f ↔ f < 0x100 ∨ PageIn (unmapKernel kernelStart) (unmapKernel kernelEnd) f ∨
            PageIn loc (loc + size.setWidth 32) f ∨ used ⟨loc, size, 0, mem⟩ f)) := by
  refine ⟨?_, fun hkernel hmap => ⟨createBitmap_ends hlast hregions (by omega) (by omega),
    fun c ret hc f hf hno => ?_⟩⟩
  · rintro c ret hc pre r post f rfl hr hf hover husable
    have hused : used c f := (used_iff hf).mpr (boot_unusable hlast hregions hc hf hr hover husable)
    exact ⟨hused, fun es d hrun hes => used_never_given hrun hes hf hused⟩
  · rw [used_iff hf, used_iff hf]
    exact boot_uncovered hlast hregions hc hf hno

def reserved : MmapChunk := ⟨0x200000, 0x100000, 1⟩

theorem reserved_marked : ∃ c, CreateBitmapReturns [reserved, ⟨0, 0, 0⟩] 0xC0100000 0xC0120000
    0x121000 0x20000 (fun _ => 0) c 0 ∧ used c 0x2FF ∧ ¬used c 0x300 := by
  have hfits : ∀ r ∈ [reserved], r.FitsInt := by
    intro r hr
    rw [List.mem_singleton.mp hr]
    exact ⟨by decide, by decide⟩
  have hno : ∀ r ∈ [reserved], ¬r.Overlaps 0x300 := by
    intro r hr
    rw [overlaps_iff (hfits r hr), List.mem_singleton.mp hr]
    decide
  obtain ⟨hsafe, hbounds⟩ := boot_map_safe [reserved] [] ⟨0, 0, 0⟩ 0xC0100000 0xC0120000 0x121000
    0x20000 (fun _ => 0)
    rfl hfits
  obtain ⟨⟨c, hc⟩, hexact⟩ := hbounds (by decide) (by decide)
  have hover : reserved.Overlaps 0x2FF := ⟨0x2FF000, by decide, by decide, by decide⟩
  refine ⟨c, hc, (hsafe c 0 hc [] reserved [] 0x2FF rfl (by decide) (by decide) hover (by simp)).1, ?_⟩
  rw [hexact c 0 hc 0x300 (by decide) hno, PageIn, PageIn, used]
  decide

def sharedFrame : List MmapChunk := [⟨0x218000, 0x1800, 1⟩, ⟨0x219800, 0x1800, 0⟩, ⟨0, 0, 0⟩]

def highRegion : List MmapChunk := [⟨0x80000000, 0x1000, 1⟩, ⟨0, 0, 0⟩]

theorem frames_left_clear :
    (∃ c, CreateBitmapReturns sharedFrame 0xC0100000 0xC0100000 0x101000 0 (fun _ => 0) c 0 ∧
      used c 0x218 ∧ ¬used c 0x219 ∧ ¬used c 0x300) ∧
    ∃ c, CreateBitmapReturns highRegion 0xC0100000 0xC0100000 0x101000 0 (fun _ => 0) c 0 ∧ ¬used c 0x80000 :=
  ⟨⟨_, ⟨4, rfl⟩, by decide, by decide, by decide⟩, _, ⟨4, rfl⟩, by decide⟩

end Rinix.Frames
