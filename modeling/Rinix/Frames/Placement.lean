import Mathlib.Data.Nat.Find
import Rinix.Frames.Boot

namespace Rinix.Frames

open ByteMemory WhileLoop

/-- An `int` of `mem_init.c` that nothing assigns. -/
def bitmapSize : Word := 0

def roundUp (x : Word) : Word := (x &&& ~~~0x0FFF) + 0x1000

def bitmapPlace (r : MmapChunk) (kernelStart kernelEnd : Word) : Option Word :=
  let sectionStart := r.start
  let sectionSize := r.size
  let sectionEnd := r.start + r.size - 1
  if bitmapSize < sectionSize ∧ r.type = mmapUsable then
    if sectionStart ≤ unmapKernel kernelStart ∧ unmapKernel kernelStart ≤ sectionEnd then
      if roundUp (unmapKernel kernelEnd) ≤ roundUp sectionEnd then
        if bitmapSize ≤ roundUp sectionEnd - roundUp (unmapKernel kernelEnd) then
          some (roundUp (unmapKernel kernelEnd))
        else none
      else none
    else none
  else none

def choosePlace (kernelStart kernelEnd : Word) : List MmapChunk → Option (MmapChunk × Word)
  | [] => none
  | r :: rs =>
    if 0 < r.size then
      match bitmapPlace r kernelStart kernelEnd with
      | some place => some (r, place)
      | none => choosePlace kernelStart kernelEnd rs
    else none

def kernelBitmapInit (regions : List MmapChunk) (kernelStart kernelEnd : Word) (mem : Mem) (fuel : ℕ) :
    Option (MmapChunk × PfBitmap) :=
  (choosePlace kernelStart kernelEnd regions).bind fun (r, place) =>
    (createBitmap regions kernelStart kernelEnd place (bitmapSize.signExtend 64) mem fuel).map
      fun (b, _) => (r, b)

def visible (regions : List MmapChunk) : List MmapChunk := regions.takeWhile fun r => 0 < r.size

def FrameCount (regions : List MmapChunk) (n : ℕ) : Prop :=
  (∃ r ∈ visible regions, r.type = mmapUsable ∧ ∃ f, r.Overlaps f ∧ n = f + 1) ∧
    ∀ r ∈ visible regions, r.type = mmapUsable → ∀ f, r.Overlaps f → f < n

def ProtectsItself (r : MmapChunk) (kernelStart kernelEnd : Word) (b : PfBitmap) (n : ℕ) : Prop :=
  ∀ i < (n + 7) / 8,
    (r.start.toNat ≤ b.ptr.toNat + i ∧ b.ptr.toNat + i < r.start.toNat + r.size.toNat) ∧
    ¬((unmapKernel kernelStart).toNat ≤ b.ptr.toNat + i ∧ b.ptr.toNat + i ≤ (unmapKernel kernelEnd).toNat) ∧
    i < b.length.toNat ∧ used b ((b.ptr.toNat + i) / 0x1000)

variable {regions : List MmapChunk} {r : MmapChunk} {kernelStart kernelEnd place : Word} {mem : Mem}
  {b : PfBitmap} {fuel n : ℕ}

theorem bitmapPlace_some (h : bitmapPlace r kernelStart kernelEnd = some place) :
    0 < r.size ∧ r.type = mmapUsable := by
  simp only [bitmapPlace] at h
  split_ifs at h with hsize
  exact hsize

theorem choosePlace_mem (h : choosePlace kernelStart kernelEnd regions = some (r, place)) :
    r ∈ visible regions ∧ 0 < r.size ∧ r.type = mmapUsable := by
  induction regions with
  | nil => cases h
  | cons q rest ih =>
    rw [choosePlace] at h
    split_ifs at h with hsize
    rw [visible, List.takeWhile_cons_of_pos (by simpa using hsize), ← visible]
    cases hplace : bitmapPlace q kernelStart kernelEnd with
    | some place' =>
      rw [hplace] at h
      cases h
      exact ⟨List.mem_cons_self, bitmapPlace_some hplace⟩
    | none =>
      rw [hplace] at h
      obtain ⟨hmem, hr⟩ := ih h
      exact ⟨List.mem_cons_of_mem _ hmem, hr⟩

theorem frameCount_exists (hr : r ∈ visible regions) (hsize : 0 < r.size) (hu : r.type = mmapUsable) :
    ∃ n, FrameCount regions n := by
  classical
  have hover : ∃ f, f ≤ 0x200000 ∧ ∃ q ∈ visible regions, q.type = mmapUsable ∧ q.Overlaps f := by
    have hstart := r.start.isLt
    exact ⟨r.start.toNat / 0x1000, by omega, r, hr, hu, r.start.toNat, Nat.le_refl _,
      Nat.lt_add_of_pos_right hsize, rfl⟩
  obtain ⟨f, hf, hcovered⟩ := hover
  have hspec := Nat.findGreatest_spec (P := fun f => ∃ q ∈ visible regions,
    q.type = mmapUsable ∧ q.Overlaps f) hf hcovered
  obtain ⟨q, hq, hqu, hqf⟩ := hspec
  refine ⟨_, ⟨q, hq, hqu, _, hqf, rfl⟩, fun q hq hqu g hqg => ?_⟩
  have hg : g ≤ 0x200000 := by
    obtain ⟨a, -, ha, rfl⟩ := hqg
    have hstart := q.start.isLt
    have hsize := q.size.isLt
    omega
  exact Nat.lt_succ_of_le (Nat.le_findGreatest hg ⟨q, hq, hqu, hqg⟩)

theorem createBitmap_length {size : BitVec 64} {ret : Int}
    (h : createBitmap regions kernelStart kernelEnd place size mem fuel = some (b, ret)) :
    b.length = size := by
  obtain ⟨-, c, d, hc, hd, hb⟩ := createBitmap_iff.mp h
  exact (pages_keep hb).1.2.trans ((pages_keep hd).1.2.trans (markRegions_bits hc).1.2)

/-- The length is always 0, so that no byte of the map is counted, and there is always a byte that
should be. -/
theorem map_unprotected (h : kernelBitmapInit regions kernelStart kernelEnd mem fuel = some (r, b)) :
    (∃ n, FrameCount regions n) ∧ ∀ n, FrameCount regions n →
    ¬ProtectsItself r kernelStart kernelEnd b n := by
  obtain ⟨⟨r', place⟩, hchoose, hcreate⟩ := Option.bind_eq_some_iff.mp h
  obtain ⟨⟨b', ret⟩, hcreate, heq⟩ := Option.map_eq_some_iff.mp hcreate
  cases heq
  obtain ⟨hmem, hsize, hu⟩ := choosePlace_mem hchoose
  refine ⟨frameCount_exists hmem hsize hu, ?_⟩
  rintro n ⟨⟨q, -, -, f, -, rfl⟩, -⟩ hprotects
  obtain ⟨-, -, hlength, -⟩ := hprotects 0 (by omega)
  rw [createBitmap_length hcreate] at hlength
  exact absurd hlength (by decide)

def eightPages : MmapChunk := ⟨0x100000, 0x8000, 0⟩

theorem eightPages_count : FrameCount [eightPages, ⟨0, 0, 0⟩] 0x108 := by
  have hvisible : visible [eightPages, ⟨0, 0, 0⟩] = [eightPages] := rfl
  have hover (f : ℕ) : eightPages.Overlaps f ↔ 0x100 ≤ f ∧ f ≤ 0x107 :=
    overlaps_iff ⟨by decide, by decide⟩
  rw [FrameCount, hvisible]
  refine ⟨⟨eightPages, List.mem_singleton_self _, rfl, 0x107, (hover _).mpr (by decide), rfl⟩,
    fun r hr _ f hf => ?_⟩
  rw [List.mem_singleton.mp hr, hover] at hf
  omega

theorem eightPages_fails : ∃ b, kernelBitmapInit [eightPages, ⟨0, 0, 0⟩] 0xC0101000 0xC0104000
    (fun _ => 0) 10 =
    some (eightPages, b) ∧ FrameCount [eightPages, ⟨0, 0, 0⟩] 0x108 ∧
      ¬ProtectsItself eightPages 0xC0101000 0xC0104000 b 0x108 := by
  refine ⟨_, rfl, eightPages_count, fun h => ?_⟩
  obtain ⟨-, -, hlength, -⟩ := h 0 (by decide)
  exact absurd hlength (by decide)

theorem eightPages_unprotected : ∃ b, kernelBitmapInit [eightPages, ⟨0, 0, 0⟩] 0xC0101000 0xC0104000
    (fun _ => 0) 10 =
    some (eightPages, b) ∧ ∃ n, FrameCount [eightPages, ⟨0, 0, 0⟩] n ∧
      ¬ProtectsItself eightPages 0xC0101000 0xC0104000 b n := by
  have hinit : ∃ b, kernelBitmapInit [eightPages, ⟨0, 0, 0⟩] 0xC0101000 0xC0104000 (fun _ => 0) 10 =
      some (eightPages, b) := ⟨_, rfl⟩
  obtain ⟨b, hb⟩ := hinit
  obtain ⟨⟨n, hn⟩, hno⟩ := map_unprotected hb
  exact ⟨b, hb, n, hn, hno n hn⟩

end Rinix.Frames
