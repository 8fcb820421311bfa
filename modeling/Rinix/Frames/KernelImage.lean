import Rinix.Frames.Boot

namespace Rinix.Frames

open ByteMemory WhileLoop BitString

def physAddr : ℕ := 0x100000

def kernelOffset : ℕ := 0xC0000000

def align4K (a : ℕ) : ℕ := (a + 0xFFF) / 0x1000 * 0x1000

structure KernelImage where
  boot : ℕ
  text : ℕ
  data : ℕ
  bss : ℕ
  boot_pos : 0 < boot
  fits : align4K (align4K (align4K (physAddr + boot + kernelOffset) + text) + data) + bss < 0x100000000

namespace KernelImage

variable (k : KernelImage)

def bootEnd : ℕ := physAddr + k.boot

def textStart : ℕ := align4K (k.bootEnd + kernelOffset)

def dataStart : ℕ := align4K (k.textStart + k.text)

def bssStart : ℕ := align4K (k.dataStart + k.data)

/-- `kernel_start` stands in front of `.text`, behind `.boot`. -/
def kernelStart : Word := word k.textStart

def kernelEnd : Word := word (k.bssStart + k.bss)

def Overlaps (f : ℕ) : Prop := physAddr / 0x1000 ≤ f ∧ f ≤ (k.bssStart + k.bss - kernelOffset) / 0x1000

def BootOverlaps (f : ℕ) : Prop := physAddr / 0x1000 ≤ f ∧ f * 0x1000 < k.bootEnd

end KernelImage

variable {k : KernelImage} {regions : List MmapChunk} {loc : Word} {size : BitVec 64} {mem : Mem}
  {c : PfBitmap} {ret : Int} {f : ℕ}

theorem unmap_toNat {n : ℕ} (hn : n < 0x100000000) (hle : kernelOffset ≤ n) :
    (unmapKernel (word n)).toNat = n - kernelOffset := by
  rw [unmapKernel, show (0xC0000000 : Word) = word kernelOffset from rfl, word_sub hle, toNat_word (by omega)]

theorem KernelImage.bounds (k : KernelImage) : k.bootEnd + kernelOffset ≤ k.textStart ∧
    k.textStart < k.bootEnd + kernelOffset + 0x1000 ∧ k.textStart % 0x1000 = 0 ∧
    k.textStart ≤ k.bssStart + k.bss ∧ k.bssStart + k.bss < 0x100000000 := by
  have hfits : k.bssStart + k.bss < 0x100000000 := k.fits
  simp only [bssStart, dataStart, textStart, align4K] at hfits ⊢
  omega

theorem KernelImage.pageIn_iff (k : KernelImage) (hf : k.Overlaps f) :
    PageIn (unmapKernel k.kernelStart) (unmapKernel k.kernelEnd) f ↔ ¬k.BootOverlaps f := by
  obtain ⟨hstart, hstart', haligned, hend, hfits⟩ := k.bounds
  have hoffset : kernelOffset = 0xC0000000 := rfl
  obtain ⟨hlow, hhigh⟩ := hf
  rw [PageIn, BootOverlaps, kernelStart, kernelEnd, unmap_toNat (by omega) (by omega),
    unmap_toNat hfits (by omega)]
  omega

theorem KernelImage.boot_overlaps (k : KernelImage) (hf : k.BootOverlaps f) : k.Overlaps f := by
  obtain ⟨hstart, hstart', haligned, hend, hfits⟩ := k.bounds
  obtain ⟨hlow, hhigh⟩ := hf
  exact ⟨hlow, by omega⟩

theorem KernelImage.frame_lt (k : KernelImage) (hf : k.Overlaps f) : f < 0x100000 := by
  obtain ⟨hlow, hhigh⟩ := hf
  obtain ⟨hstart, hstart', haligned, hend, hfits⟩ := k.bounds
  omega

/-- The image is protected exactly when the frames of `.boot` are: by a bit that was set before and
that no usable region cleared, by a reserved region, or by the map's own pages. -/
theorem image_marked_iff (k : KernelImage) (regions : List MmapChunk) (loc : Word)
    (size : BitVec 64) (mem : Mem) (c : PfBitmap) (ret : Int)
    (h : CreateBitmapReturns regions k.kernelStart k.kernelEnd loc size mem c ret) :
    (∀ f, f < 0x100 ∨ k.Overlaps f → used c f) ↔
      ∀ f, k.BootOverlaps f →
        mapBits regions (BitString.bit mem loc) f = true ∨ PageIn loc (loc + size.setWidth 32) f := by
  constructor
  · intro hused f hboot
    have hover := k.boot_overlaps hboot
    have hlow : 0x100 ≤ f := hboot.1
    have hbit := (used_iff (k.frame_lt hover)).mp (hused f (Or.inr hover))
    rw [created_bit h (k.frame_lt hover), k.pageIn_iff hover] at hbit
    rcases hbit with hlt | hno | hpage | hbit
    · omega
    · exact absurd hboot hno
    · exact Or.inr hpage
    · exact Or.inl hbit
  · rintro hboot f (hlt | hover)
    · have hf : f < 0x100000 := by omega
      rw [used_iff hf, created_bit h hf]
      exact Or.inl hlt
    · have hf := k.frame_lt hover
      rw [used_iff hf, created_bit h hf, k.pageIn_iff hover]
      by_cases hb : k.BootOverlaps f
      · exact Or.inr (Or.inr (hboot f hb).symm)
      · exact Or.inr (Or.inl hb)

def smallImage : KernelImage := ⟨0x200, 0x1000, 0x1000, 0x1000, by decide, by decide⟩

def oneRegion : List MmapChunk := [⟨0x100000, 0x8000, 0⟩, ⟨0, 0, 0⟩]

theorem boot_frame_free : ∃ c, CreateBitmapReturns oneRegion smallImage.kernelStart
    smallImage.kernelEnd 0x105000 0
    (fun _ => 0) c 0 ∧ smallImage.Overlaps 0x100 ∧ ¬used c 0x100 := by
  have h : ∃ c, CreateBitmapReturns oneRegion smallImage.kernelStart smallImage.kernelEnd 0x105000 0
      (fun _ => 0) c 0 := ⟨_, 10, rfl⟩
  obtain ⟨c, hc⟩ := h
  refine ⟨c, hc, ⟨by decide, by decide⟩, ?_⟩
  rw [used_iff (by decide), created_bit hc (by decide), PageIn, PageIn]
  decide

def reservedBoot : List MmapChunk := [⟨0x100000, 0x1000, 1⟩, ⟨0x101000, 0x7000, 0⟩, ⟨0, 0, 0⟩]

theorem reservedBoot_marked : ∃ c, CreateBitmapReturns reservedBoot smallImage.kernelStart
    smallImage.kernelEnd
    0x105000 0 (fun _ => 0) c 0 ∧ ∀ f, f < 0x100 ∨ smallImage.Overlaps f → used c f := by
  have h : ∃ c, CreateBitmapReturns reservedBoot smallImage.kernelStart smallImage.kernelEnd 0x105000 0
      (fun _ => 0) c 0 := ⟨_, 10, rfl⟩
  obtain ⟨c, hc⟩ := h
  refine ⟨c, hc, (image_marked_iff smallImage reservedBoot 0x105000 0 _ c 0 hc).mpr fun f hf => Or.inl ?_⟩
  have hf' : f = 0x100 := by
    obtain ⟨hlow, hhigh⟩ := hf
    simp only [physAddr, KernelImage.bootEnd, smallImage] at hlow hhigh
    omega
  rw [hf']
  decide

end Rinix.Frames
