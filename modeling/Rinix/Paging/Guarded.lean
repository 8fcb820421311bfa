import Rinix.Frames.KernelImage
import Rinix.Paging.HeapPages

namespace Rinix.Paging

open ByteMemory PageTable WhileLoop Frames Runs

def KernelFrame (kernel : KernelImage) (loc : Word) (size : BitVec 64) (f : ℕ) : Prop :=
  f < 0x100 ∨ (kernel.Overlaps f ∧ ¬kernel.BootOverlaps f) ∨ PageIn loc (loc + size.setWidth 32) f

structure BitmapPlaced (kernel : KernelImage) (loc : Word) (size : BitVec 64) (n : ℕ) : Prop where
  behind : kernel.bssStart + kernel.bss - kernelOffset < loc.toNat
  aligned : loc.toNat % 0x1000 = 0
  low : loc.toNat + n ≤ 0x400000
  marked : ∀ k < n, PageIn loc (loc + size.setWidth 32) ((loc.toNat + k) / 0x1000)

structure Carries (r : Resident) (b : PfBitmap) (n : ℕ) : Prop where
  ptr : r.ptr = b.ptr
  bytes : ∀ k < n, r.machine.view (r.seat k) = some (b.mem (b.ptr + word k))

variable {image : BootImage} {kernel : KernelImage} {c d : Early} {r t origin : Resident}
  {s : Machine} {pd pt f : Frame} {fuel n size k : ℕ} {regions : List MmapChunk} {loc : Word}
  {length : BitVec 64} {mem : Mem} {b : PfBitmap} {ret : Int} {es : List Access} {e : Access}
  {u u' : PagedHeap} {x : Word}

theorem Carries.held (h : Carries r b n) :
    f ∈ r.held n ↔ (f.toNat < 8 * n → b.bit f.toNat = true) := by
  by_cases hf : f.toNat < 8 * n
  · have hk : f.toNat / 8 < n := by omega
    have hbyte : r.machine.bitmap.mem (r.seat (f.toNat / 8)) = b.mem (b.ptr + word (f.toNat / 8)) :=
      congrArg (Option.getD · 0) (h.bytes _ hk)
    have hbit : r.machine.bitmap.bit f.toNat = b.bit f.toNat :=
      congrArg (BitString.msb · (f.toNat % 8)) hbyte
    rw [mem_held hf, hbit]
    exact ⟨fun hset _ => hset, fun hset => hset hf⟩
  · exact iff_of_true (fun hlt => absurd hlt hf) fun hlt => absurd hlt hf

theorem low_seat (hs : r.machine.Booted pd pt) (hlow : r.ptr.toNat + n ≤ 0x400000) (hk : k < n) :
    (r.seat k).toNat = r.ptr.toNat + k ∧ r.machine.translate (r.seat k) = some (r.seat k) := by
  have hseat : (r.seat k).toNat = r.ptr.toNat + k := by
    rw [Resident.seat, BitVec.toNat_add, toNat_word (by omega)]
    omega
  have hslot : directorySlot (r.seat k) = 0 := by
    apply BitVec.eq_of_toNat_eq
    rw [directorySlot_index, hseat]
    exact Nat.div_eq_of_lt (by omega)
  have hsame : r.seat k &&& 0x3FFFFF = r.seat k := by
    apply BitVec.eq_of_toNat_eq
    rw [BitVec.toNat_and, hseat, show (0x3FFFFF : Word).toNat = 2 ^ 22 - 1 from rfl,
      Nat.and_two_pow_sub_one_eq_mod]
    exact Nat.mod_eq_of_lt (by omega)
  refine ⟨hseat, ?_⟩
  rw [hs.translate, bootMap, if_pos (Or.inl hslot), hsame]

section Bitmap

variable (hmade : CreateBitmapReturns regions kernel.kernelStart kernel.kernelEnd loc length mem b ret)
  (hcarries : Carries r b n)
include hmade hcarries

theorem kernel_held (h : KernelFrame kernel loc length f.toNat) : f ∈ r.held n := by
  have hlt : f.toNat < 0x100000 := f.isLt
  rw [hcarries.held, created_bit hmade hlt]
  intro _
  rcases h with hlow | ⟨hover, hboot⟩ | hpage
  · exact .inl hlow
  · exact .inr (.inl ((kernel.pageIn_iff hover).mpr hboot))
  · exact .inr (.inr (.inl hpage))

theorem free_clear (h : f ∉ r.held n) : mapBits regions (BitString.bit mem loc) f.toNat = false := by
  have hlt : f.toNat < 0x100000 := f.isLt
  rw [hcarries.held, created_bit hmade hlt] at h
  rw [← Bool.not_eq_true]
  exact fun hset => h fun _ => .inr (.inr (.inr hset))

theorem carried_seated (hplaced : BitmapPlaced kernel loc length n) (hs : r.machine.Booted pd pt)
    (hptr : b.ptr = loc) (hpd : kernel.Overlaps pd.toNat) (hpt : kernel.Overlaps pt.toNat) :
    r.Seated n := by
  have hloc : r.ptr = loc := hcarries.ptr.trans hptr
  have hseat (k : ℕ) (hk : k < n) := (low_seat hs (hloc ▸ hplaced.low) hk).1
  have hfound (k : ℕ) (hk : k < n) := (low_seat hs (hloc ▸ hplaced.low) hk).2
  rw [hloc] at hseat
  refine ⟨fun k hk => ⟨_, hfound k hk⟩, ?_, fun k hk l hl heq => ?_⟩
  · rintro f ⟨p, ⟨k, hk, hp⟩, rfl⟩
    rw [hfound k hk, Option.some.injEq] at hp
    subst hp
    have hframe : (frameOf (r.seat k)).toNat = (loc.toNat + k) / 0x1000 := by
      rw [frameOf_toNat, hseat k hk]
    have hbehind := hplaced.behind
    have hoff (g : Frame) (hg : kernel.Overlaps g.toNat) : frameOf (r.seat k) ≠ g := by
      rintro rfl
      have haligned := hplaced.aligned
      have hlast := hg.2
      rw [hframe] at hlast
      omega
    refine ⟨kernel_held hmade hcarries (.inr (.inr ?_)), hs.fresh (hoff pd hpd) (hoff pt hpt)⟩
    rw [hframe]
    exact hplaced.marked k hk
  · rw [hfound k hk, hfound l hl, Option.some.injEq] at heq
    have hnat := congrArg BitVec.toNat heq
    rw [hseat k hk, hseat l hl] at hnat
    omega

end Bitmap

theorem BootImage.Placed.kernel_frame (h : image.Placed kernel) (hf : f = image.pd ∨ f = image.pt) :
    kernel.Overlaps f.toNat ∧ ¬kernel.BootOverlaps f.toNat := by
  obtain ⟨hpd, hpt⟩ := h.frames
  obtain ⟨hstart, -, -, -, -⟩ := kernel.bounds
  have hdata := h.data
  have hstack := h.stack
  have hdirectory := h.directory
  have hsections : kernel.textStart ≤ kernel.dataStart ∧
      kernel.dataStart + kernel.data ≤ kernel.bssStart := by
    simp only [KernelImage.bssStart, KernelImage.dataStart, align4K]
    omega
  have hoffset : kernelOffset = 0xC0000000 := rfl
  have hboot : physAddr ≤ kernel.bootEnd := Nat.le_add_right _ _
  have hphys : physAddr = 0x100000 := rfl
  have hplace : f.toNat = image.pd.toNat ∨ f.toNat = image.pd.toNat + 1 := by
    rcases hf with rfl | rfl
    · exact .inl rfl
    · exact .inr hpt
  refine ⟨⟨?_, ?_⟩, fun hover => ?_⟩
  · omega
  · omega
  · have hhigh := hover.2
    omega

theorem HeapOn.kept (h : HeapOn origin size pd pt r n) (hsize : size ≤ 0x20000)
    (hpt : pt ∈ origin.held size) (hstep : PagedHeap.Step origin size pd pt ⟨r, n⟩ e u)
    (he : e ≠ .elsewhere) (hx : frameOf x ∈ origin.held size) (hpd : frameOf x ≠ pd)
    (hoff : x ∉ origin.bytes size) : u.resident.mem x = r.mem x := by
  cases hstep with
  | grow r t n hn hcall =>
    obtain ⟨link, leaf, henters, -, -, -, -, hlink⟩ := h.grown hsize hpt hn hcall
    change t.mem x = r.mem x
    rw [henters.mem x (by rwa [bytes_same h.same]), enter_mem]
    · rfl
    · rwa [h.directory]
    · rw [h.directory]
      exact ne_of_mem_of_not_mem hx hlink
  | write r s n a v ha hwrite =>
    have hleaf := h.leaves _ (page_mem h.bound ha)
    rw [Machine.writeByte, h.found ha, Option.map_some, Option.some.injEq] at hwrite
    subst hwrite
    apply storeByte_miss
    rintro rfl
    rw [(append_parts _ _).1] at hx
    exact hleaf hx
  | read => rfl
  | elsewhere => exact absurd rfl he

section Boot

variable (h : image.Placed kernel) (hoff : ¬c.Paged)
  (hblank : ∀ a, frameOf a = image.pd → c.cpu.mem a = 0) (hfuel : 1024 ≤ fuel)
  (hboot : boot image c fuel = some d) (hcr3 : r.cr3 = d.cr3)
  (htables : ∀ x, frameOf x = image.pd ∨ frameOf x = image.pt → r.mem x = d.cpu.mem x)
include h hoff hblank hfuel hboot hcr3 htables

theorem booted_later : r.machine.Booted image.pd image.pt := by
  obtain ⟨d', hd, v, hv, -, hat⟩ := boot_ends h hoff hblank hfuel
  obtain rfl : d = d' := Option.some.inj (hboot.symm.trans hd)
  have hbooted := hat.booted (h.off_stack (.inl rfl)) (h.off_stack (.inr rfl)) hv
  exact hbooted.congr hcr3 htables

/-- From `boot.s` on, with the bitmap that `create_bitmap` makes, behind the kernel: the heap lies
outside the kernel and the bitmap, in frames that the memory map leaves free, and what the kernel
does with it changes nothing of the kernel but the page directory and the bitmap's bytes. -/
theorem kernel_guarded (hn : n ≤ 0x20000)
    (hmade : CreateBitmapReturns regions kernel.kernelStart kernel.kernelEnd loc length mem b ret)
    (hplaced : BitmapPlaced kernel loc length n) (hcarries : Carries r b n)
    (hrun : Run (PagedHeap.Step r n image.pd image.pt) ⟨r, 0⟩ es ⟨t, k⟩) :
    (∀ a, InHeap k a → ∃ p, t.machine.translate a = some p ∧
      ¬KernelFrame kernel loc length (frameOf p).toNat ∧
      mapBits regions (BitString.bit mem loc) (frameOf p).toNat = false) ∧
    (.elsewhere ∉ es → ∀ x, KernelFrame kernel loc length (frameOf x).toNat →
      frameOf x ≠ image.pd → x ∉ r.bytes n → t.mem x = r.mem x) := by
  have hs := booted_later h hoff hblank hfuel hboot hcr3 htables
  have hin (f : Frame) (hf : f = image.pd ∨ f = image.pt) : f ∈ r.held n :=
    kernel_held hmade hcarries (.inr (.inl (h.kernel_frame hf)))
  have hpd := hin _ (.inl rfl)
  have hpt := hin _ (.inr rfl)
  have hne : image.pd ≠ image.pt := by
    intro heq
    have hnext := h.frames.2
    rw [heq] at hnext
    omega
  have hseated := carried_seated hmade hcarries hplaced hs (created_ptr hmade)
    (h.kernel_frame (.inl rfl)).1 (h.kernel_frame (.inr rfl)).1
  have hstart := heapOn_booted hs hseated hpd hpt
  have hstep (u : PagedHeap) (e : Access) (u' : PagedHeap)
      (hu : HeapOn r n image.pd image.pt u.resident u.pages)
      (hnext : PagedHeap.Step r n image.pd image.pt u e u') :=
    hu.step hn hne hpd hpt hnext
  have hon : HeapOn r n image.pd image.pt t k :=
    hrun.invariant (fun u => HeapOn r n image.pd image.pt u.resident u.pages) hstep hstart
  refine ⟨fun a ha => ⟨_, hon.found ha, ?_⟩, fun hes x hx hdir hbytes => ?_⟩
  · rw [(append_parts _ _).1]
    have hfree := hon.leaves _ (page_mem hon.bound ha)
    exact ⟨fun hkernel => hfree (kernel_held hmade hcarries hkernel), free_clear hmade hcarries hfree⟩
  · have hused := kernel_held hmade hcarries hx
    refine (hrun.invariant_on (fun u => HeapOn r n image.pd image.pt u.resident u.pages ∧
      u.resident.mem x = r.mem x) (· ≠ .elsewhere) (fun u e u' hu he hnext => ?_)
      (fun e he => ne_of_mem_of_not_mem he hes) ⟨hstart, rfl⟩).2
    exact ⟨hstep u e u' hu.1 hnext, (hu.1.kept hn hpt hnext he hused hdir hbytes).trans hu.2⟩

end Boot

def linkedBitmap : PfBitmap :=
  match createBitmap [⟨0, 0, 0⟩] bootKernel.kernelStart bootKernel.kernelEnd 0x113000 0x40 (fun _ => 0) 32 with
  | some (b, _) => b
  | none => ⟨0, 0, 0, fun _ => 0⟩

theorem linkedBitmap_made : CreateBitmapReturns [⟨0, 0, 0⟩] bootKernel.kernelStart
    bootKernel.kernelEnd 0x113000 0x40 (fun _ => 0) linkedBitmap 0 := ⟨32, rfl⟩

def linkedResident (d : Early) : Resident where
  mem a := if 0x113000 ≤ a.toNat ∧ a.toNat < 0x113040 then linkedBitmap.mem a else d.cpu.mem a
  cr3 := d.cr3
  ptr := 0x113000
  length := 0x40
  lastChecked := 0

theorem linkedBitmap_placed : BitmapPlaced bootKernel 0x113000 0x40 0x40 := by
  refine ⟨by decide, by decide, by decide, fun k hk => ?_⟩
  have hloc : (0x113000 : Word).toNat = 0x113000 := rfl
  have hlast : (0x113000 + (0x40 : BitVec 64).setWidth 32 : Word).toNat = 0x113040 := rfl
  rw [PageIn, hloc, hlast]
  omega

theorem linked_carries (hs : (linkedResident d).machine.Booted pd pt) :
    Carries (linkedResident d) linkedBitmap 0x40 := by
  have hptr : linkedBitmap.ptr = 0x113000 := created_ptr linkedBitmap_made
  have hloc : (linkedResident d).ptr.toNat = 0x113000 := rfl
  refine ⟨hptr.symm, fun k hk => ?_⟩
  obtain ⟨hseat, hfound⟩ := low_seat hs (by rw [hloc]; decide) hk
  rw [hloc] at hseat
  rw [Machine.view, hfound, Option.map_some, hptr]
  exact congrArg some (if_pos (by omega))

example : ∃ d r t, boot linkedImage multibootStart 1024 = some d ∧ r.cr3 = d.cr3 ∧
    Run (PagedHeap.Step r 0x40 linkedImage.pd linkedImage.pt) ⟨r, 0⟩ [.grow] ⟨t, 1⟩ ∧
      ∃ p, t.machine.translate 0xD0000010 = some p ∧
        ¬KernelFrame bootKernel 0x113000 0x40 (frameOf p).toNat := by
  have hplaced : linkedImage.Placed bootKernel :=
    ⟨by decide, by decide, by decide, by decide, by decide, by decide, by decide, by decide⟩
  have hoff : ¬multibootStart.Paged := by decide
  obtain ⟨d, hboot, -⟩ := boot_ends hplaced hoff (fun _ _ => rfl) (Nat.le_refl 1024)
  have htables (x : Word) (hx : frameOf x = linkedImage.pd ∨ frameOf x = linkedImage.pt) :
      (linkedResident d).mem x = d.cpu.mem x := by
    refine if_neg fun hin => ?_
    have hframe : (frameOf x).toNat = x.toNat / 0x1000 := frameOf_toNat x
    have hpd : linkedImage.pd.toNat = 0x10D := by decide
    have hpt : linkedImage.pt.toNat = 0x10E := by decide
    rcases hx with heq | heq
    · rw [heq, hpd] at hframe
      omega
    · rw [heq, hpt] at hframe
      omega
  have hs := booted_later hplaced hoff (fun _ _ => rfl) (Nat.le_refl 1024) hboot rfl htables
  have hcarries := linked_carries hs
  have hseated := carried_seated linkedBitmap_made hcarries linkedBitmap_placed hs
    (created_ptr linkedBitmap_made) (hplaced.kernel_frame (.inl rfl)).1 (hplaced.kernel_frame (.inr rfl)).1
  have hfree (f : Frame) (hf : f.toNat < 8 * 0x40 ∧ linkedBitmap.bit f.toNat = false) :
      f ∉ (linkedResident d).held 0x40 := by
    rw [hcarries.held]
    intro hset
    rw [hset hf.1] at hf
    exact absurd hf.2 (by decide)
  have hhint : (linkedResident d).lastChecked.toNat = 0 := rfl
  obtain ⟨t, hgrow⟩ := first_grown (f := 0x100) (g := 0x112) (by decide) hs hseated (by decide)
    (hfree _ (by decide)) (hfree _ (by decide)) (by omega) (by omega)
  have hrun := Run.cons hgrow (.nil _)
  obtain ⟨p, hp, hkernel, -⟩ := (kernel_guarded hplaced hoff (fun _ _ => rfl) (Nat.le_refl 1024) hboot
    rfl htables (by decide) linkedBitmap_made linkedBitmap_placed hcarries hrun).1 0xD0000010 (by decide)
  exact ⟨d, linkedResident d, t, hboot, rfl, hrun, p, hp, hkernel⟩

end Rinix.Paging
