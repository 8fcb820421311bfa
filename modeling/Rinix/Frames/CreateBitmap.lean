import Rinix.Frames.Bits

namespace Rinix.Frames

open ByteMemory WhileLoop BitString

structure MmapChunk where
  start : Word
  size : Word
  type : Word

def mmapUsable : Word := 0

def addrBits : Word := 32

def unmapKernel (x : Word) : Word := x - 0xC0000000

/-- `(ptr[i/8] >> (ADDR_BITS - i)) & 1`. C leaves a shift by 32 or more open, the processor takes
the count modulo 32. -/
def shiftedBit (b : PfBitmap) (i : Word) : Word :=
  ((b.mem (b.ptr + i / 8)).setWidth 32 >>> ((addrBits - i) % 32).toNat) &&& 1

def markSection (r : MmapChunk) (b : PfBitmap) (i : Word) : PfBitmap :=
  let byte := b.mem (b.ptr + i / 8)
  if r.type = mmapUsable then
    if shiftedBit b i ≠ 0 then
      { b with mem := storeByte b.mem (b.ptr + i / 8) (byte &&& ~~~(highBit >>> (i % 8).toNat)) }
    else b
  else { b with mem := storeByte b.mem (b.ptr + i / 8) (byte ||| highBit >>> (i % 8).toNat) }

/-- The bounds are taken through an `int`, so they are divided as signed numbers. -/
def bitmapSecStart (r : MmapChunk) : Word := r.start.sdiv 0x1000

def bitmapSecEnd (r : MmapChunk) : Word := (r.start + r.size - 1).sdiv 0x1000

def markRegions (fuel : ℕ) : List MmapChunk → PfBitmap → Option PfBitmap
  | [], _ => none
  | r :: rs, b =>
    if 0 < r.size then
      (run (forTurn (bitmapSecEnd r) 1 (markSection r)) fuel (bitmapSecStart r, b)).bind (markRegions fuel rs)
    else some b

def memset (m : Mem) (p : Word) (v : Byte) : ℕ → Mem
  | 0 => m
  | n + 1 => storeByte (memset m p v n) (p + word n) v

def markPage (b : PfBitmap) (i : Word) : PfBitmap :=
  markFrameUsed b ((i / 0x1000 / 8).setWidth 64) (i / 0x1000 % 8).toNat

def markPages (fuel : ℕ) (start last : Word) (b : PfBitmap) : Option PfBitmap :=
  run (forTurn last 0x1000 markPage) fuel (start, b)

def createBitmap (regions : List MmapChunk) (kernelStart kernelEnd loc : Word) (size : BitVec 64) (mem : Mem)
    (fuel : ℕ) : Option (PfBitmap × Int) := do
  let b ← markRegions fuel regions ⟨loc, size, 0, mem⟩
  -- the first MiB
  let b := { b with mem := memset b.mem b.ptr 0xFF (0x100000 / 0x1000 / 8) }
  let b ← markPages fuel (unmapKernel kernelStart) (unmapKernel kernelEnd) b
  -- the map itself
  let b ← markPages fuel b.ptr (b.address b.length) b
  return (b, 0)

def CreateBitmapReturns (regions : List MmapChunk) (kernelStart kernelEnd loc : Word)
    (size : BitVec 64) (mem : Mem) (c : PfBitmap) (ret : Int) : Prop :=
  ∃ fuel, createBitmap regions kernelStart kernelEnd loc size mem fuel = some (c, ret)

def MmapChunk.Overlaps (r : MmapChunk) (f : ℕ) : Prop :=
  ∃ a, r.start.toNat ≤ a ∧ a < r.start.toNat + r.size.toNat ∧ a / 0x1000 = f

def MmapChunk.FitsInt (r : MmapChunk) : Prop := 0 < r.size ∧ r.start.toNat + r.size.toNat ≤ 0x80000000

def PageIn (start last : Word) (f : ℕ) : Prop :=
  start.toNat / 0x1000 ≤ f ∧ f * 0x1000 + start.toNat % 0x1000 ≤ last.toNat

def SameMap (b c : PfBitmap) : Prop := c.ptr = b.ptr ∧ c.length = b.length

variable {b c d : PfBitmap} {r last : MmapChunk} {regions rest pre post : List MmapChunk}
  {i start stop : Word} {fuel f g n : ℕ}

theorem SameMap.trans (h : SameMap b c) (h' : SameMap c d) : SameMap b d := ⟨h'.1.trans h.1, h'.2.trans h.2⟩

theorem size_pos (hr : 0 < r.size) : 0 < r.size.toNat := hr

theorem overlaps_iff (hr : r.FitsInt) : r.Overlaps f ↔
    r.start.toNat / 0x1000 ≤ f ∧ f ≤ (r.start.toNat + r.size.toNat - 1) / 0x1000 := by
  have hsize := size_pos hr.1
  constructor
  · rintro ⟨a, hle, hlt, rfl⟩
    omega
  · rintro ⟨hle, hlt⟩
    refine ⟨max r.start.toNat (f * 0x1000), ?_⟩
    omega

theorem sdiv_page {v : Word} (hv : v.toNat < 0x80000000) : (v.sdiv 0x1000).toNat = v.toNat / 0x1000 := by
  have hmsb : v.msb = false := by
    rw [BitVec.msb_eq_false_iff_two_mul_lt]
    omega
  rw [BitVec.sdiv_eq, hmsb, show (0x1000 : Word).msb = false from rfl]
  exact BitVec.toNat_udiv

theorem bitmapSecStart_toNat (hr : r.FitsInt) : (bitmapSecStart r).toNat = r.start.toNat / 0x1000 := by
  have hsize := size_pos hr.1
  have hend := hr.2
  exact sdiv_page (by omega)

theorem bitmapSecEnd_toNat (hr : r.FitsInt) :
    (bitmapSecEnd r).toNat = (r.start.toNat + r.size.toNat - 1) / 0x1000 := by
  have hsize := size_pos hr.1
  have hend := hr.2
  have hlast : (r.start + r.size - 1).toNat = r.start.toNat + r.size.toNat - 1 := by
    rw [BitVec.toNat_sub, BitVec.toNat_add, show (1 : Word).toNat = 1 from rfl]
    omega
  rw [bitmapSecEnd, sdiv_page (by omega), hlast]

theorem word_div_eight (i : Word) : i / 8 = word (i.toNat / 8) := by
  have hlt := i.isLt
  apply BitVec.eq_of_toNat_eq
  rw [toNat_word (by omega), BitVec.toNat_udiv]
  rfl

theorem word_mod_eight (i : Word) : (i % 8).toNat = i.toNat % 8 := BitVec.toNat_umod

theorem markSection_cases (r : MmapChunk) (b : PfBitmap) (i : Word) :
    (r.type = mmapUsable ∧
      (markSection r b i = { b with mem := clearBit b.mem b.ptr i.toNat } ∨ markSection r b i = b)) ∨
    (r.type ≠ mmapUsable ∧ markSection r b i = { b with mem := setBit b.mem b.ptr i.toNat }) := by
  simp only [markSection, word_div_eight, word_mod_eight, highBit_shift]
  by_cases hr : r.type = mmapUsable
  · refine Or.inl ⟨hr, ?_⟩
    rw [if_pos hr]
    split_ifs
    · exact Or.inl rfl
    · exact Or.inr rfl
  · rw [if_neg hr]
    exact Or.inr ⟨hr, rfl⟩

theorem markSection_same (r : MmapChunk) (b : PfBitmap) (i : Word) : SameMap b (markSection r b i) := by
  rcases markSection_cases r b i with ⟨-, h | h⟩ | ⟨-, h⟩ <;> rw [h] <;> exact ⟨rfl, rfl⟩

theorem markSection_unusable (hr : r.type ≠ mmapUsable) : (markSection r b i).bit i.toNat = true := by
  have hlt := i.isLt
  rcases markSection_cases r b i with ⟨hr', -⟩ | ⟨-, h⟩
  · exact absurd hr' hr
  · rw [h, PfBitmap.bit, bit_setBit (by omega) (by omega), decide_eq_true rfl, Bool.true_or]

theorem memset_bit {m : Mem} {p : Word} (hn : n ≤ 0x20000) (hg : g < 0x100000) :
    BitString.bit (memset m p 0xFF n) p g = (decide (g / 8 < n) || BitString.bit m p g) := by
  induction n with
  | zero => rfl
  | succ n ih =>
    by_cases h : g / 8 = n
    · have hall : ∀ i < 8, msb 0xFF i = true := by decide
      rw [BitString.bit, memset, storeByte, if_pos (by rw [h]), hall _ (by omega), decide_eq_true (by omega),
        Bool.true_or]
    · have hmiss : p + word (g / 8) ≠ p + word n := by
        intro heq
        exact h ((word_inj (by omega) (by omega)).mp ((BitVec.add_right_inj p).mp heq))
      rw [BitString.bit, memset, storeByte_miss hmiss, ← BitString.bit, ih (by omega)]
      congr 1
      exact decide_eq_decide.mpr (by omega)

theorem markPage_eq (b : PfBitmap) (i : Word) :
    markPage b i = { b with mem := setBit b.mem b.ptr (i.toNat / 0x1000) } := by
  have hlt := i.isLt
  have h8 : (8 : Word).toNat = 8 := rfl
  have hmod : (i / 0x1000 % 8).toNat < 8 := by
    rw [BitVec.toNat_umod, h8]
    omega
  have hframe : (frameNumber ((i / 0x1000 / 8).setWidth 64) (i / 0x1000 % 8).toNat).toNat =
    i.toNat / 0x1000 := by
    rw [frameNumber_toNat, BitVec.toNat_setWidth, BitVec.toNat_udiv, BitVec.toNat_umod, page_toNat, h8]
    omega
  rw [markPage, markFrameUsed_eq hmod, hframe]

theorem markPage_bit (hg : g < 0x100000) : (markPage b i).bit g =
    (decide (i.toNat / 0x1000 = g) || b.bit g) := by
  have hlt := i.isLt
  rw [markPage_eq, PfBitmap.bit, bit_setBit (by omega) (by omega)]
  rfl

theorem pages_keep (h : markPages fuel start stop b = some c) :
    SameMap b c ∧ ∀ g < 0x100000, b.bit g = true → c.bit g = true := by
  have hinv := for_result (fun _ c => SameMap b c ∧ ∀ g < 0x100000, b.bit g = true → c.bit g = true)
    (fun i c _ hinv => ?_) ⟨⟨rfl, rfl⟩, fun g _ hbit => hbit⟩ h
  · obtain ⟨-, -, hres⟩ := hinv
    exact hres
  · refine ⟨hinv.1.trans (by rw [markPage_eq]; exact ⟨rfl, rfl⟩), fun g hg hbit => ?_⟩
    rw [markPage_bit hg, hinv.2 g hg hbit, Bool.or_true]

theorem pages_stop (h : markPages fuel start stop b = some c) :
    stop.toNat < 0xFFFFF000 + start.toNat % 0x1000 := by
  have hpage : (0x1000 : Word).toNat = 0x1000 := rfl
  have hinv := for_result (fun i _ => i.toNat % 0x1000 = start.toNat % 0x1000) (fun i c _ hmod => ?_) rfl h
  · obtain ⟨j, hj, hmod⟩ := hinv
    have hj' : stop.toNat < j.toNat := Nat.lt_of_not_le hj
    have hlt := j.isLt
    omega
  · rw [BitVec.toNat_add, hpage]
    omega

theorem pages_bits (h : markPages fuel start stop b = some c) (hg : g < 0x100000) :
    c.bit g = true ↔ PageIn start stop g ∨ b.bit g = true := by
  have hstop := pages_stop h
  -- before the turn at `i` the pages of the addresses below `i` are marked
  have hinv := for_result
    (fun i c => i.toNat % 0x1000 = start.toNat % 0x1000 ∧ start.toNat ≤ i.toNat ∧
      (i.toNat = start.toNat ∨ i.toNat ≤ stop.toNat + 0x1000) ∧
      (c.bit g = true ↔ (start.toNat / 0x1000 ≤ g ∧ g * 0x1000 + start.toNat % 0x1000 < i.toNat) ∨
        b.bit g = true))
    (fun i c hi hinv => ?_) ⟨rfl, Nat.le_refl _, Or.inl rfl, Or.inr, fun hor => hor.resolve_left (by omega)⟩ h
  · obtain ⟨j, hj, hmod, hle, hturn, hbits⟩ := hinv
    have hj' : stop.toNat < j.toNat := Nat.lt_of_not_le hj
    rw [hbits, PageIn]
    refine or_congr_left (and_congr_right fun hge => ?_)
    omega
  · obtain ⟨hmod, hle, -, hbits⟩ := hinv
    have hi' : i.toNat ≤ stop.toNat := hi
    have hpage : (0x1000 : Word).toNat = 0x1000 := rfl
    have hnext : (i + 0x1000).toNat = i.toNat + 0x1000 := BitVec.toNat_add_of_lt (by omega)
    rw [hnext, markPage_bit hg, Bool.or_eq_true, decide_eq_true_iff, hbits, ← or_assoc]
    refine ⟨by omega, by omega, by omega, or_congr_left ?_⟩
    omega

theorem pages_end (start : Word) (b : PfBitmap) (hstop : stop.toNat < 0xFFFFF000 + start.toNat % 0x1000)
    (hfuel : 0x100000000 ≤ fuel) : ∃ c, markPages fuel start stop b = some c := by
  have hpage : (0x1000 : Word).toNat = 0x1000 := rfl
  have hlt := stop.isLt
  refine for_ends_on (fun i => i.toNat % 0x1000 = start.toNat % 0x1000) (by omega) (fun i hmod hi => ?_) rfl
    (by omega) (by omega)
  have hi' : i.toNat ≤ stop.toNat := hi
  have hnext : (i + 0x1000).toNat = i.toNat + 0x1000 := BitVec.toNat_add_of_lt (by omega)
  exact ⟨by rw [hnext]; omega, hnext⟩

end Rinix.Frames
