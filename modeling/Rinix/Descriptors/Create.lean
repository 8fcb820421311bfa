import Mathlib.Algebra.GroupWithZero.Nat
import Rinix.Lib.BitField
import Rinix.Lib.ByteMemory

namespace Rinix.Descriptors

open ByteMemory BitField

abbrev Entry := BitVec 64

variable {w : ℕ}

def put (table : BitVec w → Entry) (num : BitVec w) (d : Entry) : BitVec w → Entry :=
  fun k => if k = num then d else table k

/-- `flag` is promoted to `int`, the other operands are 32-bit words before they are widened. -/
def gdtDescriptor (base limit : Word) (flag : BitVec 16) : Entry :=
  let descriptor : Entry := (limit &&& 0x000F0000).setWidth 64
  let descriptor := descriptor ||| (flag.setWidth 32 <<< 8 &&& 0x00F0FF00).signExtend 64
  let descriptor := descriptor ||| (base >>> 16 &&& 0x000000FF).setWidth 64
  let descriptor := descriptor ||| (base &&& 0xFF000000).setWidth 64
  let descriptor := descriptor <<< 32
  let descriptor := descriptor ||| (base <<< 16).setWidth 64
  descriptor ||| (limit &&& 0x0000FFFF).setWidth 64

def createGdtDescriptor (gdt : Word → Entry) (num base limit : Word) (flag : BitVec 16) : Word → Entry :=
  put gdt num (gdtDescriptor base limit flag)

def createIdtDescriptor (idt : Byte → Entry) (num : Byte) (base : Word) (selector : BitVec 16)
    (flags : Byte) : Byte → Entry :=
  let idt := put idt num 0
  let idt := put idt num (idt num ||| base.setWidth 64 &&& 0xFFFF)
  let idt := put idt num (idt num ||| (selector.setWidth 64 &&& 0xFFFF) <<< 16)
  let idt := put idt num (idt num ||| (flags.setWidth 64 &&& 0xFF) <<< 40)
  put idt num (idt num ||| (base.setWidth 64 >>> 16 &&& 0xFFFF) <<< 48)

variable {base limit : Word} {flag selector : BitVec 16} {flags : Byte} {i : ℕ}

theorem put_self (table : BitVec w → Entry) (num : BitVec w) (d : Entry) :
    put table num d num = d := if_pos rfl

theorem put_other {num k : BitVec w} (table : BitVec w → Entry) (d : Entry) (h : k ≠ num) :
    put table num d k = table k := if_neg h

theorem limit_high : (0x000F0000 : Word) = window 32 16 4 := rfl

theorem limit_low : (0x0000FFFF : Word) = window 32 0 16 := rfl

theorem flag_mask : (0x00F0FF00 : Word) = window 32 8 8 ||| window 32 20 4 := rfl

theorem base_middle : (0x000000FF : Word) = window 32 0 8 := rfl

theorem base_high : (0xFF000000 : Word) = window 32 24 8 := rfl

theorem low_half : (0xFFFF : Entry) = window 64 0 16 := rfl

theorem low_byte : (0xFF : Entry) = window 64 0 8 := rfl

theorem gdt_bit (base limit : Word) (flag : BitVec 16) (hi : i < 64) :
    (gdtDescriptor base limit flag).getLsbD i =
    if i < 16 then limit.getLsbD i
    else if i < 40 then base.getLsbD (i - 16)
    else if i < 48 then flag.getLsbD (i - 40)
    else if i < 52 then limit.getLsbD (i - 32)
    else if i < 56 then flag.getLsbD (i - 40)
    else base.getLsbD (i - 32) := by
  simp only [gdtDescriptor, limit_high, limit_low, flag_mask, base_middle, base_high, BitVec.getLsbD_or,
    BitVec.getLsbD_shiftLeft, BitVec.getLsbD_setWidth, BitVec.getLsbD_and, BitVec.getLsbD_ushiftRight,
    BitVec.getLsbD_signExtend, window_bit (show 16 + 4 ≤ 32 by decide),
    window_bit (show 0 + 16 ≤ 32 by decide),
    window_bit (show 8 + 8 ≤ 32 by decide), window_bit (show 20 + 4 ≤ 32 by decide),
    window_bit (show 0 + 8 ≤ 32 by decide), window_bit (show 24 + 8 ≤ 32 by decide)]
  grind

theorem segment_base (base limit : Word) (flag : BitVec 16) :
    (decodeSegment (gdtDescriptor base limit flag)).base = base := by
  apply BitVec.eq_of_getLsbD_eq
  intro i hi
  simp only [decodeSegment, BitVec.getLsbD_append, BitVec.getLsbD_extractLsb']
  split_ifs
  · rw [gdt_bit _ _ _ (by omega)]
    grind
  · rw [gdt_bit _ _ _ (by omega)]
    grind
  · rw [gdt_bit _ _ _ (by omega)]
    grind

theorem segment_limit (base limit : Word) (flag : BitVec 16) :
    (decodeSegment (gdtDescriptor base limit flag)).limit = limit.setWidth 20 := by
  apply BitVec.eq_of_getLsbD_eq
  intro i hi
  simp only [decodeSegment, BitVec.getLsbD_append, BitVec.getLsbD_extractLsb', BitVec.getLsbD_setWidth]
  split_ifs
  · rw [gdt_bit _ _ _ (by omega)]
    grind
  · rw [gdt_bit _ _ _ (by omega)]
    grind

theorem segment_flag (base limit : Word) (flag : BitVec 16) :
    (decodeSegment (gdtDescriptor base limit flag)).flagWord = flag &&& 0xF0FF := by
  have hmask : (0xF0FF : BitVec 16) = window 16 0 8 ||| window 16 12 4 := rfl
  apply BitVec.eq_of_getLsbD_eq
  intro i hi
  simp only [Segment.flagWord, decodeSegment, BitVec.getLsbD_append, BitVec.getLsbD_extractLsb',
    BitVec.getLsbD_and,
    hmask, BitVec.getLsbD_or, window_bit (show 0 + 8 ≤ 16 by decide), window_bit (show 12 + 4 ≤ 16 by decide)]
  split_ifs
  · rw [gdt_bit _ _ _ (by omega)]
    grind
  · rw [show (0 : BitVec 4).getLsbD (i - 8) = false from BitVec.getLsbD_zero]
    grind
  · rw [gdt_bit _ _ _ (by omega)]
    grind

theorem flag_kept (h : flag &&& 0x0F00 = 0) : flag &&& 0xF0FF = flag := by
  have hall : (0xF0FF : BitVec 16) ||| 0x0F00 = BitVec.allOnes 16 := rfl
  calc flag &&& 0xF0FF = flag &&& 0xF0FF ||| flag &&& 0x0F00 := by
        rw [h]
        exact BitVec.or_zero.symm
    _ = flag &&& (0xF0FF ||| 0x0F00) := BitVec.and_or_distrib_left.symm
    _ = flag := by rw [hall, BitVec.and_allOnes]

theorem limit_kept (h : limit.toNat < 2 ^ 20) : (limit.setWidth 20).setWidth 32 = limit := by
  apply BitVec.eq_of_toNat_eq
  rw [BitVec.toNat_setWidth, BitVec.toNat_setWidth]
  omega

def idtDescriptor (base : Word) (selector : BitVec 16) (flags : Byte) : Entry :=
  let low : Entry := base.setWidth 64 &&& 0xFFFF
  low ||| (selector.setWidth 64 &&& 0xFFFF) <<< 16 ||| (flags.setWidth 64 &&& 0xFF) <<< 40 |||
    (base.setWidth 64 >>> 16 &&& 0xFFFF) <<< 48

theorem put_put (table : BitVec w → Entry) (num : BitVec w) (d d' : Entry) :
    put (put table num d) num d' = put table num d' := by
  funext k
  simp only [put]
  split_ifs <;> rfl

theorem createIdt_eq (idt : Byte → Entry) (num : Byte) (base : Word) (selector : BitVec 16) (flags : Byte) :
    createIdtDescriptor idt num base selector flags = put idt num (idtDescriptor base selector flags) := by
  have hzero (d : Entry) : 0 ||| d = d := BitVec.zero_or
  simp only [createIdtDescriptor, put_put, put_self, hzero, idtDescriptor]

theorem idt_bit (base : Word) (selector : BitVec 16) (flags : Byte) (hi : i < 64) :
    (idtDescriptor base selector flags).getLsbD i =
      if i < 16 then base.getLsbD i
      else if i < 32 then selector.getLsbD (i - 16)
      else if i < 40 then false
      else if i < 48 then flags.getLsbD (i - 40)
      else base.getLsbD (i - 32) := by
  simp only [idtDescriptor, low_half, low_byte, BitVec.getLsbD_or, BitVec.getLsbD_shiftLeft,
    BitVec.getLsbD_setWidth,
    BitVec.getLsbD_and, BitVec.getLsbD_ushiftRight, window_bit (show 0 + 16 ≤ 64 by decide),
    window_bit (show 0 + 8 ≤ 64 by decide)]
  grind

theorem gate_base (base : Word) (selector : BitVec 16) (flags : Byte) :
    (decodeGate (idtDescriptor base selector flags)).base = base := by
  apply BitVec.eq_of_getLsbD_eq
  intro i hi
  simp only [decodeGate, BitVec.getLsbD_append, BitVec.getLsbD_extractLsb']
  split_ifs
  · rw [idt_bit _ _ _ (by omega)]
    grind
  · rw [idt_bit _ _ _ (by omega)]
    grind

theorem gate_selector (base : Word) (selector : BitVec 16) (flags : Byte) :
    (decodeGate (idtDescriptor base selector flags)).selector = selector := by
  refine extract_eq fun i hi => ?_
  rw [idt_bit _ _ _ (by omega)]
  grind

theorem gate_reserved (base : Word) (selector : BitVec 16) (flags : Byte) :
    (decodeGate (idtDescriptor base selector flags)).reserved = 0 := by
  refine extract_eq fun i hi => ?_
  rw [idt_bit _ _ _ (by omega), show (0 : Byte).getLsbD i = false from BitVec.getLsbD_zero]
  grind

theorem gate_flags (base : Word) (selector : BitVec 16) (flags : Byte) :
    (decodeGate (idtDescriptor base selector flags)).flags = flags := by
  refine extract_eq fun i hi => ?_
  rw [idt_bit _ _ _ (by omega)]
  grind

theorem gate_eq (base : Word) (selector : BitVec 16) (flags : Byte) :
    decodeGate (idtDescriptor base selector flags) = ⟨base, selector, 0, flags⟩ :=
  Gate.ext (gate_base base selector flags) (gate_selector base selector flags)
  (gate_reserved base selector flags)
    (gate_flags base selector flags)

/-- The processor reads in a descriptor what the function was given, and the rest of the table
stays. -/
theorem descriptors_faithful :
    (∀ (gdt : Word → Entry) (num base limit : Word) (flag : BitVec 16), limit.toNat < 2 ^ 20 →
    flag &&& 0x0F00 = 0 →
      (decodeSegment (createGdtDescriptor gdt num base limit flag num)).base = base ∧
      (decodeSegment (createGdtDescriptor gdt num base limit flag num)).limit.setWidth 32 = limit ∧
      (decodeSegment (createGdtDescriptor gdt num base limit flag num)).flagWord = flag ∧
      ∀ k, k ≠ num → createGdtDescriptor gdt num base limit flag k = gdt k) ∧
    ∀ (idt : Byte → Entry) (num : Byte) (base : Word) (selector : BitVec 16) (flags : Byte),
      decodeGate (createIdtDescriptor idt num base selector flags num) = ⟨base, selector, 0, flags⟩ ∧
      ∀ k, k ≠ num → createIdtDescriptor idt num base selector flags k = idt k := by
  constructor
  · intro gdt num base limit flag hlimit hflag
    rw [createGdtDescriptor, put_self, segment_base, segment_limit, limit_kept hlimit, segment_flag,
      flag_kept hflag]
    exact ⟨rfl, rfl, rfl, fun k hk => put_other gdt _ hk⟩
  · intro idt num base selector flags
    rw [createIdt_eq, put_self]
    exact ⟨gate_eq base selector flags, fun k hk => put_other idt _ hk⟩

theorem code_segment : (decodeSegment (createGdtDescriptor (fun _ => 0) 1 0
    0xFFFFF 0xC09A 1)).flagWord = 0xC09A :=
  (descriptors_faithful.1 (fun _ => 0) 1 0 0xFFFFF 0xC09A (by decide) (by decide)).2.2.1

end Rinix.Descriptors
