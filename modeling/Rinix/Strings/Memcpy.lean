import Rinix.Strings.Memmove

namespace Rinix.Strings

open ByteMemory WhileLoop

def memcpy (dst src size : Word) (m : Mem) (fuel : ℕ) : Option (Mem × Word) :=
  (run (forwardTurn dst src size) fuel (0, m)).map fun m => (m, dst)

variable (dst src : Word)

def cycled (top : ℕ) (m : Mem) : Mem :=
  fun x => if (x - dst).toNat < top then m (src + word ((x - dst).toNat % (dst - src).toNat)) else m x

variable {dst src} {size x : Word} {m : Mem} {i n : ℕ}

theorem cycled_nothing (m : Mem) : cycled dst src 0 m = m := by
  funext x
  rw [cycled, if_neg (Nat.not_lt_zero _)]

theorem cycled_at (hi : i < n) (hsmall : i < 4294967296) :
    cycled dst src n m (dst + word i) = m (src + word (i % (dst - src).toNat)) := by
  have hoffset : (dst + word i - dst).toNat = i := (eq_offset hsmall).mp rfl
  rw [cycled, hoffset, if_pos hi]

theorem cycled_read (hi : i < 4294967296) (m : Mem) :
    cycled dst src i m (src + word i) = m (src + word (i % (dst - src).toNat)) := by
  have hword := toNat_word hi
  have hd := (dst - src).isLt
  by_cases hlate : (dst - src).toNat ≠ 0 ∧ (dst - src).toNat ≤ i
  · obtain ⟨hpos, hle⟩ := hlate
    have hback : (src + word i - dst).toNat = i - (dst - src).toNat := by
      have hsplit : src + word i - dst = word i - (dst - src) := by grind
      rw [hsplit]
      bv_omega
    rw [cycled, hback, if_pos (by omega), Nat.mod_eq_sub_mod hle]
  · have hfresh : ¬(src + word i - dst).toNat < i := by
      have hsplit : src + word i - dst = word i - (dst - src) := by grind
      rw [hsplit]
      bv_omega
    have hmod : i % (dst - src).toNat = i := by
      by_cases hzero : (dst - src).toNat = 0
      · rw [hzero, Nat.mod_zero]
      · exact Nat.mod_eq_of_lt (by omega)
    rw [cycled, if_neg hfresh, hmod]

theorem cycled_store (hi : i < 4294967296) (m : Mem) :
    storeByte (cycled dst src i m) (dst + word i) (cycled dst src i m (src + word i)) =
    cycled dst src (i + 1) m := by
  rw [cycled_read hi]
  funext x
  rw [storeByte]
  by_cases hx : (x - dst).toNat = i
  · rw [if_pos ((eq_offset hi).mpr hx), cycled, hx, if_pos (Nat.lt_succ_self i)]
  · rw [if_neg fun h => hx ((eq_offset hi).mp h), cycled, cycled]
    exact if_congr (by omega) rfl rfl

theorem memcpy_exits (hi : i + n = size.toNat) :
    Exits (forwardTurn dst src size) (word i, cycled dst src i m) (cycled dst src size.toNat m) := by
  have hsize := size.isLt
  induction n generalizing i with
  | zero =>
    obtain rfl : i = size.toNat := hi
    apply Exits.of_exit
    rw [forwardTurn, word_toNat, if_neg (BitVec.lt_irrefl size)]
  | succ n ih =>
    have hnext : word i + 1 = word (i + 1) := word_add i 1
    have hpos : word i < size := by
      rw [BitVec.lt_def, toNat_word (by omega)]
      omega
    have hturn : forwardTurn dst src size (word i, cycled dst src i m) =
        .again (word (i + 1), cycled dst src (i + 1) m) := by
      rw [forwardTurn, if_pos hpos, hnext, cycled_store (by omega)]
    exact (exits_again hturn).mpr (ih (by omega))

theorem memcpy_cycled (dst src size : Word) (m : Mem) (r : Mem × Word) :
    Returns (memcpy dst src size m) r ↔ r = (cycled dst src size.toNat m, dst) := by
  have hreturns : Returns (memcpy dst src size m) (cycled dst src size.toNat m, dst) := by
    have hexits : Exits (forwardTurn dst src size) (word 0, cycled dst src 0 m)
      (cycled dst src size.toNat m) :=
      memcpy_exits (Nat.zero_add size.toNat)
    rw [cycled_nothing] at hexits
    obtain ⟨fuel, h⟩ := hexits
    refine ⟨fuel, ?_⟩
    rw [memcpy, show (0 : Word) = word 0 from rfl, h, Option.map_some]
  constructor
  · intro hr
    exact (Fuelled.map (run_fuelled _ _) _).unique hr hreturns
  · rintro rfl
    exact hreturns

theorem cycled_moved_iff (m : Mem) : cycled dst src size.toNat m = moved dst src 0 size.toNat m ↔
    ∀ i < size.toNat, m (src + word (i % (dst - src).toNat)) = m (src + word i) := by
  have hsize := size.isLt
  constructor
  · intro heq i hi
    have hbyte := congrFun heq (dst + word i)
    have hoffset : dst + word i - dst = word i := by grind
    rw [cycled_at hi (by omega), moved, hoffset, toNat_word (by omega), if_pos ⟨Nat.zero_le i, hi⟩] at hbyte
    exact hbyte
  · intro h
    funext x
    rw [cycled, moved]
    by_cases hx : (x - dst).toNat < size.toNat
    · rw [if_pos hx, if_pos ⟨Nat.zero_le _, hx⟩, h _ hx, word_toNat]
    · rw [if_neg hx, if_neg fun hin => hx hin.2]

/-- What `memcpy` leaves, overlap or not, and when that is what `memmove` leaves. -/
theorem memcpy_agrees_iff (dst src size : Word) (hdst : dst.toNat + size.toNat ≤ 4294967296)
    (hsrc : src.toNat + size.toNat ≤ 4294967296) (m : Mem) : ∃ copied kept : Mem,
      (∀ r, Returns (memcpy dst src size m) r ↔ r = (copied, dst)) ∧
      (∀ r, Returns (memmove dst src size m) r ↔ r = (kept, dst)) ∧
      (∀ i < size.toNat, copied (dst + word i) = m (src + word (i % (dst - src).toNat))) ∧
      (∀ x, size.toNat ≤ (x - dst).toNat → copied x = m x) ∧
      (copied = kept ↔ ∀ i < size.toNat, m (src + word (i % (dst - src).toNat)) = m (src + word i)) := by
  have hmoved := memmove_moved hdst hsrc m
  refine ⟨cycled dst src size.toNat m, moved dst src 0 size.toNat m, memcpy_cycled dst src size m,
    fun r => ?_,
    fun i hi => cycled_at hi (by omega), fun x hx => if_neg (Nat.not_lt.mpr hx), cycled_moved_iff m⟩
  constructor
  · intro hr
    exact (memmove_fuelled m).unique hr hmoved
  · rintro rfl
    exact hmoved

example : ∃ copied kept : Mem, Returns (memcpy 1 0 2 fun x => x.setWidth 8) (copied, 1) ∧
    Returns (memmove 1 0 2 fun x => x.setWidth 8) (kept, 1) ∧ copied 2 = 0 ∧ copied ≠ kept := by
  obtain ⟨copied, kept, hcopied, hkept, hbytes, -, hiff⟩ :=
    memcpy_agrees_iff 1 0 2 (by decide) (by decide) fun x => x.setWidth 8
  refine ⟨copied, kept, (hcopied _).mpr rfl, (hkept _).mpr rfl, hbytes 1 (by decide), fun heq => ?_⟩
  exact absurd (hiff.mp heq 1 (by decide)) (by decide)

end Rinix.Strings
