import Rinix.Lib.ByteMemory
import Rinix.Lib.WhileLoop

namespace Rinix.Strings

open ByteMemory WhileLoop

variable (dst src size : Word)

def forwardTurn : Word × Mem → Turn (Word × Mem) Mem
  | (i, m) => if i < size then .again (i + 1, storeByte m (dst + i) (m (src + i))) else .exit m

def backwardTurn : Word × Mem → Turn (Word × Mem) Mem
  | (i, m) => if i ≠ 0 then .again (i - 1, storeByte m (dst + (i - 1)) (m (src + (i - 1)))) else .exit m

def memmove (m : Mem) (fuel : ℕ) : Option (Mem × Word) :=
  if dst < src then (run (forwardTurn dst src size) fuel (0, m)).map fun m => (m, dst)
  else (run (backwardTurn dst src) fuel (size, m)).map fun m => (m, dst)

def moved (lo top : ℕ) (m : Mem) : Mem :=
  fun x => if lo ≤ (x - dst).toNat ∧ (x - dst).toNat < top then m (src + (x - dst)) else m x

variable {dst src size} {m : Mem} {lo top i : ℕ}

theorem moved_nothing (n : ℕ) (m : Mem) : moved dst src n n m = m := by
  funext x
  rw [moved, if_neg (by omega)]

theorem store_moved {lo' top' : ℕ} (hi : i < 4294967296)
    (hrange : ∀ k, lo' ≤ k ∧ k < top' ↔ k = i ∨ lo ≤ k ∧ k < top) :
    storeByte (moved dst src lo top m) (dst + word i) (m (src + word i)) = moved dst src lo' top' m := by
  funext x
  rw [storeByte, moved, moved, if_congr (hrange _) rfl rfl]
  by_cases hx : (x - dst).toNat = i
  · rw [if_pos ((eq_offset hi).mpr hx), if_pos (Or.inl hx), ← hx, word_toNat]
  · rw [if_neg (fun h => hx ((eq_offset hi).mp h))]
    exact if_congr ⟨Or.inr, fun h => h.resolve_left hx⟩ rfl rfl

theorem moved_unread (h : ∀ k, lo ≤ k → k < top → k < 4294967296 → dst + word k ≠ src + word i) :
    moved dst src lo top m (src + word i) = m (src + word i) := by
  apply if_neg
  rintro ⟨hlo, htop⟩
  apply h _ hlo htop (src + word i - dst).isLt
  rw [word_toNat]
  grind

theorem toNat_offset {a : Word} {n k : ℕ} (ha : a.toNat + n ≤ 4294967296) (hk : k < n) :
    (a + word k).toNat = a.toNat + k := by
  rw [BitVec.toNat_add, toNat_word_mod]
  omega

theorem forward_exits (hdst : dst.toNat + size.toNat ≤ 4294967296)
    (hsrc : src.toNat + size.toNat ≤ 4294967296)
    (hlt : dst < src) (n : ℕ) (hi : i + n = size.toNat) :
    Exits (forwardTurn dst src size) (word i, moved dst src 0 i m) (moved dst src 0 size.toNat m) := by
  have hsize := size.isLt
  induction n generalizing i with
  | zero =>
    obtain rfl : i = size.toNat := hi
    apply Exits.of_exit
    rw [forwardTurn, word_toNat, if_neg (BitVec.lt_irrefl size)]
  | succ n ih =>
    have hnext : word i + 1 = word (i + 1) := by rw [show (1 : Word) = word 1 from rfl, word_add]
    have hturn : forwardTurn dst src size (word i, moved dst src 0 i m) =
        .again (word (i + 1), moved dst src 0 (i + 1) m) := by
      have hunread : moved dst src 0 i m (src + word i) = m (src + word i) := by
        apply moved_unread
        intro k _ hk _ heq
        have heq' := congrArg BitVec.toNat heq
        rw [toNat_offset hdst (by omega : k < size.toNat), toNat_offset hsrc (by omega)] at heq'
        have hlt' : dst.toNat < src.toNat := hlt
        omega
      have hpos : word i < size := by
        rw [BitVec.lt_def, toNat_word (by omega)]
        omega
      have hstore : storeByte (moved dst src 0 i m) (dst + word i) (m (src + word i)) =
        moved dst src 0 (i + 1) m :=
        store_moved (by omega) (by omega)
      rw [forwardTurn, if_pos hpos, hnext, hunread, hstore]
    exact (exits_again hturn).mpr (ih (by omega))

theorem backward_exits (hdst : dst.toNat + size.toNat ≤ 4294967296)
    (hsrc : src.toNat + size.toNat ≤ 4294967296) (hle : src ≤ dst) (hi : i ≤ size.toNat) :
    Exits (backwardTurn dst src) (word i, moved dst src i size.toNat m) (moved dst src 0 size.toNat m) := by
  have hsize := size.isLt
  induction i with
  | zero => exact Exits.of_exit rfl
  | succ i ih =>
    have hprev : word (i + 1) - 1 = word i := by
      rw [show (1 : Word) = word 1 from rfl, word_sub (Nat.le_add_left 1 i), Nat.add_sub_cancel]
    have hturn : backwardTurn dst src (word (i + 1), moved dst src (i + 1) size.toNat m) =
        .again (word i, moved dst src i size.toNat m) := by
      have hunread : moved dst src (i + 1) size.toNat m (src + word i) = m (src + word i) := by
        apply moved_unread
        intro k hk hk' _ heq
        have heq' := congrArg BitVec.toNat heq
        rw [toNat_offset hdst hk', toNat_offset hsrc (by omega)] at heq'
        have hle' : src.toNat ≤ dst.toNat := hle
        omega
      have hpos : word (i + 1) ≠ 0 := by
        intro hzero
        have hnat := congrArg BitVec.toNat hzero
        rw [toNat_word (by omega)] at hnat
        exact absurd hnat (Nat.succ_ne_zero i)
      have hstore : storeByte (moved dst src (i + 1) size.toNat m) (dst + word i) (m (src + word i)) =
          moved dst src i size.toNat m := store_moved (by omega) (by omega)
      rw [backwardTurn, if_pos hpos, hprev, hunread, hstore]
    exact (exits_again hturn).mpr (ih (by omega))

theorem memmove_moved (hdst : dst.toNat + size.toNat ≤ 4294967296)
    (hsrc : src.toNat + size.toNat ≤ 4294967296)
    (m : Mem) : Returns (memmove dst src size m) (moved dst src 0 size.toNat m, dst) := by
  by_cases hlt : dst < src
  · obtain ⟨fuel, h⟩ := forward_exits (m := m) (i := 0) hdst hsrc hlt size.toNat (by omega)
    rw [moved_nothing] at h
    exact ⟨fuel, by rw [memmove, if_pos hlt, show (0 : Word) = word 0 from rfl, h, Option.map_some]⟩
  · obtain ⟨fuel, h⟩ := backward_exits (m := m) hdst hsrc (BitVec.not_lt.mp hlt) (Nat.le_refl _)
    rw [moved_nothing, word_toNat] at h
    exact ⟨fuel, by rw [memmove, if_neg hlt, h, Option.map_some]⟩

theorem memmove_fuelled (m : Mem) : Fuelled (memmove dst src size m) :=
  Fuelled.ite (Fuelled.map (run_fuelled _ _) _) (Fuelled.map (run_fuelled _ _) _)

/-- The bytes that are copied are those of the memory before the call, however the two ranges
overlap. -/
theorem memmove_copies (dst src size : Word) (hdst : dst.toNat + size.toNat ≤ 4294967296)
    (hsrc : src.toNat + size.toNat ≤ 4294967296) (m : Mem) :
    ∃ m', (∀ r, Returns (memmove dst src size m) r ↔ r = (m', dst)) ∧
      (∀ i < size, m' (dst + i) = m (src + i)) ∧
      ∀ x : Word, ¬(dst.toNat ≤ x.toNat ∧ x.toNat < dst.toNat + size.toNat) → m' x = m x := by
  have hreturns := memmove_moved hdst hsrc m
  refine ⟨moved dst src 0 size.toNat m, ?_, ?_, ?_⟩
  · intro r
    constructor
    · intro hr
      exact (memmove_fuelled m).unique hr hreturns
    · rintro rfl
      exact hreturns
  · intro i hi
    have hoffset : dst + i - dst = i := by grind
    rw [moved, hoffset, if_pos ⟨Nat.zero_le _, hi⟩]
  · intro x hx
    apply if_neg
    rintro ⟨-, hlt⟩
    apply hx
    have hx' : x = dst + word (x - dst).toNat := (eq_offset (x - dst).isLt).mpr rfl
    rw [hx', toNat_offset hdst hlt]
    omega

theorem overlapping_copied : ∃ m', Returns (memmove 1 0 2 fun x => x.setWidth 8) (m', 1) ∧
    m' 1 = 0 ∧ m' 2 = 1 ∧ m' 3 = 3 := by
  obtain ⟨m', hreturns, hcopied, hframe⟩ :=
    memmove_copies 1 0 2 (by decide) (by decide) fun x => x.setWidth 8
  exact ⟨m', (hreturns _).mpr rfl, hcopied 0 (by decide), hcopied 1 (by decide), hframe 3 (by decide)⟩

end Rinix.Strings
