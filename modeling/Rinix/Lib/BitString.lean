import Rinix.Lib.ByteMemory

namespace BitString

open ByteMemory

def msb (v : Byte) (i : ℕ) : Bool := v.getLsbD (7 - i)

def mask (i : ℕ) : Byte := (0x80 : Byte) >>> i

def bit (m : Mem) (p : Word) (f : ℕ) : Bool := msb (m (p + word (f / 8))) (f % 8)

def setBit (m : Mem) (p : Word) (f : ℕ) : Mem :=
  storeByte m (p + word (f / 8)) (m (p + word (f / 8)) ||| mask (f % 8))

def clearBit (m : Mem) (p : Word) (f : ℕ) : Mem :=
  storeByte m (p + word (f / 8)) (m (p + word (f / 8)) &&& ~~~mask (f % 8))

variable {v : Byte} {i j : ℕ}

theorem msb_mask (hi : i < 8) (hj : j < 8) : msb (mask i) j = decide (i = j) := by
  have hall : ∀ i < 8, ∀ j < 8, msb (mask i) j = decide (i = j) := by decide
  exact hall i hi j hj

theorem msb_or (u v : Byte) (i : ℕ) : msb (u ||| v) i = (msb u i || msb v i) := by
  simp only [msb, BitVec.getLsbD_or]

theorem msb_and (u v : Byte) (i : ℕ) : msb (u &&& v) i = (msb u i && msb v i) := by
  simp only [msb, BitVec.getLsbD_and]

theorem msb_not (v : Byte) (hi : i < 8) : msb (~~~v) i = !msb v i := by
  simp only [msb, BitVec.getLsbD_not, show 7 - i < 8 by omega, decide_true, Bool.true_and]

theorem xor_ones (v : Byte) : v ^^^ 0xFF = ~~~v := by
  rw [show (0xFF : Byte) = BitVec.allOnes 8 from rfl, BitVec.xor_allOnes]

theorem pos_iff (v : Byte) : 0 < v ↔ ∃ i < 8, msb v i = true := by
  rw [show 0 < v ↔ v ≠ 0 by bv_omega]
  constructor
  · intro h
    by_contra hno
    apply h
    apply BitVec.eq_of_getLsbD_eq
    intro k hk
    by_cases hv : v.getLsbD k = true
    · refine absurd ⟨7 - k, by omega, ?_⟩ hno
      rwa [msb, show 7 - (7 - k) = k by omega]
    · simpa using hv
  · rintro ⟨i, -, hi⟩ rfl
    simp [msb] at hi

theorem and_mask_pos (v : Byte) (hi : i < 8) : 0 < v &&& mask i ↔ msb v i = true := by
  rw [pos_iff]
  constructor
  · rintro ⟨j, hj, h⟩
    rw [msb_and, msb_mask hi hj, Bool.and_eq_true, decide_eq_true_iff] at h
    rw [h.2]
    exact h.1
  · intro h
    exact ⟨i, hi, by rw [msb_and, msb_mask hi hi, h]; simp⟩

theorem not_pos_iff (v : Byte) : 0 < ~~~v ↔ ∃ i < 8, msb v i = false := by
  rw [pos_iff]
  apply exists_congr
  intro i
  apply and_congr_right
  intro hi
  rw [msb_not v hi, Bool.not_eq_true']

theorem not_and_mask_pos (v : Byte) (hi : i < 8) : 0 < ~~~v &&& mask i ↔ msb v i = false := by
  rw [and_mask_pos _ hi, msb_not v hi, Bool.not_eq_true']

theorem shift_and_one (v : Byte) (i : ℕ) : (v >>> (7 - i)) &&& 1 = if msb v i then 1 else 0 := by
  have hone : ∀ k < 8, (1 : Byte).getLsbD k = decide (k = 0) := by decide
  apply BitVec.eq_of_getLsbD_eq
  intro k hk
  rw [BitVec.getLsbD_and, BitVec.getLsbD_ushiftRight, hone k hk]
  by_cases hk0 : k = 0
  · subst hk0
    by_cases h : msb v i = true
    · rw [if_pos h, Nat.add_zero, show v.getLsbD (7 - i) = true from h]; rfl
    · rw [if_neg h, Nat.add_zero, show v.getLsbD (7 - i) = false by simpa [msb] using h]; rfl
  · split_ifs
    · simp [hk0]
    · simp [hk0]

variable {m : Mem} {p : Word} {f g : ℕ}

theorem word_div_eight_congr (h : f % 34359738368 = g % 34359738368) : word (f / 8) = word (g / 8) := by
  apply BitVec.eq_of_toNat_eq
  rw [toNat_word_mod, toNat_word_mod]
  omega

theorem bit_congr (h : f % 34359738368 = g % 34359738368) : bit m p f = bit m p g := by
  rw [bit, bit, word_div_eight_congr h, show f % 8 = g % 8 by omega]

theorem setBit_congr (h : f % 34359738368 = g % 34359738368) : setBit m p f = setBit m p g := by
  rw [setBit, setBit, word_div_eight_congr h, show f % 8 = g % 8 by omega]

theorem address_iff : p + word (g / 8) = p + word (f / 8) ↔ g / 8 % 4294967296 = f / 8 % 4294967296 := by
  rw [BitVec.add_right_inj, ← BitVec.toNat_inj, toNat_word_mod, toNat_word_mod]

theorem bit_setBit_mod : bit (setBit m p f) p g =
    (decide (f % 34359738368 = g % 34359738368) || bit m p g) := by
  by_cases h : p + word (g / 8) = p + word (f / 8)
  · have hfg := address_iff.mp h
    rw [bit, setBit, storeByte, if_pos h, msb_or, msb_mask (by omega) (by omega), bit, h, Bool.or_comm]
    congr 1
    exact decide_eq_decide.mpr (by omega)
  · have hne : f % 34359738368 ≠ g % 34359738368 := fun heq => h (address_iff.mpr (by omega))
    simp only [bit, setBit, storeByte, if_neg h, hne, decide_false, Bool.false_or]

theorem bit_clearBit_mod : bit (clearBit m p f) p g =
    (!decide (f % 34359738368 = g % 34359738368) && bit m p g) := by
  by_cases h : p + word (g / 8) = p + word (f / 8)
  · have hfg := address_iff.mp h
    rw [bit, clearBit, storeByte, if_pos h, msb_and, msb_not _ (by omega),
      msb_mask (by omega) (by omega), bit, h, Bool.and_comm]
    congr 2
    exact decide_eq_decide.mpr (by omega)
  · have hne : f % 34359738368 ≠ g % 34359738368 := fun heq => h (address_iff.mpr (by omega))
    simp only [bit, clearBit, storeByte, if_neg h, hne, decide_false, Bool.not_false, Bool.true_and]

theorem bit_setBit (hf : f < 34359738368) (hg : g < 34359738368) :
    bit (setBit m p f) p g = (decide (f = g) || bit m p g) := by
  rw [bit_setBit_mod, Nat.mod_eq_of_lt hf, Nat.mod_eq_of_lt hg]

theorem bit_clearBit (hf : f < 34359738368) (hg : g < 34359738368) :
    bit (clearBit m p f) p g = (!decide (f = g) && bit m p g) := by
  rw [bit_clearBit_mod, Nat.mod_eq_of_lt hf, Nat.mod_eq_of_lt hg]

end BitString
