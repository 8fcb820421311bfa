import Rinix.Frames.Bits

namespace Rinix.Frames

open ByteMemory WhileLoop BitString

variable {b c : PfBitmap} {index frame : BitVec 64} {addr : Word} {i f g : ℕ} {u : BitVec 64 × ℕ}

theorem msb_frame (b : PfBitmap) (frame : BitVec 64) :
    msb (b.chunk (frame / 8)) (frame % 8).toNat = b.bit frame.toNat := by
  rw [msb_chunk (mod_lt_eight frame), frameNumber_div]

theorem freeFrameNum_used (h : b.bit frame.toNat = true) : freeFrameNum b frame =
    ({ b with lastChecked := frame / 8, mem := clearBit b.mem b.ptr frame.toNat }, 0) := by
  have hi := mod_lt_eight frame
  have hset := (msb_frame { b with lastChecked := frame / 8 } frame).trans h
  simp only [freeFrameNum, highBit_shift, and_mask_pos _ hi, if_pos hset, markFrameFree_eq hi,
    frameNumber_div]

theorem freeFrameNum_clear (h : b.bit frame.toNat = false) :
    freeFrameNum b frame = ({ b with lastChecked := frame / 8 }, -1) := by
  have hclear := (msb_frame { b with lastChecked := frame / 8 } frame).trans h
  simp only [freeFrameNum, highBit_shift, and_mask_pos _ (mod_lt_eight frame), hclear, Bool.false_eq_true,
    ↓reduceIte]

theorem searchTurn_exit (hi : i < 8) (h : b.bit (frameNumber index i).toNat = false) :
    searchTurn b (index, i) = .exit (index, i) := by
  have hclear : msb (b.chunk index) i = false := (msb_chunk hi).trans h
  simp only [searchTurn, xor_ones, highBit_shift]
  rw [if_pos ((not_pos_iff _).mpr ⟨i, hi, hclear⟩), if_pos ((not_and_mask_pos _ hi).mpr hclear)]

theorem searchTurn_bit (hi : i < 8) (h : b.bit (frameNumber index i).toNat = true)
    (hlater : ∃ j < 8, b.bit (frameNumber index j).toNat = false) :
    searchTurn b (index, i) = .again (index, i + 1) := by
  obtain ⟨j, hj, hclear⟩ := hlater
  rw [← msb_chunk hj] at hclear
  have hset : ¬msb (b.chunk index) i = false := by
    rw [msb_chunk hi, h]
    simp
  simp only [searchTurn, xor_ones, highBit_shift]
  rw [if_pos ((not_pos_iff _).mpr ⟨j, hj, hclear⟩), if_neg fun hpos => hset ((not_and_mask_pos _ hi).mp hpos)]

theorem searchTurn_stays (h : ∃ j < 8, b.bit (frameNumber index j).toNat = false) (i : ℕ) :
    searchTurn b (index, i) = .exit (index, i) ∨ searchTurn b (index, i) = .again (index, i + 1) := by
  obtain ⟨j, hj, hclear⟩ := h
  rw [← msb_chunk hj] at hclear
  simp only [searchTurn, xor_ones]
  rw [if_pos ((not_pos_iff _).mpr ⟨j, hj, hclear⟩)]
  split_ifs
  · exact Or.inl rfl
  · exact Or.inr rfl

theorem searchTurn_chunk (h : ∀ j < 8, b.bit (frameNumber index j).toNat = true) :
    searchTurn b (index, i) = .again (index + 1, 0) := by
  have hfull : ¬0 < ~~~b.chunk index := by
    rw [not_pos_iff]
    rintro ⟨j, hj, hclear⟩
    rw [msb_chunk hj, h j hj] at hclear
    cases hclear
  simp only [searchTurn, xor_ones, if_neg hfull]

def Searching (b : PfBitmap) (u : BitVec 64 × ℕ) : Prop :=
  u.2 < 8 ∧ ∀ j < u.2, b.bit (frameNumber u.1 j).toNat = true

theorem search_meets (h : Searching b u) :
    (searchTurn b u).Meets (Searching b) fun r => r.2 < 8 ∧ b.bit (frameNumber r.1 r.2).toNat = false := by
  obtain ⟨index, i⟩ := u
  obtain ⟨hi, hset⟩ := h
  simp only at hi hset
  by_cases hclear : b.bit (frameNumber index i).toNat = false
  · rw [searchTurn_exit hi hclear]
    exact ⟨hi, hclear⟩
  · have hbit : b.bit (frameNumber index i).toNat = true := by simpa using hclear
    by_cases hlater : ∃ j < 8, b.bit (frameNumber index j).toNat = false
    · rw [searchTurn_bit hi hbit hlater]
      obtain ⟨j, hj, hj'⟩ := hlater
      have hsucc (k : ℕ) (hk : k < i + 1) : b.bit (frameNumber index k).toNat = true := by
        rcases Nat.lt_succ_iff_lt_or_eq.mp hk with hk | rfl
        · exact hset k hk
        · exact hbit
      have hij : i + 1 ≤ j := by
        by_contra hji
        rw [hsucc j (by omega)] at hj'
        cases hj'
      exact ⟨by simp only; omega, hsucc⟩
    · rw [searchTurn_chunk fun j hj => by simpa using fun h => hlater ⟨j, hj, h⟩]
      exact ⟨by simp, fun j hj => absurd hj (by simp)⟩

theorem getFreeFrame_returns (h : Exits (searchTurn b) (searchStart b) (index, i)) :
    GetFreeFrameReturns b (markFrameUsed b index i) (frameNumber index i) := by
  obtain ⟨fuel, hrun⟩ := h
  exact ⟨fuel, by rw [getFreeFrame, hrun]; rfl⟩

theorem search_result (h : Exits (searchTurn b) (searchStart b) (index, i)) :
    i < 8 ∧ b.bit (frameNumber index i).toNat = false := by
  have hstart : Searching b (searchStart b) :=
    ⟨by simp [searchStart], fun j hj => absurd hj (by simp [searchStart])⟩
  obtain ⟨hi, hclear⟩ := Exits.result (fun u hu => search_meets hu) hstart h
  exact ⟨hi, hclear⟩

theorem getFreeFrame_spec (h : GetFreeFrameReturns b c frame) :
    b.bit frame.toNat = false ∧ c = { b with mem := setBit b.mem b.ptr frame.toNat } := by
  obtain ⟨fuel, h⟩ := h
  obtain ⟨⟨index, i⟩, hrun, hret⟩ := Option.map_eq_some_iff.mp h
  simp only [Prod.mk.injEq] at hret
  obtain ⟨rfl, rfl⟩ := hret
  obtain ⟨hi, hclear⟩ := search_result ⟨fuel, hrun⟩
  exact ⟨hclear, markFrameUsed_eq hi⟩

end Rinix.Frames
