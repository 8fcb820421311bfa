import Mathlib.Data.Nat.Find
import Mathlib.Data.Nat.Init
import Rinix.Frames.Search
import Rinix.Lib.Runs

/-!
The hint `last_checked`: every free writes a byte index into it, the search reads it as a bit index,
and nothing else moves it. So the search starts at byte `g / 64` after `g` was freed last, and has
no end.
-/

namespace Rinix.Frames

open ByteMemory WhileLoop BitString Runs

inductive Call where
  | get (frame : BitVec 64)
  | free (addr : Word)

inductive InMap : PfBitmap → Call → PfBitmap → Prop where
  | get {b c : PfBitmap} {frame : BitVec 64} : GetFreeFrameReturns b c frame →
      frame.toNat < 8 * b.length.toNat → InMap b (.get frame) c
  | free {b : PfBitmap} {addr : Word} : addr.toNat / 0x1000 < 8 * b.length.toNat →
      InMap b (.free addr) (freeFrame b addr).1

def SearchStaysInside (b : PfBitmap) : Prop :=
  (∃ c frame, GetFreeFrameReturns b c frame ∧ frame.toNat < 8 * b.length.toNat) ∧
    ∀ u, Visits (searchTurn b) (searchStart b) u → u.1.toNat < b.length.toNat

def chunkIndex (n : ℕ) : BitVec 64 := BitVec.ofNat 64 n

variable {b c : PfBitmap} {e : Call} {es : List Call} {i j f g : ℕ}

theorem chunkIndex_toNat (hi : i < 18446744073709551616) : (chunkIndex i).toNat = i := by
  rw [chunkIndex, BitVec.toNat_ofNat]
  omega

theorem chunkIndex_succ (i : ℕ) : chunkIndex i + 1 = chunkIndex (i + 1) := BitVec.ofNat_add_ofNat i 1

theorem frameNumber_chunkIndex (hi : i < 2305843009213693952) (hj : j < 8) :
    (frameNumber (chunkIndex i) j).toNat = 8 * i + j := by
  rw [frameNumber_toNat, chunkIndex_toNat (by omega)]
  omega

theorem searchStart_eq (b : PfBitmap) : searchStart b = (chunkIndex (b.lastChecked.toNat / 8), 0) := by
  have hlt := b.lastChecked.isLt
  have hindex : b.lastChecked / 8 = chunkIndex (b.lastChecked.toNat / 8) := by
    apply BitVec.eq_of_toNat_eq
    rw [chunkIndex_toNat (by omega), div_eight_toNat]
  rw [searchStart, hindex]

theorem bit_chunk (b : PfBitmap) (i j : ℕ) :
    b.bit (frameNumber (chunkIndex i) j).toNat = b.bit (8 * i + j) := by
  apply bit_congr
  rw [frameNumber_toNat, chunkIndex, BitVec.toNat_ofNat]
  omega

theorem visits_chunk (hij : i ≤ j) (hset : ∀ g, 8 * i ≤ g → g < 8 * j → b.bit g = true) :
    Visits (searchTurn b) (chunkIndex i, 0) (chunkIndex j, 0) := by
  induction j, hij using Nat.le_induction with
  | base => exact .refl
  | succ j hij ih =>
    refine .tail (ih fun g hg hg' => hset g hg (by omega)) ?_
    rw [← chunkIndex_succ]
    apply searchTurn_chunk
    intro k hk
    rw [bit_chunk b j k]
    exact hset _ (by omega) (by omega)

theorem visits_bit (hj : j < 8) (hclear : b.bit (8 * i + j) = false)
    (hset : ∀ k < j, b.bit (8 * i + k) = true)
    {k : ℕ} (hk : k ≤ j) : Visits (searchTurn b) (chunkIndex i, 0) (chunkIndex i, k) := by
  induction k with
  | zero => exact .refl
  | succ k ih =>
    refine .tail (ih (by omega)) (searchTurn_bit (by omega) ?_ ⟨j, hj, ?_⟩)
    · rw [bit_chunk b i k]
      exact hset k (by omega)
    · rw [bit_chunk b i j]
      exact hclear

theorem search_finds (hi : 8 * i ≤ f) (hclear : b.bit f = false)
    (hfirst : ∀ g, 8 * i ≤ g → g < f → b.bit g = true) :
    Exits (searchTurn b) (chunkIndex i, 0) (chunkIndex (f / 8), f % 8) := by
  have hsplit : 8 * (f / 8) + f % 8 = f := by omega
  have hchunks := visits_chunk (b := b) (i := i) (j := f / 8) (by omega) fun g hg hg' =>
    hfirst g hg (by omega)
  have hbits := visits_bit (b := b) (i := f / 8) (j := f % 8) (by omega) (by rw [hsplit]; exact hclear)
    (fun k hk => hfirst _ (by omega) (by omega)) (Nat.le_refl _)
  rw [hchunks.exits_iff, hbits.exits_iff]
  apply Exits.of_exit
  apply searchTurn_exit (by omega)
  rw [bit_chunk b, hsplit]
  exact hclear

theorem search_reads (hi : 8 * i ≤ f) (hf : f < 18446744073709551616) (hclear : b.bit f = false)
    {u : BitVec 64 × ℕ} (hu : Visits (searchTurn b) (chunkIndex i, 0) u) : u.1.toNat ≤ f / 8 := by
  have hturn (u : BitVec 64 × ℕ) (hle : u.1.toNat ≤ f / 8) :
      (searchTurn b u).Meets (fun v => v.1.toNat ≤ f / 8) fun _ => True := by
    obtain ⟨index, k⟩ := u
    simp only at hle
    by_cases h : ∃ j < 8, b.bit (frameNumber index j).toNat = false
    · rcases searchTurn_stays h k with h | h
      · rw [h]; trivial
      · rw [h]; exact hle
    · have hset : ∀ j < 8, b.bit (frameNumber index j).toNat = true :=
        fun j hj => by simpa using fun h' => h ⟨j, hj, h'⟩
      have hne : index.toNat ≠ f / 8 := by
        intro heq
        have hindex : index = chunkIndex (f / 8) :=
          BitVec.eq_of_toNat_eq (by rw [heq, chunkIndex_toNat (by omega)])
        have hbit := hset (f % 8) (by omega)
        rw [hindex, frameNumber_chunkIndex (by omega) (by omega), show 8 * (f / 8) + f % 8 =
          f by omega, hclear] at hbit
        cases hbit
      rw [searchTurn_chunk hset]
      simp only [Turn.Meets, BitVec.toNat_add, show (1 : BitVec 64).toNat = 1 from rfl]
      omega
  refine hu.invariant (fun v => v.1.toNat ≤ f / 8) hturn ?_
  simp only
  rw [chunkIndex_toNat (by omega)]
  omega

theorem search_inside (hlen : b.length.toNat ≤ 0x100000000)
    (h : ∃ f, 8 * (b.lastChecked.toNat / 8) ≤ f ∧ f < 8 * b.length.toNat ∧ b.bit f = false) :
    SearchStaysInside b := by
  classical
  obtain ⟨hstart, hf, hclear⟩ := Nat.find_spec h
  have hfirst (g : ℕ) (hg : 8 * (b.lastChecked.toNat / 8) ≤ g) (hg' : g < Nat.find h) : b.bit g = true := by
    by_contra hbit
    exact Nat.find_min h hg' ⟨hg, by omega, by simpa using hbit⟩
  have hfinds := search_finds hstart hclear hfirst
  rw [← searchStart_eq] at hfinds
  refine ⟨⟨_, _, getFreeFrame_returns hfinds, ?_⟩, ?_⟩
  · rw [frameNumber_chunkIndex (by omega) (by omega)]
    omega
  · intro u hu
    rw [searchStart_eq] at hu
    have := search_reads hstart (by omega) hclear hu
    omega

theorem search_leaves (hlen : b.length.toNat ≤ 0x100000000)
    (hstart : b.lastChecked.toNat / 8 ≤ b.length.toNat)
    (h : ∀ f, 8 * (b.lastChecked.toNat / 8) ≤ f → f < 8 * b.length.toNat → b.bit f = true) :
    ¬SearchStaysInside b := by
  rintro ⟨-, hreads⟩
  rw [searchStart_eq] at hreads
  have := hreads _ (visits_chunk hstart h)
  rw [chunkIndex_toNat (by omega)] at this
  omega

theorem hint_below (hb : b.lastChecked = 0 ∨ b.lastChecked.toNat < b.length.toNat) (h : Run InMap b es c) :
    c.length = b.length ∧ (c.lastChecked = 0 ∨ c.lastChecked.toNat < c.length.toNat) := by
  refine h.invariant (fun c => c.length = b.length ∧
    (c.lastChecked = 0 ∨ c.lastChecked.toNat < c.length.toNat)) ?_ ⟨rfl, hb⟩
  rintro c e d ⟨hlen, hhint⟩ hstep
  cases hstep with
  | get hret _ =>
    obtain ⟨-, rfl⟩ := getFreeFrame_spec hret
    exact ⟨hlen, hhint⟩
  | free haddr =>
    rename_i addr
    have hframe : ((addr / 0x1000).setWidth 64 / 8 : BitVec 64).toNat = addr.toNat / 0x1000 / 8 := by
      rw [div_eight_toNat, pageFrame_toNat]
    by_cases hbit : c.bit ((addr / 0x1000).setWidth 64 : BitVec 64).toNat = true
    · rw [freeFrame, freeFrameNum_used hbit]
      exact ⟨hlen, Or.inr (by simp only [hframe]; omega)⟩
    · rw [freeFrame, freeFrameNum_clear (by simpa using hbit)]
      exact ⟨hlen, Or.inr (by simp only [hframe]; omega)⟩

/-- The next search stays inside the map, given a clear bit, exactly when a clear bit is not before
its start. -/
theorem search_inside_iff (hb : b.lastChecked = 0) (hlen : b.length.toNat ≤ 0x100000000)
    (h : Run InMap b es c) :
    ((∃ f < 8 * c.length.toNat, c.bit f = false) → SearchStaysInside c) ↔
      (∀ f < 8 * c.length.toNat, c.bit f = true) ∨
        ∃ f, 8 * (c.lastChecked.toNat / 8) ≤ f ∧ f < 8 * c.length.toNat ∧ c.bit f = false := by
  obtain ⟨hlen', hhint⟩ := hint_below (Or.inl hb) h
  rw [← hlen'] at hlen
  have hstart : c.lastChecked.toNat / 8 ≤ c.length.toNat := by
    rcases hhint with h0 | hlt
    · rw [h0]; simp
    · omega
  constructor
  · intro hstays
    by_contra hno
    rw [not_or] at hno
    obtain ⟨hclear, hbehind⟩ := hno
    refine search_leaves hlen hstart ?_ (hstays ?_)
    · intro f hf hf'
      by_contra hbit
      exact hbehind ⟨f, hf, hf', by simpa using hbit⟩
    · by_contra hnone
      refine hclear fun f hf => ?_
      by_contra hbit
      exact hnone ⟨f, hf, by simpa using hbit⟩
  · rintro (hall | hbehind) ⟨f, hf, hclear⟩
    · rw [hall f hf] at hclear
      cases hclear
    · exact search_inside hlen hbehind

def fullMap : PfBitmap := ⟨0xC0000000, 9, 0, fun _ => 0xFF⟩

theorem freed_stays_inside : SearchStaysInside (freeFrame fullMap 0).1 := by
  have hrun : Run InMap fullMap [.free 0] (freeFrame fullMap 0).1 := .cons (.free (by decide)) (.nil _)
  have hclear : (freeFrame fullMap 0).1.bit 0 = false := rfl
  exact (search_inside_iff rfl (by decide) hrun).mpr (Or.inr ⟨0, by decide, by decide, hclear⟩)
    ⟨0, by decide, hclear⟩

theorem search_loses_frame : ∃ c, Run InMap fullMap [.free 0, .free 0x40000, .get 64] c ∧
    c.length = 9 ∧ c.bit 0 = false ∧ ¬SearchStaysInside c := by
  have hget : GetFreeFrameReturns (freeFrame (freeFrame fullMap 0).1 0x40000).1
      (markFrameUsed (freeFrame (freeFrame fullMap 0).1 0x40000).1 8 0) 64 := ⟨8, rfl⟩
  have hset : ∀ f < 72, 8 ≤ f →
      (markFrameUsed (freeFrame (freeFrame fullMap 0).1 0x40000).1 8 0).bit f = true := by decide
  refine ⟨_, .cons (.free (by decide)) (.cons (.free (by decide))
    (.cons (.get hget (by decide)) (.nil _))), rfl, rfl, ?_⟩
  exact search_leaves (by decide) (by decide) fun f hf hf' => hset f hf' hf

end Rinix.Frames
