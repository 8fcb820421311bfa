import Rinix.Frames.FirstFree

namespace Rinix.Frames

open ByteMemory WhileLoop BitString Runs

inductive Answers : PfBitmap → Event → PfBitmap → Prop where
  | get {b c : PfBitmap} {addr : Word} : GetFrameReturns b c addr → Answers b (.get addr) c
  | free {b : PfBitmap} {addr : Word} : Answers b (.free addr (freeFrame b addr).2) (freeFrame b addr).1

def SameAnswers (b c : PfBitmap) : Prop := ∀ es, (∃ d, Run Answers b es d) ↔ ∃ d, Run Answers c es d

def NoneFree (b : PfBitmap) (x y : ℕ) : Prop :=
  ∃ d, (x + d) % 0x800000000 = y % 0x800000000 ∧ ∀ i < d, b.bit (x + i) = true

variable {b c b' c' : PfBitmap} {addr : Word} {e : Event} {f g x y d : ℕ}

theorem freeFrom_above (h : b.bit f = false) (x : ℕ) : ∃ g, g ∈ freeFrom b x := by
  refine ⟨f + x * 34359738368, by omega, ?_⟩
  rw [← h]
  apply bit_congr
  omega

theorem getFrame_iff : GetFrameReturns b c addr ↔ ∃ f, IsLeast (freeFrom b (hintFrame b)) f ∧
    c = { b with mem := setBit b.mem b.ptr f } ∧ addr = word (f * 0x1000) := by
  have haddr (f : ℕ) : (BitVec.ofNat 64 f * 0x1000).setWidth 32 = word (f * 0x1000) := by
    apply BitVec.eq_of_toNat_eq
    rw [BitVec.toNat_setWidth, BitVec.toNat_mul, BitVec.toNat_ofNat, toNat_word_mod,
      show (0x1000 : BitVec 64).toNat = 0x1000 from rfl]
    omega
  constructor
  · rintro ⟨fuel, h⟩
    obtain ⟨⟨c', frame⟩, hret, heq⟩ := Option.map_eq_some_iff.mp h
    simp only [Prod.mk.injEq] at heq
    obtain ⟨rfl, rfl⟩ := heq
    obtain ⟨hclear, -⟩ := getFreeFrame_spec ⟨fuel, hret⟩
    obtain ⟨f, hf⟩ := least_exists (freeFrom_above hclear (hintFrame b))
    obtain ⟨rfl, rfl⟩ := (get_iff hf).mp ⟨fuel, hret⟩
    exact ⟨f, hf, rfl, haddr f⟩
  · rintro ⟨f, hf, rfl, rfl⟩
    obtain ⟨fuel, hret⟩ := get_least hf
    refine ⟨fuel, Option.map_eq_some_iff.mpr ⟨_, hret, ?_⟩⟩
    simp only [haddr]

theorem freeFrom_skip (hset : ∀ i < d, b.bit (x + i) = true) : freeFrom b (x + d) = freeFrom b x := by
  ext f
  constructor
  · rintro ⟨hf, hclear⟩
    exact ⟨by omega, hclear⟩
  · rintro ⟨hf, hclear⟩
    refine ⟨?_, hclear⟩
    by_contra hlt
    have hbusy := hset (f - x) (by omega)
    rw [Nat.add_sub_cancel' hf, hclear] at hbusy
    cases hbusy

theorem least_shift (hxy : x % 34359738368 = y % 34359738368) (h : IsLeast (freeFrom b x) (x + g)) :
    IsLeast (freeFrom b y) (y + g) := by
  have hbit (i : ℕ) : b.bit (y + i) = b.bit (x + i) := bit_congr (by omega)
  refine ⟨⟨Nat.le_add_right y g, by rw [hbit]; exact h.1.2⟩, ?_⟩
  rintro f ⟨hf, hclear⟩
  obtain ⟨i, rfl⟩ := Nat.exists_eq_add_of_le hf
  have hle := h.2 ⟨Nat.le_add_right x i, by rw [← hbit]; exact hclear⟩
  omega

theorem least_carries (h : NoneFree b x y ∨ NoneFree b y x) (hf : IsLeast (freeFrom b x) f) :
    ∃ g, IsLeast (freeFrom b y) g ∧ g % 34359738368 = f % 34359738368 := by
  rcases h with ⟨d, hd, hset⟩ | ⟨d, hd, hset⟩
  · rw [← freeFrom_skip hset] at hf
    obtain ⟨g, rfl⟩ := Nat.exists_eq_add_of_le hf.1.1
    exact ⟨y + g, least_shift hd hf, by omega⟩
  · obtain ⟨g, rfl⟩ := Nat.exists_eq_add_of_le hf.1.1
    have hskip := least_shift hd.symm hf
    rw [freeFrom_skip hset] at hskip
    exact ⟨y + d + g, hskip, by omega⟩

theorem set_before (hf : IsLeast (freeFrom b x) f) (hx : x ≤ g) (hg : g < f) : b.bit g = true := by
  by_contra hclear
  have hle := hf.2 ⟨hx, by simpa using hclear⟩
  omega

theorem noneFree_of_agree (hf : IsLeast (freeFrom b x) f) (hg : IsLeast (freeFrom b y) g)
    (hfg : g % 34359738368 = f % 34359738368) : NoneFree b x y ∨ NoneFree b y x := by
  have hx := hf.1.1
  have hy := hg.1.1
  rcases Nat.le_total (g - y) (f - x) with h | h
  · exact Or.inl ⟨f - x - (g - y), by omega, fun i hi => set_before hf (by omega) (by omega)⟩
  · exact Or.inr ⟨g - y - (f - x), by omega, fun i hi => set_before hg (by omega) (by omega)⟩

theorem NoneFree.refl (b : PfBitmap) (x : ℕ) : NoneFree b x x :=
  ⟨0, rfl, fun _ hi => absurd hi (Nat.not_lt_zero _)⟩

theorem NoneFree.mono (hbits : ∀ f, b.bit f = true → c.bit f = true) (h : NoneFree b x y) :
    NoneFree c x y := by
  obtain ⟨d, hd, hset⟩ := h
  exact ⟨d, hd, fun i hi => hbits _ (hset i hi)⟩

def PfBitmap.withHint (b : PfBitmap) (hint : BitVec 64) : PfBitmap := { b with lastChecked := hint }

@[simp]
theorem withHint_bit (b : PfBitmap) (hint : BitVec 64) (f : ℕ) : (b.withHint hint).bit f = b.bit f := rfl

def Alike (b c : PfBitmap) : Prop :=
  c = b.withHint c.lastChecked ∧
    (NoneFree b (hintFrame b) (hintFrame c) ∨ NoneFree b (hintFrame c) (hintFrame b))

theorem Alike.symm (h : Alike b c) : Alike c b := by
  obtain ⟨heq, hnone⟩ := h
  have hbit (f : ℕ) : c.bit f = b.bit f := by rw [heq, withHint_bit]
  refine ⟨by rw [heq]; rfl, ?_⟩
  simp only [NoneFree, hbit] at hnone ⊢
  exact hnone.symm

theorem freeFrame_withHint (b : PfBitmap) (hint : BitVec 64) (addr : Word) :
    freeFrame (b.withHint hint) addr = freeFrame b addr := rfl

theorem setBit_grows (hbit : b.bit g = true) : { b with mem := setBit b.mem b.ptr f }.bit g = true := by
  rw [PfBitmap.bit, bit_setBit_mod, show BitString.bit b.mem b.ptr g = true from hbit, Bool.or_true]

theorem answers_alike (h : Alike b c) (hstep : Answers b e b') : ∃ c', Answers c e c' ∧ Alike b' c' := by
  obtain ⟨heq, hnone⟩ := h
  cases hstep with
  | get hret =>
    obtain ⟨f, hf, rfl, rfl⟩ := getFrame_iff.mp hret
    obtain ⟨g, hg, hfg⟩ := least_carries hnone hf
    have haddr : word (f * 0x1000) = word (g * 0x1000) := by
      apply BitVec.eq_of_toNat_eq
      rw [toNat_word_mod, toNat_word_mod]
      omega
    have hget : GetFrameReturns c { c with mem := setBit c.mem c.ptr g } (word (f * 0x1000)) := by
      refine getFrame_iff.mpr ⟨g, ?_, rfl, haddr⟩
      rw [heq] at hg ⊢
      exact hg
    refine ⟨_, .get hget, ?_, hnone.imp (NoneFree.mono fun _ => setBit_grows)
      (NoneFree.mono fun _ => setBit_grows)⟩
    rw [setBit_congr hfg, heq]
    rfl
  | @free addr =>
    rw [heq, ← freeFrame_withHint b c.lastChecked addr]
    exact ⟨_, .free, rfl, Or.inl (NoneFree.refl _ _)⟩

theorem Alike.sameAnswers (h : Alike b c) : SameAnswers b c := by
  intro es
  have hstep (b : PfBitmap) (e : Event) (b' c : PfBitmap) (h : Alike b c) (hs : Answers b e b') :
      ∃ c', Answers c (id e) c' ∧ Alike b' c' := answers_alike h hs
  constructor
  · rintro ⟨d, hd⟩
    obtain ⟨d', hd', -⟩ := hd.simulates Alike id hstep h
    exact ⟨d', by rwa [List.map_id] at hd'⟩
  · rintro ⟨d, hd⟩
    obtain ⟨d', hd', -⟩ := hd.simulates Alike id hstep h.symm
    exact ⟨d', by rwa [List.map_id] at hd'⟩

theorem run_get_free (hg : IsLeast (freeFrom b (hintFrame b)) g) (hlt : g < 1048576) :
    ∃ d, Run Answers b [.get (word (g * 0x1000)), .free (word (g * 0x1000)) 0] d := by
  have hget : GetFrameReturns b { b with mem := setBit b.mem b.ptr g } (word (g * 0x1000)) :=
    getFrame_iff.mpr ⟨g, hg, rfl, rfl⟩
  have hnum : (word (g * 0x1000)).toNat / 0x1000 = g := by
    rw [toNat_word (by omega)]
    omega
  have hset : { b with mem := setBit b.mem b.ptr g }.bit ((word (g * 0x1000)).toNat / 0x1000) = true := by
    rw [hnum, PfBitmap.bit, bit_setBit_mod, decide_eq_true rfl, Bool.true_or]
  have hfree : Answers _ (.free (word (g * 0x1000)) _) _ :=
    .free (b := { b with mem := setBit b.mem b.ptr g })
  rw [((freeFrame_spec _ _).1 hset).1] at hfree
  exact ⟨_, .cons (.get hget) (.cons hfree (.nil _))⟩

theorem answers_differ (hf : IsLeast (freeFrom b (hintFrame b)) f) (hclear : b.bit g = false)
    (hlt : g < 1048576) (hne : f % 34359738368 ≠ g % 34359738368) :
    ¬∃ d, Run Answers b [.get (word (g * 0x1000)), .free (word (g * 0x1000)) 0] d := by
  rintro ⟨d, hrun⟩
  obtain ⟨b', hget, hrest⟩ := run_cons.mp hrun
  obtain ⟨d', hfree, -⟩ := run_cons.mp hrest
  have hbit : b'.bit ((word (g * 0x1000)).toNat / 0x1000) = false := by
    cases hget with
    | get hret =>
      obtain ⟨k, hk, rfl, -⟩ := getFrame_iff.mp hret
      have hkf : k = f := Nat.le_antisymm (hk.2 hf.1) (hf.2 hk.1)
      rw [hkf, toNat_word (by omega), show g * 0x1000 / 0x1000 = g by omega, PfBitmap.bit, bit_setBit_mod,
        decide_eq_false hne, Bool.false_or]
      exact hclear
  have hret := ((freeFrame_spec _ _).2 hbit).1
  generalize hz : (0 : Int) = z at hfree
  cases hfree
  omega

/-- A rejected free only moves the hint, and it goes unnoticed exactly if no free frame lies between
the two starts. -/
theorem rejected_free_iff (b : PfBitmap) (addr : Word) (hret : (freeFrame b addr).2 = -1) :
    (freeFrame b addr).1 = { b with lastChecked := BitVec.ofNat 64 (addr.toNat / 0x1000 / 8) } ∧
      (SameAnswers (freeFrame b addr).1 b ↔
        NoneFree b (hintFrame b) (8 * (addr.toNat / 0x1000 / 64)) ∨
          NoneFree b (8 * (addr.toNat / 0x1000 / 64)) (hintFrame b)) := by
  have hlt := addr.isLt
  have hclear : b.bit (addr.toNat / 0x1000) = false := by
    by_contra hset
    rw [((freeFrame_spec b addr).1 (by simpa using hset)).1] at hret
    cases hret
  have hindex : (addr / 0x1000).setWidth 64 / 8 = BitVec.ofNat 64 (addr.toNat / 0x1000 / 8) := by
    apply BitVec.eq_of_toNat_eq
    rw [div_eight_toNat, pageFrame_toNat, BitVec.toNat_ofNat]
    omega
  have hstate : (freeFrame b addr).1 = b.withHint (BitVec.ofNat 64 (addr.toNat / 0x1000 / 8)) := by
    rw [freeFrame, freeFrameNum_clear (by rw [pageFrame_toNat]; exact hclear), hindex]
    rfl
  have hhint : hintFrame (freeFrame b addr).1 = 8 * (addr.toNat / 0x1000 / 64) := by
    rw [hstate, hintFrame, PfBitmap.withHint, BitVec.toNat_ofNat]
    omega
  refine ⟨hstate, fun hsame => ?_, fun hnone => ?_⟩
  · obtain ⟨f, hf⟩ := least_exists (freeFrom_above hclear (hintFrame b))
    obtain ⟨g, hg⟩ := least_exists ⟨_, show 8 * (addr.toNat / 0x1000 / 64) ≤ addr.toNat /
      0x1000 by omega, hclear⟩
    have hle := hg.2 ⟨show 8 * (addr.toNat / 0x1000 / 64) ≤ addr.toNat / 0x1000 by omega, hclear⟩
    apply noneFree_of_agree hf hg
    by_contra hne
    apply answers_differ hf hg.1.2 (by omega) (Ne.symm hne)
    refine (hsame _).mp (run_get_free ?_ (by omega))
    rw [hhint, hstate]
    exact hg
  · have halike : Alike b (freeFrame b addr).1 := ⟨by rw [hstate]; rfl, by rw [hhint]; exact hnone⟩
    exact halike.symm.sameAnswers

def fullByte : PfBitmap := ⟨0xC0000000, 0x20000, 0, fun x => if x = 0xC0000000 then 0xFF else 0⟩

theorem moved_hint_unnoticed : (freeFrame fullByte 0x40000).1.lastChecked = 8 ∧ fullByte.lastChecked = 0 ∧
    SameAnswers (freeFrame fullByte 0x40000).1 fullByte := by
  have hused : ∀ i < 8, fullByte.bit (hintFrame fullByte + i) = true := by decide
  exact ⟨rfl, rfl, (rejected_free_iff fullByte 0x40000 rfl).2.mpr (Or.inl ⟨8, rfl, hused⟩)⟩

theorem rejected_free_noticed : (freeFrame emptyMap 0x40000).2 = -1 ∧
    ¬SameAnswers (freeFrame emptyMap 0x40000).1 emptyMap := by
  refine ⟨rfl, fun hsame => ?_⟩
  have hclear (x : ℕ) : emptyMap.bit x = false := BitVec.getLsbD_zero
  have hleast (x : ℕ) : IsLeast (freeFrom emptyMap x) x := ⟨⟨Nat.le_refl x, hclear x⟩, fun _ hf => hf.1⟩
  refine answers_differ (hleast _) (hclear 8) (by decide) (by decide)
    ((hsame _).mp (run_get_free ?_ (by decide)))
  exact hleast 8

end Rinix.Frames
