import Rinix.Frames.Search
import Rinix.Lib.Pool

namespace Rinix.Frames

open ByteMemory WhileLoop BitString Runs

inductive Event where
  | get (addr : Word)
  | free (addr : Word) (ret : Int)

inductive Step : PfBitmap → Event → PfBitmap → Prop where
  | get {b c : PfBitmap} {frame : BitVec 64} {addr : Word} : GetFreeFrameReturns b c frame →
      frame.toNat < 0x100000 → GetFrameReturns b c addr → Step b (.get addr) c
  | free {b : PfBitmap} {addr : Word} : Step b (.free addr (freeFrame b addr).2) (freeFrame b addr).1

def usedFrames (b : PfBitmap) : Set ℕ := {f | f < 0x100000 ∧ used b f}

def toPool : Event → Pool.Event ℕ
  | .get addr => .take (addr.toNat / 0x1000)
  | .free addr ret => .give (addr.toNat / 0x1000) (ret = 0)

def FreesGiven (es : List Event) : Prop :=
  ∀ es₁ a r es₂, es = es₁ ++ .free a r :: es₂ →
    ∃ a', .get a' ∈ es₁ ∧ a'.toNat / 0x1000 = a.toNat / 0x1000

variable {b c : PfBitmap} {frame frame' : BitVec 64} {addr : Word} {f g : ℕ} {e : Event} {es : List Event}

theorem getFreeFrame_unique {c' : PfBitmap} (h : GetFreeFrameReturns b c frame)
    (h' : GetFreeFrameReturns b c' frame') : c = c' ∧ frame = frame' := by
  obtain ⟨fuel, h⟩ := h
  obtain ⟨fuel', h'⟩ := h'
  obtain ⟨r, hr, hret⟩ := Option.map_eq_some_iff.mp h
  obtain ⟨r', hr', hret'⟩ := Option.map_eq_some_iff.mp h'
  rw [run_some_unique hr hr', hret'] at hret
  exact ⟨(Prod.mk.inj hret).1.symm, (Prod.mk.inj hret).2.symm⟩

theorem getFrame_address (h : GetFreeFrameReturns b c frame) (hframe : frame.toNat < 0x100000)
    (h' : GetFrameReturns b c addr) : addr.toNat = frame.toNat * 0x1000 := by
  obtain ⟨fuel, h'⟩ := h'
  obtain ⟨⟨c', frame'⟩, hr, hret⟩ := Option.map_eq_some_iff.mp h'
  obtain ⟨-, rfl⟩ := getFreeFrame_unique h ⟨fuel, hr⟩
  rw [← (Prod.mk.inj hret).2, BitVec.toNat_setWidth, BitVec.toNat_mul,
    show (0x1000 : BitVec 64).toNat = 0x1000 from rfl]
  omega

theorem step_get (h : Step b (.get addr) c) : addr.toNat / 0x1000 * 0x1000 = addr.toNat ∧
    b.bit (addr.toNat / 0x1000) = false ∧
      ∀ g < 0x100000, c.bit g = (decide (addr.toNat / 0x1000 = g) || b.bit g) := by
  cases h with
  | get hret hframe haddr =>
    have hnum := getFrame_address hret hframe haddr
    obtain ⟨hclear, rfl⟩ := getFreeFrame_spec hret
    rw [hnum, Nat.mul_div_cancel _ (by decide)]
    refine ⟨rfl, hclear, fun g hg => ?_⟩
    exact bit_setBit (by omega) (by omega)

theorem freeFrame_spec (b : PfBitmap) (addr : Word) :
    (b.bit (addr.toNat / 0x1000) = true → (freeFrame b addr).2 = 0 ∧
      ∀ g < 0x100000, (freeFrame b addr).1.bit g = (!decide (addr.toNat / 0x1000 = g) && b.bit g)) ∧
    (b.bit (addr.toNat / 0x1000) = false → (freeFrame b addr).2 = -1 ∧
      ∀ g, (freeFrame b addr).1.bit g = b.bit g) := by
  have hlt := addr.isLt
  have hframe := pageFrame_toNat addr
  constructor
  · intro h
    rw [freeFrame, freeFrameNum_used (by rw [hframe]; exact h), hframe]
    exact ⟨rfl, fun g hg => bit_clearBit (by omega) (by omega)⟩
  · intro h
    rw [freeFrame, freeFrameNum_clear (by rw [hframe]; exact h)]
    exact ⟨rfl, fun g => rfl⟩

theorem mem_usedFrames : f ∈ usedFrames b ↔ f < 0x100000 ∧ b.bit f = true := and_congr_right used_iff

theorem usedFrames_set (hf : f < 0x100000) (h : ∀ g < 0x100000, c.bit g = (decide (f = g) || b.bit g)) :
    usedFrames c = insert f (usedFrames b) := by
  ext g
  rw [Set.mem_insert_iff, mem_usedFrames, mem_usedFrames]
  constructor
  · rintro ⟨hg, hbit⟩
    rw [h g hg, Bool.or_eq_true, decide_eq_true_iff] at hbit
    rcases hbit with hbit | hbit
    · exact Or.inl hbit.symm
    · exact Or.inr ⟨hg, hbit⟩
  · rintro (rfl | ⟨hg, hbit⟩)
    · exact ⟨hf, by rw [h _ hf]; simp⟩
    · exact ⟨hg, by rw [h g hg, hbit, Bool.or_true]⟩

theorem usedFrames_clear (h : ∀ g < 0x100000, c.bit g = (!decide (f = g) && b.bit g)) :
    usedFrames c = usedFrames b \ {f} := by
  ext g
  rw [Set.mem_sdiff, mem_usedFrames, mem_usedFrames, Set.mem_singleton_iff]
  constructor
  · rintro ⟨hg, hbit⟩
    rw [h g hg, Bool.and_eq_true, Bool.not_eq_true', decide_eq_false_iff_not] at hbit
    exact ⟨⟨hg, hbit.2⟩, fun heq => hbit.1 heq.symm⟩
  · rintro ⟨⟨hg, hbit⟩, hne⟩
    refine ⟨hg, ?_⟩
    rw [h g hg, hbit, Bool.and_true, Bool.not_eq_true', decide_eq_false_iff_not]
    exact fun heq => hne heq.symm

theorem usedFrames_same (h : ∀ g, c.bit g = b.bit g) : usedFrames c = usedFrames b := by
  ext g
  rw [mem_usedFrames, mem_usedFrames, h g]

theorem step_simulates (h : Step b e c) : Pool.Step (usedFrames b) (toPool e) (usedFrames c) := by
  cases e with
  | get addr =>
    obtain ⟨-, hclear, hbits⟩ := step_get h
    have hlt := addr.isLt
    rw [usedFrames_set (by omega) hbits]
    refine .take fun hmem => ?_
    rw [mem_usedFrames, hclear] at hmem
    exact absurd hmem.2 (by simp)
  | free addr ret =>
    obtain ⟨hused, hclear⟩ := freeFrame_spec b addr
    have hlt := addr.isLt
    cases h
    by_cases hbit : b.bit (addr.toNat / 0x1000) = true
    · obtain ⟨hret, hbits⟩ := hused hbit
      rw [usedFrames_clear hbits, toPool, hret]
      exact .give (mem_usedFrames.mpr ⟨by omega, hbit⟩)
    · obtain ⟨hret, hbits⟩ := hclear (by simpa using hbit)
      rw [usedFrames_same hbits, toPool, hret]
      exact .refuse fun hmem => hbit (mem_usedFrames.mp hmem).2

theorem run_simulates (h : Run Step b es c) : Run Pool.Step (usedFrames b) (es.map toPool)
    (usedFrames c) := by
  have hstep (b : PfBitmap) (e : Event) (c : PfBitmap) (U : Set ℕ) (hU : usedFrames b = U) (hs : Step b e c) :
      ∃ V, Pool.Step U (toPool e) V ∧ usedFrames c = V := ⟨_, hU ▸ step_simulates hs, rfl⟩
  obtain ⟨V, hV, rfl⟩ := h.simulates (fun b U => usedFrames b = U) toPool hstep rfl
  exact hV

theorem get_changes (h : Step b (.get addr) c) : ∃ f < 0x100000, addr = word (f * 0x1000) ∧
    ¬used b f ∧ used c f ∧ ∀ g < 0x100000, g ≠ f → (used c g ↔ used b g) := by
  have hlt := addr.isLt
  obtain ⟨haddr, hclear, hbits⟩ := step_get h
  have hf : addr.toNat / 0x1000 < 0x100000 := by omega
  refine ⟨addr.toNat / 0x1000, hf, by rw [haddr, word_toNat], ?_, ?_, fun g hg hne => ?_⟩
  · rw [used_iff hf, hclear]; simp
  · rw [used_iff hf, hbits _ hf]; simp
  · rw [used_iff hg, used_iff hg, hbits g hg, decide_eq_false (Ne.symm hne), Bool.false_or]

theorem free_changes (b : PfBitmap) (addr : Word) (hf : f = addr.toNat / 0x1000) :
    ((freeFrame b addr).2 = 0 ↔ used b f) ∧
    (used b f → ¬used (freeFrame b addr).1 f ∧
      ∀ g < 0x100000, g ≠ f → (used (freeFrame b addr).1 g ↔ used b g)) ∧
    (¬used b f → (freeFrame b addr).2 = -1 ∧ ∀ g < 0x100000, used (freeFrame b addr).1 g ↔ used b g) := by
  have hlt := addr.isLt
  have hf' : f < 0x100000 := by omega
  obtain ⟨hused, hclear⟩ := freeFrame_spec b addr
  rw [← hf] at hused hclear
  rw [used_iff hf']
  by_cases hbit : b.bit f = true
  · obtain ⟨hret, hbits⟩ := hused hbit
    refine ⟨iff_of_true hret hbit, fun _ => ⟨?_, fun g hg hne => ?_⟩, fun hno => absurd hbit hno⟩
    · rw [used_iff hf', hbits f hf']; simp
    · rw [used_iff hg, used_iff hg, hbits g hg, decide_eq_false (Ne.symm hne), Bool.not_false, Bool.true_and]
  · obtain ⟨hret, hbits⟩ := hclear (by simpa using hbit)
    refine ⟨iff_of_false (by rw [hret]; decide) hbit, fun h => absurd h hbit, fun _ => ⟨hret, fun g hg => ?_⟩⟩
    rw [used_iff hg, used_iff hg, hbits g]

theorem givesTaken_map (hes : FreesGiven es) : Pool.GivesTaken (es.map toPool) := by
  intro es₁ f ok es₂ h
  obtain ⟨l, r, rfl, rfl, hr⟩ := List.map_eq_append_iff.mp h
  obtain ⟨e, r', rfl, he, -⟩ := List.map_eq_cons_iff.mp hr
  cases e with
  | get a => cases he
  | free a ret =>
    obtain ⟨a', ha', heq⟩ := hes l a ret r' rfl
    simp only [toPool, Pool.Event.give.injEq] at he
    exact List.mem_map.mpr ⟨_, ha', by rw [toPool, heq, he.1]⟩

theorem used_never_given (h : Run Step b es c) (hes : FreesGiven es) (hf : f < 0x100000) (hused : used b f) :
    .get (word (f * 0x1000)) ∉ es := by
  intro hmem
  refine Pool.never_taken (run_simulates h) (givesTaken_map hes) ⟨hf, hused⟩ (List.mem_map.mpr ⟨_, hmem, ?_⟩)
  rw [toPool, toNat_word (by omega), Nat.mul_div_cancel _ (by decide)]

/-- The allocator refines a set of used frames, in every run whose searches stop at a frame. -/
theorem frames_refine (h : Run Step b es c) :
    (∀ addr d, Step c (.get addr) d → ∃ f < 0x100000, addr = word (f * 0x1000) ∧ ¬used c f ∧ used d f ∧
      ∀ g < 0x100000, g ≠ f → (used d g ↔ used c g)) ∧
    (∀ addr f, f = addr.toNat / 0x1000 → ((freeFrame c addr).2 = 0 ↔ used c f) ∧
      (used c f → ¬used (freeFrame c addr).1 f ∧
        ∀ g < 0x100000, g ≠ f → (used (freeFrame c addr).1 g ↔ used c g)) ∧
      (¬used c f → (freeFrame c addr).2 = -1 ∧ ∀ g < 0x100000, used (freeFrame c addr).1 g ↔ used c g)) ∧
    Run Pool.Step (usedFrames b) (es.map toPool) (usedFrames c) ∧
    (∀ es₁ a es₂ es₃, es = es₁ ++ .get a :: (es₂ ++ .get a :: es₃) →
      ∃ a', .free a' 0 ∈ es₂ ∧ a'.toNat / 0x1000 = a.toNat / 0x1000) ∧
    (FreesGiven es → ∀ f < 0x100000, used b f → .get (word (f * 0x1000)) ∉ es) := by
  have hsim := run_simulates h
  refine ⟨fun addr d hd => get_changes hd, fun addr f hf => free_changes c addr hf, hsim, ?_,
    fun hes f hf hused => used_never_given h hes hf hused⟩
  rintro es₁ a es₂ es₃ rfl
  simp only [List.map_append, List.map_cons, toPool] at hsim
  obtain ⟨e, he, hgive⟩ := List.mem_map.mp (Pool.given_between hsim)
  cases e with
  | get a' => cases hgive
  | free a' ret =>
    simp only [toPool, Pool.Event.give.injEq, decide_eq_true_iff] at hgive
    exact ⟨a', hgive.2 ▸ he, hgive.1⟩

def emptyMap : PfBitmap := ⟨0xC0000000, 0x20000, 0, fun _ => 0⟩

def twoUsed : PfBitmap := markFrameUsed (markFrameUsed emptyMap 0 0) 0 1

def hinted : PfBitmap := (freeFrame (freeFrame twoUsed 0).1 0x40000).1

theorem emptyMap_refines : ∃ c,
    Run Step emptyMap [.get 0, .get 0x1000, .free 0 0, .free 0x40000 (-1), .get 0x8000] c ∧
    Run Pool.Step (usedFrames emptyMap) [.take 0, .take 1, .give 0 true, .give 64 false, .take 8]
    (usedFrames c) := by
  have hfirst : GetFreeFrameReturns emptyMap (markFrameUsed emptyMap 0 0) 0 := ⟨1, rfl⟩
  have hsecond : GetFreeFrameReturns (markFrameUsed emptyMap 0 0) twoUsed 1 := ⟨2, rfl⟩
  have hget : Step emptyMap (.get 0) (markFrameUsed emptyMap 0 0) := .get hfirst (by decide) ⟨1, rfl⟩
  have hget' : Step (markFrameUsed emptyMap 0 0) (.get 0x1000) twoUsed := .get hsecond (by decide) ⟨2, rfl⟩
  have hfree : Step twoUsed (.free 0 (freeFrame twoUsed 0).2) (freeFrame twoUsed 0).1 := .free
  have hrefused : Step (freeFrame twoUsed 0).1
    (.free 0x40000 (freeFrame (freeFrame twoUsed 0).1 0x40000).2) hinted :=
    .free
  rw [show (freeFrame twoUsed 0).2 = 0 by decide] at hfree
  rw [show (freeFrame (freeFrame twoUsed 0).1 0x40000).2 = -1 by decide] at hrefused
  have hthird : GetFreeFrameReturns hinted (markFrameUsed hinted 1 0) 8 := ⟨1, rfl⟩
  have hlast : Step hinted (.get 0x8000) (markFrameUsed hinted 1 0) := .get hthird (by decide) ⟨1, rfl⟩
  have hrun := Run.cons hget (.cons hget' (.cons hfree (.cons hrefused (.cons hlast (.nil _)))))
  exact ⟨_, hrun, (frames_refine hrun).2.2.1⟩

end Rinix.Frames
