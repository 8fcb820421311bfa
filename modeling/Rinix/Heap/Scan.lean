import Rinix.Heap.Kmalloc

namespace Rinix.Heap

open ByteMemory Tiling WhileLoop

variable {P : PageMap} {s t : Kmem} {L M : Layout} {l r : List Block} {c : Block} {b : ℕ}

theorem lastSize_le (h : ∀ c ∈ L.cells, ¬Fits b c) : L.lastSize ≤ b + 16 := by
  obtain ⟨l, c, hl, hc, -⟩ := L.spare
  have hlast := h c (by simp [hl])
  rw [L.lastSize_of_snoc hl]
  simp only [Fits, hc, true_and] at hlast
  omega

theorem lastSize_grow (L : Layout) (k : ℕ) : (L.grow k).lastSize = L.lastSize + k * 4096 := by
  obtain ⟨l, c, hl, -, -⟩ := L.spare
  have hk : (L.grow k).cells = l ++ [⟨c.size + k * 4096, c.owner⟩] := by rw [L.grow_cells, hl, growLast_snoc]
  rw [L.lastSize_of_snoc hl, (L.grow k).lastSize_of_snoc hk]

theorem growth_again (h : (L.grow (L.growth b)).lastSize ≤ b + 16) : (L.grow (L.growth b)).growth b = 0 := by
  have hgrow := lastSize_grow L (L.growth b)
  simp only [Layout.growth, pageCount] at *
  omega

def Grown (b : ℕ) (L M : Layout) : Prop :=
  M = L ∨ M = L.grow (L.growth b) ∧ (∀ c ∈ L.cells, ¬Fits b c) ∧ heapBase + extent 16 L.cells < scanBound L

theorem Grown.owned (h : Grown b L M) (a : ℕ) : owned 16 a M.cells = owned 16 a L.cells := by
  rcases h with rfl | ⟨rfl, -, -⟩
  · rfl
  · exact owned_grow L _ a

theorem Grown.kept (h : Grown b L M) {m m' : Mem} (hm : Kept M m m') : Kept L m m' := by
  simpa only [Kept, h.owned] using hm

theorem Grown.again (h : Grown b L M) (hno : ∀ c ∈ M.cells, ¬Fits b c)
    (hx : heapBase + extent 16 M.cells < scanBound M) : Grown b L (M.grow (M.growth b)) := by
  rcases h with rfl | ⟨rfl, hL, hxL⟩
  · exact Or.inr ⟨rfl, hno, hx⟩
  · rw [growth_again (lastSize_le hno), grow_zero]
    exact Or.inr ⟨rfl, hL, hxL⟩

def Past (s : Kmem) : Prop := ∃ v ∈ s.pages, 0xFFC00000 ≤ v.toNat

def Scanning (b : ℕ) (L : Layout) (m : Mem) (u : Kmem × Word) : Prop :=
  ∃ M l r, Grown b L M ∧ Represents u.1 M ∧ Kept L m u.1.mem ∧ M.cells = l ++ r ∧
    u.2 = word (heapBase + extent 16 l) ∧ ∀ c ∈ l, ¬Fits b c

def Taken (n : Word) (M : Layout) (t : Kmem) (p : Word) : Prop :=
  ∃ l c r, ∃ (hc : M.cells = l ++ c :: r) (ho : c.owner = none) (hfit : aligned n + 16 < c.size),
    (∀ d ∈ l, ¬Fits (aligned n) d) ∧ p = word (heapBase + extent 16 l + 16) ∧
      Represents t (M.take hc ho (aligned_mod n) (le_aligned n) hfit)

def Served (n : Word) (L : Layout) (m : Mem) (r : Kmem × Word) : Prop :=
  ∃ M, Grown (aligned n) L M ∧ Kept L m r.1.mem ∧ (r.2 = 0 ∧ Represents r.1 M ∨ Taken n M r.1 r.2)

def Roomy (b : ℕ) (L : Layout) : Prop :=
  (∀ c ∈ L.cells, ¬Fits b c) → heapBase + extent 16 L.cells < scanBound L →
    heapBase + L.length + L.growth b * 4096 ≤ 0xFFC00000

theorem Grown.roomy (h : Grown b L M) (hroom : Roomy b L) (hrep : Represents s M)
    (hno : ∀ c ∈ M.cells, ¬Fits b c) (hx : heapBase + extent 16 M.cells < scanBound M) :
    heapBase + M.length + M.growth b * 4096 ≤ 0xFFC00000 := by
  rcases h with rfl | ⟨rfl, -, -⟩
  · exact hroom hno hx
  · rw [growth_again (lastSize_le hno), Nat.zero_mul]
    exact hrep.bound

def Overrun (b : ℕ) (L : Layout) (s : Kmem) : Prop := Past s ∧ ¬Roomy b L

theorem tryBlock_overrun {u : Kmem × Word} (h : Overrun b L u.1) (B : Word) :
    (tryBlock B u).Meets (fun v => Overrun b L v.1) (fun v => Overrun b L v.1) := by
  simp only [tryBlock]
  split_ifs <;> exact h

theorem turn_overrun {u : Kmem × Word} (h : Overrun b L u.1) (B : Word) :
    (kmallocTurn P B u).Meets (fun v => Overrun b L v.1) (fun v => Overrun b L v.1) := by
  simp only [kmallocTurn]
  split_ifs
  · apply tryBlock_overrun
    simp only [growAtTail]
    split_ifs
    · obtain ⟨⟨v, hv, hv'⟩, hroom⟩ := h
      exact ⟨⟨v, morecore_pages_subset P _ _ hv, hv'⟩, hroom⟩
    · exact h
  · exact h

theorem tryBlock_meets {n : Word} {m : Mem} (hw : NoWrap n) (hM : Grown (aligned n) L M) (h : Represents s M)
    (hm : Kept L m s.mem) (hc : M.cells = l ++ c :: r) (hl : ∀ d ∈ l, ¬Fits (aligned n) d) :
    (tryBlock (word (aligned n)) (s, word (heapBase + extent 16 l))).Meets
      (Scanning (aligned n) L m) (Served n L m) := by
  rw [tryBlock_cell h hc hw]
  by_cases hfit : Fits (aligned n) c
  · obtain ⟨ho, hsize⟩ := hfit
    obtain ⟨hrep, hkept⟩ := chop_represents h hc ho (aligned_mod n) (le_aligned n) hsize
    rw [if_pos ⟨ho, hsize⟩]
    exact ⟨M, hM, hm.trans (hM.kept hkept), Or.inr ⟨l, c, r, hc, ho, hsize, hl, rfl, hrep⟩⟩
  · rw [if_neg hfit]
    refine ⟨M, l ++ [c], r, hM, h, hm, by rw [hc]; simp, rfl, ?_⟩
    intro d hd
    rcases List.mem_append.mp hd with hd | hd
    · exact hl d hd
    · rw [List.mem_singleton.mp hd]; exact hfit

theorem scanning_meets {n : Word} {m : Mem} (hw : NoWrap n) {u : Kmem × Word}
    (h : Scanning (aligned n) L m u) :
    (kmallocTurn P (word (aligned n)) u).Meets (fun v => Scanning (aligned n) L m v ∨
    Overrun (aligned n) L v.1)
      (fun v => Served n L m v ∨ Overrun (aligned n) L v.1) := by
  obtain ⟨s, x⟩ := u
  obtain ⟨M, l, r, hM, hrep, hm, hc, rfl, hl⟩ := h
  have hbase := heapBase_eq
  have hbound := hrep.bound
  rw [Layout.length, hc, extent_append] at hbound
  by_cases hx : heapBase + extent 16 l < scanBound M
  · cases r with
    | cons c r =>
      rw [turn_cell hrep hc hx]
      exact (tryBlock_meets hw hM hrep hm hc hl).mono (fun _ => Or.inl) fun _ => Or.inl
    | nil =>
      rw [List.append_nil] at hc
      subst hc
      rw [turn_tail hrep hx hw (lastSize_le hl)]
      by_cases hroom : heapBase + M.length + M.growth (aligned n) * 4096 ≤ 0xFFC00000
      · obtain ⟨hrep', hkept⟩ := morecore_represents (P := P) hrep _ hroom
        obtain ⟨c, r, hcs⟩ := (M.grow (M.growth (aligned n))).exists_cons
        have hmeets := tryBlock_meets hw (hM.again hl hx) hrep' (hm.trans (hM.kept hkept))
          (l := []) hcs (by simp)
        exact hmeets.mono (fun _ => Or.inl) fun _ => Or.inl
      · have hover : Overrun (aligned n) L ((morecorePage P)^[M.growth (aligned n)] s) :=
          ⟨morecore_past_window hrep (by omega), fun hr => hroom (hM.roomy hr hrep hl hx)⟩
        exact (tryBlock_overrun (u := (_, word heapBase)) hover _).mono (fun _ => Or.inr) fun _ => Or.inr
  · rw [turn_stop hrep (by omega) (by omega) hx]
    exact Or.inl ⟨M, hM, hm, Or.inl ⟨rfl, hrep⟩⟩

theorem turn_meets {n : Word} {m : Mem} (hw : NoWrap n) (u : Kmem × Word)
    (h : Scanning (aligned n) L m u ∨ Overrun (aligned n) L u.1) :
    (kmallocTurn P (word (aligned n)) u).Meets (fun v => Scanning (aligned n) L m v ∨
    Overrun (aligned n) L v.1)
      (fun v => Served n L m v ∨ Overrun (aligned n) L v.1) := by
  rcases h with h | h
  · exact scanning_meets hw h
  · exact (turn_overrun h _).mono (fun _ => Or.inr) fun _ => Or.inr

theorem scanning_start (h : Represents s L) (b : ℕ) : Scanning b L s.mem (s, s.firstFree) :=
  ⟨L, [], L.cells, Or.inl rfl, h, Kept.refl L s.mem, rfl, by rw [h.firstFree]; rfl, by simp⟩

theorem kmalloc_served {n p : Word} (h : Represents s L) (hw : NoWrap n) (hr : KmallocReturns P s n t p)
    (hp : Roomy (aligned n) L ∨ ¬Past t) : Served n L s.mem (t, p) := by
  rw [KmallocReturns, alignBlock_eq] at hr
  rcases hr.result (turn_meets hw) (Or.inl (scanning_start h _)) with hs | ⟨hpast, hroom⟩
  · exact hs
  · rcases hp with hp | hp
    · exact absurd hp hroom
    · exact absurd hpast hp

theorem kmalloc_scanning {n : Word} {u : Kmem × Word} (h : Represents s L) (hw : NoWrap n)
    (hv : Visits (kmallocTurn P (alignBlock n)) (s, s.firstFree) u) (hp : Roomy (aligned n) L ∨ ¬Past u.1) :
    Scanning (aligned n) L s.mem u := by
  rw [alignBlock_eq] at hv
  rcases hv.invariant _ (turn_meets hw) (Or.inl (scanning_start h _)) with hs | ⟨hpast, hroom⟩
  · exact hs
  · rcases hp with hp | hp
    · exact absurd hp hroom
    · exact absurd hpast hp

theorem scanBound_small (hL : L.length < 0x3000000) : scanBound L = heapBase + L.length * 16 := by
  have hbase := heapBase_eq
  rw [scanBound]
  omega

theorem scanBound_large (hL : 0x3000000 ≤ L.length) (hL' : L.length ≤ 0x10000000) :
    scanBound L ≤ heapBase := by
  have hbase := heapBase_eq
  rw [scanBound]
  omega

theorem in_scan (hL : L.length < 0x3000000) (hc : L.cells = l ++ r) :
    heapBase + extent 16 l < scanBound L := by
  have hlen : L.length = extent 16 L.cells + 16 := by rw [Layout.length]
  rw [hc, extent_append] at hlen
  rw [scanBound_small hL]
  omega

theorem scan_over {m : List Block} (h : Represents s L) (hb : b + 16 < 4294967296)
    (hc : L.cells = l ++ m ++ r)
    (hno : ∀ c ∈ m, ¬Fits b c) (hx : heapBase + extent 16 (l ++ m) ≤ scanBound L) :
    Visits (kmallocTurn P (word b)) (s, word (heapBase + extent 16 l))
    (s, word (heapBase + extent 16 (l ++ m))) := by
  induction m generalizing l with
  | nil => rw [List.append_nil]; exact .refl
  | cons c m ih =>
    have hc' : L.cells = l ++ c :: (m ++ r) := by rw [hc]; simp
    have hlm : l ++ c :: m = l ++ [c] ++ m := by simp
    have hturn : kmallocTurn P (word b) (s, word (heapBase + extent 16 l)) =
        .again (s, word (heapBase + extent 16 (l ++ [c]))) := by
      rw [turn_cell h hc' (by simp only [extent_append, extent_cons] at hx; omega), tryBlock_cell h hc' hb,
        if_neg (hno c (by simp))]
    rw [hlm] at hx ⊢
    exact .head hturn (ih (by rw [hc, hlm]) (fun d hd => hno d (by simp [hd])) hx)

theorem scan_stops {m : List Block} (h : Represents s L) (hb : b + 16 < 4294967296)
    (hc : L.cells = l ++ m ++ r)
    (hno : ∀ c ∈ m, ¬Fits b c) (hx : scanBound L ≤ heapBase + extent 16 (l ++ m)) :
    Exits (kmallocTurn P (word b)) (s, word (heapBase + extent 16 l)) (s, 0) := by
  have hbase := heapBase_eq
  have hbound := h.bound
  induction m generalizing l with
  | nil =>
    rw [List.append_nil] at hc hx
    rw [Layout.length, hc, extent_append] at hbound
    exact Exits.of_exit (turn_stop h (by omega) (by omega) (Nat.not_lt.mpr hx) _)
  | cons c m ih =>
    have hc' : L.cells = l ++ c :: (m ++ r) := by rw [hc]; simp
    have hlm : l ++ c :: m = l ++ [c] ++ m := by simp
    by_cases hin : heapBase + extent 16 l < scanBound L
    · have hturn : kmallocTurn P (word b) (s, word (heapBase + extent 16 l)) =
          .again (s, word (heapBase + extent 16 (l ++ [c]))) := by
        rw [turn_cell h hc' hin, tryBlock_cell h hc' hb, if_neg (hno c (by simp))]
      rw [exits_again hturn]
      rw [hlm] at hx
      exact ih (by rw [hc, hlm]) (fun d hd => hno d (by simp [hd])) hx
    · rw [Layout.length, hc', extent_append] at hbound
      exact Exits.of_exit (turn_stop h (by omega) (by omega) hin _)

theorem scan_fit {m : List Block} (h : Represents s L) (hb : b + 16 < 4294967296)
    (hc : L.cells = l ++ m ++ c :: r) (hno : ∀ d ∈ m, ¬Fits b d) (hfit : Fits b c)
    (hx : heapBase + extent 16 (l ++ m) < scanBound L) :
    Exits (kmallocTurn P (word b)) (s, word (heapBase + extent 16 l))
      ({ s with mem := chop (word b) s.mem (word (heapBase + extent 16 (l ++ m))) },
        word (heapBase + extent 16 (l ++ m) + 16)) := by
  rw [(scan_over h hb hc hno hx.le).exits_iff]
  apply Exits.of_exit
  rw [turn_cell h hc hx, tryBlock_cell h hc hb, if_pos hfit]

theorem kmalloc_fit {n : Word} (h : Represents s L) (hL : L.length < 0x3000000) (hw : NoWrap n)
    (hc : L.cells = l ++ c :: r) (hno : ∀ d ∈ l, ¬Fits (aligned n) d) (hfit : Fits (aligned n) c) :
    ∃ t, KmallocReturns P s n t (word (heapBase + extent 16 l + 16)) ∧
      t.pages = s.pages ∧ t.totalLength = s.totalLength ∧
      Represents t (L.take hc hfit.1 (aligned_mod n) (le_aligned n) hfit.2) := by
  have hscan := scan_fit (P := P) (l := []) (m := l) h hw hc hno hfit (in_scan hL hc)
  simp only [KmallocReturns, alignBlock_eq, h.firstFree]
  exact ⟨_, hscan, rfl, rfl, (chop_represents h hc hfit.1 (aligned_mod n) (le_aligned n) hfit.2).1⟩

end Rinix.Heap
