import Rinix.Heap.Request

namespace Rinix.Heap

open ByteMemory Tiling WhileLoop

variable {P : PageMap} {s t : Kmem} {σ : Session} {L M : Layout} {l r : List Block} {c : Block}
  {b : ℕ} {n p : Word}

theorem exists_first {p : Block → Prop} [DecidablePred p] {cs : List Block} (h : ∃ c ∈ cs, p c) :
    ∃ l c r, cs = l ++ c :: r ∧ p c ∧ ∀ d ∈ l, ¬p d := by
  obtain ⟨c, hc, hp⟩ := h
  cases hf : cs.find? (fun c => p c) with
  | none =>
    rw [List.find?_eq_none] at hf
    exact absurd hp (by simpa using hf c hc)
  | some d =>
    obtain ⟨hd, l, r, hl, hno⟩ := List.find?_eq_some_iff_append.mp hf
    exact ⟨l, d, r, hl, by simpa using hd, by simpa using hno⟩

theorem stops_large (h : Represents s L) (hL : 0x3000000 ≤ L.length) (hL' : L.length ≤ 0x10000000)
    (hc : L.cells = l ++ r) (B : Word) :
    kmallocTurn P B (s, word (heapBase + extent 16 l)) = .exit (s, 0) := by
  have hbase := heapBase_eq
  have hlen : L.length = extent 16 L.cells + 16 := by rw [Layout.length]
  have hbound := h.bound
  have hstop := scanBound_large hL hL'
  rw [hc, extent_append] at hlen
  exact turn_stop h (by omega) (by omega) (by omega) B

def InPlace (s t : Kmem) : Prop := t.pages = s.pages ∧ t.totalLength = s.totalLength

theorem exits_first {m : List Block} (h : Represents s L) (hb : b + 16 < 4294967296)
    (hc : L.cells = l ++ m ++ c :: r) (hno : ∀ d ∈ m, ¬Fits b d) (hfit : Fits b c)
    (hx : heapBase + extent 16 (l ++ m) < scanBound L) :
    ∃ t p, Exits (kmallocTurn P (word b)) (s, word (heapBase + extent 16 l)) (t, p) ∧ p ≠ 0 ∧
    InPlace s t := by
  have hbase := heapBase_eq
  have hbound := h.cell_bound hc
  refine ⟨_, _, scan_fit h hb hc hno hfit hx, ?_, rfl, rfl⟩
  rw [show (0 : Word) = word 0 from rfl, ne_eq, word_inj (by omega) (by omega)]
  omega

theorem exits_fit (h : Represents s L) (hL : L.length < 0x3000000) (hb : b + 16 < 4294967296)
    (hc : L.cells = l ++ r) (hfit : ∃ c ∈ r, Fits b c) :
    ∃ t p, Exits (kmallocTurn P (word b)) (s, word (heapBase + extent 16 l)) (t, p) ∧ p ≠ 0 ∧
    InPlace s t := by
  obtain ⟨m, c, r', rfl, hfc, hno⟩ := exists_first hfit
  have hc' : L.cells = l ++ m ++ c :: r' := by rw [hc, List.append_assoc]
  exact exits_first h hb hc' hno hfc (in_scan hL hc')

theorem diverges_exact (h : Represents s L) (hend : heapBase + extent 16 L.cells < scanBound L)
    (hb : b + 16 < 4294967296) (hno : ∀ c ∈ L.cells, ¬Fits b c) (hgrow : L.growth b = 0)
    (hc : L.cells = l ++ r) :
    Diverges (kmallocTurn P (word b)) (s, word (heapBase + extent 16 l)) := by
  apply diverges_of_invariant fun u => ∃ l r, u = (s, word (heapBase + extent 16 l)) ∧ L.cells = l ++ r
  · rintro u ⟨l, r, rfl, hc⟩
    have hx : heapBase + extent 16 l < scanBound L := by
      rw [hc, extent_append] at hend
      omega
    cases r with
    | cons c r =>
      refine ⟨_, ?_, l ++ [c], r, rfl, by rw [hc]; simp⟩
      rw [turn_cell h hc hx, tryBlock_cell h hc hb, if_neg (hno c (by simp [hc]))]
    | nil =>
      rw [List.append_nil] at hc
      subst hc
      obtain ⟨d, cs, hd⟩ := L.exists_cons
      refine ⟨_, ?_, [d], cs, rfl, hd⟩
      rw [turn_tail h hx hb (lastSize_le hno), hgrow]
      have := tryBlock_cell h (l := []) hd hb
      rw [if_neg (hno d (by simp [hd]))] at this
      exact this
  · exact ⟨l, r, rfl, hc⟩

theorem fits_grow (hno : ∀ c ∈ L.cells, ¬Fits b c) :
    (∃ c ∈ (L.grow (L.growth b)).cells, Fits b c) ↔ (b + 16 - L.lastSize) % 4096 ≠ 0 := by
  obtain ⟨l, c, hl, hc, -⟩ := L.spare
  have hlast := lastSize_le hno
  have hsize := L.lastSize_of_snoc hl
  have hcells : (L.grow (L.growth b)).cells = l ++ [⟨c.size + L.growth b * 4096, c.owner⟩] := by
    rw [L.grow_cells, hl, growLast_snoc]
  have hgrown : (∃ c ∈ (L.grow (L.growth b)).cells, Fits b c) ↔ b + 16 < c.size + L.growth b * 4096 := by
    rw [hcells]
    constructor
    · rintro ⟨d, hd, hfit⟩
      rcases List.mem_append.mp hd with hd | hd
      · exact absurd hfit (hno d (by simp [hl, hd]))
      · rw [List.mem_singleton.mp hd] at hfit
        exact hfit.2
    · intro hfit
      exact ⟨_, List.mem_append_right _ List.mem_cons_self, hc, hfit⟩
  rw [hgrown]
  simp only [Layout.growth, pageCount] at *
  omega

theorem first_of_grow (hc : ¬∃ c, L.cells = [c]) (k : ℕ) : ∃ c r, (L.grow k).cells = c :: r ∧
    c ∈ L.cells := by
  obtain ⟨c, r, hcr⟩ := L.exists_cons
  cases r with
  | nil => exact absurd ⟨c, hcr⟩ hc
  | cons d r => exact ⟨c, growLast (k * 4096) (d :: r), by rw [L.grow_cells, hcr]; rfl, by simp [hcr]⟩

theorem grown_represents (h : Represents s L) (hM : heapBase + L.length + L.growth b * 4096 ≤ 0xFFC00000) :
    Represents ((morecorePage P)^[L.growth b] s) (L.grow (L.growth b)) :=
  (morecore_represents h _ hM).1

theorem tail_turn (h : Represents s L) (hL : L.length < 0x3000000) (hb : b + 16 < 4294967296)
    (hno : ∀ c ∈ L.cells, ¬Fits b c) : kmallocTurn P (word b) (s, word (heapBase + extent 16 L.cells)) =
      tryBlock (word b) ((morecorePage P)^[L.growth b] s, word heapBase) :=
  turn_tail h (in_scan hL (List.append_nil _).symm) hb (lastSize_le hno)

section Tail

variable (h : Represents s L) (hL : L.length < 0x3000000) (hb : b + 16 < 4294967296)
  (hno : ∀ c ∈ L.cells, ¬Fits b c) (hM : heapBase + L.length + L.growth b * 4096 ≤ 0xFFC00000)
include h hL hb hno hM

theorem tail_again {r : List Block} (hd : (L.grow (L.growth b)).cells = c :: r) (hfit : ¬Fits b c) :
    kmallocTurn P (word b) (s, word (heapBase + extent 16 L.cells)) =
      .again ((morecorePage P)^[L.growth b] s, word (heapBase + extent 16 [c])) := by
  have hcell := tryBlock_cell (grown_represents (P := P) h hM) (l := []) hd hb
  rw [if_neg hfit] at hcell
  rw [tail_turn h hL hb hno]
  exact hcell

theorem tail_exits_first {r : List Block} (hd : (L.grow (L.growth b)).cells = c :: r) (hfit : Fits b c) :
    ∃ t p, Exits (kmallocTurn P (word b)) (s, word (heapBase + extent 16 L.cells)) (t, p) ∧ p ≠ 0 ∧
      InPlace ((morecorePage P)^[L.growth b] s) t := by
  have hbase := heapBase_eq
  have hcell := tryBlock_cell (grown_represents (P := P) h hM) (l := []) hd hb
  rw [if_pos hfit] at hcell
  have hturn := (tail_turn (P := P) h hL hb hno).trans hcell
  refine ⟨_, _, Exits.of_exit hturn, ?_, rfl, rfl⟩
  rw [show (0 : Word) = word 0 from rfl, ne_eq, extent_nil, word_inj (by omega) (by omega)]
  omega

theorem tail_exits_fit (hl : L.cells = l ++ [c]) (hfit : ∃ c ∈ (L.grow (L.growth b)).cells, Fits b c)
    (hx : heapBase + extent 16 l < scanBound (L.grow (L.growth b)) ∨ ∃ c, L.cells = [c]) :
    ∃ t p, Exits (kmallocTurn P (word b)) (s, word (heapBase + extent 16 L.cells)) (t, p) ∧ p ≠ 0 ∧
      InPlace ((morecorePage P)^[L.growth b] s) t := by
  have hrep := grown_represents (P := P) h hM
  have hcells : (L.grow (L.growth b)).cells = l ++ [⟨c.size + L.growth b * 4096, c.owner⟩] := by
    rw [L.grow_cells, hl, growLast_snoc]
  obtain ⟨e, he, hfe⟩ := hfit
  have hlast : Fits b ⟨c.size + L.growth b * 4096, c.owner⟩ := by
    rw [hcells] at he
    rcases List.mem_append.mp he with he | he
    · exact absurd hfe (hno e (by simp [hl, he]))
    · rw [← List.mem_singleton.mp he]
      exact hfe
  cases l with
  | nil => exact tail_exits_first h hL hb hno hM hcells hlast
  | cons d l =>
    have hx' : heapBase + extent 16 (d :: l) < scanBound (L.grow (L.growth b)) := by
      rcases hx with hx | ⟨e, he⟩
      · exact hx
      · rw [hl] at he
        simp at he
    have hd : ¬Fits b d := hno d (by simp [hl])
    simp only [exits_again (tail_again h hL hb hno hM hcells hd)]
    exact exits_first hrep hb (l := [d]) (m := l) (r := []) hcells
      (fun e he => hno e (by simp [hl, he])) hlast hx'

theorem tail_exits_null {m r : List Block} (hd : (L.grow (L.growth b)).cells = c :: m ++ r)
    (hm : ∀ d ∈ c :: m, ¬Fits b d) (hx : scanBound (L.grow (L.growth b)) ≤ heapBase + extent 16 (c :: m)) :
    Exits (kmallocTurn P (word b)) (s, word (heapBase + extent 16 L.cells))
      ((morecorePage P)^[L.growth b] s, 0) := by
  have hrep := grown_represents (P := P) h hM
  rw [exits_again (tail_again h hL hb hno hM (r := m ++ r) hd (hm c (by simp)))]
  exact scan_stops hrep hb (l := [c]) (m := m) hd (fun d hd => hm d (by simp [hd])) hx

theorem tail_exits_large {r : List Block} (hd : (L.grow (L.growth b)).cells = c :: r) (hfit : ¬Fits b c)
    (hlarge : 0x3000000 ≤ (L.grow (L.growth b)).length) (hend : (L.grow (L.growth b)).length ≤ 0x10000000) :
    Exits (kmallocTurn P (word b)) (s, word (heapBase + extent 16 L.cells))
      ((morecorePage P)^[L.growth b] s, 0) := by
  have hstop := scanBound_large hlarge hend
  exact tail_exits_null h hL hb hno hM (m := []) hd (by simpa using hfit) (by omega)

theorem tail_diverges (hno' : ∀ c ∈ (L.grow (L.growth b)).cells, ¬Fits b c)
    (hx : heapBase + extent 16 (L.grow (L.growth b)).cells < scanBound (L.grow (L.growth b))) :
    Diverges (kmallocTurn P (word b)) (s, word (heapBase + extent 16 L.cells)) := by
  have hrep := grown_represents (P := P) h hM
  obtain ⟨d, cs, hd⟩ := (L.grow (L.growth b)).exists_cons
  have hdiv := diverges_exact (P := P) hrep hx hb hno' (growth_again (lastSize_le hno')) (l := [d]) hd
  rw [diverges_iff] at hdiv ⊢
  simpa only [exits_again (tail_again h hL hb hno hM hd (hno' d (by simp [hd])))] using hdiv

end Tail

theorem last_in_scan (hl : L.cells = l ++ [c]) (hM : (L.grow (L.growth b)).length < 0x3000000) :
    heapBase + extent 16 l < scanBound (L.grow (L.growth b)) :=
  in_scan hM (r := [⟨c.size + L.growth b * 4096, c.owner⟩]) (by rw [L.grow_cells, hl, growLast_snoc])

def AtTail (u : Kmem × Word) : Prop :=
  u.2 < u.1.head + u.1.totalLength * sizeofKmemptr ∧ u.2 ≠ 0 ∧ (kmemptr u.1.mem u.2).flags = kmemTail

def EnoughPages (P : PageMap) (s : Kmem) (n : Word) : Prop :=
  ∀ u, Visits (kmallocTurn P (alignBlock n)) (s, s.firstFree) u → AtTail u →
    ∃ t p, Exits (kmallocTurn P (alignBlock n)) u (t, p) ∧ p ≠ 0 ∧
      t.pages = (growAtTail P (alignBlock n) u.1 u.2).1.pages

theorem vain_scan (hfit : (∃ c ∈ L.cells, Fits b c) ∨ L.length + L.growth b * 4096 ≤ 0x10000000)
    (hf : ¬∃ c ∈ L.cells, Fits b c) : (∀ c ∈ L.cells, ¬Fits b c) ∧
      heapBase + L.length + L.growth b * 4096 ≤ 0xFFC00000 ∧ (L.grow (L.growth b)).length ≤ 0x10000000 := by
  have hwin := hfit.resolve_left hf
  have hbase := heapBase_eq
  refine ⟨fun c hc hfc => hf ⟨c, hc, hfc⟩, by omega, ?_⟩
  rw [length_grow]
  exact hwin

theorem visits_tail (h : Represents s L) (hL : L.length < 0x3000000) (hw : NoWrap n)
    (hno : ∀ c ∈ L.cells, ¬Fits (aligned n) c) :
    Visits (kmallocTurn P (alignBlock n)) (s, s.firstFree) (s, word (heapBase + extent 16 L.cells)) := by
  rw [alignBlock_eq, h.firstFree]
  have hx := in_scan hL (List.append_nil L.cells).symm
  exact scan_over (l := []) (m := L.cells) (r := []) h hw (by simp) hno hx.le

theorem kmalloc_returns_iff (h : Represents s L) (hL : L.length ≤ 0x10000000) (hw : NoWrap n)
    (hfit : (∃ c ∈ L.cells, Fits (aligned n) c) ∨ L.length + L.growth (aligned n) * 4096 ≤ 0x10000000) :
    (∃ t p, KmallocReturns P s n t p) ↔
      0x3000000 ≤ L.length ∨ (∃ c ∈ L.cells, Fits (aligned n) c) ∨
      (aligned n + 16 - L.lastSize) % 4096 ≠ 0 ∨
        0x3000000 ≤ L.length + L.growth (aligned n) * 4096 := by
  by_cases hlarge : 0x3000000 ≤ L.length
  · refine iff_of_true ⟨s, 0, ?_⟩ (Or.inl hlarge)
    rw [KmallocReturns, h.firstFree]
    exact Exits.of_exit (stops_large h hlarge hL (l := []) rfl _)
  have hsmall : L.length < 0x3000000 := by omega
  by_cases hf : ∃ c ∈ L.cells, Fits (aligned n) c
  · obtain ⟨t, p, ht, -, -⟩ := exits_fit (P := P) h hsmall hw (l := []) rfl hf
    refine iff_of_true ⟨t, p, ?_⟩ (Or.inr (Or.inl hf))
    rw [KmallocReturns, alignBlock_eq, h.firstFree]
    exact ht
  obtain ⟨hno, hM, hwin'⟩ := vain_scan hfit hf
  have hlen := length_grow L (L.growth (aligned n))
  have htail (t : Kmem) (p : Word) : KmallocReturns P s n t p ↔
      Exits (kmallocTurn P (word (aligned n))) (s, word (heapBase + extent 16 L.cells)) (t, p) := by
    rw [KmallocReturns, (visits_tail h hsmall hw hno).exits_iff, alignBlock_eq]
  simp only [htail, hlarge, hf, false_or]
  by_cases hrem : (aligned n + 16 - L.lastSize) % 4096 ≠ 0
  · refine iff_of_true ?_ (Or.inl hrem)
    have hgrown := (fits_grow hno).mpr hrem
    by_cases hend : (L.grow (L.growth (aligned n))).length < 0x3000000 ∨ ∃ c, L.cells = [c]
    · obtain ⟨l, c, hl, -, -⟩ := L.spare
      obtain ⟨t, p, ht, -, -⟩ := tail_exits_fit (P := P) h hsmall hw hno hM hl hgrown
        (hend.imp_left (last_in_scan hl))
      exact ⟨t, p, ht⟩
    · rw [not_or] at hend
      obtain ⟨c, r, hc, hcL⟩ := first_of_grow hend.2 (L.growth (aligned n))
      exact ⟨_, 0, tail_exits_large h hsmall hw hno hM hc (hno c hcL) (by omega) hwin'⟩
  · have hgrown : ∀ c ∈ (L.grow (L.growth (aligned n))).cells, ¬Fits (aligned n) c :=
      fun c hc hfc => hrem ((fits_grow hno).mp ⟨c, hc, hfc⟩)
    simp only [hrem, false_or, ← hlen]
    by_cases hend : 0x3000000 ≤ (L.grow (L.growth (aligned n))).length
    · obtain ⟨c, r, hc⟩ := (L.grow (L.growth (aligned n))).exists_cons
      have hnull := tail_exits_large (P := P) h hsmall hw hno hM hc (hgrown c (by simp [hc])) hend hwin'
      exact iff_of_true ⟨_, 0, hnull⟩ hend
    · refine iff_of_false ?_ hend
      have hdiv := tail_diverges (P := P) h hsmall hw hno hM hgrown
        (in_scan (by omega) (List.append_nil _).symm)
      rw [diverges_iff] at hdiv
      rintro ⟨t, p, ht⟩
      exact hdiv ⟨_, ht⟩

theorem atTail_iff {l r : List Block} (h : Represents s L) (hc : L.cells = l ++ r) :
    AtTail (s, word (heapBase + extent 16 l)) ↔ heapBase + extent 16 l < scanBound L ∧ r = [] := by
  have hbase := heapBase_eq
  have hbound := h.bound
  rw [Layout.length, hc, extent_append] at hbound
  have hcond := scan_condition h (x := heapBase + extent 16 l) (by omega) (by omega)
  rw [AtTail, ← and_assoc, hcond]
  apply and_congr_right
  intro _
  cases r with
  | nil =>
    have htail := h.chain.tail_header
    rw [List.append_nil] at hc
    rw [hc] at htail
    simp only [htail, tailHeader]
  | cons c r =>
    have hchain := hc ▸ h.chain
    have hcell := hchain.header_at
    simp only [hcell, cellHeader, flagOf_ne_tail, reduceCtorEq]

theorem enoughPages_fit (h : Represents s L) (hw : NoWrap n) (hf : ∃ c ∈ L.cells, Fits (aligned n) c) :
    EnoughPages P s n := by
  obtain ⟨c, hc, hfc⟩ := hf
  rintro ⟨u, x⟩ hv htail
  have hroom : Roomy (aligned n) L := fun hno => absurd hfc (hno c hc)
  obtain ⟨M, l, r, hM, hrep, -, hl, rfl, hno⟩ := kmalloc_scanning h hw hv (Or.inl hroom)
  obtain ⟨-, rfl⟩ := (atTail_iff hrep hl).mp htail
  rw [List.append_nil] at hl
  subst hl
  rcases hM with rfl | ⟨-, hnoL, -⟩
  · exact absurd hfc (hno c hc)
  · exact absurd hfc (hnoL c hc)

theorem enoughPages_grown (h : Represents s L) (hL : L.length < 0x3000000) (hw : NoWrap n)
    (hno : ∀ c ∈ L.cells, ¬Fits (aligned n) c)
    (hM : heapBase + L.length + L.growth (aligned n) * 4096 ≤ 0xFFC00000)
    (hrem : (aligned n + 16 - L.lastSize) % 4096 ≠ 0)
    (hend : (L.grow (L.growth (aligned n))).length < 0x3000000 ∨ ∃ c, L.cells = [c]) : EnoughPages P s n := by
  obtain ⟨c, hc, hfc⟩ := (fits_grow hno).mpr hrem
  obtain ⟨cs, d, hd, -, -⟩ := L.spare
  rintro ⟨u, x⟩ hv htail
  have hroom : Roomy (aligned n) L := fun _ _ => hM
  obtain ⟨M, l, r, hGrown, hrep, -, hl, rfl, hnoM⟩ := kmalloc_scanning h hw hv (Or.inl hroom)
  obtain ⟨-, rfl⟩ := (atTail_iff hrep hl).mp htail
  rw [List.append_nil] at hl
  subst hl
  rcases hGrown with rfl | ⟨rfl, -, -⟩
  · obtain ⟨t, p, ht, hp, hpages, -⟩ := tail_exits_fit (P := P) hrep hL hw hno hM hd ⟨c, hc, hfc⟩
      (hend.imp_left (last_in_scan hd))
    rw [alignBlock_eq]
    exact ⟨t, p, ht, hp, by rw [growAtTail_tail hrep hw (lastSize_le hno), hpages]⟩
  · exact absurd hfc (hnoM c hc)

theorem kmalloc_enough_iff (h : Represents s L) (hL : L.length ≤ 0x10000000) (hw : NoWrap n)
    (hfit : (∃ c ∈ L.cells, Fits (aligned n) c) ∨ L.length + L.growth (aligned n) * 4096 ≤ 0x10000000) :
    EnoughPages P s n ↔
      0x3000000 ≤ L.length ∨ (∃ c ∈ L.cells, Fits (aligned n) c) ∨
      (aligned n + 16 - L.lastSize) % 4096 ≠ 0 ∧
        (L.length + L.growth (aligned n) * 4096 < 0x3000000 ∨ ∃ c, L.cells = [c]) := by
  by_cases hlarge : 0x3000000 ≤ L.length
  · refine iff_of_true ?_ (Or.inl hlarge)
    intro u hv htail
    rw [h.firstFree] at hv
    rw [hv.of_exit (stops_large h hlarge hL (l := []) rfl _)] at htail
    have hx := ((atTail_iff h (l := []) rfl).mp htail).1
    have hstop := scanBound_large hlarge hL
    rw [extent_nil] at hx
    omega
  have hsmall : L.length < 0x3000000 := by omega
  by_cases hf : ∃ c ∈ L.cells, Fits (aligned n) c
  · exact iff_of_true (enoughPages_fit h hw hf) (Or.inr (Or.inl hf))
  obtain ⟨hno, hM, hwin'⟩ := vain_scan hfit hf
  have hlen := length_grow L (L.growth (aligned n))
  simp only [hlarge, hf, false_or, ← hlen]
  constructor
  · intro henough
    have hx := in_scan hsmall (List.append_nil L.cells).symm
    obtain ⟨t, p, ht, hp, -⟩ := henough _ (visits_tail h hsmall hw hno)
      ((atTail_iff h (List.append_nil _).symm).mpr ⟨hx, rfl⟩)
    rw [alignBlock_eq] at ht
    have not_null {c : Block} {r : List Block} (hc : (L.grow (L.growth (aligned n))).cells = c :: r)
        (hcf : ¬Fits (aligned n) c) : (L.grow (L.growth (aligned n))).length < 0x3000000 := by
      by_contra hend
      have hnull := tail_exits_large (P := P) h hsmall hw hno hM hc hcf (by omega) hwin'
      exact hp (Prod.ext_iff.mp (ht.unique hnull)).2
    by_cases hrem : (aligned n + 16 - L.lastSize) % 4096 ≠ 0
    · refine ⟨hrem, ?_⟩
      by_cases hsingle : ∃ c, L.cells = [c]
      · exact Or.inr hsingle
      · obtain ⟨c, r, hc, hcL⟩ := first_of_grow hsingle (L.growth (aligned n))
        exact Or.inl (not_null hc (hno c hcL))
    · have hgrown : ∀ c ∈ (L.grow (L.growth (aligned n))).cells, ¬Fits (aligned n) c :=
        fun c hc hfc => hrem ((fits_grow hno).mp ⟨c, hc, hfc⟩)
      obtain ⟨c, r, hc⟩ := (L.grow (L.growth (aligned n))).exists_cons
      have hdiv := tail_diverges (P := P) h hsmall hw hno hM hgrown
        (in_scan (not_null hc (hgrown c (by simp [hc]))) (List.append_nil _).symm)
      exact absurd ⟨_, ht⟩ (diverges_iff.mp hdiv)
  · rintro ⟨hrem, hend⟩
    exact enoughPages_grown h hsmall hw hno hM hrem hend

/-- `kmalloc` hangs exactly when the scan in vain asks for a whole number of pages (possibly none)
and the grown heap is still small enough for the restarted scan to come back to the tail; and the
pages it adds are enough unless that happens, or the scaled bound wraps in a heap of several
blocks. -/
theorem kmalloc_terminates_iff (h : Reachable P Windowed σ) (hw : NoWrap n) (hfit : FitsWindow σ.heap n) :
    ((∃ t p, KmallocReturns P σ.heap n t p) ↔
      0x3000000 ≤ σ.heap.totalLength.toNat ∨ BlockFits σ.heap n ∨
        (aligned n + 16 - lastSize σ.heap) % 0x1000 ≠ 0 ∨
        0x3000000 ≤ σ.heap.totalLength.toNat + 0x1000 * pagesNeeded σ.heap n) ∧
    ((∃ t p, KmallocReturns P σ.heap n t p) ∧ EnoughPages P σ.heap n ↔
      0x3000000 ≤ σ.heap.totalLength.toNat ∨ BlockFits σ.heap n ∨
        (aligned n + 16 - lastSize σ.heap) % 0x1000 ≠ 0 ∧
          (σ.heap.totalLength.toNat + 0x1000 * pagesNeeded σ.heap n < 0x3000000 ∨
            (header σ.heap 0).next = σ.heap.tail)) := by
  obtain ⟨L, hL⟩ := h.sane.held
  have hwin := hL.heap.inWindow_iff.mp h.inWindow
  rw [fitsWindow_iff hL.heap] at hfit
  have hreturns := kmalloc_returns_iff (P := P) hL.heap hwin hw hfit
  have henough := kmalloc_enough_iff (P := P) hL.heap hwin hw hfit
  rw [blockFits_iff hL.heap, totalLength_eq hL.heap, pagesNeeded_eq hL.heap, lastSize_eq hL.heap,
    single_iff hL.heap, Nat.mul_comm 0x1000 (L.growth (aligned n))]
  refine ⟨hreturns, ?_⟩
  rw [hreturns, henough]
  refine ⟨fun hx => hx.2, fun hx => ⟨?_, hx⟩⟩
  rcases hx with hx | hx | ⟨hx, -⟩
  · exact Or.inl hx
  · exact Or.inr (Or.inl hx)
  · exact Or.inr (Or.inr (Or.inl hx))

theorem init_fits : BlockFits (kmemInit zeroPages fun _ => 0) 16 :=
  (blockFits_iff (kmemInit_represents _ _)).mpr ⟨⟨0xFE0, none⟩, List.mem_cons_self, rfl, by decide⟩

theorem third_kmalloc_terminates : ∃ (σ : Session) (p q : Word), σ.live p = some 16 ∧
    σ.live q = some 16 ∧ p ≠ q ∧
    (∃ t r, KmallocReturns zeroPages σ.heap 16 t r) ∧ EnoughPages zeroPages σ.heap 16 := by
  obtain ⟨σ, p, q, L, h, hpq, hp, hq, -, -, -, hrep, hcells⟩ := two_windowed
  have hfits : BlockFits σ.heap 16 := by
    rw [blockFits_iff hrep, hcells]
    exact ⟨⟨0xFA0, none⟩, by simp, rfl, by decide⟩
  exact ⟨σ, p, q, hp, hq, hpq, (kmalloc_terminates_iff h (by decide) (Or.inl hfits)).2.mpr
    (Or.inr (Or.inl hfits))⟩

theorem kmalloc_hangs : Reachable zeroPages Windowed (Session.start zeroPages fun _ => 0) ∧ NoWrap 0xFD0 ∧
    FitsWindow (kmemInit zeroPages fun _ => 0) 0xFD0 ∧
    ¬∃ t p, KmallocReturns zeroPages (kmemInit zeroPages fun _ => 0) 0xFD0 t p := by
  have hinit := kmemInit_represents zeroPages fun _ => 0
  have hlen : Layout.initial.length = 4096 := by rw [Layout.length]; rfl
  have hlast : Layout.initial.lastSize = 0xFE0 := rfl
  have hgrowth : Layout.initial.growth (aligned 0xFD0) = 0 := rfl
  have hwin : Layout.initial.length + Layout.initial.growth (aligned 0xFD0) * 4096 ≤ 0x10000000 := by
    rw [hlen, hgrowth]; decide
  refine ⟨⟨_, _, .nil _⟩, by decide, (fitsWindow_iff hinit).mpr (Or.inr hwin), ?_⟩
  rw [kmalloc_returns_iff hinit (by rw [hlen]; decide) (by decide) (Or.inr hwin), hlen, hlast, hgrowth]
  rintro (h | ⟨c, hc, hfit⟩ | h | h)
  · exact absurd h (by decide)
  · rw [List.mem_singleton.mp hc] at hfit
    exact absurd hfit (by decide)
  · exact absurd h (by decide)
  · exact absurd h (by decide)

end Rinix.Heap
