import Rinix.Heap.Termination

namespace Rinix.Heap

open ByteMemory Tiling WhileLoop

def RefusesDuly (P : PageMap) (s : Kmem) (n : Word) : Prop :=
  (BlockFits s n → ∃ t p, KmallocReturns P s n t p ∧ p ≠ 0 ∧ InPlace s t) ∧
  ∀ t, KmallocReturns P s n t 0 → t = s

def StaysBelow (s : Kmem) (n : Word) : Prop :=
  BlockFits s n ∨ 0x3000000 ≤ s.totalLength.toNat ∨
    s.totalLength.toNat + 0x1000 * pagesNeeded s n ≤ 0x2FC00000

def grownBound (s : Kmem) (n : Word) : ℕ :=
  (0xD0000000 + (s.totalLength.toNat + 0x1000 * pagesNeeded s n) * 16) % 0x100000000

/-- The bound lets the restarted scan come to the block before the tail, if that fits now, and else
to the tail. -/
def GrowthServes (s : Kmem) (n : Word) : Prop :=
  pagesNeeded s n = 0 ∨
  (aligned n + 16 - lastSize s) % 0x1000 ≠ 0 ∧
    ((header s 0).next = s.tail ∨ (kmemptr s.mem s.tail).prev.toNat < grownBound s n) ∨
  (aligned n + 16 - lastSize s) % 0x1000 = 0 ∧ s.tail.toNat + 0x1000 * pagesNeeded s n < grownBound s n

variable {P : PageMap} {s t : Kmem} {σ : Session} {L : Layout} {l : List Block} {c : Block} {b : ℕ}
  {n p : Word}

theorem large_returns_iff (h : Represents s L) (hlarge : 0x3000000 ≤ L.length) (hL : L.length ≤ 0x10000000) :
    KmallocReturns P s n t p ↔ t = s ∧ p = 0 := by
  have hexit : Exits (kmallocTurn P (alignBlock n)) (s, s.firstFree) (s, 0) := by
    rw [h.firstFree]
    exact Exits.of_exit (stops_large h hlarge hL (l := []) rfl _)
  constructor
  · intro hr
    exact Prod.ext_iff.mp (hr.unique hexit)
  · rintro ⟨rfl, rfl⟩
    exact hexit

theorem large_refuses_iff (h : Represents s L) (hlarge : 0x3000000 ≤ L.length) (hL : L.length ≤ 0x10000000) :
    RefusesDuly P s n ↔ ¬BlockFits s n := by
  simp only [RefusesDuly, large_returns_iff h hlarge hL]
  constructor
  · rintro ⟨hfits, -⟩ hf
    obtain ⟨t, p, ⟨-, hp⟩, hp0, -⟩ := hfits hf
    exact hp0 hp
  · intro hf
    exact ⟨fun h => absurd h hf, fun t ht => ht.1⟩

theorem fitting_refuses (h : Represents s L) (hsmall : L.length < 0x3000000) (hw : NoWrap n)
    (hf : ∃ c ∈ L.cells, Fits (aligned n) c) : RefusesDuly P s n := by
  obtain ⟨t, p, ht, hp, hplace⟩ := exits_fit (P := P) h hsmall hw (l := []) rfl hf
  have hr : KmallocReturns P s n t p := by
    rw [KmallocReturns, alignBlock_eq, h.firstFree]
    exact ht
  refine ⟨fun _ => ⟨t, p, hr, hp, hplace⟩, fun t' hr' => ?_⟩
  exact absurd (Prod.ext_iff.mp (hr'.unique hr)).2.symm hp

theorem grown_ne (h : Represents s L) (hM : heapBase + L.length + L.growth b * 4096 ≤ 0xFFC00000)
    (hgrow : L.growth b ≠ 0) : (morecorePage P)^[L.growth b] s ≠ s := by
  have hbase := heapBase_eq
  intro heq
  have htotal := (grown_represents (P := P) h hM).total
  rw [heq, h.total, length_grow, word_inj (by omega) (by omega)] at htotal
  omega

section Vain

variable (h : Represents s L) (hsmall : L.length < 0x3000000) (hw : NoWrap n)
  (hno : ∀ c ∈ L.cells, ¬Fits (aligned n) c) (hM : heapBase + L.length + L.growth (aligned n) *
  4096 ≤ 0xFFC00000)
include h hsmall hw hno

theorem vain_returns_iff : KmallocReturns P s n t p ↔
    Exits (kmallocTurn P (word (aligned n))) (s, word (heapBase + extent 16 L.cells)) (t, p) := by
  rw [KmallocReturns, (visits_tail h hsmall hw hno).exits_iff, alignBlock_eq]

theorem vain_still (hgrow : L.growth (aligned n) = 0) : ¬KmallocReturns P s n t p := by
  have hend := in_scan hsmall (List.append_nil L.cells).symm
  have hdiv := diverges_exact (P := P) h hend hw hno hgrow (List.append_nil _).symm
  rw [vain_returns_iff h hsmall hw hno]
  exact fun hr => diverges_iff.mp hdiv ⟨_, hr⟩

include hM

theorem vain_kept_iff_fit (hl : L.cells = l ++ [c]) (hgrow : L.growth (aligned n) ≠ 0)
    (hrem : (aligned n + 16 - L.lastSize) % 4096 ≠ 0) : (∀ t, KmallocReturns P s n t 0 → t = s) ↔
      (∃ c, L.cells = [c]) ∨ heapBase + extent 16 l < scanBound (L.grow (L.growth (aligned n))) := by
  simp only [vain_returns_iff h hsmall hw hno]
  by_cases hx : heapBase + extent 16 l < scanBound (L.grow (L.growth (aligned n))) ∨ ∃ c, L.cells = [c]
  · obtain ⟨t, p, ht, hp, -⟩ := tail_exits_fit (P := P) h hsmall hw hno hM hl ((fits_grow hno).mpr hrem) hx
    refine iff_of_true (fun t' ht' => ?_) hx.symm
    exact absurd (Prod.ext_iff.mp (ht'.unique ht)).2.symm hp
  · refine iff_of_false (fun hkept => ?_) fun hx' => hx hx'.symm
    obtain ⟨hfar, hseveral⟩ := not_or.mp hx
    cases l with
    | nil => exact hseveral ⟨c, hl⟩
    | cons d m =>
      have hcells : (L.grow (L.growth (aligned n))).cells = d :: m ++
        [⟨c.size + L.growth (aligned n) * 4096, c.owner⟩] := by
        rw [L.grow_cells, hl, growLast_snoc]
      have hnull := tail_exits_null (P := P) h hsmall hw hno hM hcells
        (fun e he => hno e (by rw [hl]; exact List.mem_append_left _ he)) (Nat.not_lt.mp hfar)
      exact grown_ne h hM hgrow (hkept _ hnull)

theorem vain_kept_iff_exact (hgrow : L.growth (aligned n) ≠ 0)
    (hrem : (aligned n + 16 - L.lastSize) % 4096 = 0) :
    (∀ t, KmallocReturns P s n t 0 → t = s) ↔ heapBase + extent 16 (L.grow (L.growth (aligned n))).cells <
      scanBound (L.grow (L.growth (aligned n))) := by
  have hno' : ∀ c ∈ (L.grow (L.growth (aligned n))).cells, ¬Fits (aligned n) c :=
    fun c hc hfc => (fits_grow hno).mp ⟨c, hc, hfc⟩ hrem
  simp only [vain_returns_iff h hsmall hw hno]
  by_cases hx : heapBase + extent 16 (L.grow (L.growth (aligned n))).cells <
    scanBound (L.grow (L.growth (aligned n)))
  · have hdiv := tail_diverges (P := P) h hsmall hw hno hM hno' hx
    exact iff_of_true (fun t ht => absurd ⟨_, ht⟩ (diverges_iff.mp hdiv)) hx
  · refine iff_of_false (fun hkept => ?_) hx
    obtain ⟨d, m, hd⟩ := (L.grow (L.growth (aligned n))).exists_cons
    have hnull := tail_exits_null (P := P) h hsmall hw hno hM (m := m) (r := []) (by rw [hd, List.append_nil])
      (by rw [← hd]; exact hno') (by rw [← hd]; exact Nat.not_lt.mp hx)
    exact grown_ne h hM hgrow (hkept _ hnull)

end Vain

theorem grownBound_eq (h : Represents s L) : grownBound s n = scanBound (L.grow (L.growth (aligned n))) := by
  have hbase := heapBase_eq
  rw [grownBound, scanBound, totalLength_eq h, pagesNeeded_eq h, length_grow]
  omega

theorem lastPlace_eq (h : Represents s L) (hl : L.cells = l ++ [c]) :
    (kmemptr s.mem s.tail).prev.toNat = heapBase + extent 16 l := by
  have hbound := h.cell_bound hl
  have htail := (hl ▸ h.chain).tail_header
  rw [lastStart_snoc] at htail
  rw [h.tail, hl, htail]
  exact toNat_word (by omega)

theorem grownTail_eq (h : Represents s L) :
    s.tail.toNat + 0x1000 * pagesNeeded s n = heapBase + extent 16 (L.grow (L.growth (aligned n))).cells := by
  have hbase := heapBase_eq
  have hbound := h.bound
  have hgrow := length_grow L (L.growth (aligned n))
  rw [Layout.length, Layout.length] at hgrow
  rw [Layout.length] at hbound
  rw [h.tail, toNat_word (by omega), pagesNeeded_eq h]
  omega

theorem vain_refuses_iff (h : Represents s L) (hsmall : L.length < 0x3000000) (hw : NoWrap n)
    (hf : ¬BlockFits s n) (hM : heapBase + L.length + L.growth (aligned n) * 4096 ≤ 0xFFC00000) :
    RefusesDuly P s n ↔ GrowthServes s n := by
  obtain ⟨l, c, hl, -, -⟩ := L.spare
  have hno : ∀ c ∈ L.cells, ¬Fits (aligned n) c := fun c hc hfc => hf ((blockFits_iff h).mpr ⟨c, hc, hfc⟩)
  have hkept : RefusesDuly P s n ↔ ∀ t, KmallocReturns P s n t 0 → t = s :=
    and_iff_right fun hfits => absurd hfits hf
  rw [hkept, GrowthServes, grownBound_eq h, lastPlace_eq h hl, grownTail_eq h, pagesNeeded_eq h,
    lastSize_eq h, single_iff h]
  by_cases hgrow : L.growth (aligned n) = 0
  · exact iff_of_true (fun t ht => absurd ht (vain_still h hsmall hw hno hgrow)) (Or.inl hgrow)
  · by_cases hrem : (aligned n + 16 - L.lastSize) % 4096 = 0
    · simp only [hgrow, hrem, ne_eq, not_true_eq_false, false_and, true_and, false_or]
      exact vain_kept_iff_exact h hsmall hw hno hM hgrow hrem
    · simp only [hgrow, hrem, ne_eq, not_false_eq_true, false_and, true_and, false_or, or_false]
      exact vain_kept_iff_fit h hsmall hw hno hM hl hgrow hrem

theorem kmalloc_refuses_iff (h : Reachable P Windowed σ) (hw : NoWrap n) (hbelow : StaysBelow σ.heap n) :
    RefusesDuly P σ.heap n ↔
      if σ.heap.totalLength.toNat < 0x3000000 then BlockFits σ.heap n ∨ GrowthServes σ.heap n
      else ¬BlockFits σ.heap n := by
  have hbase := heapBase_eq
  obtain ⟨L, hL⟩ := h.sane.held
  have hwin := hL.heap.inWindow_iff.mp h.inWindow
  rw [StaysBelow, totalLength_eq hL.heap, pagesNeeded_eq hL.heap] at hbelow
  rw [totalLength_eq hL.heap]
  split_ifs with hsmall
  · by_cases hf : BlockFits σ.heap n
    · exact iff_of_true (fitting_refuses hL.heap hsmall hw ((blockFits_iff hL.heap).mp hf)) (Or.inl hf)
    · rw [or_iff_right hf]
      have hroom := hbelow.resolve_left hf
      exact vain_refuses_iff hL.heap hsmall hw hf (by omega)
  · exact large_refuses_iff hL.heap (Nat.not_lt.mp hsmall) hwin

theorem kmalloc_16_duly : RefusesDuly zeroPages (kmemInit zeroPages fun _ => 0) 16 := by
  have hinit := kmemInit_represents zeroPages fun _ => 0
  have hlen : Layout.initial.length = 4096 := by rw [Layout.length]; rfl
  have hsmall : (kmemInit zeroPages fun _ => 0).totalLength.toNat < 0x3000000 := by
    rw [totalLength_eq hinit, hlen]
    decide
  refine (kmalloc_refuses_iff (σ := Session.start zeroPages fun _ => 0) ⟨_, _, .nil _⟩ (by decide)
    (Or.inl init_fits)).mpr ?_
  change if (kmemInit zeroPages fun _ => 0).totalLength.toNat < 0x3000000 then _ else _
  rw [if_pos hsmall]
  exact Or.inl init_fits

theorem kmalloc_refuses_fitting : ∃ σ : Session, Reachable zeroPages Windowed σ ∧
    σ.heap.totalLength = 0x3001000 ∧
    NoWrap 16 ∧ BlockFits σ.heap 16 ∧ ∀ t p, KmallocReturns zeroPages σ.heap 16 t p → p = 0 := by
  have hbase := heapBase_eq
  have hinit := kmemInit_represents zeroPages fun _ => 0
  have hlen : Layout.initial.length = 4096 := by rw [Layout.length]; rfl
  have haligned : aligned 0x3000000 = 0x3000000 := rfl
  have hgrowth : Layout.initial.growth (aligned 0x3000000) = 0x3000 := rfl
  have hno : ∀ c ∈ Layout.initial.cells, ¬Fits (aligned 0x3000000) c := by
    intro c hc
    rw [List.mem_singleton.mp hc, haligned]
    decide
  have hM : heapBase + Layout.initial.length + Layout.initial.growth (aligned 0x3000000) * 4096 ≤
    0xFFC00000 := by
    rw [hlen, hgrowth]; omega
  have hw : NoWrap 0x3000000 := by decide
  have hcells : (Layout.initial.grow (Layout.initial.growth (aligned 0x3000000))).cells = [] ++
    [⟨0x3000FE0, none⟩] := by
    rw [Layout.grow_cells, hgrowth]
    rfl
  have hfit : aligned 0x3000000 + 16 < 0x3000FE0 := by rw [haligned]; decide
  have hgrown := grown_represents (P := zeroPages) hinit hM
  have hrep := (chop_represents hgrown hcells rfl (aligned_mod _) (le_aligned 0x3000000) hfit).1
  have hsize : (Layout.initial.grow (Layout.initial.growth (aligned 0x3000000))).length = 0x3001000 := by
    rw [length_grow, hlen, hgrowth]
  have hlength := (length_take hcells rfl (aligned_mod _) (le_aligned 0x3000000) hfit).trans hsize
  have hle := hlength.trans_le (show 0x3001000 ≤ 0x10000000 by decide)
  have hge := (show 0x3000000 ≤ 0x3001000 by decide).trans_eq hlength.symm
  have hcell := tryBlock_cell hgrown hcells hw
  rw [if_pos ⟨rfl, hfit⟩] at hcell
  have hreturns : KmallocReturns zeroPages (kmemInit zeroPages fun _ => 0) 0x3000000 _ _ :=
    (vain_returns_iff hinit (by omega) hw hno).mpr
      (Exits.of_exit ((tail_turn (P := zeroPages) hinit (by omega) hw hno).trans hcell))
  refine ⟨_, ⟨fun _ => 0, _, .cons (.kmalloc hreturns ⟨hw, hrep.inWindow_iff.mpr hle⟩) (.nil _)⟩,
    ?_, by decide, (blockFits_iff hrep).mpr ⟨⟨0xFD0, none⟩, ?_, rfl, by decide⟩, fun t p hr => ?_⟩
  · rw [hrep.total, hlength]
    rfl
  · rw [Layout.take_cells, haligned]
    exact List.mem_cons_of_mem _ List.mem_cons_self
  · exact ((large_returns_iff hrep hge hle).mp hr).2

end Rinix.Heap
