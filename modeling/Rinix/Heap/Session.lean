import Mathlib.Logic.Function.Basic
import Rinix.Heap.Kfree
import Rinix.Heap.Scan
import Rinix.Lib.Runs

namespace Rinix.Heap

open ByteMemory Tiling WhileLoop Runs

structure Session where
  heap : Kmem
  live : Word → Option Word

inductive Event where
  | kmalloc (n p : Word)
  | kfree (p : Word)
  | write (a : Word) (v : Byte)

def InPayload (p n z : Word) : Prop := p.toNat ≤ z.toNat ∧ z.toNat < p.toNat + n.toNat

/-- `ok s n t` restricts the calls `kmalloc(n)` from `s` to `t` that a run may contain. -/
inductive Step (P : PageMap) (ok : Kmem → Word → Kmem → Prop) : Session → Event → Session → Prop where
  | kmalloc {σ : Session} {n p : Word} {t : Kmem} : KmallocReturns P σ.heap n t p → ok σ.heap n t →
      Step P ok σ (.kmalloc n p) ⟨t, if p = 0 then σ.live else Function.update σ.live p (some n)⟩
  | kfree {σ : Session} {p : Word} : (σ.live p).isSome →
      Step P ok σ (.kfree p) ⟨kfree σ.heap p, Function.update σ.live p none⟩
  | write {σ : Session} {p n a : Word} {v : Byte} : σ.live p = some n → InPayload p n a →
      Step P ok σ (.write a v) ⟨{ σ.heap with mem := storeByte σ.heap.mem a v }, σ.live⟩

def Session.start (P : PageMap) (m : Mem) : Session := ⟨kmemInit P m, fun _ => none⟩

def Reachable (P : PageMap) (ok : Kmem → Word → Kmem → Prop) (σ : Session) : Prop :=
  ∃ m es, Run (Step P ok) (Session.start P m) es σ

def Sane (_ : Kmem) (n : Word) (t : Kmem) : Prop := NoWrap n ∧ ¬Past t

def InWindow (s : Kmem) : Prop := ∀ v ∈ s.pages, kernelHeapStart ≤ v ∧ v < kernelHeapEnd

def Windowed (_ : Kmem) (n : Word) (t : Kmem) : Prop := NoWrap n ∧ InWindow t

theorem InWindow.not_past {s : Kmem} (h : InWindow s) : ¬Past s := by
  rintro ⟨v, hv, hpast⟩
  have hend : kernelHeapEnd.toNat = 0xE0000000 := rfl
  have := (h v hv).2
  rw [BitVec.lt_def, hend] at this
  omega

structure Held (σ : Session) (L : Layout) : Prop where
  heap : Represents σ.heap L
  live : ∀ p n, σ.live p = some n ↔ ∃ x ∈ owned 16 heapBase L.cells, p = word (x.1 + 16) ∧ x.2.owner = some n

variable {P : PageMap} {ok : Kmem → Word → Kmem → Prop} {s t : Kmem} {σ τ : Session} {L M : Layout}
  {n p q z : Word} {e : Event} {es : List Event}

theorem owned_bound (h : Represents s L) {x : ℕ × Block} (hx : x ∈ owned 16 heapBase L.cells) :
    heapBase ≤ x.1 ∧ x.1 + 16 + x.2.size + 16 ≤ heapBase + L.length ∧ heapBase + L.length ≤ 0xFFC00000 := by
  have := mem_owned_bounds 16 hx
  have hbound := h.bound
  rw [Layout.length] at *
  omega

theorem owned_inj (h : Represents s L) {x y : ℕ × Block} (hx : x ∈ owned 16 heapBase L.cells)
    (hy : y ∈ owned 16 heapBase L.cells) (hxy : word (x.1 + 16) = word (y.1 + 16)) : x = y := by
  have hbx := owned_bound h hx
  have hby := owned_bound h hy
  have hxy' := (word_inj (by omega) (by omega)).mp hxy
  rcases owned_disjoint 16 hx hy with h | h | h
  · exact h
  · omega
  · omega

theorem held_start (P : PageMap) (m : Mem) : Held (Session.start P m) Layout.initial := by
  refine ⟨kmemInit_represents P m, fun p n => ?_⟩
  simp [Session.start, Layout.initial, owned]

theorem owned_take {l r : List Block} {c : Block} {b : ℕ} (hc : L.cells = l ++ c :: r) (ho : c.owner = none)
    (hb : b % 16 = 0) (hn : n.toNat ≤ b) (hfit : b + 16 < c.size) {x : ℕ × Block} :
    x ∈ owned 16 heapBase (L.take hc ho hb hn hfit).cells ↔
      x = (heapBase + extent 16 l, ⟨b, some n⟩) ∨ x ∈ owned 16 heapBase L.cells := by
  rw [Layout.take_cells, hc]
  exact mem_owned_split 16 ho (by omega)

theorem Held.taken (h : Held σ L) (hM : Grown (aligned n) L M) (ht : Taken n M t p) :
    σ.live p = none ∧ p ≠ 0 ∧ ∃ L', L'.length = M.length ∧
    Held ⟨t, Function.update σ.live p (some n)⟩ L' := by
  have hbase := heapBase_eq
  obtain ⟨l, c, r, hc, ho, hfit, -, rfl, hrep⟩ := ht
  have hnew : (heapBase + extent 16 l, ⟨aligned n, some n⟩) ∈
      owned 16 heapBase (M.take hc ho (aligned_mod n) (le_aligned n) hfit).cells :=
    (owned_take hc ho (aligned_mod n) (le_aligned n) hfit).mpr (Or.inl rfl)
  have hold {x : ℕ × Block} (hx : x ∈ owned 16 heapBase L.cells) :
      x ∈ owned 16 heapBase (M.take hc ho (aligned_mod n) (le_aligned n) hfit).cells :=
    (owned_take hc ho (aligned_mod n) (le_aligned n) hfit).mpr (Or.inr (by rw [hM.owned]; exact hx))
  have hfresh {x : ℕ × Block} (hx : x ∈ owned 16 heapBase L.cells) :
      word (heapBase + extent 16 l + 16) ≠ word (x.1 + 16) := by
    intro heq
    have hxe := owned_inj hrep hnew (hold hx) heq
    rw [← hM.owned, ← hxe] at hx
    have := owned_off_free hc ho hx
    simp only at this
    omega
  refine ⟨?_, ?_, _, length_take hc ho _ _ hfit, hrep, fun q k => ?_⟩
  · cases hlive : σ.live (word (heapBase + extent 16 l + 16)) with
    | none => rfl
    | some k =>
      obtain ⟨x, hx, hp, -⟩ := (h.live _ _).mp hlive
      exact absurd hp (hfresh hx)
  · have hb := owned_bound hrep hnew
    simp only at hb
    rw [show (0 : Word) = word 0 from rfl, ne_eq, word_inj (by omega) (by omega)]
    omega
  · by_cases hq : q = word (heapBase + extent 16 l + 16)
    · subst hq
      simp only [Function.update_self]
      constructor
      · rintro heq
        exact ⟨_, hnew, rfl, heq⟩
      · rintro ⟨x, hx, hp, hk⟩
        rw [← owned_inj hrep hnew hx hp] at hk
        exact hk
    · simp only [Function.update_of_ne hq, h.live]
      constructor
      · rintro ⟨x, hx, hp, hk⟩
        exact ⟨x, hold hx, hp, hk⟩
      · rintro ⟨x, hx, hp, hk⟩
        rcases (owned_take hc ho (aligned_mod n) (le_aligned n) hfit).mp hx with rfl | hx
        · exact absurd hp hq
        · exact ⟨x, by rwa [hM.owned] at hx, hp, hk⟩

theorem Held.after_kmalloc (h : Held σ L) (hw : NoWrap n) (hr : KmallocReturns P σ.heap n t p)
    (hs : Roomy (aligned n) L ∨ ¬Past t) :
    (p ≠ 0 → σ.live p = none) ∧ Kept L σ.heap.mem t.mem ∧ ∃ M L', Grown (aligned n) L M ∧
    L'.length = M.length ∧
      Held ⟨t, if p = 0 then σ.live else Function.update σ.live p (some n)⟩ L' := by
  obtain ⟨M, hM, hkept, ⟨hp, hrep⟩ | ht⟩ := kmalloc_served h.heap hw hr hs
  · simp only at hp
    subst hp
    refine ⟨fun h0 => absurd rfl h0, hkept, M, M, hM, rfl, hrep, ?_⟩
    simpa only [hM.owned, ↓reduceIte] using h.live
  · obtain ⟨hfresh, hp, L', hlen, hheld⟩ := h.taken hM ht
    refine ⟨fun _ => hfresh, hkept, M, L', hM, hlen, ?_⟩
    rwa [if_neg hp]

theorem owned_release {l r : List Block} {c : Block} (h : Represents s L) (hc : L.cells = l ++ c :: r)
    (ho : c.owner.isSome) : owned 16 heapBase (L.release hc).cells =
      (owned 16 heapBase L.cells).filter fun x => word (x.1 + 16) ≠ word (heapBase + extent 16 l + 16) := by
  have hmem : (heapBase + extent 16 l, c) ∈ owned 16 heapBase L.cells :=
    (mem_owned 16).mpr ⟨l, r, hc, ho, rfl⟩
  have hb := owned_bound h hmem
  rw [Layout.release_cells, owned_freed 16 (by omega) ho, ← hc]
  apply List.filter_congr
  intro x hx
  have hbx := owned_bound h hx
  have heq : word (x.1 + 16) = word (heapBase + extent 16 l + 16) ↔ x.1 = heapBase + extent 16 l := by
    rw [word_inj (by omega) (by omega)]
    omega
  simp only [ne_eq, heq]

theorem Held.after_kfree (h : Held σ L) (hp : (σ.live p).isSome) :
    Kept L σ.heap.mem (kfree σ.heap p).mem ∧
      ∃ L', L'.length = L.length ∧
        owned 16 heapBase L'.cells = (owned 16 heapBase L.cells).filter (fun x => word (x.1 + 16) ≠ p) ∧
        Held ⟨kfree σ.heap p, Function.update σ.live p none⟩ L' := by
  obtain ⟨n, hn⟩ := Option.isSome_iff_exists.mp hp
  obtain ⟨y, hy, rfl, -⟩ := (h.live p n).mp hn
  obtain ⟨l, r, hc, ho, hy1⟩ := (mem_owned 16).mp hy
  obtain ⟨hrep, hoff⟩ := kfree_represents h.heap hc ho
  have howned := owned_release h.heap hc ho
  rw [← hy1] at hrep hoff howned
  have hrest {x : ℕ × Block} : x ∈ owned 16 heapBase (L.release hc).cells ↔
      x ∈ owned 16 heapBase L.cells ∧ word (x.1 + 16) ≠ word (y.1 + 16) := by
    rw [howned, List.mem_filter, decide_eq_true_iff]
  refine ⟨fun x hx z hz hz' => hoff z (owned_offHeaders hx hz hz'), _, length_release hc, howned,
    hrep, fun q k => ?_⟩
  by_cases hq : q = word (y.1 + 16)
  · subst hq
    simp only [Function.update_self]
    constructor
    · intro heq; cases heq
    · rintro ⟨x, hx, hq, -⟩
      exact absurd hq.symm (hrest.mp hx).2
  · simp only [Function.update_of_ne hq, h.live]
    constructor
    · rintro ⟨x, hx, rfl, hk⟩
      exact ⟨x, hrest.mpr ⟨hx, hq⟩, rfl, hk⟩
    · rintro ⟨x, hx, hqx, hk⟩
      exact ⟨x, (hrest.mp hx).1, hqx, hk⟩

theorem Held.payload (h : Held σ L) (hp : σ.live p = some n) :
    ∃ x ∈ owned 16 heapBase L.cells, p = word (x.1 + 16) ∧ x.2.owner = some n ∧ p.toNat = x.1 + 16 ∧
      n.toNat ≤ x.2.size := by
  obtain ⟨x, hx, rfl, hn⟩ := (h.live p n).mp hp
  obtain ⟨l, r, hc, -, -⟩ := (mem_owned 16).mp hx
  have hsized := (L.sized x.2 (by simp [hc])).2 n hn
  have hb := owned_bound h.heap hx
  exact ⟨x, hx, rfl, hn, toNat_word (by omega), hsized⟩

theorem Held.after_write (h : Held σ L) (hp : σ.live p = some n) {a : Word} {v : Byte}
    (ha : InPayload p n a) :
    Held ⟨{ σ.heap with mem := storeByte σ.heap.mem a v }, σ.live⟩ L := by
  obtain ⟨x, hx, -, -, hpx, hn⟩ := h.payload hp
  obtain ⟨ha, ha'⟩ := ha
  have hoff := owned_offHeaders hx (z := a) (by omega) (by omega)
  obtain ⟨hrep, hlive⟩ := h
  refine ⟨⟨hrep.head, hrep.firstFree, hrep.tail, hrep.total, ?_, hrep.pages, hrep.bound⟩, hlive⟩
  have hbound := hrep.bound
  rw [Layout.length] at hbound
  apply hrep.chain.of_headers
  intro l r hl
  have := hoff l r hl
  have hext : extent 16 L.cells = extent 16 l + extent 16 r := by rw [hl, extent_append]
  refine kmemptr_congr (by omega) fun z hz hz' => storeByte_miss ?_
  rintro rfl
  omega

theorem step_held (h : Held σ L) (hstep : Step P Sane σ e τ) : ∃ L', Held τ L' := by
  cases hstep with
  | kmalloc hr hs =>
    obtain ⟨-, -, M, L', -, -, hL'⟩ := h.after_kmalloc hs.1 hr (Or.inr hs.2)
    exact ⟨L', hL'⟩
  | kfree hp =>
    obtain ⟨-, L', -, -, hL'⟩ := h.after_kfree hp
    exact ⟨L', hL'⟩
  | write hp ha => exact ⟨L, h.after_write hp ha⟩

theorem run_held (h : Held σ L) (hrun : Run (Step P Sane) σ es τ) : ∃ L', Held τ L' := by
  exact hrun.invariant (fun σ => ∃ L, Held σ L) (fun _ _ _ ⟨_, h⟩ hs => step_held h hs) ⟨L, h⟩

theorem Reachable.held (h : Reachable P Sane σ) : ∃ L, Held σ L := by
  obtain ⟨m, es, hrun⟩ := h
  exact run_held (held_start P m) hrun

theorem Step.mono {ok' : Kmem → Word → Kmem → Prop} (hok : ∀ s n t, ok s n t → ok' s n t)
    (h : Step P ok σ e τ) : Step P ok' σ e τ := by
  cases h with
  | kmalloc hr hs => exact .kmalloc hr (hok _ _ _ hs)
  | kfree hp => exact .kfree hp
  | write hp ha => exact .write hp ha

theorem Windowed.sane (h : Windowed s n t) : Sane s n t := ⟨h.1, h.2.not_past⟩

theorem Reachable.sane (h : Reachable P Windowed σ) : Reachable P Sane σ := by
  obtain ⟨m, es, hrun⟩ := h
  exact ⟨m, es, hrun.mono fun _ _ _ hs => hs.mono fun _ _ _ => Windowed.sane⟩

theorem kfree_pages (s : Kmem) (p : Word) : (kfree s p).pages = s.pages := by
  simp only [kfree]
  split_ifs <;> rfl

theorem Reachable.inWindow (h : Reachable P Windowed σ) : InWindow σ.heap := by
  obtain ⟨m, es, hrun⟩ := h
  refine hrun.invariant (fun σ => InWindow σ.heap) (fun σ e τ hσ hs => ?_) ?_
  · cases hs with
    | kmalloc _ hok => exact hok.2
    | kfree _ => simpa only [InWindow, kfree_pages] using hσ
    | write _ _ => exact hσ
  · intro v hv
    simp only [Session.start, kmemInit, List.mem_singleton] at hv
    subst hv
    decide

theorem Represents.inWindow_iff (h : Represents s L) : InWindow s ↔ L.length ≤ 0x10000000 := by
  have hbase := heapBase_eq
  have hbound := h.bound
  have hmod := L.length_mod
  have hlen : L.length = extent 16 L.cells + 16 := by rw [Layout.length]
  have hstart : kernelHeapStart.toNat = 0xD0000000 := rfl
  have hend : kernelHeapEnd.toNat = 0xE0000000 := rfl
  constructor
  · intro hw
    have hlast := (h.pages (word (heapBase + (L.length / 4096 - 1) * 4096))).mpr ⟨_, by omega, rfl⟩
    have := (hw _ hlast).2
    rw [BitVec.lt_def, hend, toNat_word (by omega)] at this
    omega
  · intro hL v hv
    obtain ⟨k, hk, rfl⟩ := (h.pages v).mp hv
    rw [BitVec.le_def, BitVec.lt_def, hstart, hend, toNat_word (by omega)]
    omega

theorem Layout.extent_mod {l r : List Block} (hc : L.cells = l ++ r) : extent 16 l % 16 = 0 := by
  induction l using List.reverseRecOn generalizing r with
  | nil => rfl
  | append_singleton l c ih =>
    have hl := ih (r := c :: r) (by rw [hc]; simp)
    have hsize := (L.sized c (by simp [hc])).1
    simp only [extent_append, extent_cons, extent_nil]
    omega

theorem Held.aligned (h : Held σ L) (hp : σ.live p = some n) : p.toNat % 16 = 0 := by
  have hbase := heapBase_eq
  obtain ⟨x, hx, -, -, hpx, -⟩ := h.payload hp
  obtain ⟨l, r, hc, -, hx⟩ := (mem_owned 16).mp hx
  have := L.extent_mod hc
  omega

theorem kmalloc_live (h : Step P ok σ (.kmalloc n p) τ) : p = 0 ∨ τ.live p = some n := by
  cases h
  by_cases hp : p = 0
  · exact Or.inl hp
  · exact Or.inr (by simp only [if_neg hp, Function.update_self])

def zeroPages : PageMap where
  allocMapPage virt _ m := fun z => if virt ≤ z ∧ z - virt < pageSize then 0 else m z
  below virt _ m z _ hz _ := by
    have : ¬virt ≤ z := by rw [BitVec.not_le]; exact hz
    simp [this]

theorem init_serves (P : PageMap) (m : Mem) (n : Word) (hn : aligned n + 16 < 0xFE0) :
    ∃ t, KmallocReturns P (kmemInit P m) n t (word (heapBase + 16)) ∧ t.pages = [0xD0000000] := by
  have hlen : Layout.initial.length = 4096 := by rw [Layout.length]; rfl
  obtain ⟨t, ht, hpages, -⟩ := kmalloc_fit (P := P) (n := n) (l := []) (kmemInit_represents P m) (by omega)
    (by rw [NoWrap]; omega) rfl (by simp) ⟨rfl, hn⟩
  exact ⟨t, ht, hpages⟩

theorem alloc_reachable (ok : Kmem → Word → Kmem → Prop)
    (hok : ∀ t, t.pages = [0xD0000000] → ok (kmemInit zeroPages fun _ => 0) 16 t) :
    ∃ σ p, Reachable zeroPages ok σ ∧ σ.live p = some 16 := by
  obtain ⟨t, ht, hpages⟩ := init_serves zeroPages (fun _ => 0) 16 (by decide)
  have hp : word (heapBase + 16) ≠ 0 := by rw [heapBase_eq]; decide
  refine ⟨_, word (heapBase + 16), ⟨fun _ => 0, _, .cons (.kmalloc ht (hok t hpages)) (.nil _)⟩, ?_⟩
  simp only [if_neg hp, Function.update_self]

theorem two_reachable (ok : Kmem → Word → Kmem → Prop) {k : Word}
    (hn : aligned n + 16 + (aligned k + 16) < 0xFE0)
    (hok : ∀ s t M x, x = n ∨ x = k → Represents s M → (∃ c ∈ M.cells, Fits (aligned x) c) →
      t.pages = [0xD0000000] → ok s x t) :
    ∃ σ p q L, Reachable zeroPages ok σ ∧ p ≠ q ∧ σ.live p = some n ∧ σ.live q = some k ∧
      (∀ x, x ≠ p → x ≠ q → σ.live x = none) ∧ p = word (heapBase + 16) ∧
      σ.heap.totalLength = 0x1000 ∧ Represents σ.heap L ∧
      L.cells = [⟨aligned n, some n⟩, ⟨aligned k, some k⟩,
      ⟨0xFE0 - (aligned n + 16) - (aligned k + 16), none⟩] := by
  have hbase := heapBase_eq
  have hlen : Layout.initial.length = 4096 := by rw [Layout.length]; rfl
  have hcells : Layout.initial.cells = [] ++ ⟨0xFE0, none⟩ :: [] := rfl
  have hfit : Fits (aligned n) ⟨0xFE0, none⟩ := ⟨rfl, by simp only; omega⟩
  have hinit := kmemInit_represents zeroPages fun _ => 0
  obtain ⟨t, ht, hpages, htotal, hrep⟩ := kmalloc_fit (P := zeroPages) hinit (by omega)
    (by rw [NoWrap]; omega) hcells (by simp) hfit
  have hlen' := length_take hcells hfit.1 (aligned_mod n) (le_aligned n) hfit.2
  have hcells' := Layout.initial.take_cells hcells hfit.1 (aligned_mod n) (le_aligned n) hfit.2
  have hfit' : Fits (aligned k) ⟨0xFE0 - (aligned n + 16), none⟩ := ⟨rfl, by simp only; omega⟩
  obtain ⟨u, hu, hpages', htotal', hrep'⟩ := kmalloc_fit (P := zeroPages) (n := k)
    (l := [⟨aligned n, some n⟩]) hrep
    (by omega) (by rw [NoWrap]; omega) hcells' (by simp [Fits]) hfit'
  simp only [extent_cons, extent_nil, Nat.add_zero] at ht hu
  have hp : word (heapBase + 16) ≠ 0 := by
    rw [show (0 : Word) = word 0 from rfl, ne_eq, word_inj (by omega) (by omega)]
    omega
  have hq : word (heapBase + (16 + aligned n) + 16) ≠ 0 := by
    rw [show (0 : Word) = word 0 from rfl, ne_eq, word_inj (by omega) (by omega)]
    omega
  have hpq : word (heapBase + 16) ≠ word (heapBase + (16 + aligned n) + 16) := by
    rw [ne_eq, word_inj (by omega) (by omega)]
    omega
  have hfirst : ok (kmemInit zeroPages fun _ => 0) n t :=
    hok _ t _ n (.inl rfl) hinit ⟨_, by simp [hcells], hfit⟩ hpages
  have hsecond : ok t k u := hok t u _ k (.inr rfl) hrep ⟨_, by simp [hcells'], hfit'⟩ (hpages'.trans hpages)
  refine ⟨_, _, _, _, ⟨fun _ => 0, _, .cons (.kmalloc ht hfirst)
    (.cons (.kmalloc hu hsecond) (.nil _))⟩, hpq, ?_, ?_,
    fun x hxp hxq => ?_, rfl, ?_, hrep', ?_⟩
  · simp only [if_neg hp, if_neg hq, Function.update_of_ne hpq, Function.update_self]
  · simp only [if_neg hq, Function.update_self]
  · simp only [if_neg hp, if_neg hq, Function.update_of_ne hxp, Function.update_of_ne hxq]
    rfl
  · exact htotal'.trans htotal
  · rw [Layout.take_cells]
    rfl

theorem windowed_page {s t : Kmem} (hw : NoWrap n) (ht : t.pages = [0xD0000000]) : Windowed s n t := by
  refine ⟨hw, fun v hv => ?_⟩
  rw [ht, List.mem_singleton] at hv
  subst hv
  decide

theorem windowed_16 {s t : Kmem} (ht : t.pages = [0xD0000000]) : Windowed s 16 t :=
  windowed_page (by decide) ht

theorem two_windowed : ∃ σ p q L, Reachable zeroPages Windowed σ ∧ p ≠ q ∧ σ.live p = some 16 ∧
    σ.live q = some 16 ∧
    (∀ x, x ≠ p → x ≠ q → σ.live x = none) ∧ p = word (heapBase + 16) ∧ σ.heap.totalLength = 0x1000 ∧
    Represents σ.heap L ∧ L.cells = [⟨16, some 16⟩, ⟨16, some 16⟩, ⟨0xFA0, none⟩] := by
  refine two_reachable Windowed (n := 16) (k := 16) (by decide) fun s t M x hx _ _ ht => ?_
  rcases hx with rfl | rfl <;> exact windowed_16 ht

end Rinix.Heap
