import Rinix.Heap.WellFormed

namespace Rinix.Heap

open ByteMemory Tiling WhileLoop Runs

variable {P : PageMap} {ok : Kmem → Word → Kmem → Prop} {s t : Kmem} {σ τ : Session} {L M : Layout}
  {n k p q z : Word} {e : Event} {es : List Event}

theorem Held.payload_mem (h : Held σ L) (hp : σ.live p = some n) (hz : InPayload p n z) :
    ∃ x ∈ owned 16 heapBase L.cells, p = word (x.1 + 16) ∧ x.1 + 16 ≤ z.toNat ∧
      z.toNat < x.1 + 16 + x.2.size := by
  obtain ⟨x, hx, hpx, -, hpn, hn⟩ := h.payload hp
  obtain ⟨hz, hz'⟩ := hz
  exact ⟨x, hx, hpx, by omega, by omega⟩

theorem Held.payload_disjoint (h : Held σ L) (hp : σ.live p = some n) (hq : σ.live q = some k) (hpq : p ≠ q)
    (hz : InPayload p n z) : ¬InPayload q k z := by
  intro hz'
  obtain ⟨x, hx, rfl, hx1, hx2⟩ := h.payload_mem hp hz
  obtain ⟨y, hy, rfl, hy1, hy2⟩ := h.payload_mem hq hz'
  rcases owned_disjoint 16 hx hy with heq | hxy | hxy
  · rw [heq] at hpq
    exact hpq rfl
  · omega
  · omega

theorem Held.payload_off_headers (h : Held σ L) (hp : σ.live p = some n) (hz : InPayload p n z) {i : ℕ}
    (hi : i ≤ L.cells.length) :
    z.toNat < (block σ.heap i).toNat ∨ (block σ.heap i).toNat + 16 ≤ z.toNat := by
  have hbase := heapBase_eq
  have hbound := h.heap.bound
  rw [Layout.length] at hbound
  obtain ⟨x, hx, -, hx1, hx2⟩ := h.payload_mem hp hz
  have hsplit : L.cells = L.cells.take i ++ L.cells.drop i := (List.take_append_drop i _).symm
  have hlen : (L.cells.take i).length = i := by rw [List.length_take]; omega
  have hblock := block_at h.heap hsplit
  have hext : extent 16 L.cells = extent 16 (L.cells.take i) + extent 16 (L.cells.drop i) := by
    rw [← extent_append, ← hsplit]
  rw [hlen] at hblock
  rw [hblock, toNat_word (by omega)]
  exact owned_offHeaders hx hx1 hx2 _ _ hsplit

def Spares (p n : Word) : Event → Prop
  | .kmalloc _ _ => True
  | .kfree q => q ≠ p
  | .write a _ => ¬InPayload p n a

theorem step_keeps (h : Held σ L) (hp : σ.live p = some n) (he : Spares p n e) (hstep : Step P Sane σ e τ) :
    τ.live p = some n ∧ ∀ z, InPayload p n z → τ.heap.mem z = σ.heap.mem z := by
  cases hstep with
  | kmalloc hr hs =>
    obtain ⟨hfresh, hkept, -⟩ := h.after_kmalloc hs.1 hr (Or.inr hs.2)
    refine ⟨?_, fun z hz => ?_⟩
    · split_ifs with hq
      · exact hp
      · refine Eq.trans (Function.update_of_ne ?_ _ _) hp
        rintro rfl
        rw [hfresh hq] at hp
        cases hp
    · obtain ⟨x, hx, -, hx1, hx2⟩ := h.payload_mem hp hz
      exact hkept x hx z hx1 hx2
  | kfree hq =>
    obtain ⟨hkept, -⟩ := h.after_kfree hq
    refine ⟨(Function.update_of_ne (Ne.symm he) _ _).trans hp, fun z hz => ?_⟩
    obtain ⟨x, hx, -, hx1, hx2⟩ := h.payload_mem hp hz
    exact hkept x hx z hx1 hx2
  | write _ ha =>
    refine ⟨hp, fun z hz => storeByte_miss ?_⟩
    rintro rfl
    exact he hz

theorem run_keeps (h : Held σ L) (hp : σ.live p = some n) (hes : ∀ e ∈ es, Spares p n e)
    (hrun : Run (Step P Sane) σ es τ) :
    τ.live p = some n ∧ ∀ z, InPayload p n z → τ.heap.mem z = σ.heap.mem z := by
  have hinv := hrun.invariant_on
    (fun τ => (∃ L, Held τ L) ∧ τ.live p = some n ∧ ∀ z, InPayload p n z → τ.heap.mem z = σ.heap.mem z)
    (Spares p n) ?_ hes ⟨⟨L, h⟩, hp, fun _ _ => rfl⟩
  · exact hinv.2
  · rintro υ e τ ⟨⟨M, hM⟩, hυ, hmem⟩ he hstep
    obtain ⟨hτ, hkeep⟩ := step_keeps hM hυ he hstep
    exact ⟨step_held hM hstep, hτ, fun z hz => (hkeep z hz).trans (hmem z hz)⟩

theorem turn_keeps (h : Held σ L) (hp : σ.live p = some n) (hw : NoWrap k) {u : Kmem × Word}
    (hv : Visits (kmallocTurn P (alignBlock k)) (σ.heap, σ.heap.firstFree) u) (hu : ¬Past u.1)
    (hz : InPayload p n z) : u.1.mem z = σ.heap.mem z := by
  obtain ⟨x, hx, -, hx1, hx2⟩ := h.payload_mem hp hz
  obtain ⟨M, l, r, -, -, hkept, -⟩ := kmalloc_scanning h.heap hw hv (Or.inr hu)
  exact hkept x hx z hx1 hx2

theorem morecore_keeps (h : Held σ L) (hp : σ.live p = some n) (hu : ¬Past (kmemMorecore P k σ.heap))
    (hz : InPayload p n z) : (kmemMorecore P k σ.heap).mem z = σ.heap.mem z := by
  obtain ⟨x, hx, -, hx1, hx2⟩ := h.payload_mem hp hz
  have hroom : heapBase + L.length + k.toNat * 4096 ≤ 0xFFC00000 := by
    by_contra hover
    exact hu (morecore_past_window h.heap (by omega))
  exact (morecore_represents h.heap k.toNat hroom).2 x hx z hx1 hx2

/-- Live payloads are disjoint from each other and from all headers, and no run that does not free a
pointer or write through it changes what it points to. -/
theorem reachable_ownership (h : Reachable P Windowed σ) :
    (∀ p q n k z, σ.live p = some n → σ.live q = some k → p ≠ q → InPayload p n z → ¬InPayload q k z) ∧
    (∃ N, WellFormed σ.heap N ∧ ∀ p n z, σ.live p = some n → InPayload p n z → ∀ i ≤ N,
      z.toNat < (block σ.heap i).toNat ∨ (block σ.heap i).toNat + 16 ≤ z.toNat) ∧
    ∀ p n, σ.live p = some n →
      (∀ es τ, Run (Step P Windowed) σ es τ → (∀ e ∈ es, Spares p n e) →
        τ.live p = some n ∧ ∀ z, InPayload p n z → τ.heap.mem z = σ.heap.mem z) ∧
      (∀ k, InWindow (kmemMorecore P k σ.heap) →
        ∀ z, InPayload p n z → (kmemMorecore P k σ.heap).mem z = σ.heap.mem z) ∧
      ∀ k u, NoWrap k → Visits (kmallocTurn P (alignBlock k)) (σ.heap, σ.heap.firstFree) u → InWindow u.1 →
        ∀ z, InPayload p n z → u.1.mem z = σ.heap.mem z := by
  obtain ⟨L, hL⟩ := h.sane.held
  refine ⟨fun p q n k z hp hq hpq hz => hL.payload_disjoint hp hq hpq hz,
    ⟨_, hL.heap.wellFormed, fun p n z hp hz i hi => hL.payload_off_headers hp hz hi⟩,
    fun p n hp => ⟨?_, ?_, ?_⟩⟩
  · intro es τ hrun hes
    exact run_keeps hL hp hes (hrun.mono fun _ _ _ hs => hs.mono fun _ _ _ => Windowed.sane)
  · intro k hk z hz
    exact morecore_keeps hL hp hk.not_past hz
  · intro k u hk hv hu z hz
    exact turn_keeps hL hp hk hv hu.not_past hz

theorem alloc_ownership : ∃ σ : Session, ∃ p, σ.live p = some 16 ∧
    ∀ es τ, Run (Step zeroPages Windowed) σ es τ → (∀ e ∈ es, Spares p 16 e) →
      τ.live p = some 16 ∧ ∀ z, InPayload p 16 z → τ.heap.mem z = σ.heap.mem z := by
  obtain ⟨σ, p, h, hp⟩ := alloc_reachable Windowed fun _ => windowed_16
  exact ⟨σ, p, hp, ((reachable_ownership h).2.2 p 16 hp).1⟩

end Rinix.Heap
