import Rinix.Heap.Represents

namespace Rinix.Heap

open ByteMemory Tiling

variable {m : Mem} {q x y : ℕ} {l r : List Block} {c d : Block} {z : Word}

theorem free_ne_used : kmemFree ≠ kmemUsed := by decide

theorem tail_ne_free : kmemTail ≠ kmemFree := by decide

theorem mergeNext_cases (h : Chain m q x (c :: r)) :
    (mergeNext m (word x) = m ∧ freeCons 16 c.size r = ⟨c.size, none⟩ :: r) ∨
    ∃ d r', r = d :: r' ∧ mergeNext m (word x) = eatNext m (word x) ∧
      freeCons 16 c.size r = ⟨c.size + 16 + d.size, none⟩ :: r' := by
  cases r with
  | nil =>
    have ht : kmemptr m (word (x + 16 + c.size)) = tailHeader x (x + 16 + c.size) := h.2
    refine Or.inl ⟨?_, rfl⟩
    simp only [mergeNext, kmemptrNext_of_cell h.1, ht, tailHeader, tail_ne_free, false_and, ↓reduceIte]
  | cons d r =>
    have hd := h.2.1
    by_cases hfree : d.owner.isSome
    · refine Or.inl ⟨?_, by simp [freeCons, hfree]⟩
      simp only [mergeNext, kmemptrNext_of_cell h.1, hd, cellHeader, flagOf_used hfree,
        free_ne_used.symm, false_and, ↓reduceIte]
    · refine Or.inr ⟨d, r, rfl, ?_, by simp [freeCons, hfree]⟩
      simp only [mergeNext, kmemptrNext_of_cell h.1, hd, cellHeader,
        flagOf_free (Option.not_isSome_iff_eq_none.mp hfree), tail_ne_free.symm, ne_eq, not_false_eq_true,
        and_self, ↓reduceIte]

theorem mergeNext_chain (h : Chain m q x (c :: r)) (hx : x + extent 16 (c :: r) + 16 ≤ 4294967296) :
    ∃ b t r', Chain (mergeNext m (word x)) q x (b :: r') ∧ c :: r = t ++ r' ∧
      extent 16 t = 16 + b.size ∧ freeCons 16 c.size r = ⟨b.size, none⟩ :: r' := by
  rcases mergeNext_cases h with ⟨hm, hcells⟩ | ⟨d, r, rfl, hm, hcells⟩
  · exact ⟨c, [c], r, by rwa [hm], rfl, by simp, hcells⟩
  · refine ⟨⟨c.size + 16 + d.size, none⟩, [c, d], r, ?_, rfl, ?_, hcells⟩
    · rw [hm]
      exact eatNext_chain h hx
    · simp only [extent_cons, extent_nil]
      omega

theorem leaveAlone_chain (h : Chain m q x (c :: r)) (hx : x + extent 16 (c :: r) + 16 ≤ 4294967296) :
    Chain (leaveAlone m (word x)) q x (⟨c.size, none⟩ :: r) := by
  by_cases ho : c.owner.isSome
  · have hm : leaveAlone m (word x) = setFlags m (word x) kmemFree := by
      simp only [leaveAlone, h.1, cellHeader, flagOf_used ho, ↓reduceIte]
    rw [hm]
    exact setFlags_chain h hx
  · have hnone := Option.not_isSome_iff_eq_none.mp ho
    have hm : leaveAlone m (word x) = m := by
      simp only [leaveAlone, h.1, cellHeader, flagOf_free hnone, free_ne_used, ↓reduceIte]
    rw [hm, show (⟨c.size, none⟩ : Block) = c by ext <;> simp [hnone]]
    exact h

theorem mergeNext_off (h : Chain m q x (c :: r)) (hx : x + extent 16 (c :: r) + 16 ≤ 4294967296)
    (hz : OffHeaders x (c :: r) z) : mergeNext m (word x) z = m z := by
  rcases mergeNext_cases h with ⟨hm, -⟩ | ⟨d, r, rfl, hm, -⟩
  · rw [hm]
  · have h0 := hz [] (c :: d :: r) rfl
    have h2 := hz [c, d] r rfl
    simp only [extent_cons, extent_nil] at h0 h2 hx
    rw [hm]
    exact eatNext_off h.1 h.2.1 (by omega) (by omega) (by omega)

theorem leaveAlone_off (hx : x + 16 ≤ 4294967296) (hz : z.toNat < x ∨ x + 16 ≤ z.toNat) :
    leaveAlone m (word x) z = m z := by
  unfold leaveAlone
  split_ifs
  · exact setFlags_off hx hz
  · rfl

theorem mergePrev_self : mergePrev m (word x) (word x) = m := by simp [mergePrev]

theorem mergePrev_used (h : kmemptr m (word y) = cellHeader q y d) (ho : d.owner.isSome) :
    mergePrev m (word y) (word x) = m := by
  simp only [mergePrev, h, cellHeader, flagOf_used ho, free_ne_used.symm, false_and, ↓reduceIte]

theorem mergePrev_free (h : kmemptr m (word y) = cellHeader q y d) (ho : d.owner = none)
    (hx : y + 16 + d.size < 4294967296) :
    mergePrev m (word y) (word (y + 16 + d.size)) = eatenByPrev m (word y) (word (y + 16 + d.size)) := by
  have hne : word y ≠ word (y + 16 + d.size) := by
    rw [ne_eq, word_inj (by omega) hx]
    omega
  simp only [mergePrev, h, cellHeader, flagOf_free ho, ne_eq, hne, not_false_eq_true, and_self, ↓reduceIte]

def freed (m : Mem) (scratch : Word) : Mem :=
  leaveAlone (mergePrev (mergeNext m scratch) (kmemptr m scratch).prev scratch) scratch

theorem kfree_eq {s : Kmem} (h : kmemptr s.mem (word x) = cellHeader q x c) (ho : c.owner.isSome) :
    kfree s (word (x + 16)) = { s with mem := freed s.mem (word x) } := by
  have hx : word (x + 16) - sizeofKmemptr = word x := by
    rw [sizeofKmemptr_eq, word_sub (by omega)]
    exact congrArg word (by omega)
  simp only [kfree, hx, h, cellHeader, flagOf_used ho, ↓reduceIte, freed]

theorem freed_chain (h : Chain m q x (c :: r)) (hx : x + extent 16 (c :: r) + 16 ≤ 4294967296)
    (hprev : mergePrev (mergeNext m (word x)) (word q) (word x) = mergeNext m (word x)) :
    Chain (freed m (word x)) q x (freeCons 16 c.size r) := by
  obtain ⟨b, t, r', hb, ht, hext, hr⟩ := mergeNext_chain h hx
  rw [ht, extent_append] at hx
  have hp : (kmemptr m (word x)).prev = word q := h.prev_head
  simp only [freed, hp, hprev]
  rw [hr]
  exact leaveAlone_chain hb (by simp only [extent_cons]; omega)

theorem freed_off (h : Chain m q x (c :: r)) (hx : x + extent 16 (c :: r) + 16 ≤ 4294967296)
    (hprev : mergePrev (mergeNext m (word x)) (word q) (word x) = mergeNext m (word x))
    (hz : OffHeaders x (c :: r) z) : freed m (word x) z = m z := by
  have hp : (kmemptr m (word x)).prev = word q := h.prev_head
  simp only [freed, hp, hprev]
  rw [leaveAlone_off (by simp only [extent_cons] at hx; omega) hz.start, mergeNext_off h hx hz]

theorem mergeNext_behind (h : Chain m q y (d :: c :: r))
    (hx : y + extent 16 (d :: c :: r) + 16 ≤ 4294967296) :
    kmemptr (mergeNext m (word (y + 16 + d.size))) (word y) = cellHeader q y d := by
  have hbound : y + 16 + d.size + extent 16 (c :: r) + 16 ≤ 4294967296 := by
    rw [extent_cons] at hx; omega
  refine Eq.trans (kmemptr_congr (by omega) fun z _ _ => ?_) h.1
  exact mergeNext_off h.2 hbound (OffHeaders.of_lt (by omega))

section Behind

variable (h : Chain m q y (d :: c :: r)) (hd : d.owner = none)
  (hx : y + extent 16 (d :: c :: r) + 16 ≤ 4294967296)

include h hd hx

theorem freed_behind_eq :
    freed m (word (y + 16 + d.size)) =
      leaveAlone (eatenByPrev (mergeNext m (word (y + 16 + d.size))) (word y) (word (y + 16 + d.size)))
        (word (y + 16 + d.size)) := by
  have hy := mergeNext_behind h hx
  have hp : (kmemptr m (word (y + 16 + d.size))).prev = word y := h.2.prev_head
  simp only [extent_cons] at hx
  simp only [freed, hp]
  rw [mergePrev_free hy hd (by omega)]

theorem freed_behind_chain :
    Chain (freed m (word (y + 16 + d.size))) q y (freeCons 16 (d.size + 16 + c.size) r) := by
  have heq := freed_behind_eq h hd hx
  have hy := mergeNext_behind h hx
  have hbound : y + 16 + d.size + extent 16 (c :: r) + 16 ≤ 4294967296 := by
    rw [extent_cons] at hx; omega
  obtain ⟨b, t, r', hb, ht, hext, hr⟩ := mergeNext_chain h.2 hbound
  have hlen : y + extent 16 (d :: b :: r') + 16 ≤ 4294967296 := by
    rw [ht, extent_append] at hbound
    simp only [extent_cons]
    omega
  have hjoin : freeCons 16 (d.size + 16 + c.size) r = ⟨d.size + 16 + b.size, none⟩ :: r' := by
    rw [← freeCons_freeCons, hr]
    simp [freeCons]
  obtain ⟨hmerged, hrest⟩ := eatenByPrev_chain (r := r') hd ⟨hy, hb⟩ hlen
  simp only [extent_cons] at hlen
  rw [heq, hjoin]
  -- the flag byte that is cleared last now lies inside the joined cell
  refine ⟨Eq.trans ?_ hmerged, hrest.congr ?_⟩
  · exact kmemptr_congr (by omega) fun z _ _ => leaveAlone_off (by omega) (by omega)
  · intro w hw hw'
    simp only at hw hw'
    exact kmemptr_congr (by omega) fun z _ _ => leaveAlone_off (by omega) (by omega)

theorem freed_behind_off (hz : OffHeaders y (d :: c :: r) z) :
    freed m (word (y + 16 + d.size)) z = m z := by
  have heq := freed_behind_eq h hd hx
  have hy := mergeNext_behind h hx
  have hbound : y + 16 + d.size + extent 16 (c :: r) + 16 ≤ 4294967296 := by
    rw [extent_cons] at hx; omega
  have hzx : OffHeaders (y + 16 + d.size) (c :: r) z := by
    have := OffHeaders.suffix (l := [d]) (r := c :: r) hz
    simpa only [extent_cons, extent_nil, Nat.add_zero, ← Nat.add_assoc] using this
  obtain ⟨b, t, r', hb, ht, hext, -⟩ := mergeNext_chain h.2 hbound
  have h0 := hz.start
  have h1 := hzx.start
  have h2 := (OffHeaders.suffix (l := t) (r := r') (ht ▸ hzx)).start
  rw [ht, extent_append] at hbound
  rw [heq, leaveAlone_off (by omega) h1, eatenByPrev_off hy hb.1 (by omega) h0 (by omega),
    mergeNext_off h.2 (by rw [ht, extent_append]; omega) hzx]

end Behind

theorem freed_release {a : ℕ} {cs : List Block} (h : Chain m a a cs) (hcs : cs = l ++ c :: r)
    (hs : Settled cs) (hx : a + extent 16 cs + 16 ≤ 4294967296) :
    Chain (freed m (word (a + extent 16 l))) a a (coalesce 16 (l ++ ⟨c.size, none⟩ :: r)) ∧
      ∀ z, OffHeaders a cs z → freed m (word (a + extent 16 l)) z = m z := by
  subst hcs
  rw [extent_append] at hx
  rcases List.eq_nil_or_concat l with rfl | ⟨l', d, rfl⟩
  · have hprev : mergePrev (mergeNext m (word a)) (word a) (word a) = mergeNext m (word a) := mergePrev_self
    rw [coalesce_freed 16 hs (by simp)]
    simp only [extent_nil, Nat.add_zero, List.nil_append] at h hx ⊢
    exact ⟨freed_chain h (by omega) hprev, fun z hz => freed_off h (by omega) hprev hz⟩
  · rw [List.concat_eq_append] at *
    have hcs : l' ++ [d] ++ c :: r = l' ++ d :: c :: r := by simp
    rw [hcs] at h hs ⊢
    obtain ⟨hl, hd⟩ := chain_append.mp h
    have hlen : a + extent 16 l' + extent 16 (d :: c :: r) + 16 ≤ 4294967296 := by
      simp only [extent_append, extent_cons, extent_nil] at hx ⊢; omega
    have hx' : a + extent 16 (l' ++ [d]) = a + extent 16 l' + 16 + d.size := by
      simp only [extent_append, extent_cons, extent_nil]; omega
    rw [hx']
    by_cases ho' : d.owner.isSome
    · have hprev := mergePrev_used (x := a + extent 16 l' + 16 + d.size) (mergeNext_behind hd hlen) ho'
      have hbound : a + extent 16 l' + 16 + d.size + extent 16 (c :: r) + 16 ≤ 4294967296 := by
        rw [extent_cons] at hlen; omega
      have hoff (z : Word) (hz : OffHeaders (a + extent 16 l' + 16 + d.size) (c :: r) z) :=
        freed_off hd.2 hbound hprev hz
      rw [coalesce_freed 16 (hcs ▸ hs) (by simpa using ho')]
      refine ⟨?_, fun z hz => hoff z ?_⟩
      · rw [List.append_assoc]
        refine chain_append.mpr ⟨hl.congr ?_, ?_, freed_chain hd.2 hbound hprev⟩
        · intro w _ hw
          exact kmemptr_congr (by omega) fun z _ _ => hoff z (OffHeaders.of_lt (by omega))
        · refine Eq.trans (kmemptr_congr (by omega) fun z _ _ => ?_) hd.1
          exact hoff z (OffHeaders.of_lt (by omega))
      · have := OffHeaders.suffix (l := l' ++ [d]) (hcs ▸ hz)
        rwa [hx'] at this
    · have hnone := Option.not_isSome_iff_eq_none.mp ho'
      have hoff (z : Word) (hz : OffHeaders (a + extent 16 l') (d :: c :: r) z) :=
        freed_behind_off hd hnone hlen hz
      rw [List.append_assoc, List.singleton_append, coalesce_freed_behind 16 hs hnone]
      refine ⟨chain_append.mpr ⟨hl.congr ?_, freed_behind_chain hd hnone hlen⟩, fun z hz => hoff z hz.suffix⟩
      intro w _ hw
      exact kmemptr_congr (by omega) fun z _ _ => hoff z (OffHeaders.of_lt (by omega))

variable {s : Kmem} {L : Layout}

theorem length_release (hc : L.cells = l ++ c :: r) : (L.release hc).length = L.length := by
  simp only [Layout.length, Layout.release_cells, coalesce_extent, hc, extent_append, extent_cons]

theorem kfree_represents (h : Represents s L) (hc : L.cells = l ++ c :: r) (ho : c.owner.isSome) :
    Represents (kfree s (word (heapBase + extent 16 l + 16))) (L.release hc) ∧
      ∀ z, OffHeaders heapBase L.cells z →
        (kfree s (word (heapBase + extent 16 l + 16))).mem z = s.mem z := by
  have hbase := heapBase_eq
  have hbound := h.bound
  have hlen := length_release hc
  have hext : extent 16 (L.release hc).cells = extent 16 L.cells := by
    simp only [Layout.length] at hlen
    omega
  rw [Layout.length] at hbound
  rw [kfree_eq (hc ▸ h.chain).header_at ho]
  obtain ⟨hchain, hoff⟩ := freed_release h.chain hc L.settled (by omega)
  refine ⟨⟨h.head, h.firstFree, ?_, ?_, ?_, ?_, ?_⟩, hoff⟩
  · rw [hext]; exact h.tail
  · rw [hlen]; exact h.total
  · rw [Layout.release_cells]; exact hchain
  · rw [hlen]; exact h.pages
  · rw [hlen]; exact h.bound

end Rinix.Heap
