import Rinix.Heap.FirstFit

/-!
Freeing twice. Every header write of the heap goes to a multiple of 16, so that the flag of a header
that is no longer on the chain stays what the last call made it.
-/

namespace Rinix.Heap

open ByteMemory Tiling WhileLoop Runs

def flagAt (m : Mem) (k : ℕ) : Byte := (kmemptr m (word k)).flags

section Flags

variable {m : Mem} {x k : ℕ} {v : Word} {b : Byte} (hx : x % 16 = 0) (hk : k % 16 = 0)
  (hx' : x + 16 ≤ 4294967296) (hk' : k + 16 ≤ 4294967296)

include hx hk hx' hk'

theorem flagAt_setPrev : flagAt (setPrev m (word x) v) k = flagAt m k := by
  unfold flagAt
  by_cases h : k = x
  · rw [h, kmemptr_setPrev]
  · rw [kmemptr_setPrev_ne (by omega) hx' hk']

theorem flagAt_setNext : flagAt (setNext m (word x) v) k = flagAt m k := by
  unfold flagAt
  by_cases h : k = x
  · rw [h, kmemptr_setNext]
  · rw [kmemptr_setNext_ne (by omega) hx' hk']

theorem flagAt_setSize : flagAt (setSize m (word x) v) k = flagAt m k := by
  unfold flagAt
  by_cases h : k = x
  · rw [h, kmemptr_setSize]
  · rw [kmemptr_setSize_ne (by omega) hx' hk']

theorem flagAt_setFlags : flagAt (setFlags m (word x) b) k = if k = x then b else flagAt m k := by
  unfold flagAt
  split_ifs with h
  · rw [h, kmemptr_setFlags]
  · rw [kmemptr_setFlags_ne (by omega) hx' hk']

end Flags

/-- A session, and the pointers that were freed and not returned again, as long as their client has
not written where the flag of their header was. -/
structure Ledger where
  session : Session
  spent : Set Word

def flagByte (q : Word) : Word := q - sizeofKmemptr + 12

inductive Ledger.Step (P : PageMap) : Ledger → Event → Ledger → Prop where
  | kmalloc {σ τ : Session} {D : Set Word} {n p : Word} : Heap.Step P Windowed σ (.kmalloc n p) τ →
      Ledger.Step P ⟨σ, D⟩ (.kmalloc n p) ⟨τ, D \ {p}⟩
  | kfree {σ τ : Session} {D : Set Word} {p : Word} : Heap.Step P Windowed σ (.kfree p) τ →
      Ledger.Step P ⟨σ, D⟩ (.kfree p) ⟨τ, insert p D⟩
  | again {σ : Session} {D : Set Word} {p : Word} : p ∈ D →
      Ledger.Step P ⟨σ, D⟩ (.kfree p) ⟨⟨Heap.kfree σ.heap p, σ.live⟩, D⟩
  | write {σ τ : Session} {D : Set Word} {a : Word} {v : Byte} : Heap.Step P Windowed σ (.write a v) τ →
      Ledger.Step P ⟨σ, D⟩ (.write a v) ⟨τ, {q ∈ D | flagByte q ≠ a}⟩

def Ledger.start (P : PageMap) (m : Mem) : Ledger := ⟨Session.start P m, ∅⟩

def Stale (s : Kmem) (L : Layout) (q : Word) : Prop :=
  ∃ k, q = word (k + 16) ∧ k % 16 = 0 ∧ heapBase ≤ k ∧ k + 16 ≤ heapBase + L.length ∧
    flagAt s.mem k ≠ kmemUsed

variable {P : PageMap} {s t : Kmem} {σ τ : Session} {L M : Layout} {l r : List Block} {c d : Block} {m : Mem}
  {n p q : Word} {b i j k x y : ℕ}

theorem flagAt_eatenByPrev (hd : kmemptr m (word x) = cellHeader i x d)
    (hc : kmemptr m (word (x + 16 + d.size)) = cellHeader x (x + 16 + d.size) c)
    (hx : x + 16 + d.size + 16 + c.size + 16 ≤ 4294967296) (hx' : x % 16 = 0) (hds : d.size % 16 = 0)
    (hcs : c.size % 16 = 0) (hk : k % 16 = 0) (hk' : k + 16 ≤ 4294967296) :
    flagAt (eatenByPrev m (word x) (word (x + 16 + d.size))) k = flagAt m k := by
  rw [eatenByPrev_eq hd hc hx, flagAt_setNext hx' hk (by omega) hk',
    flagAt_setPrev (by omega) hk (by omega) hk', flagAt_setSize hx' hk (by omega) hk']

theorem flagAt_eatNext (hc : kmemptr m (word x) = cellHeader i x c)
    (hd : kmemptr m (word (x + 16 + c.size)) = cellHeader x (x + 16 + c.size) d)
    (hx : x + 16 + c.size + 16 + d.size + 16 ≤ 4294967296) (hx' : x % 16 = 0) (hds : d.size % 16 = 0)
    (hcs : c.size % 16 = 0) (hk : k % 16 = 0) (hk' : k + 16 ≤ 4294967296) (hkx : k ≠ x) :
    flagAt (eatNext m (word x)) k = flagAt m k := by
  rw [eatNext_eq hc hd hx, flagAt_setFlags hx' hk (by omega) hk', if_neg hkx,
    flagAt_setNext hx' hk (by omega) hk', flagAt_setSize hx' hk (by omega) hk',
    flagAt_setPrev (by omega) hk (by omega) hk']

theorem flagAt_mergeNext (h : Chain m j x (c :: r)) (hx : x + extent 16 (c :: r) + 16 ≤ 4294967296)
    (hx' : x % 16 = 0) (hsizes : ∀ d ∈ c :: r, d.size % 16 = 0) (hk : k % 16 = 0) (hk' : k + 16 ≤ 4294967296)
    (hkx : k ≠ x) : flagAt (mergeNext m (word x)) k = flagAt m k := by
  rcases mergeNext_cases h with ⟨hm, -⟩ | ⟨d, r, rfl, hm, -⟩
  · rw [hm]
  · simp only [extent_cons] at hx
    rw [hm]
    exact flagAt_eatNext h.1 h.2.1 (by omega) hx' (hsizes d (by simp)) (hsizes c (by simp)) hk hk' hkx

theorem flagAt_leaveAlone (hx : x % 16 = 0) (hx' : x + 16 ≤ 4294967296) (hk : k % 16 = 0)
    (hk' : k + 16 ≤ 4294967296) (hkx : k ≠ x) : flagAt (leaveAlone m (word x)) k = flagAt m k := by
  unfold leaveAlone
  split_ifs
  · rw [flagAt_setFlags hx hk hx' hk', if_neg hkx]
  · rfl

theorem leaveAlone_unused (m : Mem) (x : ℕ) : flagAt (leaveAlone m (word x)) x ≠ kmemUsed := by
  unfold leaveAlone
  split_ifs with h
  · rw [flagAt, kmemptr_setFlags]
    exact free_ne_used
  · exact h

theorem extent_dvd {cs : List Block} (h : ∀ d ∈ cs, d.size % 16 = 0) : extent 16 cs % 16 = 0 := by
  induction cs with
  | nil => rfl
  | cons d cs ih =>
    have hd := h d List.mem_cons_self
    have hcs := ih fun e he => h e (List.mem_cons_of_mem d he)
    rw [extent_cons]
    omega

theorem flagAt_mergePrev (h : Chain m j y (d :: c :: r)) (hx : y + extent 16 (d :: c :: r) + 16 ≤ 4294967296)
    (hy : y % 16 = 0) (hsizes : ∀ e ∈ d :: c :: r, e.size % 16 = 0) (hk : k % 16 = 0)
    (hk' : k + 16 ≤ 4294967296) :
    flagAt (mergePrev (mergeNext m (word (y + 16 + d.size))) (word y) (word (y + 16 + d.size))) k =
      flagAt (mergeNext m (word (y + 16 + d.size))) k := by
  have hbehind := mergeNext_behind h hx
  by_cases ho : d.owner.isSome
  · rw [mergePrev_used hbehind ho]
  · have hbound : y + 16 + d.size + extent 16 (c :: r) + 16 ≤ 4294967296 := by
      rw [extent_cons] at hx
      omega
    have hds := hsizes d List.mem_cons_self
    obtain ⟨e, t, r', he, ht, hext, -⟩ := mergeNext_chain h.2 hbound
    have hmod : extent 16 t % 16 = 0 := extent_dvd fun f hf => hsizes f (by rw [ht]; simp [hf])
    rw [ht, extent_append] at hbound
    rw [mergePrev_free hbehind (by simpa using ho) (by omega)]
    exact flagAt_eatenByPrev hbehind he.1 (by omega) hy hds (by omega) hk hk'

theorem kfree_flags (h : Represents s L) (hc : L.cells = l ++ c :: r) (ho : c.owner.isSome) (hk : k % 16 = 0)
    (hk' : k + 16 ≤ 4294967296) (hkx : k ≠ heapBase + extent 16 l) :
    flagAt (kfree s (word (heapBase + extent 16 l + 16))).mem k = flagAt s.mem k := by
  have hbase := heapBase_eq
  have hbound := h.bound
  have hmod := L.extent_mod hc
  have hsizes (d : Block) (hd : d ∈ L.cells) : d.size % 16 = 0 := (L.sized d hd).1
  rw [Layout.length, hc, extent_append] at hbound
  rw [kfree_eq (hc ▸ h.chain).header_at ho]
  obtain ⟨-, hr⟩ := chain_append.mp (hc ▸ h.chain)
  have hnext := flagAt_mergeNext hr (by omega) (by omega)
    (fun d hd => hsizes d (hc ▸ List.mem_append_right l hd)) hk hk' hkx
  have hprev : (kmemptr s.mem (word (heapBase + extent 16 l))).prev =
    word (lastStart heapBase heapBase l) := hr.prev_head
  simp only [freed, hprev]
  rw [flagAt_leaveAlone (by omega) (by simp only [extent_cons] at hbound; omega) hk hk' hkx]
  rcases List.eq_nil_or_concat l with rfl | ⟨l, d, rfl⟩
  · have hself : word (lastStart heapBase heapBase ([] : List Block)) =
      word (heapBase + extent 16 ([] : List Block)) := rfl
    rw [hself, mergePrev_self]
    exact hnext
  · rw [List.concat_eq_append] at *
    have hc' : L.cells = l ++ d :: c :: r := by rw [hc]; simp
    have hx : heapBase + extent 16 (l ++ [d]) = heapBase + extent 16 l + 16 + d.size := by
      simp only [extent_append, extent_cons, extent_nil]
      omega
    obtain ⟨-, hd⟩ := chain_append.mp (hc' ▸ h.chain)
    have hmod' := L.extent_mod hc'
    rw [lastStart_snoc]
    rw [hx] at hnext ⊢
    rw [flagAt_mergePrev hd
      (by simp only [extent_append, extent_cons, extent_nil] at hbound ⊢; omega) (by omega)
      (fun e he => hsizes e (hc' ▸ List.mem_append_right l he)) hk hk', hnext]

theorem morecorePage_flags (h : Represents s L) (hroom : heapBase + L.length + 4096 ≤ 0xFFC00000)
    (hk : k % 16 = 0)
    (hk' : heapBase ≤ k) (hend : k + 16 ≤ heapBase + L.length) :
    flagAt (morecorePage P s).mem k = flagAt s.mem k := by
  have hbase := heapBase_eq
  obtain ⟨l, c, hl, hc, -⟩ := L.spare
  obtain ⟨n, hn⟩ : ∃ n, c.size + 4096 = n := ⟨_, rfl⟩
  have hlen := length_of_snoc hl
  have hmod := L.extent_mod hl
  have hsize := (L.sized c (by simp [hl])).1
  have hmap : flagAt (P.allocMapPage (word (heapBase + L.length)) 0x3 s.mem) k = flagAt s.mem k := by
    unfold flagAt
    rw [kmemptr_congr (by omega) fun z _ _ => allocMapPage_below P s.mem 0x3 (by omega) (by omega) (by omega)]
  rw [morecorePage_eq h hl hc hroom hn, ← hmap]
  simp only [extend]
  rw [flagAt_setNext (by omega) hk (by omega) (by omega), flagAt_setNext (by omega) hk (by omega) (by omega),
    flagAt_setFlags (by omega) hk (by omega) (by omega), if_neg (by omega),
    flagAt_setSize (by omega) hk (by omega) (by omega), flagAt_setPrev (by omega) hk (by omega) (by omega),
    flagAt_setSize (by omega) hk (by omega) (by omega)]

theorem morecore_flags (h : Represents s L) (j : ℕ) (hroom : heapBase + L.length + j * 4096 ≤ 0xFFC00000)
    (hk : k % 16 = 0) (hk' : heapBase ≤ k) (hend : k + 16 ≤ heapBase + L.length) :
    flagAt ((morecorePage P)^[j] s).mem k = flagAt s.mem k := by
  induction j with
  | zero => rfl
  | succ j ih =>
    have hj : heapBase + L.length + j * 4096 ≤ 0xFFC00000 :=
      le_trans (Nat.add_le_add_left (Nat.mul_le_mul_right 4096 (Nat.le_succ j)) _) hroom
    have hlen := length_grow L j
    rw [Function.iterate_succ_apply', morecorePage_flags (morecore_represents h j hj).1 (by omega)
      hk hk' (by omega), ih hj]

theorem chop_flags (hc : kmemptr m (word x) = cellHeader j x c) (hb : b + 16 < c.size)
    (hx : x + 16 + c.size + 16 ≤ 4294967296) (hx' : x % 16 = 0) (hb' : b % 16 = 0) (hcs : c.size % 16 = 0)
    (hk : k % 16 = 0) (hk' : k + 16 ≤ 4294967296) (hkx : k ≠ x) :
    flagAt (chop (word b) m (word x)) k = flagAt m k ∨ flagAt (chop (word b) m (word x)) k = kmemFree := by
  rw [chop_eq hc hb hx, flagAt_setFlags (by omega) hk (by omega) hk']
  split_ifs
  · exact Or.inr rfl
  · rw [flagAt_setFlags hx' hk (by omega) hk', if_neg hkx, flagAt_setNext hx' hk (by omega) hk',
      flagAt_setSize hx' hk (by omega) hk', flagAt_setNext (by omega) hk (by omega) hk',
      flagAt_setPrev (by omega) hk (by omega) hk', flagAt_setSize (by omega) hk (by omega) hk',
      flagAt_setPrev (by omega) hk (by omega) hk']
    exact Or.inl rfl

theorem kmalloc_flags (h : Represents s L) (hw : NoWrap n) (hr : KmallocReturns P s n t p) (ht : ¬Past t)
    (hk : k % 16 = 0) (hk' : heapBase ≤ k) (hend : k + 16 ≤ heapBase + L.length) (hp : p ≠ word (k + 16))
    (hs : flagAt s.mem k ≠ kmemUsed) : flagAt t.mem k ≠ kmemUsed := by
  have hbase := heapBase_eq
  obtain ⟨⟨M, hM, -, hcase⟩, hended⟩ := kmalloc_outcome h hw hr (Or.inr ht)
  obtain ⟨i, rfl, -⟩ := hM.pages
  have hlen := length_grow L i
  rcases hcase with ⟨hnull, hrep⟩ | ⟨l, c, r, hc, ho, hfit, -, hpx, hrep⟩
  · rcases hended.exact h hrep hlen with heq | ⟨hp0, -⟩
    · have hbound := hrep.bound
      rw [hlen] at hbound
      rw [(Prod.mk.inj heq).1, morecore_flags h i (by omega) hk hk' hend]
      exact hs
    · exact absurd hnull hp0
  · have hlen' := (length_take hc ho (aligned_mod n) (le_aligned n) hfit).trans hlen
    have hbound := hrep.bound
    rw [hlen'] at hbound
    obtain ⟨hgrown, -⟩ := morecore_represents (P := P) h i (by omega)
    have hflags := morecore_flags (P := P) h i (by omega) hk hk' hend
    have hcell := (hc ▸ hgrown.chain).header_at
    have hcb := hgrown.cell_bound hc
    have hmod := (L.grow i).extent_mod hc
    have hsize := ((L.grow i).sized c (by simp [hc])).1
    simp only at hpx
    rcases hended.exact h hrep hlen' with heq | ⟨-, x, heq⟩
    · rw [(Prod.mk.inj heq).1, hflags]
      exact hs
    · obtain ⟨heqt, hpx'⟩ := Prod.mk.inj heq
      have hx : x = word (heapBase + extent 16 l) := by
        apply (BitVec.add_left_inj sizeofKmemptr).mp
        rw [← hpx', hpx, sizeofKmemptr_eq, word_add]
      have hkx : k ≠ heapBase + extent 16 l := by
        rintro rfl
        exact hp hpx
      rw [heqt, hx]
      rcases chop_flags hcell hfit (by omega) (by omega) (aligned_mod n) hsize hk (by omega) hkx with hf | hf
      · rw [hf, hflags]
        exact hs
      · rw [hf]
        exact free_ne_used

theorem scratch_of_payload (k : ℕ) : word (k + 16) - sizeofKmemptr = word k := by
  rw [sizeofKmemptr_eq, word_sub (by omega)]
  exact congrArg word (by omega)

theorem Stale.kfree_eq (h : Stale s L q) : kfree s q = s := by
  obtain ⟨k, rfl, -, -, -, hflag⟩ := h
  rw [flagAt] at hflag
  simp only [kfree, scratch_of_payload, if_neg hflag]

theorem Stale.after_kmalloc (h : Stale s L q) (hrep : Represents s L) (hw : NoWrap n)
    (hr : KmallocReturns P s n t p)
    (ht : ¬Past t) (hp : q ≠ p) (hlen : L.length ≤ M.length) : Stale t M q := by
  obtain ⟨k, rfl, hk, hk', hend, hflag⟩ := h
  exact ⟨k, rfl, hk, hk', by omega, kmalloc_flags hrep hw hr ht hk hk' hend hp.symm hflag⟩

theorem Stale.after_kfree (hrep : Represents s L) (hc : L.cells = l ++ c :: r) (ho : c.owner.isSome)
    (hlen : M.length = L.length) (h : q = word (heapBase + extent 16 l + 16) ∨ Stale s L q) :
    Stale (kfree s (word (heapBase + extent 16 l + 16))) M q := by
  have hbase := heapBase_eq
  have hbound := hrep.bound
  have hcb := hrep.cell_bound hc
  have hmod := L.extent_mod hc
  have hL : L.length = extent 16 l + (16 + c.size + extent 16 r) + 16 := by
    rw [Layout.length, hc, extent_append, extent_cons]
  have hown : flagAt (kfree s (word (heapBase + extent 16 l + 16))).mem (heapBase + extent 16 l) ≠
    kmemUsed := by
    rw [Heap.kfree_eq (hc ▸ hrep.chain).header_at ho]
    exact leaveAlone_unused _ _
  rcases h with rfl | ⟨k, rfl, hk, hk', hend, hflag⟩
  · exact ⟨_, rfl, by omega, by omega, by omega, hown⟩
  · refine ⟨k, rfl, hk, hk', by omega, ?_⟩
    by_cases hkx : k = heapBase + extent 16 l
    · rw [hkx]
      exact hown
    · rw [kfree_flags hrep hc ho hk (by omega) hkx]
      exact hflag

theorem Stale.after_write {a : Word} {v : Byte} (h : Stale s L q) (ha : flagByte q ≠ a) :
    Stale { s with mem := storeByte s.mem a v } L q := by
  obtain ⟨k, rfl, hk, hk', hend, hflag⟩ := h
  refine ⟨k, rfl, hk, hk', hend, ?_⟩
  rw [flagByte, scratch_of_payload] at ha
  simp only [flagAt, kmemptr, storeByte_miss ha] at hflag ⊢
  exact hflag

def Ledger.Sound (ℓ : Ledger) : Prop := ∃ L, Held ℓ.session L ∧ ∀ q ∈ ℓ.spent, Stale ℓ.session.heap L q

theorem step_sound {e : Event} {ℓ ℓ' : Ledger} (h : ℓ.Sound) (hstep : Ledger.Step P ℓ e ℓ') : ℓ'.Sound := by
  obtain ⟨L, hL, hstale⟩ := h
  cases hstep with
  | kmalloc hs =>
    cases hs with
    | kmalloc hr hok =>
      obtain ⟨-, -, M, L', hM, hlen, hL'⟩ := hL.after_kmalloc hok.1 hr (Or.inr hok.sane.2)
      refine ⟨L', hL', fun q hq => ?_⟩
      obtain ⟨k, rfl, -⟩ := hM.pages
      rw [length_grow] at hlen
      exact (hstale q hq.1).after_kmalloc hL.heap hok.1 hr hok.sane.2 hq.2 (by omega)
  | kfree hs =>
    cases hs with
    | kfree hp =>
      obtain ⟨-, L', hlen, -, hL'⟩ := hL.after_kfree hp
      refine ⟨L', hL', fun q hq => ?_⟩
      obtain ⟨n, hn⟩ := Option.isSome_iff_exists.mp hp
      obtain ⟨x, hx, rfl, -⟩ := (hL.live _ n).mp hn
      obtain ⟨l, r, hc, ho, hx1⟩ := (mem_owned 16).mp hx
      rw [hx1] at hq ⊢
      exact Stale.after_kfree hL.heap hc ho hlen (hq.imp id fun hq => hstale q hq)
  | again hq =>
    simp only [(hstale _ hq).kfree_eq]
    exact ⟨L, hL, hstale⟩
  | write hs =>
    cases hs with
    | write hp ha => exact ⟨L, hL.after_write hp ha, fun q hq => (hstale q hq.1).after_write hq.2⟩

theorem run_sound {es : List Event} {ℓ : Ledger} {m : Mem}
    (h : Run (Ledger.Step P) (Ledger.start P m) es ℓ) : ℓ.Sound := by
  refine h.invariant Ledger.Sound (fun _ _ _ hℓ hstep => step_sound hℓ hstep) ?_
  exact ⟨Layout.initial, held_start P m, fun q hq => absurd hq (Set.notMem_empty q)⟩

theorem frees_keep_spent {es : List Event} {ℓ ℓ' : Ledger} (h : Run (Ledger.Step P) ℓ es ℓ')
    (hes : ∀ e ∈ es, ∃ q, e = .kfree q) (hp : p ∈ ℓ.spent) : p ∈ ℓ'.spent := by
  refine h.invariant_on (fun ℓ => p ∈ ℓ.spent) (fun e => ∃ q, e = .kfree q) ?_ hes hp
  rintro ℓ e ℓ' hℓ ⟨q, rfl⟩ hstep
  cases hstep with
  | kfree _ => exact Set.mem_insert_of_mem q hℓ
  | again _ => exact hℓ

/-- A double free changes nothing, as long as only frees came in between. -/
theorem double_free_harmless {es frees : List Event} {ℓ : Ledger} {m : Mem}
    (h : Run (Ledger.Step P) (Ledger.start P m) (es ++ .kfree p :: frees) ℓ)
    (hfrees : ∀ e ∈ frees, ∃ q, e = .kfree q) : kfree ℓ.session.heap p = ℓ.session.heap := by
  obtain ⟨L, -, hstale⟩ := run_sound h
  obtain ⟨ℓ1, -, h1⟩ := run_append.mp h
  obtain ⟨ℓ2, hfree, h2⟩ := run_cons.mp h1
  have hspent : p ∈ ℓ2.spent := by
    cases hfree with
    | kfree _ => exact Set.mem_insert p _
    | again hp => exact hp
  exact (hstale p (frees_keep_spent h2 hfrees hspent)).kfree_eq

theorem Ledger.of_run {es : List Event} (h : Run (Heap.Step P Windowed) σ es τ) (D : Set Word) :
    ∃ D', Run (Ledger.Step P) ⟨σ, D⟩ es ⟨τ, D'⟩ := by
  induction h generalizing D with
  | nil => exact ⟨D, .nil _⟩
  | cons hstep _ ih =>
    cases hstep with
    | kmalloc hr hok =>
      obtain ⟨D', hD'⟩ := ih (D \ {_})
      exact ⟨D', .cons (.kmalloc (.kmalloc hr hok)) hD'⟩
    | kfree hp =>
      obtain ⟨D', hD'⟩ := ih (insert _ D)
      exact ⟨D', .cons (.kfree (.kfree hp)) hD'⟩
    | write hp ha =>
      obtain ⟨D', hD'⟩ := ih {q ∈ D | flagByte q ≠ _}
      exact ⟨D', .cons (.write (.write hp ha)) hD'⟩

theorem absorbed_freed_again : ∃ σ : Session, ∃ p q, σ.live p = some 16 ∧ σ.live q = some 16 ∧
    kfree (kfree (kfree σ.heap q) p) q = kfree (kfree σ.heap q) p := by
  obtain ⟨σ, p, q, L, ⟨m, es, h⟩, hpq, hp, hq, -⟩ := two_windowed
  obtain ⟨D, hD⟩ := Ledger.of_run h ∅
  have hq' : (σ.live q).isSome := by rw [hq]; rfl
  have hlive : (Function.update σ.live q none p).isSome := by
    rw [Function.update_of_ne hpq, hp]
    rfl
  have h1 : Ledger.Step zeroPages ⟨σ, D⟩ (.kfree q)
      ⟨⟨kfree σ.heap q, Function.update σ.live q none⟩, insert q D⟩ := .kfree (.kfree hq')
  have h2 : Ledger.Step zeroPages ⟨⟨kfree σ.heap q, Function.update σ.live q none⟩, insert q D⟩ (.kfree p)
      ⟨⟨kfree (kfree σ.heap q) p, Function.update (Function.update σ.live q none) p none⟩,
        insert p (insert q D)⟩ :=
    .kfree (.kfree hlive)
  have hfrees : ∀ e ∈ [Event.kfree p], ∃ q, e = .kfree q := by
    intro e he
    exact ⟨p, List.mem_singleton.mp he⟩
  have hagain := double_free_harmless (hD.append (.cons h1 (.cons h2 (.nil _)))) hfrees
  exact ⟨σ, p, q, hp, hq, hagain⟩

end Rinix.Heap
