import Rinix.Heap.Kmem
import Rinix.Lib.Runs
import Rinix.Paging.BootMap
import Rinix.Paging.Sharing

namespace Rinix.Paging

open ByteMemory PageTable WhileLoop Frames Runs

def heapAddress (n : ℕ) : Word := Heap.kernelHeapStart + word (4096 * n)

def heapPages (n : ℕ) : Set (Slot × Slot) := {q | ∃ k < n, pageOf (heapAddress k) = q}

def InHeap (n : ℕ) (a : Word) : Prop := 0xD0000000 ≤ a.toNat ∧ a.toNat < 0xD0000000 + 4096 * n

instance (n : ℕ) (a : Word) : Decidable (InHeap n a) := inferInstanceAs (Decidable (_ ∧ _))

structure PagedHeap where
  resident : Resident
  pages : ℕ

inductive Access where
  | grow
  | write (a : Word) (b : Byte)
  | read (a : Word) (b : Byte)
  | elsewhere

/-- The bitmap has `size` bytes. The rest of the kernel writes to frames that were in use before the
heap had its first page, but not to the page tables and the bitmap. -/
inductive PagedHeap.Step (origin : Resident) (size : ℕ) (pd pt : Frame) :
    PagedHeap → Access → PagedHeap → Prop where
  | grow (r t : Resident) (n : ℕ) (hn : 0xD0000000 + 4096 * n < 0xFFC00000)
    (hcall : Call size r (heapAddress n, 0x3) t) : Step origin size pd pt ⟨r, n⟩ .grow ⟨t, n + 1⟩
  | write (r : Resident) (s : Machine) (n : ℕ) (a : Word) (b : Byte) (ha : InHeap n a)
    (hwrite : r.machine.writeByte a b = some s) :
    Step origin size pd pt ⟨r, n⟩ (.write a b) ⟨r.after s, n⟩
  | read (r : Resident) (n : ℕ) (a : Word) (b : Byte) (ha : InHeap n a)
    (hread : r.machine.view a = some b) : Step origin size pd pt ⟨r, n⟩ (.read a b) ⟨r, n⟩
  | elsewhere (r : Resident) (n : ℕ) (mem : Mem)
    (hmem : ∀ x, mem x ≠ r.mem x →
      frameOf x ∈ origin.held size ∧ frameOf x ≠ pd ∧ frameOf x ≠ pt ∧ x ∉ r.bytes size) :
    Step origin size pd pt ⟨r, n⟩ .elsewhere ⟨{ r with mem }, n⟩

inductive FlatStep (P : Heap.PageMap) : Mem × ℕ → Access → Mem × ℕ → Prop where
  | grow (m : Mem) (n : ℕ) :
    FlatStep P (m, n) .grow (P.allocMapPage (heapAddress n) 0x3 m, n + 1)
  | write (m : Mem) (n : ℕ) (a : Word) (b : Byte) (ha : InHeap n a) :
    FlatStep P (m, n) (.write a b) (storeByte m a b, n)
  | read (m : Mem) (n : ℕ) (a : Word) (ha : InHeap n a) : FlatStep P (m, n) (.read a (m a)) (m, n)
  | elsewhere (m : Mem) (n : ℕ) : FlatStep P (m, n) .elsewhere (m, n)

structure HeapOn (origin : Resident) (size : ℕ) (pd pt : Frame) (r : Resident) (n : ℕ) : Prop where
  bound : 0xD0000000 + 4096 * n ≤ 0xFFC00000
  directory : r.machine.directory = pd
  orderly : r.Orderly size (heapPages n)
  mono : origin.held size ⊆ r.held size
  same : ∀ k < size,
    r.machine.translate (r.seat k) = origin.machine.translate (origin.seat k)
  within : origin.seats size ⊆ origin.held size
  slots : ∀ i, (∀ q ∈ heapPages n, q.1 ≠ i) → r.machine.tables pd i = bootPde pd pt i
  table : ∀ k, r.machine.tables pt k = bootPte k
  links : ∀ q ∈ heapPages n, frameOf (r.machine.tables pd q.1) ∉ origin.held size
  leaves : ∀ q ∈ heapPages n,
    frameOf (leafOf entryFormat r.machine.tables pd q) ∉ origin.held size

variable {origin r t : Resident} {s : Machine} {size : ℕ} {pd pt f : Frame} {n k : ℕ}
  {a a' virt : Word} {b : Byte} {i : Slot} {q : Slot × Slot} {u u' : PagedHeap} {e : Access}
  {es : List Access}

theorem heapAddress_toNat (hn : 0xD0000000 + 4096 * n < 0xFFC00000) :
    (heapAddress n).toNat = 0xD0000000 + 4096 * n := by
  have hstart : Heap.kernelHeapStart.toNat = 0xD0000000 := rfl
  have hword := toNat_word (show 4096 * n < 4294967296 by omega)
  rw [heapAddress]
  bv_omega

theorem directorySlot_index (a : Word) : (directorySlot a).toNat = a.toNat / 0x400000 := by
  have ha := a.isLt
  rw [directorySlot, BitVec.extractLsb'_toNat, Nat.shiftRight_eq_div_pow]
  omega

theorem tableSlot_index (a : Word) : (tableSlot a).toNat = a.toNat / 0x1000 % 1024 := by
  rw [tableSlot, BitVec.extractLsb'_toNat, Nat.shiftRight_eq_div_pow]

theorem samePage_iff : pageOf a = pageOf a' ↔ a.toNat / 0x1000 = a'.toNat / 0x1000 := by
  rw [pageOf_eq, SamePage, ← BitVec.toNat_inj, ← BitVec.toNat_inj, directorySlot_index, directorySlot_index,
    tableSlot_index, tableSlot_index]
  omega

theorem heapPages_succ (n : ℕ) : heapPages (n + 1) = insert (pageOf (heapAddress n)) (heapPages n) := by
  ext q
  constructor
  · rintro ⟨k, hk, rfl⟩
    rcases Nat.lt_succ_iff_lt_or_eq.mp hk with hlt | rfl
    · exact Or.inr ⟨k, hlt, rfl⟩
    · exact Or.inl rfl
  · rintro (rfl | ⟨k, hk, rfl⟩)
    · exact ⟨n, Nat.lt_succ_self n, rfl⟩
    · exact ⟨k, Nat.lt_succ_of_lt hk, rfl⟩

theorem heap_slot (hn : 0xD0000000 + 4096 * n ≤ 0xFFC00000) (hq : q ∈ heapPages n) :
    q.1 ≠ 0 ∧ q.1 ≠ 0x300 ∧ q.1 ≠ 0x3FF := by
  obtain ⟨k, hk, rfl⟩ := hq
  have haddr := heapAddress_toNat (show 0xD0000000 + 4096 * k < 0xFFC00000 by omega)
  have hslot := directorySlot_index (heapAddress k)
  have hne {j : Slot} (hj : j.toNat < 0x340 ∨ 0x3FF ≤ j.toNat) : directorySlot (heapAddress k) ≠ j := by
    rintro rfl
    omega
  exact ⟨hne (Or.inl (by decide)), hne (Or.inl (by decide)), hne (Or.inr (by decide))⟩

theorem page_mem (hn : 0xD0000000 + 4096 * n ≤ 0xFFC00000) (ha : InHeap n a) : pageOf a ∈ heapPages n := by
  obtain ⟨hlow, hhigh⟩ := ha
  refine ⟨(a.toNat - 0xD0000000) / 4096, by omega, ?_⟩
  rw [samePage_iff, heapAddress_toNat (by omega)]
  omega

theorem page_new (hn : 0xD0000000 + 4096 * n < 0xFFC00000) : pageOf (heapAddress n) ∉ heapPages n := by
  rintro ⟨k, hk, heq⟩
  rw [samePage_iff, heapAddress_toNat hn, heapAddress_toNat (by omega)] at heq
  omega

section HeapOn

variable (h : HeapOn origin size pd pt r n)
include h

theorem HeapOn.found (ha : InHeap n a) : r.machine.translate a =
    some (frameOf (leafOf entryFormat r.machine.tables pd (pageOf a)) ++ pageOffset a) := by
  have hq := page_mem h.bound ha
  have htable := (h.orderly.unshared.tables _ hq).1
  have hleaf := (h.orderly.unshared.leaves _ hq).1
  rw [translate_eq, if_pos ⟨htable, hleaf⟩, Machine.pde, h.directory]
  rfl

theorem HeapOn.seats_held : r.seats size ⊆ origin.held size := by
  rw [seats_same h.same]
  exact h.within

theorem HeapOn.boot_table (hi : ∀ q ∈ heapPages n, q.1 ≠ i)
    (hp : entryFormat.present (r.machine.tables pd i)) :
    frameOf (r.machine.tables pd i) = pd ∨ frameOf (r.machine.tables pd i) = pt := by
  rw [h.slots i hi, bootPde] at hp ⊢
  split_ifs at hp ⊢ with hlast hlow
  · exact Or.inl (frameOf_entry pd)
  · exact Or.inr (frameOf_entry pt)
  · exact absurd hp (by decide)

theorem HeapOn.off_boot : pd ∉ r.seats size ∧ pt ∉ r.seats size := by
  constructor
  · rw [← h.directory]
    exact h.orderly.seated.off_directory
  · intro hin
    have hzero : r.machine.tables pd 0 = entryFor (slotAddress pt 0) 3 := by
      rw [h.slots 0 fun q hq => (heap_slot h.bound hq).1]
      rfl
    have htable := (h.orderly.seated.fresh _ hin).2.2 0
    rw [h.directory, hzero, frameOf_entry] at htable
    exact htable (present_entry pt) rfl

theorem HeapOn.seat_kept (hdir : t.machine.directory = pd) (hptr : t.ptr = r.ptr)
    (hpd : ∀ j, t.machine.tables pd j = r.machine.tables pd j)
    (hpt : ∀ j, t.machine.tables pt j = r.machine.tables pt j) (hk : k < size) :
    t.machine.translate (t.seat k) = r.machine.translate (r.seat k) := by
  have hseat : t.seat k = r.seat k := congrArg (· + word k) hptr
  rw [hseat]
  refine congrArg (Option.map _) ?_
  rw [Machine.walk, Machine.walk, hdir, h.directory]
  refine walk_congr (hpd _) fun hp => ?_
  have htable := h.boot_table (fun q hq heq => h.orderly.slots k hk q hq heq) hp
  change t.machine.tables (frameOf _) _ = r.machine.tables (frameOf _) _
  rcases htable with heq | heq
  · rw [heq]
    exact hpd _
  · rw [heq]
    exact hpt _

theorem HeapOn.quiet {mem : Mem} (hmem : ∀ x, mem x ≠ r.mem x → frameOf x ≠ pd ∧ frameOf x ≠ pt ∧
    (∀ q ∈ heapPages n, frameOf x ≠ frameOf (r.machine.tables pd q.1)) ∧ x ∉ r.bytes size)
    (ht : t = { r with mem }) : HeapOn origin size pd pt t n ∧
      ∀ a, InHeap n a → t.machine.translate a = r.machine.translate a := by
  subst ht
  set t : Resident := { r with mem }
  have hkept (f : Frame) (hf : ∀ x, mem x ≠ r.mem x → frameOf x ≠ f) (k : Slot) :
      t.machine.tables f k = r.machine.tables f k := by
    apply load_congr
    intro x hx
    by_contra hne
    exact hf x hne (entry_byte hx).1
  have hpd := hkept pd fun x hx => (hmem x hx).1
  have hpt := hkept pt fun x hx => (hmem x hx).2.1
  have hdir : t.machine.directory = pd := h.directory
  have hleaf (q : Slot × Slot) (hq : q ∈ heapPages n) :
      leafOf entryFormat t.machine.tables pd q = leafOf entryFormat r.machine.tables pd q := by
    rw [leafOf, hpd]
    exact hkept _ (fun x hx => (hmem x hx).2.2.1 q hq) q.2
  have hseat (k : ℕ) (hk : k < size) := h.seat_kept hdir rfl hpd hpt hk
  have hbytes (x : Word) (hx : x ∈ r.bytes size) : t.mem x = r.mem x := by
    by_contra hne
    exact (hmem x hne).2.2.2 hx
  have hheld : t.held size = r.held size := h.orderly.seated.held_same hseat hbytes
  have hon : HeapOn origin size pd pt t n := by
    refine ⟨h.bound, hdir, ⟨?_, ?_, ?_, h.orderly.slots⟩, ?_, ?_, h.within, ?_, ?_, ?_, ?_⟩
    · have hrec := h.orderly.recursive
      rw [Machine.Recursive, h.directory] at hrec
      rwa [Machine.Recursive, hdir, hpd]
    · refine h.orderly.seated.same hseat hheld.ge fun f hf => ?_
      obtain ⟨hne, htables⟩ := (h.orderly.seated.fresh f hf).2
      rw [h.directory] at hne htables
      refine ⟨by rwa [hdir], fun i hp => ?_⟩
      rw [hdir, hpd] at hp ⊢
      exact htables i hp
    · have hsame := h.orderly.unshared
      rw [Resident.Unshared, h.directory] at hsame
      rw [Resident.Unshared, hdir, hheld]
      exact hsame.congr hpd hleaf
    · rw [hheld]
      exact h.mono
    · intro k hk
      rw [hseat k hk]
      exact h.same k hk
    · intro i hi
      rw [hpd]
      exact h.slots i hi
    · intro k
      rw [hpt]
      exact h.table k
    · intro q hq
      rw [hpd]
      exact h.links q hq
    · intro q hq
      rw [hleaf q hq]
      exact h.leaves q hq
  refine ⟨hon, fun a ha => ?_⟩
  rw [hon.found ha, h.found ha, hleaf _ (page_mem h.bound ha)]

theorem HeapOn.injective (ha : InHeap n a) (ha' : InHeap n a')
    (heq : r.machine.translate a = r.machine.translate a') : a = a' := by
  rw [h.found ha, h.found ha', Option.some.injEq, append_inj_iff, (append_parts _ _).1,
    (append_parts _ _).2] at heq
  have hpage := h.orderly.unshared.distinct _ (page_mem h.bound ha) _ (page_mem h.bound ha')
    (by rw [h.directory]; exact heq.1)
  have hoffset := offset_low heq.2
  rw [samePage_iff] at hpage
  apply BitVec.eq_of_toNat_eq
  omega

theorem HeapOn.kernel (hvirt : directorySlot virt = 0 ∨ directorySlot virt = 0x300) :
    r.machine.translate virt = some (virt &&& 0x3FFFFF) := by
  have hlast : directorySlot virt ≠ 0x3FF := by
    rintro heq
    rw [heq] at hvirt
    exact absurd hvirt (by decide)
  apply translate_low ?_ h.table
  rw [Machine.pde, h.directory, h.slots _ ?_, bootPde, if_neg hlast, if_pos hvirt]
  intro q hq heq
  obtain ⟨hzero, hhigh, -⟩ := heap_slot h.bound hq
  rw [heq] at hzero hhigh
  exact hvirt.elim hzero hhigh

theorem HeapOn.write (hpd : pd ∈ origin.held size) (hpt : pt ∈ origin.held size) (ha : InHeap n a)
    (hwrite : r.machine.writeByte a b = some s) : HeapOn origin size pd pt (r.after s) n ∧
      ∀ a', InHeap n a' →
        (r.after s).machine.view a' = if a' = a then some b else r.machine.view a' := by
  have hq := page_mem h.bound ha
  have hfresh := h.leaves _ hq
  have hapart := (h.orderly.unshared.apart _ hq).2
  rw [h.directory] at hapart
  rw [Machine.writeByte, h.found ha, Option.map_some, Option.some.injEq] at hwrite
  subst hwrite
  obtain ⟨hframe, -⟩ :=
    append_parts (frameOf (leafOf entryFormat r.machine.tables pd (pageOf a))) (pageOffset a)
  have hfound := h.found ha
  set p : Word := frameOf (leafOf entryFormat r.machine.tables pd (pageOf a)) ++ pageOffset a
  have hplace (x : Word) (hx : storeByte r.mem p b x ≠ r.mem x) : x = p := by
    by_contra hne
    exact hx (storeByte_miss hne)
  obtain ⟨hon, htranslate⟩ := h.quiet (t := { r with mem := storeByte r.mem p b }) (fun x hx => by
    rw [hplace x hx, hframe]
    refine ⟨ne_of_mem_of_not_mem hpd hfresh |>.symm, ne_of_mem_of_not_mem hpt hfresh |>.symm,
      fun q hq' => ?_, fun hin => ?_⟩
    · have hp := (h.orderly.unshared.tables q hq').1
      rw [h.directory] at hp
      exact (hapart q.1 hp).symm
    · exact hfresh (h.seats_held ⟨p, hin, hframe⟩)) rfl
  refine ⟨hon, fun a' ha' => ?_⟩
  refine (congrArg (Option.map (storeByte r.mem p b)) (htranslate a' ha')).trans ?_
  rw [Machine.view]
  by_cases heq : a' = a
  · rw [if_pos heq, heq, hfound, Option.map_some]
    exact congrArg some (if_pos rfl)
  · rw [if_neg heq, h.found ha', Option.map_some, Option.map_some]
    refine congrArg some (storeByte_miss fun hsame => heq (h.injective ha' ha ?_))
    rw [h.found ha', hfound, hsame]

theorem HeapOn.elsewhere {mem : Mem} (hmem : ∀ x, mem x ≠ r.mem x →
      frameOf x ∈ origin.held size ∧ frameOf x ≠ pd ∧ frameOf x ≠ pt ∧ x ∉ r.bytes size)
    (ht : t = { r with mem }) : HeapOn origin size pd pt t n ∧
      ∀ a, InHeap n a → t.machine.view a = r.machine.view a := by
  obtain ⟨hon, htranslate⟩ := h.quiet (fun x hx => by
    obtain ⟨hused, hpd, hpt, hoff⟩ := hmem x hx
    exact ⟨hpd, hpt, fun q hq heq => h.links q hq (heq ▸ hused), hoff⟩) ht
  subst ht
  refine ⟨hon, fun a ha => ?_⟩
  rw [Machine.view, htranslate a ha, Machine.view, h.found ha, Option.map_some, Option.map_some]
  congr 1
  by_contra hne
  have hused := (hmem _ hne).1
  rw [(append_parts _ _).1] at hused
  exact h.leaves _ (page_mem h.bound ha) hused

omit h in
theorem enter_mem {link leaf : Word} {x : Word} (hdir : frameOf x ≠ s.directory)
    (htable : frameOf x ≠ frameOf (linked entryFormat s.tables s.directory (directorySlot virt) link)) :
    (s.enter virt link leaf).mem x = s.mem x := by
  by_cases hp : s.Present virt
  · rw [linked_of_present hp] at htable
    rw [enter_present hp]
    exact put_mem htable
  · rw [linked_of_absent hp] at htable
    rw [enter_absent hp, put_mem htable, put_mem hdir]

theorem HeapOn.byte_kept {link leaf : Word} (he : Enters r t size (heapAddress n) link leaf)
    (ha : InHeap n a) :
    t.mem (frameOf (leafOf entryFormat r.machine.tables pd (pageOf a)) ++ pageOffset a) =
      r.mem (frameOf (leafOf entryFormat r.machine.tables pd (pageOf a)) ++ pageOffset a) := by
  have hq := page_mem h.bound ha
  have hleaf := (h.orderly.unshared.leaves _ hq).2
  have hapart := h.orderly.unshared.apart _ hq
  rw [h.directory] at hleaf hapart
  rw [he.mem, enter_mem]
  · rfl
  · rw [(append_parts _ _).1, h.directory]
    exact hapart.1
  · rw [(append_parts _ _).1, h.directory, linked]
    split_ifs with hp
    · exact (hapart.2 _ hp).symm
    · have hfresh := he.link_fresh
      rw [Machine.Present, Machine.pde, h.directory] at hfresh
      exact ne_of_mem_of_not_mem hleaf (hfresh hp)
  · apply off_bytes
    rw [(append_parts _ _).1]
    exact fun hin => h.leaves _ hq (h.seats_held hin)

theorem HeapOn.next_slot (hn : 0xD0000000 + 4096 * n < 0xFFC00000)
    (hp : r.machine.Present (heapAddress n)) :
    ∃ k, (directorySlot (heapAddress n), k) ∈ heapPages n := by
  by_contra hnone
  have hmem : pageOf (heapAddress n) ∈ heapPages (n + 1) := ⟨n, Nat.lt_succ_self n, rfl⟩
  obtain ⟨hzero, hhigh, hlast⟩ := heap_slot (by omega) hmem
  rw [pageOf] at hzero hhigh hlast
  have hempty := h.slots (directorySlot (heapAddress n)) fun q hq heq => hnone ⟨q.2, heq ▸ hq⟩
  rw [bootPde, if_neg hlast, if_neg (not_or.mpr ⟨hzero, hhigh⟩)] at hempty
  rw [Machine.Present, Machine.pde, h.directory, hempty] at hp
  exact absurd hp (by decide)

section Grow

variable (hsize : size ≤ 0x20000) (hpt : pt ∈ origin.held size)
  (hn : 0xD0000000 + 4096 * n < 0xFFC00000) (hcall : Call size r (heapAddress n, 0x3) t)
include hsize hpt hn hcall

theorem HeapOn.grown : ∃ link leaf, Enters r t size (heapAddress n) link leaf ∧
      t.Orderly size (heapPages (n + 1)) ∧
      Keeps r.machine t.machine (heapPages n) {pageOf (heapAddress n)} ∧
      frameOf (linked entryFormat r.machine.tables pd (directorySlot (heapAddress n)) link) ≠ pd ∧
      frameOf (linked entryFormat r.machine.tables pd (directorySlot (heapAddress n)) link) ≠ pt ∧
      frameOf (linked entryFormat r.machine.tables pd (directorySlot (heapAddress n)) link) ∉
        origin.held size := by
  have haddress : heapAddress n < 0xFFC00000 := by
    rw [BitVec.lt_def, heapAddress_toNat hn]
    exact hn
  have hproper : Proper (heapAddress n, 0x3) :=
    ⟨haddress, (by decide : (0x3 : Word) &&& ~~~0xFFF = 0),
      (by decide : (0x3 : Word) &&& (pageP ||| pageRw) = pageP ||| pageRw)⟩
  have hslot := h.next_slot hn
  have hmem : pageOf (heapAddress n) ∈ heapPages (n + 1) := ⟨n, Nat.lt_succ_self n, rfl⟩
  have hother := heap_slot (by omega) hmem
  obtain ⟨horderly, hkeeps⟩ := call_orderly h.orderly hsize hproper hcall hslot (page_new hn)
  obtain ⟨link, leaf, he⟩ := h.orderly.enters hsize hproper hcall hslot
  have htable := h.orderly.unshared.table_ne hslot he.link_fresh
  have hlink : frameOf (linked entryFormat r.machine.tables pd (directorySlot (heapAddress n)) link) ∉
      origin.held size := by
    by_cases hp : r.machine.Present (heapAddress n)
    · obtain ⟨k, hk⟩ := hslot hp
      have hlinks := h.links _ hk
      rw [Machine.Present, Machine.pde, h.directory] at hp
      rw [linked_of_present hp]
      exact hlinks
    · have hfresh := he.link_fresh hp
      rw [Machine.Present, Machine.pde, h.directory] at hp
      rw [linked_of_absent hp]
      exact fun hused => hfresh (h.mono hused)
  rw [h.directory] at htable
  rw [← heapPages_succ] at horderly
  exact ⟨link, leaf, he, horderly, hkeeps, htable, (ne_of_mem_of_not_mem hpt hlink).symm, hlink⟩

theorem HeapOn.grow (hne : pd ≠ pt) : HeapOn origin size pd pt t (n + 1) ∧
    ∀ a, InHeap n a → t.machine.view a = r.machine.view a := by
  obtain ⟨link, leaf, he, horderly, hkeeps, htable, hkernel, hlink⟩ := h.grown hsize hpt hn hcall
  have hdir : t.machine.directory = pd := hkeeps.directory.trans h.directory
  have htables {f : Frame} (hf : f ∉ r.seats size) (j : Slot) : t.machine.tables f j =
      enter entryFormat r.machine.tables pd (directorySlot (heapAddress n))
        (tableSlot (heapAddress n)) link leaf f j := by
    rw [← h.directory]
    exact he.tables hf j
  have hold {q : Slot × Slot} (hq : q ∈ heapPages n) := hkeeps.leaves q hq
  rw [hdir, h.directory] at hold
  obtain ⟨hpdoff, hptoff⟩ := h.off_boot
  have hnew : frameOf (linked entryFormat r.machine.tables pd (directorySlot (heapAddress n)) link) ∉
      r.seats size := fun hin => hlink (h.seats_held hin)
  have hon : HeapOn origin size pd pt t (n + 1) := by
    refine ⟨by omega, hdir, horderly, h.mono.trans he.mono, fun k hk => ?_, h.within, ?_, ?_, ?_, ?_⟩
    · exact (he.same k hk).trans (h.same k hk)
    · intro i hi
      rw [heapPages_succ] at hi
      have hslot := hkeeps.slots i fun q hq => hi q (Or.inl hq)
      rw [hdir, h.directory] at hslot
      rw [hslot]
      exact h.slots i fun q hq => hi q (Or.inr hq)
    · intro k
      rw [htables hptoff, enter_other, h.table]
      · exact fun heq => hne heq.1.symm
      · exact fun heq => hkernel heq.1.symm
    · rw [heapPages_succ]
      rintro q (rfl | hq)
      · rw [htables hpdoff, pageOf, enter_linked htable]
        exact hlink
      · rw [(hold hq).1]
        exact h.links q hq
    · rw [heapPages_succ]
      rintro q (rfl | hq)
      · have hentry : t.machine.tables pd (directorySlot (heapAddress n)) =
            linked entryFormat r.machine.tables pd (directorySlot (heapAddress n)) link := by
          rw [htables hpdoff, enter_linked htable]
        have hleaf : leafOf entryFormat t.machine.tables pd (pageOf (heapAddress n)) = leaf := by
          rw [leafOf, pageOf, hentry]
          exact (htables hnew _).trans enter_table
        rw [hleaf]
        exact fun hused => he.leaf_fresh (h.mono hused)
      · rw [(hold hq).2]
        exact h.leaves q hq
  refine ⟨hon, fun a ha => ?_⟩
  have hq := page_mem h.bound ha
  have hlater : InHeap (n + 1) a := ⟨ha.1, by have := ha.2; omega⟩
  rw [Machine.view, hon.found hlater, (hold hq).2, Machine.view, h.found ha, Option.map_some,
    Option.map_some]
  exact congrArg some (h.byte_kept he ha)

end Grow

theorem HeapOn.step (hsize : size ≤ 0x20000) (hne : pd ≠ pt) (hpd : pd ∈ origin.held size)
    (hpt : pt ∈ origin.held size) (hstep : PagedHeap.Step origin size pd pt ⟨r, n⟩ e u) :
    HeapOn origin size pd pt u.resident u.pages := by
  cases hstep with
  | grow _ t _ hn hcall => exact (h.grow hsize hpt hn hcall hne).1
  | write _ s _ a b ha hwrite => exact (h.write hpd hpt ha hwrite).1
  | read => exact h
  | elsewhere _ _ mem hmem => exact (h.elsewhere hmem rfl).1

end HeapOn

theorem heapOn_booted (hs : r.machine.Booted pd pt) (hseated : r.Seated size)
    (hpd : pd ∈ r.held size) (hpt : pt ∈ r.held size) : HeapOn r size pd pt r 0 := by
  have hnone (q : Slot × Slot) : q ∉ heapPages 0 := fun ⟨k, hk, _⟩ => absurd hk (Nat.not_lt_zero k)
  refine ⟨by decide, hs.directory, ⟨hs.recursive, hseated, ⟨?_, ?_, ?_, ?_, ?_, ?_, ?_⟩, ?_⟩,
    Set.Subset.rfl, fun _ _ => rfl, fun f hf => (hseated.fresh f hf).1, fun i _ => hs.entry i,
    hs.table, ?_, ?_⟩
  · rw [hs.directory]
    exact hpd
  · intro i hi
    rw [hs.directory, hs.entry, bootPde] at hi ⊢
    split_ifs at hi ⊢ with hlast hlow
    · rw [← frameOf_entry pd] at hpd
      exact hpd
    · rw [← frameOf_entry pt] at hpt
      exact hpt
    · exact absurd hi (by decide)
  case refine_8 => exact fun k _ q hq => absurd hq (hnone q)
  all_goals exact fun q hq => absurd hq (hnone q)

/-- After `boot.s`, however the heap grows and whatever is written, the kernel and the bitmap stay
where they were, and every byte of the heap has a byte of memory to itself, in a frame that was
free. -/
theorem heap_isolated (hsize : size ≤ 0x20000) (hs : r.machine.Booted pd pt) (hne : pd ≠ pt)
    (hseated : r.Seated size) (hpd : pd ∈ r.held size) (hpt : pt ∈ r.held size)
    (h : Run (PagedHeap.Step r size pd pt) ⟨r, 0⟩ es ⟨t, n⟩) :
    (∀ virt, directorySlot virt = 0 ∨ directorySlot virt = 0x300 →
      t.machine.translate virt = some (virt &&& 0x3FFFFF)) ∧
    (∀ k < size, t.machine.translate (t.seat k) = r.machine.translate (r.seat k)) ∧
    (∀ a, InHeap n a → ∃ p, t.machine.translate a = some p ∧ frameOf p ∉ r.held size) ∧
    ∀ a a', InHeap n a → InHeap n a' →
      t.machine.translate a = t.machine.translate a' → a = a' := by
  have hon : HeapOn r size pd pt t n := by
    refine h.invariant (fun u => HeapOn r size pd pt u.resident u.pages) (fun u e u' hu hstep => ?_)
      (heapOn_booted hs hseated hpd hpt)
    exact hu.step hsize hne hpd hpt hstep
  refine ⟨fun virt => hon.kernel, hon.same, fun a ha => ⟨_, hon.found ha, ?_⟩,
    fun a a' => hon.injective⟩
  rw [(append_parts _ _).1]
  exact hon.leaves _ (page_mem hon.bound ha)

theorem first_grown (hsize : size ≤ 0x20000) (hs : r.machine.Booted pd pt) (hseated : r.Seated size)
    {g : Frame} (hfg : f ≠ g) (hf : f ∉ r.held size) (hg : g ∉ r.held size)
    (hhint : 8 * (r.lastChecked.toNat / 8) ≤ f.toNat)
    (hhint' : 8 * (r.lastChecked.toNat / 8) ≤ g.toNat) :
    ∃ t, PagedHeap.Step r size pd pt ⟨r, 0⟩ .grow ⟨t, 1⟩ := by
  have hlow : (0x3 : Word) &&& ~~~0xFFF = 0 := by decide
  have hflags : (0x3 : Word) &&& pageP ≠ 0 := by decide
  have hlast : directorySlot (heapAddress 0) ≠ 0x3FF := by decide
  obtain ⟨hstops, t, ht⟩ := allocMapPage_ends hseated hsize hs.recursive hlow hflags hlast hfg hf hg
    hhint hhint'
  exact ⟨t, .grow r t 0 (by decide) ⟨ht, hstops⟩⟩

def bootedBitmap : Resident where
  mem := storeByte (blank.booted 0 1).mem 0x2000 0xE0
  cr3 := (blank.booted 0 1).cr3
  ptr := 0x2000
  length := 0x20000
  lastChecked := 0

theorem blank_booted : (blank.booted 0 1).Booted 0 1 :=
  booted_booted (by decide) (blank_entry fun _ _ => rfl)

theorem bootedBitmap_booted : bootedBitmap.machine.Booted 0 1 := by
  refine blank_booted.congr rfl fun x hx => ?_
  apply storeByte_miss
  rintro rfl
  exact absurd hx (by decide)

theorem bootedBitmap_bit (i : ℕ) (hi : i < 8) :
    bootedBitmap.machine.bitmap.bit i = BitString.msb 0xE0 i := by
  have hplace : bootedBitmap.machine.translate (bootedBitmap.seat (i / 8)) = some 0x2000 := by
    rw [bootedBitmap_booted.translate, Nat.div_eq_of_lt hi]
    decide
  have hstored : storeByte (blank.booted 0 1).mem 0x2000 0xE0 0x2000 = 0xE0 := if_pos rfl
  rw [resident_bit hplace, Nat.mod_eq_of_lt hi]
  exact congrArg (BitString.msb · i) hstored

theorem bootedBitmap_seated : bootedBitmap.Seated 1 := by
  have hplace : bootedBitmap.machine.translate (bootedBitmap.seat 0) = some 0x2000 := by
    rw [bootedBitmap_booted.translate]
    decide
  refine seated_one hplace ?_ (bootedBitmap_booted.fresh (by decide) (by decide))
  rw [mem_held (by decide)]
  exact (bootedBitmap_bit 2 (by decide)).trans (by decide)

theorem bootedBitmap_held : (0 : Frame) ∈ bootedBitmap.held 1 ∧ (1 : Frame) ∈ bootedBitmap.held 1 ∧
    (3 : Frame) ∉ bootedBitmap.held 1 ∧ (4 : Frame) ∉ bootedBitmap.held 1 := by
  have hheld (f : Frame) (hf : f.toNat < 8) :
      f ∈ bootedBitmap.held 1 ↔ BitString.msb 0xE0 f.toNat = true := by
    rw [mem_held hf, bootedBitmap_bit _ hf]
  rw [hheld _ (by decide), hheld _ (by decide), hheld _ (by decide), hheld _ (by decide)]
  decide

theorem heap_started (b : Byte) : ∃ t, Run (PagedHeap.Step bootedBitmap 1 0 1) ⟨bootedBitmap, 0⟩
    [.grow, .write 0xD0000010 b] ⟨t, 1⟩ := by
  obtain ⟨hpd, hpt, hthree, hfour⟩ := bootedBitmap_held
  have hstart := heapOn_booted bootedBitmap_booted bootedBitmap_seated hpd hpt
  obtain ⟨u, hgrow⟩ := first_grown (by decide) bootedBitmap_booted bootedBitmap_seated (by decide)
    hthree hfour (by decide) (by decide)
  have hon := hstart.step (by decide) (by decide) hpd hpt hgrow
  have hin : InHeap 1 0xD0000010 := by decide
  obtain ⟨s, hs⟩ : ∃ s, u.machine.writeByte 0xD0000010 b = some s := by
    rw [Machine.writeByte, hon.found hin]
    exact ⟨_, rfl⟩
  exact ⟨u.after s, .cons hgrow (.cons (.write u s 1 0xD0000010 b hin hs) (.nil _))⟩

theorem first_page_isolated : ∃ t : Resident,
    (∃ p, t.machine.translate 0xD0000010 = some p ∧ frameOf p ∉ bootedBitmap.held 1) ∧
    t.machine.translate 0xC0100000 = some 0x100000 ∧
    t.machine.translate 0xD0000010 ≠ t.machine.translate 0xD0000011 := by
  obtain ⟨t, hrun⟩ := heap_started 0x5A
  obtain ⟨hpd, hpt, -, -⟩ := bootedBitmap_held
  obtain ⟨hkernel, -, hfree, hone⟩ := heap_isolated (by decide) bootedBitmap_booted (by decide)
    bootedBitmap_seated hpd hpt hrun
  refine ⟨t, hfree _ (by decide), hkernel 0xC0100000 (Or.inr (by decide)), fun heq => ?_⟩
  exact absurd (hone _ _ (by decide) (by decide) heq) (by decide)

def pageMapOf (G : Mem) : Heap.PageMap where
  allocMapPage virt _ m a := if virt.toNat ≤ a.toNat ∧ a.toNat < virt.toNat + 4096 then G a else m a
  below _ _ _ _ _ hlt _ := if_neg fun hin => absurd hin.1 (Nat.not_le.mpr hlt)

def Mirrored (m : Mem) (es : List Access) (u : PagedHeap) : Prop :=
  ∃ G : Mem, ∀ G' : Mem, (∀ a, InHeap u.pages a → G' a = G a) →
    ∃ m', Run (FlatStep (pageMapOf G')) (m, 0) es (m', u.pages) ∧
      ∀ a, InHeap u.pages a → u.resident.machine.view a = some (m' a)

theorem InHeap.succ (ha : InHeap n a) : InHeap (n + 1) a := ⟨ha.1, by have := ha.2; omega⟩

theorem inHeap_succ (hn : 0xD0000000 + 4096 * n < 0xFFC00000) (ha : InHeap (n + 1) a) :
    ((heapAddress n).toNat ≤ a.toNat ∧ a.toNat < (heapAddress n).toNat + 4096) ↔ ¬InHeap n a := by
  obtain ⟨hlow, hhigh⟩ := ha
  rw [heapAddress_toNat hn, InHeap]
  omega

section Mirrored

variable {m : Mem} (hm : Mirrored m es ⟨r, n⟩)
include hm

theorem Mirrored.same (ht : ∀ G m', (∀ a, InHeap n a → r.machine.view a = some (m' a)) →
    ∃ m'', FlatStep (pageMapOf G) (m', n) e (m'', n) ∧
      ∀ a, InHeap n a → t.machine.view a = some (m'' a)) :
    Mirrored m (es ++ [e]) ⟨t, n⟩ := by
  obtain ⟨G, hG⟩ := hm
  refine ⟨G, fun G' hG' => ?_⟩
  obtain ⟨m', hrun, hview⟩ := hG G' hG'
  obtain ⟨m'', hstep, hview'⟩ := ht G' m' hview
  exact ⟨m'', hrun.snoc hstep, hview'⟩

variable (hon : HeapOn origin size pd pt r n) (hsize : size ≤ 0x20000) (hne : pd ≠ pt)
  (hpd : pd ∈ origin.held size) (hpt : pt ∈ origin.held size)
include hon hsize hne hpt

theorem Mirrored.grow (hn : 0xD0000000 + 4096 * n < 0xFFC00000)
    (hcall : Call size r (heapAddress n, 0x3) t) : Mirrored m (es ++ [.grow]) ⟨t, n + 1⟩ := by
  obtain ⟨hon', hkept⟩ := hon.grow hsize hpt hn hcall hne
  obtain ⟨G, hG⟩ := hm
  refine ⟨fun a => if InHeap n a then G a else (t.machine.view a).getD 0, fun G' hG' => ?_⟩
  obtain ⟨m', hrun, hview⟩ := hG G' fun a ha => (hG' a ha.succ).trans (if_pos ha)
  refine ⟨_, hrun.snoc (.grow m' n), fun a ha => ?_⟩
  by_cases hold : InHeap n a
  · have hbelow : (pageMapOf G').allocMapPage (heapAddress n) 0x3 m' a = m' a :=
      if_neg fun hin => (inHeap_succ hn ha).mp hin hold
    rw [hbelow, hkept a hold]
    exact hview a hold
  · have hnew : (pageMapOf G').allocMapPage (heapAddress n) 0x3 m' a = G' a :=
      if_pos ((inHeap_succ hn ha).mpr hold)
    have hfirst : G' a = (t.machine.view a).getD 0 := (hG' a ha).trans (if_neg hold)
    have hsome : t.machine.view a = some ((t.machine.view a).getD 0) := by
      rw [Machine.view, hon'.found ha]
      rfl
    rw [hnew, hfirst]
    exact hsome

include hpd

theorem Mirrored.step (hstep : PagedHeap.Step origin size pd pt ⟨r, n⟩ e u) :
    Mirrored m (es ++ [e]) u := by
  cases hstep with
  | grow _ t _ hn hcall => exact hm.grow hon hsize hne hpt hn hcall
  | write _ s _ a b ha hwrite =>
    apply hm.same
    intro G m' hview
    refine ⟨_, .write m' n a b ha, fun a' ha' => ?_⟩
    rw [(hon.write hpd hpt ha hwrite).2 a' ha']
    by_cases heq : a' = a
    · rw [if_pos heq, heq]
      exact congrArg some (if_pos rfl).symm
    · rw [if_neg heq, hview a' ha', storeByte_miss heq]
  | read _ _ a b ha hread =>
    apply hm.same
    intro G m' hview
    have hb : b = m' a := Option.some.inj (hread.symm.trans (hview a ha))
    rw [hb]
    exact ⟨m', .read m' n a ha, hview⟩
  | elsewhere _ _ mem hmem =>
    apply hm.same
    intro G m' hview
    refine ⟨m', .elsewhere m' n, fun a ha => ?_⟩
    rw [(hon.elsewhere hmem rfl).2 a ha]
    exact hview a ha

end Mirrored

/-- What the heap's pages show over any run is what one flat memory shows that the heap's model
takes for granted. -/
theorem heap_flat (hsize : size ≤ 0x20000) (hs : r.machine.Booted pd pt) (hne : pd ≠ pt)
    (hseated : r.Seated size) (hpd : pd ∈ r.held size) (hpt : pt ∈ r.held size)
    (h : Run (PagedHeap.Step r size pd pt) ⟨r, 0⟩ es ⟨t, n⟩) (m : Mem) :
    ∃ (P : Heap.PageMap) (m' : Mem), Run (FlatStep P) (m, 0) es (m', n) ∧
      ∀ a, InHeap n a → t.machine.view a = some (m' a) := by
  have hnone (a : Word) : ¬InHeap 0 a := fun ha => absurd ha.2 (Nat.not_lt.mpr ha.1)
  have hstart : Mirrored m [] ⟨r, 0⟩ :=
    ⟨fun _ => 0, fun _ _ => ⟨m, .nil _, fun a ha => absurd ha (hnone a)⟩⟩
  obtain ⟨-, G, hG⟩ := h.history
    (fun es u => HeapOn r size pd pt u.resident u.pages ∧ Mirrored m es u)
    (fun es u e u' hu hstep => ⟨hu.1.step hsize hne hpd hpt hstep,
      hu.2.step hu.1 hsize hne hpd hpt hstep⟩) ⟨heapOn_booted hs hseated hpd hpt, hstart⟩
  obtain ⟨m', hrun, hview⟩ := hG G fun _ _ => rfl
  exact ⟨pageMapOf G, m', hrun, hview⟩

theorem first_page_flat : ∃ (t : Resident) (P : Heap.PageMap) (m : Mem),
    Run (FlatStep P) (fun _ => 0, 0) [.grow, .write 0xD0000010 0x5A] (m, 1) ∧
      t.machine.view 0xD0000010 = some (m 0xD0000010) := by
  obtain ⟨t, hrun⟩ := heap_started 0x5A
  obtain ⟨hpd, hpt, -, -⟩ := bootedBitmap_held
  obtain ⟨P, m, hflat, hview⟩ := heap_flat (by decide) bootedBitmap_booted (by decide)
    bootedBitmap_seated hpd hpt hrun fun _ => 0
  exact ⟨t, P, m, hflat, hview _ (by decide)⟩

end Rinix.Paging
