import Mathlib.Algebra.GroupWithZero.Nat
import Rinix.Buckets.Kheap
import Rinix.Lib.SearchTree

namespace Rinix.Buckets

open ByteMemory WhileLoop SearchTree
open Heap (PageMap pageSize kernelHeapStart pageDirBase)

structure Bucket where
  addr : Word
  size : Word

def Bucket.key (b : Bucket) : ℕ := b.size.toNat

def view (m : Mem) (p : Word) : Node Bucket Word :=
  ⟨⟨p, (header m p).objSize⟩, (header m p).left, (header m p).right⟩

theorem view_addr (m : Mem) (p : Word) : Bucket.addr (view m p).value = p := rfl

def sizes (t : BinaryTree Bucket) : List Word := (toList t).map Bucket.size

def bucketAddr (n : ℕ) : Word := kernelHeapStart + word (4096 * n + 4068)

structure Holds (s : Kheap) (t : BinaryTree Bucket) : Prop where
  linked : Linked (view s.mem) 0 s.kheap t
  ordered : Ordered Bucket.key t
  inHeap : ∀ b ∈ toList t, ∃ n, 4096 * (n + 1) ≤ s.kheapSize.toNat ∧ b.addr = bucketAddr n
  paged : s.kheapSize.toNat % 4096 = 0

/-- `kheap_alloc(size)` returns with the buckets there were and one more if none had the size. -/
def Serves (P : PageMap) (s : Kheap) (t : BinaryTree Bucket) (size : Word) : Prop :=
  ∃ s' t', Returns (kheapAlloc P s size) s' ∧ Holds s' t' ∧ (sizes t').count size = 1 ∧
    if size ∈ sizes t then (toList t').Perm (toList t)
    else ∃ b : Bucket, b.size = size ∧ (toList t').Perm (b :: toList t)

def Room (s : Kheap) : Prop := kernelHeapStart.toNat + s.kheapSize.toNat < pageDirBase.toNat

variable {P : PageMap} {s s' : Kheap} {t : BinaryTree Bucket} {b c d : Bucket} {m m' : Mem}
  {p q v size parent : Word}

theorem view_congr (h : ∀ x, (x - p).toNat < 12 → m' x = m x) : view m' p = view m p := by
  have hsize : load m' p = load m p := load_congr fun x hx => h x (by omega)
  have hleft : load m' (p + 4) = load m (p + 4) := load_congr fun x hx => h x (by bv_omega)
  have hright : load m' (p + 8) = load m (p + 8) := load_congr fun x hx => h x (by bv_omega)
  simp only [view, header, hsize, hleft, hright]

theorem view_setLeft (m : Mem) (p v : Word) : view (setLeft m p v) p = { view m p with left := v } := by
  simp only [view, header, setLeft, load_store]
  rw [load_store_miss (by bv_omega) (by bv_omega), load_store_miss (by bv_omega) (by bv_omega)]

theorem view_setRight (m : Mem) (p v : Word) : view (setRight m p v) p = { view m p with right := v } := by
  simp only [view, header, setRight, load_store]
  rw [load_store_miss (by bv_omega) (by bv_omega), load_store_miss (by bv_omega) (by bv_omega)]

def relink (m : Mem) (objSize size parent bucket : Word) : Mem :=
  if objSize < size then setRight m parent bucket else setLeft m parent bucket

theorem relink_view (hne : (view m p).value.size ≠ size) :
    view (relink m (view m p).value.size size p q) p = (view m p).point Bucket.key size.toNat q := by
  rw [relink, Node.point]
  by_cases hlt : (view m p).value.size < size
  · have hge : ¬size.toNat < (view m p).value.key := Nat.not_lt.mpr (Nat.le_of_lt hlt)
    rw [if_pos hlt, if_neg hge, view_setRight]
  · have hle : size.toNat ≤ (view m p).value.key := Nat.le_of_not_lt hlt
    have hne' : size.toNat ≠ (view m p).value.key := fun h => hne (BitVec.eq_of_toNat_eq h.symm)
    rw [if_neg hlt, if_pos (by omega), view_setLeft]

theorem relink_apart {objSize : Word} (h : 12 ≤ (p - q).toNat) (h' : 12 ≤ (q - p).toNat) :
    view (relink m objSize size p v) q = view m q := by
  rw [relink]
  split_ifs
  · exact view_congr fun x hx => store_miss (by bv_omega)
  · exact view_congr fun x hx => store_miss (by bv_omega)

theorem search_exits (h : Linked (view m) 0 p t) (habsent : size ∉ sizes t) (d : Bucket) :
    Exits (searchTurn m size) (d.addr, p) (last Bucket.key size.toNat t d).addr := by
  induction t generalizing p d with
  | nil =>
    obtain rfl : p = 0 := h
    exact Exits.of_exit rfl
  | node a l r ihl ihr =>
    obtain ⟨hp, rfl, hl, hr⟩ := h
    rw [sizes, toList, List.map_append, List.map_cons, List.mem_append, List.mem_cons] at habsent
    obtain ⟨hleft, hroot, hright⟩ := by simpa only [not_or] using habsent
    have hne : ¬(header m p).objSize = size := fun h => hroot h.symm
    rw [last]
    by_cases hlt : size < (header m p).objSize
    · have hturn : searchTurn m size (d.addr, p) = .again (p, (header m p).left) := by
        rw [searchTurn, if_pos hp, if_neg hne, if_pos hlt]
      rw [exits_again hturn, if_pos (show size.toNat < (view m p).value.key from hlt)]
      exact ihl hl hleft (view m p).value
    · have hturn : searchTurn m size (d.addr, p) = .again (p, (header m p).right) := by
        rw [searchTurn, if_pos hp, if_neg hne, if_neg hlt]
      rw [exits_again hturn, if_neg (show ¬size.toNat < (view m p).value.key from hlt)]
      exact ihr hr hright (view m p).value

theorem search_diverges (h : Linked (view m) 0 p t) (hordered : Ordered Bucket.key t)
    (hpresent : size ∈ sizes t) (q : Word) : Diverges (searchTurn m size) (q, p) := by
  refine diverges_of_invariant (fun u => ∃ t, Linked (view m) 0 u.2 t ∧ Ordered Bucket.key t ∧ size ∈ sizes t)
    (fun u hu => ?_) ⟨t, h, hordered, hpresent⟩
  obtain ⟨q, p⟩ := u
  obtain ⟨t, hlinked, hordered, hpresent⟩ := hu
  cases t with
  | nil => exact absurd hpresent List.not_mem_nil
  | node a l r =>
    have hall := hlinked
    obtain ⟨hp, rfl, hl, hr⟩ := hlinked
    obtain ⟨c, hc, rfl⟩ := List.mem_map.mp hpresent
    by_cases heq : (header m p).objSize = c.size
    · exact ⟨(q, p), by rw [searchTurn, if_pos hp, if_pos heq], _, hall, hordered, hpresent⟩
    by_cases hlt : c.size < (header m p).objSize
    · refine ⟨(p, (header m p).left), by rw [searchTurn, if_pos hp, if_neg heq, if_pos hlt], l, hl,
        hordered.1, ?_⟩
      exact List.mem_map_of_mem (hordered.mem_left hc hlt)
    · refine ⟨(p, (header m p).right), by rw [searchTurn, if_pos hp, if_neg heq, if_neg hlt], r, hr,
        hordered.2.1, ?_⟩
      have hgt : (header m p).objSize.toNat < c.size.toNat :=
        Nat.lt_of_le_of_ne (Nat.le_of_not_lt hlt) fun h => heq (BitVec.eq_of_toNat_eq h)
      exact List.mem_map_of_mem (hordered.mem_right hc hgt)

def grown (P : PageMap) (s : Kheap) (size parent : Word) : Kheap :=
  ⟨s.kheap, s.kheapSize + pageSize, relink (fill (P.allocMapPage s.thisPage 0x3 s.mem) s.thisPage size)
    (header s.mem parent).objSize size parent s.newBucket⟩

theorem grown_kheap (P : PageMap) (s : Kheap) (size parent : Word) :
    (grown P s size parent).kheap = s.kheap := by
  rw [grown]

theorem grown_mem (P : PageMap) (s : Kheap) (size parent : Word) : (grown P s size parent).mem =
    relink (fill (P.allocMapPage s.thisPage 0x3 s.mem) s.thisPage size)
    (header s.mem parent).objSize size parent
      s.newBucket := by
  rw [grown]

theorem alloc_iff (P : PageMap) (s s' : Kheap) (size : Word) : Returns (kheapAlloc P s size) s' ↔
    size ≠ 0 ∧ ∃ parent, Exits (searchTurn s.mem size) (s.kheap, s.kheap) parent ∧
    s' = grown P s size parent := by
  have hlast (parent : Word) :
      Returns (fun _ => (createBucket P s size).map (hangBelow s.mem size parent)) s' ↔
      size ≠ 0 ∧ s' = grown P s size parent := by
    rw [returns_const]
    by_cases hsize : size = 0
    · subst hsize
      rw [createBucket_zero, Option.map_none]
      exact iff_of_false (fun h => nomatch h) fun h => h.1 rfl
    · rw [createBucket_eq P s hsize, Option.map_some, Option.some.injEq, grown, relink, hangBelow]
      split_ifs
      · exact ⟨fun h => ⟨hsize, h.symm⟩, fun h => h.2.symm⟩
      · exact ⟨fun h => ⟨hsize, h.symm⟩, fun h => h.2.symm⟩
  refine (returns_bind (run_fuelled _ _) fun _ => fuelled_const _).trans ⟨?_, ?_⟩
  · rintro ⟨parent, hsearch, hs'⟩
    obtain ⟨hsize, hs'⟩ := (hlast parent).mp hs'
    exact ⟨hsize, parent, hsearch, hs'⟩
  · rintro ⟨hsize, parent, hsearch, hs'⟩
    exact ⟨parent, hsearch, (hlast parent).mpr ⟨hsize, hs'⟩⟩

theorem bucketAddr_apart {i j : ℕ} (hi : i < 1048576) (hj : j < 1048576) (hij : i ≠ j) :
    12 ≤ (bucketAddr i - bucketAddr j).toNat := by
  have hdiff : bucketAddr i - bucketAddr j = word (4096 * i + 4068) - word (4096 * j + 4068) := by
    simp only [bucketAddr]
    bv_omega
  rw [hdiff, BitVec.toNat_sub, toNat_word (by omega), toNat_word (by omega)]
  omega

theorem bucketAddr_ne_zero {i : ℕ} (hi : i < 1048576) : bucketAddr i ≠ 0 := by
  have hword := toNat_word (show 4096 * i + 4068 < 4294967296 by omega)
  have hstart : kernelHeapStart.toNat = 0xD0000000 := rfl
  intro h
  have hzero : (bucketAddr i).toNat = 0 := by rw [h]; rfl
  rw [bucketAddr, BitVec.toNat_add, hword, hstart] at hzero
  omega

theorem newBucket_eq (h : s.kheapSize.toNat % 4096 = 0) :
    s.newBucket = bucketAddr (s.kheapSize.toNat / 4096) := by
  rw [bucketAddr, ← word_add, show 4096 * (s.kheapSize.toNat / 4096) = s.kheapSize.toNat by omega, word_toNat,
    ← BitVec.add_assoc]
  rfl

theorem room_iff : Room s ↔ 0xD0000000 + s.kheapSize.toNat < 0xFFC00000 := Iff.rfl

theorem toNat_thisPage (s : Kheap) : s.thisPage.toNat = (0xD0000000 + s.kheapSize.toNat) % 4294967296 :=
  BitVec.toNat_add _ _

theorem Room.page (h : Room s) : s.thisPage.toNat = 0xD0000000 + s.kheapSize.toNat := by
  rw [room_iff] at h
  rw [toNat_thisPage]
  omega

theorem no_window (h : ¬Room s) : ¬(kernelHeapStart ≤ s.thisPage ∧ s.thisPage < pageDirBase) := by
  rintro ⟨hlow, hhigh⟩
  have hlow' : 0xD0000000 ≤ s.thisPage.toNat := hlow
  have hhigh' : s.thisPage.toNat < 0xFFC00000 := hhigh
  have hpage := toNat_thisPage s
  rw [room_iff] at h
  omega

theorem view_kept (h : Holds s t) (hroom : Room s) (hb : b ∈ toList t) (hfilled : Filled m m' s.thisPage size)
    (hm : m = P.allocMapPage s.thisPage 0x3 s.mem) : view m' b.addr = view s.mem b.addr := by
  obtain ⟨n, hn, haddr⟩ := h.inHeap b hb
  have hroom' := room_iff.mp hroom
  have hpage := hroom.page
  have hplace : b.addr.toNat = 0xD0000000 + (4096 * n + 4068) := by
    rw [haddr, bucketAddr, BitVec.toNat_add, toNat_word (by omega)]
    change (0xD0000000 + _) % 4294967296 = _
    omega
  refine view_congr fun x hx => ?_
  have hdiff : x.toNat = b.addr.toNat + (x - b.addr).toNat := by bv_omega
  rw [hfilled.outside x (by bv_omega), hm]
  refine P.below _ _ _ _ ?_ ?_ ?_
  · change 0xD0000000 ≤ x.toNat
    omega
  · change x.toNat < s.thisPage.toNat
    omega
  · change s.thisPage.toNat < 0xFFC00000
    omega

theorem newBucket_apart (h : Holds s t) (hb : b ∈ toList t) :
    12 ≤ (b.addr - s.newBucket).toNat ∧ 12 ≤ (s.newBucket - b.addr).toNat := by
  obtain ⟨n, hn, haddr⟩ := h.inHeap b hb
  have hlt := s.kheapSize.isLt
  rw [haddr, newBucket_eq h.paged]
  exact ⟨bucketAddr_apart (by omega) (by omega) (by omega), bucketAddr_apart (by omega) (by omega) (by omega)⟩

theorem buckets_apart (h : Holds s t) (hb : b ∈ toList t) (hc : c ∈ toList t) (hne : b.addr ≠ c.addr) :
    12 ≤ (b.addr - c.addr).toNat := by
  obtain ⟨i, hi, hbaddr⟩ := h.inHeap b hb
  obtain ⟨j, hj, hcaddr⟩ := h.inHeap c hc
  have hlt := s.kheapSize.isLt
  have hij : i ≠ j := by
    rintro rfl
    exact hne (hbaddr.trans hcaddr.symm)
  rw [hbaddr, hcaddr]
  exact bucketAddr_apart (by omega) (by omega) hij

theorem view_value (h : Holds s t) (hb : b ∈ toList t) : (view s.mem b.addr).value = b :=
  h.linked.mem (view_addr s.mem) hb

theorem nodup (h : Holds s t) : (toList t).Nodup := h.ordered.keys_nodup.of_map _

def made (P : PageMap) (s : Kheap) (size : Word) : Bucket :=
  ⟨s.newBucket, load (fill (P.allocMapPage s.thisPage 0x3 s.mem) s.thisPage size) s.newBucket⟩

def parentOf (s : Kheap) (t : BinaryTree Bucket) (size : Word) : Bucket :=
  last Bucket.key size.toNat t ⟨s.kheap, 0⟩

theorem made_linked (P : PageMap) (h : Holds s t) (hb : b ∈ toList t) (objSize size : Word) :
    Linked (view (relink (fill (P.allocMapPage s.thisPage 0x3 s.mem) s.thisPage size) objSize size b.addr
      s.newBucket)) 0 s.newBucket (.node (made P s size) .nil .nil) := by
  obtain ⟨happart, happart'⟩ := newBucket_apart h hb
  have hfilled := fill_filled (P.allocMapPage s.thisPage 0x3 s.mem) s.thisPage size
  have hzero : s.newBucket ≠ 0 := by
    have hlt := s.kheapSize.isLt
    rw [newBucket_eq h.paged]
    exact bucketAddr_ne_zero (by omega)
  rw [Linked, relink_apart happart happart']
  refine ⟨hzero, rfl, ?_, ?_⟩
  · change load _ (s.thisPage + word 4068 + word 4) = 0
    rw [field_place, hfilled.left]
  · change load _ (s.thisPage + word 4068 + word 8) = 0
    rw [field_place, hfilled.right]

theorem grown_linked (h : Holds s t) (hroom : Room s) (ht : t ≠ .nil) (habsent : size ∉ sizes t) :
    Linked (view (grown P s size (parentOf s t size).addr).mem) 0
    (grown P s size (parentOf s t size).addr).kheap
      (SearchTree.hang Bucket.key size.toNat (made P s size) t) := by
  set m := fill (P.allocMapPage s.thisPage 0x3 s.mem) s.thisPage size with hm
  set d := parentOf s t size
  have hfilled : Filled _ m s.thisPage size := fill_filled _ _ _
  have hparent : d ∈ toList t := last_mem ht _ _
  have hkept (b : Bucket) (hb : b ∈ toList t) : view m b.addr = view s.mem b.addr :=
    view_kept h hroom hb hfilled rfl
  have hsize : (header s.mem d.addr).objSize = (view m d.addr).value.size := by
    rw [hkept d hparent]
    rfl
  have hne : (view m d.addr).value.size ≠ size := by
    rw [hkept d hparent, view_value h hparent]
    exact fun heq => habsent (List.mem_map.mpr ⟨d, hparent, heq⟩)
  have hmem : (grown P s size d.addr).mem = relink m (view m d.addr).value.size size d.addr s.newBucket := by
    rw [grown_mem, ← hm, hsize]
  rw [grown_kheap, hmem]
  have hnew := made_linked P h hparent (view m d.addr).value.size size
  refine h.linked.hang (view_addr s.mem) ht (nodup h) ⟨s.kheap, 0⟩ hnew ?_ fun c hc hcd => ?_
  · change view _ d.addr = (view s.mem d.addr).point _ _ _
    rw [relink_view hne, hkept d hparent]
  · have hapart : c.addr ≠ d.addr := by
      intro heq
      apply hcd
      rw [← view_value h hc, heq]
      exact view_value h hparent
    rw [relink_apart (buckets_apart h hparent hc hapart.symm) (buckets_apart h hc hparent hapart), hkept c hc]

theorem count_hang (P : PageMap) (s : Kheap) (t : BinaryTree Bucket) (size : Word) :
    (sizes (SearchTree.hang Bucket.key size.toNat (made P s size) t)).count size =
      ((made P s size).size :: sizes t).count size :=
  ((hang_perm _ _ _).map Bucket.size).count_eq size

theorem grown_holds (h : Holds s t) (hroom : Room s) (ht : t ≠ .nil) (habsent : size ∉ sizes t)
    (hsize : (made P s size).size = size) : Holds (grown P s size (parentOf s t size).addr)
      (SearchTree.hang Bucket.key size.toNat (made P s size) t) := by
  have hroom' := room_iff.mp hroom
  have hgrown : (s.kheapSize + pageSize).toNat = s.kheapSize.toNat + 4096 := by
    rw [BitVec.toNat_add, show pageSize.toNat = 4096 from rfl]
    omega
  refine ⟨grown_linked h hroom ht habsent, ?_, fun b hb => ?_, ?_⟩
  · have hkey : size.toNat = (made P s size).key := by rw [Bucket.key, hsize]
    rw [hkey]
    refine h.ordered.hang fun b hb heq => habsent (List.mem_map.mpr ⟨b, hb, ?_⟩)
    exact (BitVec.eq_of_toNat_eq heq).trans hsize
  · change ∃ n, 4096 * (n + 1) ≤ (s.kheapSize + pageSize).toNat ∧ _
    rw [hgrown]
    rcases List.mem_cons.mp ((hang_perm _ _ _).mem_iff.mp hb) with rfl | hb
    · exact ⟨s.kheapSize.toNat / 4096, by omega, newBucket_eq h.paged⟩
    · obtain ⟨n, hn, haddr⟩ := h.inHeap b hb
      exact ⟨n, by omega, haddr⟩
  · change (s.kheapSize + pageSize).toNat % 4096 = 0
    have hpaged := h.paged
    omega

theorem serves (P : PageMap) (h : Holds s t) (ht : t ≠ .nil) (habsent : size ∉ sizes t)
    (hsize : 4 ≤ size.toNat) (hroom : Room s) : Serves P s t size := by
  have hne : size ≠ 0 := by
    rintro rfl
    exact absurd hsize (by decide)
  have hmade : (made P s size).size = size := (fill_filled _ _ _).objSize hsize
  refine ⟨_, _, (alloc_iff P s _ size).mpr ⟨hne, _, search_exits h.linked habsent ⟨s.kheap, 0⟩, rfl⟩,
    grown_holds h hroom ht habsent hmade, ?_, ?_⟩
  · rw [count_hang, hmade, List.count_cons_self, List.count_eq_zero.mpr habsent]
  · rw [if_neg habsent]
    exact ⟨made P s size, hmade, hang_perm _ _ _⟩

theorem Serves.returns (h : Holds s t) (hserves : Serves P s t size) : size ≠ 0 ∧ size ∉ sizes t ∧
    ∃ t', Holds (grown P s size (parentOf s t size).addr) t' ∧ (sizes t').count size = 1 ∧
      ∀ b ∈ toList t, b ∈ toList t' := by
  obtain ⟨s', t', hreturns, hholds, hcount, hbuckets⟩ := hserves
  obtain ⟨hne, parent, hsearch, rfl⟩ := (alloc_iff P s s' size).mp hreturns
  have habsent : size ∉ sizes t := fun hpresent =>
    diverges_iff.mp (search_diverges h.linked h.ordered hpresent s.kheap) ⟨parent, hsearch⟩
  obtain rfl := hsearch.unique (search_exits h.linked habsent ⟨s.kheap, 0⟩)
  rw [if_neg habsent] at hbuckets
  obtain ⟨c, -, hperm⟩ := hbuckets
  exact ⟨hne, habsent, t', hholds, hcount, fun b hb => hperm.mem_iff.mpr (List.mem_cons_of_mem c hb)⟩

theorem empty_lost (h : Holds s .nil) : ¬Serves P s .nil size := by
  intro hserves
  obtain ⟨-, -, t', hholds, hcount, -⟩ := hserves.returns h
  have hzero : (grown P s size (parentOf s .nil size).addr).kheap = 0 := by
    rw [grown_kheap]
    exact h.linked
  have hlinked := hholds.linked
  rw [hzero] at hlinked
  rw [show t' = .nil from hlinked.unique rfl] at hcount
  exact absurd hcount (by simp [sizes, toList])

def careless : PageMap where
  allocMapPage virt _ m := if kernelHeapStart ≤ virt ∧ virt < pageDirBase then m else fun a => m a + 1
  below _ _ _ _ ha hvirt hbase := congrFun (if_pos ⟨BitVec.le_trans ha (BitVec.le_of_lt hvirt), hbase⟩) _

theorem relink_byte {objSize x : Word} (h : x = p ∨ 12 ≤ (x - p).toNat) :
    relink m objSize size p v x = m x := by
  rw [relink]
  split_ifs
  · exact store_miss (by bv_omega)
  · exact store_miss (by bv_omega)

theorem no_room (h : Holds s t) (ht : t ≠ .nil) (hroom : ¬Room s) : ¬Serves careless s t size := by
  intro hserves
  obtain ⟨-, habsent, t', hholds, -, hkept⟩ := hserves.returns h
  have hparent : parentOf s t size ∈ toList t := last_mem ht _ _
  set b := parentOf s t size
  have hvalue : load (grown careless s size b.addr).mem b.addr = load s.mem b.addr := by
    have hafter := congrArg Bucket.size (view_value hholds (hkept b hparent))
    exact hafter.trans (congrArg Bucket.size (view_value h hparent)).symm
  have hbyte := load_inj hvalue (show (b.addr - b.addr).toNat < 4 by simp)
  obtain ⟨n, hn, haddr⟩ := h.inHeap b hparent
  have hlt := s.kheapSize.isLt
  have hpaged := h.paged
  have hfar : 4096 ≤ (b.addr - s.thisPage).toNat := by
    have hdiff : b.addr - s.thisPage = word (4096 * n + 4068) - s.kheapSize := by
      rw [haddr, bucketAddr, Kheap.thisPage, kernelHeapStart]
      bv_omega
    rw [hdiff, BitVec.toNat_sub, toNat_word (by omega)]
    omega
  have hmoved : careless.allocMapPage s.thisPage 0x3 s.mem = fun a => s.mem a + 1 := if_neg (no_window hroom)
  rw [grown_mem, relink_byte (Or.inl rfl), (fill_filled _ _ _).outside _ hfar, hmoved] at hbyte
  exact absurd hbyte (by bv_omega)

theorem toNat_byteOf (v : Word) (i : ℕ) : (byteOf v i).toNat = v.toNat / 2 ^ (8 * i) % 256 := by
  rw [byteOf, BitVec.extractLsb'_toNat, Nat.shiftRight_eq_div_pow]

theorem small_spoiled (h : Holds s t) (ht : t ≠ .nil) (hsize : size.toNat < 4) (hroom : Room s) :
    ¬Serves P s t size := by
  intro hserves
  obtain ⟨hne, habsent, t', hholds, hcount, -⟩ := hserves.returns h
  have hspoiled := (fill_filled (P.allocMapPage s.thisPage 0x3 s.mem) s.thisPage size).spoiled hne hsize
  have hmade : (made P s size).size ≠ size := by
    intro heq
    have hbyte := byteOf_load (fill (P.allocMapPage s.thisPage 0x3 s.mem) s.thisPage size) s.newBucket
      (show 3 - size.toNat < 4 by omega)
    rw [show load _ s.newBucket = size from heq, Kheap.newBucket, hspoiled, ← BitVec.toNat_inj, toNat_byteOf,
      toNat_byteOf] at hbyte
    have hpage := hroom.page
    have htop : (s.thisPage + word 4068).toNat = s.thisPage.toNat + 4068 := by
      have hroom' := room_iff.mp hroom
      rw [BitVec.toNat_add, toNat_word (by decide)]
      omega
    have hsmall : size.toNat / 2 ^ (8 * (3 - size.toNat)) ≤ size.toNat := Nat.div_le_self _ _
    rw [htop, show 2 ^ (8 * 3) = 16777216 from rfl] at hbyte
    generalize size.toNat / 2 ^ (8 * (3 - size.toNat)) = low at hbyte hsmall
    omega
  rw [hholds.linked.unique (grown_linked h hroom ht habsent), count_hang, List.count_cons_of_ne hmade,
    List.count_eq_zero.mpr habsent] at hcount
  exact absurd hcount (by decide)

/-- The search tree does its work for a new size of at least four bytes, below a bucket that is
there already, on a page that does not reach the page tables. -/
theorem bucket_lookup_iff (h : Holds s t) (size : Word) :
    (∀ P, Serves P s t size) ↔ t ≠ .nil ∧ size ∉ sizes t ∧ 4 ≤ size.toNat ∧ Room s := by
  constructor
  · intro hserves
    have ht : t ≠ .nil := by
      rintro rfl
      exact empty_lost h (hserves careless)
    have hroom : Room s := by
      by_contra hroom
      exact no_room h ht hroom (hserves careless)
    have hsize : 4 ≤ size.toNat := by
      by_contra hsize
      exact small_spoiled h ht (Nat.lt_of_not_le hsize) hroom (hserves careless)
    exact ⟨ht, ((hserves careless).returns h).2.1, hsize, hroom⟩
  · rintro ⟨ht, habsent, hsize, hroom⟩ P
    exact serves P h ht habsent hsize hroom

def one : Kheap := ⟨bucketAddr 0, 0x1000, store (fun _ => 0) (bucketAddr 0) 16⟩

def oneTree : BinaryTree Bucket := .node ⟨bucketAddr 0, 16⟩ .nil .nil

theorem one_holds : Holds one oneTree := by
  have hmiss (a : Word) (h : 4 ≤ (a - bucketAddr 0).toNat) (h' : 4 ≤ (bucketAddr 0 - a).toNat) :
      load one.mem a = 0 := by
    rw [one, load_store_miss h h', load]
    decide
  refine ⟨⟨by decide, ?_, hmiss _ (by decide) (by decide), hmiss _ (by decide) (by decide)⟩, ?_,
    fun b hb => ?_, rfl⟩
  · exact congrArg (Bucket.mk _) (load_store _ _ _)
  · exact ⟨trivial, trivial, fun _ h => absurd h List.not_mem_nil, fun _ h => absurd h List.not_mem_nil⟩
  · obtain rfl : b = ⟨bucketAddr 0, 16⟩ := List.mem_singleton.mp hb
    exact ⟨0, by decide, rfl⟩

theorem second_size : Serves careless one oneTree 32 :=
  (bucket_lookup_iff one_holds 32).mpr ⟨nofun, by decide, by decide, by unfold Room; decide⟩ careless

theorem hangs_or_loses : (∀ P, ¬Serves P one oneTree 16) ∧ ∀ P, ¬Serves P (kheapInit fun _ => 0) .nil 16 := by
  constructor
  · intro P hserves
    exact (hserves.returns one_holds).2.1 (List.mem_singleton.mpr rfl)
  · intro P
    exact empty_lost ⟨rfl, trivial, fun _ h => absurd h List.not_mem_nil, rfl⟩

end Rinix.Buckets
