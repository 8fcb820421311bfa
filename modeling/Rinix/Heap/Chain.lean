import Rinix.Heap.Header
import Rinix.Lib.Tiling

namespace Rinix.Heap

open ByteMemory Tiling

abbrev Block := Cell Word

def flagOf (c : Block) : Byte := if c.owner.isSome then kmemUsed else kmemFree

def cellHeader (p a : ℕ) (c : Block) : Kmemptr := ⟨word p, word (a + 16 + c.size), word c.size, flagOf c⟩

def tailHeader (p a : ℕ) : Kmemptr := ⟨word p, word a, 0, kmemTail⟩

def Seg (m : Mem) : ℕ → ℕ → List Block → Prop
  | _, _, [] => True
  | p, a, c :: cs => kmemptr m (word a) = cellHeader p a c ∧ Seg m a (a + 16 + c.size) cs

def Chain (m : Mem) : ℕ → ℕ → List Block → Prop
  | p, a, [] => kmemptr m (word a) = tailHeader p a
  | p, a, c :: cs => kmemptr m (word a) = cellHeader p a c ∧ Chain m a (a + 16 + c.size) cs

def lastStart : ℕ → ℕ → List Block → ℕ
  | p, _, [] => p
  | _, a, c :: cs => lastStart a (a + 16 + c.size) cs

variable {m m' : Mem} {p q a b : ℕ} {l r cs : List Block} {c d : Block}

theorem chain_append :
    Chain m p a (l ++ r) ↔ Seg m p a l ∧ Chain m (lastStart p a l) (a + extent 16 l) r := by
  induction l generalizing p a with
  | nil => simp [Seg, lastStart]
  | cons c l ih =>
    simp only [List.cons_append, Seg, Chain, lastStart, extent_cons, ih, and_assoc]
    rw [show a + (16 + c.size + extent 16 l) = a + 16 + c.size + extent 16 l by omega]

@[simp] theorem lastStart_snoc : lastStart p a (l ++ [c]) = a + extent 16 l := by
  induction l generalizing p a with
  | nil => simp [lastStart]
  | cons d l ih =>
    simp only [List.cons_append, lastStart, ih, extent_cons]
    omega

theorem Chain.header_at (h : Chain m p a (l ++ c :: r)) :
    kmemptr m (word (a + extent 16 l)) = cellHeader (lastStart p a l) (a + extent 16 l) c :=
  (chain_append.mp h).2.1

theorem Chain.tail_header (h : Chain m p a cs) :
    kmemptr m (word (a + extent 16 cs)) = tailHeader (lastStart p a cs) (a + extent 16 cs) := by
  rw [← List.append_nil cs, chain_append] at h
  exact h.2

theorem Chain.prev_head (h : Chain m p a cs) : (kmemptr m (word a)).prev = word p := by
  cases cs with
  | nil => rw [show kmemptr m (word a) = _ from h]; rfl
  | cons c cs => rw [h.1]; rfl

theorem Seg.congr (h : Seg m p a cs)
    (hm : ∀ y, a ≤ y → y + 16 ≤ a + extent 16 cs → kmemptr m' (word y) = kmemptr m (word y)) :
    Seg m' p a cs := by
  induction cs generalizing p a with
  | nil => trivial
  | cons c cs ih =>
    simp only [extent_cons] at hm
    refine ⟨(hm a (by omega) (by omega)).trans h.1, ih h.2 ?_⟩
    intro y hy hy'
    exact hm y (by omega) (by omega)

theorem Chain.of_headers (h : Chain m p a cs)
    (hm : ∀ l r, cs = l ++ r → kmemptr m' (word (a + extent 16 l)) = kmemptr m (word (a + extent 16 l))) :
    Chain m' p a cs := by
  induction cs generalizing p a with
  | nil =>
    have := hm [] [] rfl
    exact this.trans h
  | cons c cs ih =>
    have h0 := hm [] (c :: cs) rfl
    refine ⟨h0.trans h.1, ih h.2 ?_⟩
    rintro l r rfl
    have := hm (c :: l) r rfl
    rwa [extent_cons, show a + (16 + c.size + extent 16 l) = a + 16 + c.size + extent 16 l by omega] at this

theorem Chain.congr (h : Chain m p a cs)
    (hm : ∀ y, a ≤ y → y ≤ a + extent 16 cs → kmemptr m' (word y) = kmemptr m (word y)) :
    Chain m' p a cs := by
  refine h.of_headers fun l r hcells => hm _ (Nat.le_add_right _ _) ?_
  rw [hcells, extent_append]
  omega

theorem Chain.relink (h : Chain m p a cs)
    (h0 : kmemptr m' (word a) = { kmemptr m (word a) with prev := word q })
    (hm : ∀ y, a + 16 ≤ y → y ≤ a + extent 16 cs → kmemptr m' (word y) = kmemptr m (word y)) :
    Chain m' q a cs := by
  cases cs with
  | nil =>
    simp only [Chain] at h ⊢
    rw [h0, h]
    rfl
  | cons c cs =>
    obtain ⟨hc, ht⟩ := h
    simp only [extent_cons] at hm
    refine ⟨by rw [h0, hc]; rfl, ht.congr ?_⟩
    intro y hy hy'
    exact hm y (by omega) (by omega)

theorem flagOf_free (hc : c.owner = none) : flagOf c = kmemFree := by simp [flagOf, hc]

theorem flagOf_used (hc : c.owner.isSome) : flagOf c = kmemUsed := by simp [flagOf, hc]

theorem flagOf_ne_tail (c : Block) : flagOf c ≠ kmemTail := by
  unfold flagOf
  split_ifs <;> decide

theorem flagOf_eq_free : flagOf c = kmemFree ↔ c.owner = none := by
  unfold flagOf
  split_ifs with h
  · simp only [kmemUsed, kmemFree]
    constructor
    · intro h'; exact absurd h' (by decide)
    · intro h'; simp [h'] at h
  · simpa using h

theorem kmemptrNext_of_cell (h : kmemptr m (word a) = cellHeader p a c) :
    kmemptrNext m (word a) = word (a + 16 + c.size) := by
  simp only [kmemptrNext, h, cellHeader, ne_eq, flagOf_ne_tail, not_false_eq_true, ↓reduceIte]

end Rinix.Heap
