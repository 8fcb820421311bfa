import Mathlib.Data.List.GetD
import Mathlib.Data.List.TakeWhile
import Rinix.Stdio.Convert

namespace Rinix.Stdio

open ByteMemory WhileLoop

def Filled (s : Buffer) (l : List Byte) : Prop := ∀ k < l.length, s (word k) = l.getD k 0

def Outside (n : ℕ) (s t : Buffer) : Prop := ∀ k : Word, n ≤ k.toNat → t k = s k

structure Text (s : Buffer) (l : List Byte) : Prop where
  chars : ∀ k ≤ l.length, s (word k) = l.getD k 0
  noNul : 0 ∉ l

variable {s t u : Buffer} {l : List Byte} {c : Byte} {m n i : ℕ}

theorem Filled.nil (s : Buffer) : Filled s [] := fun k hk => absurd hk (Nat.not_lt_zero k)

theorem Filled.set (h : Filled s l) (hl : l.length < 4294967296) (c : Byte) :
    ∀ k ≤ l.length, s.set (word l.length) c (word k) = (l ++ [c]).getD k 0 := by
  intro k hk
  rcases Nat.lt_or_eq_of_le hk with hlt | rfl
  · have hne : word k ≠ word l.length := fun heq => absurd ((word_inj (by omega) hl).mp heq) (by omega)
    rw [Buffer.set, if_neg hne, h k hlt, List.getD_append _ _ _ _ hlt]
  · rw [Buffer.set, if_pos rfl, List.getD_append_right _ _ _ _ (Nat.le_refl _), Nat.sub_self]
    rfl

theorem Filled.snoc (h : Filled s l) (hl : l.length < 4294967296) (c : Byte) :
    Filled (s.set (word l.length) c) (l ++ [c]) := by
  intro k hk
  rw [List.length_append, List.length_singleton] at hk
  exact h.set hl c k (by omega)

theorem Outside.refl (n : ℕ) (s : Buffer) : Outside n s s := fun _ _ => rfl

theorem Outside.mono (h : Outside m s t) (hmn : m ≤ n) : Outside n s t :=
  fun k hk => h k (Nat.le_trans hmn hk)

theorem Outside.trans (h : Outside n s t) (h' : Outside n t u) : Outside n s u :=
  fun k hk => (h' k hk).trans (h k hk)

theorem Outside.set (h : Outside n s t) {i : Word} (hi : i.toNat < n) (c : Byte) :
    Outside n s (t.set i c) := by
  intro k hk
  have hne : k ≠ i := by
    rintro rfl
    omega
  rw [Buffer.set, if_neg hne]
  exact h k hk

theorem takeWhile_getD (l : List Byte) (k : ℕ) (hk : k ≤ (l.takeWhile (· ≠ 0)).length) :
    (l ++ [0]).getD k 0 = (l.takeWhile (· ≠ 0)).getD k 0 := by
  induction l generalizing k with
  | nil =>
    rw [Nat.le_zero.mp hk]
    rfl
  | cons c l ih =>
    by_cases hc : c = 0
    · rw [List.takeWhile_cons_of_neg (by simpa using hc)] at hk ⊢
      rw [Nat.le_zero.mp hk, hc]
      rfl
    · rw [List.takeWhile_cons_of_pos (by simpa using hc)] at hk ⊢
      cases k with
      | zero => rfl
      | succ k =>
        rw [List.cons_append, List.getD_cons_succ, List.getD_cons_succ]
        exact ih k (Nat.le_of_succ_le_succ hk)

theorem Filled.text (h : Filled s l) (hl : l.length < 4294967296) :
    Text (s.set (word l.length) 0) (l.takeWhile (· ≠ 0)) := by
  have hlen := (List.takeWhile_prefix (fun c : Byte => decide (c ≠ 0)) (l := l)).length_le
  refine ⟨fun k hk => ?_, fun hmem => ?_⟩
  · rw [h.set hl 0 k (by omega)]
    exact takeWhile_getD l k hk
  · have hne := List.mem_takeWhile_imp hmem
    exact absurd rfl (of_decide_eq_true hne)

theorem Text.ne_zero (h : Text s l) (hk : n < l.length) : s (word n) ≠ 0 := by
  rw [h.chars n (Nat.le_of_lt hk), List.getD_eq_getElem _ _ hk]
  intro hzero
  exact h.noNul (hzero ▸ List.getElem_mem hk)

theorem Text.end_zero (h : Text s l) : s (word l.length) = 0 := by
  rw [h.chars _ (Nat.le_refl _), List.getD_eq_default _ _ (Nat.le_refl _)]

theorem Text.strlen_from (h : Text s l) (n : ℕ) (hn : i + n = l.length) :
    Exits (strlenTurn s) (word i) (word l.length) := by
  induction n generalizing i with
  | zero =>
    obtain rfl : i = l.length := hn
    exact Exits.of_exit (if_neg (fun hne => hne h.end_zero))
  | succ n ih =>
    have hturn : strlenTurn s (word i) = .again (word (i + 1)) := by
      rw [strlenTurn, if_pos (h.ne_zero (by omega)), show (1 : Word) = word 1 from rfl, word_add]
    exact (exits_again hturn).mpr (ih (by omega))

theorem Text.strlen (h : Text s l) : Returns (strlen s) (word l.length) :=
  h.strlen_from l.length (Nat.zero_add _)

theorem strlen_fuelled (s : Buffer) : Fuelled (strlen s) := run_fuelled _ _

theorem reverse_fuelled (s : Buffer) : Fuelled (reverse s) :=
  (strlen_fuelled s).bind fun _ => run_fuelled _ _

def Swapped (s : Buffer) (n i : ℕ) (t : Buffer) : Prop :=
  t (word n) = s (word n) ∧
    ∀ k < n, t (word k) = if k < i ∨ n - 1 - i < k then s (word (n - 1 - k)) else s (word k)

theorem Swapped.next (h : Swapped s n i t) (hn : n < 4294967296) (hi : i < n - 1 - i) :
    Swapped s n (i + 1) ((t.set (word i) (t (word (n - 1 - i)))).set (word (n - 1 - i)) (t (word i))) := by
  have hset (k : ℕ) (hk : k ≤ n) :
      ((t.set (word i) (t (word (n - 1 - i)))).set (word (n - 1 - i)) (t (word i))) (word k) =
        if k = n - 1 - i then t (word i) else if k = i then t (word (n - 1 - i)) else t (word k) := by
    simp only [Buffer.set, word_inj (show k < 4294967296 by omega) (show n - 1 - i < 4294967296 by omega),
      word_inj (show k < 4294967296 by omega) (show i < 4294967296 by omega)]
  have hlow : t (word i) = s (word i) := by rw [h.2 i (by omega), if_neg (by omega)]
  have hhigh : t (word (n - 1 - i)) = s (word (n - 1 - i)) := by rw [h.2 _ (by omega), if_neg (by omega)]
  refine ⟨?_, fun k hk => ?_⟩
  · rw [hset n (Nat.le_refl n), if_neg (by omega), if_neg (by omega), h.1]
  · rw [hset k (by omega)]
    by_cases hki : k = n - 1 - i
    · rw [if_pos hki, if_pos (by omega), hlow, hki]
      congr 2
      omega
    · by_cases hk' : k = i
      · rw [if_neg hki, if_pos hk', if_pos (by omega), hhigh, hk']
      · rw [if_neg hki, if_neg hk', h.2 k hk]
        exact if_congr (by omega) rfl rfl

theorem Swapped.done (h : Swapped s n i t) (hn : n < 2147483648) (hpos : 0 < n) (hi : 2 * i ≤ n)
    (hlast : n - 1 - i ≤ i) :
    Exits reverseTurn (word i, word (n - 1 - i), t) t ∧ ∀ k < n, t (word k) = s (word (n - 1 - k)) := by
  have hslt : ¬(word i).slt (word (n - 1 - i)) = true := by
    rw [word_slt (by omega) (by omega)]
    omega
  refine ⟨Exits.of_exit (if_neg hslt), fun k hk => ?_⟩
  rw [h.2 k hk]
  split_ifs with hout
  · rfl
  · congr 2
    omega

theorem swapped_exits (hn : n < 2147483648) (hpos : 0 < n) (m : ℕ) (hm : n ≤ 2 * i + m) (hi : 2 * i ≤ n)
    (h : Swapped s n i t) : ∃ u, Exits reverseTurn (word i, word (n - 1 - i), t) u ∧ u (word n) = s (word n) ∧
      ∀ k < n, u (word k) = s (word (n - 1 - k)) := by
  induction m generalizing i t with
  | zero =>
    obtain ⟨hexit, hchars⟩ := h.done hn hpos hi (by omega)
    exact ⟨t, hexit, h.1, hchars⟩
  | succ m ih =>
    by_cases hlast : n - 1 - i ≤ i
    · obtain ⟨hexit, hchars⟩ := h.done hn hpos hi hlast
      exact ⟨t, hexit, h.1, hchars⟩
    · have hslt : (word i).slt (word (n - 1 - i)) = true := (word_slt (by omega) (by omega)).mpr (by omega)
      have hturn : reverseTurn (word i, word (n - 1 - i), t) = .again (word (i + 1), word (n - 1 - (i + 1)),
          (t.set (word i) (t (word (n - 1 - i)))).set (word (n - 1 - i)) (t (word i))) := by
        have hprev : word (n - 1 - i) - 1 = word (n - 1 - (i + 1)) := by
          rw [show (1 : Word) = word 1 from rfl, word_sub (by omega), Nat.sub_sub]
        rw [reverseTurn, if_pos hslt, hprev, show (1 : Word) = word 1 from rfl, word_add]
      obtain ⟨u, hu, hres⟩ := ih (by omega) (by omega) (h.next (by omega) (by omega))
      exact ⟨u, (exits_again hturn).mpr hu, hres⟩

theorem Text.reverse (h : Text s l) (hl : l.length < 2147483648) :
    ∃ t, Returns (reverse s) t ∧ Text t l.reverse := by
  have hreturns (t : Buffer) (ht : Exits reverseTurn (0, word l.length - 1, s) t) :
    Returns (Stdio.reverse s) t :=
    (returns_bind (strlen_fuelled s) fun _ => run_fuelled _ _).mpr ⟨_, h.strlen, ht⟩
  by_cases hempty : l.length = 0
  · obtain rfl := List.eq_nil_of_length_eq_zero hempty
    exact ⟨s, hreturns s (Exits.of_exit rfl), h⟩
  · have hstart : Swapped s l.length 0 s := ⟨rfl, fun k hk => by rw [if_neg (by omega)]⟩
    have hlast : word l.length - 1 = word (l.length - 1 - 0) := by
      rw [show (1 : Word) = word 1 from rfl, word_sub (by omega), Nat.sub_zero]
    obtain ⟨t, ht, hnul, hchars⟩ := swapped_exits hl (by omega) l.length (by omega) (by omega) hstart
    refine ⟨t, hreturns t (by rw [hlast]; exact ht), fun k hk => ?_, by simpa using h.noNul⟩
    rw [List.length_reverse] at hk
    rcases Nat.lt_or_eq_of_le hk with hlt | rfl
    · rw [hchars k hlt, h.chars _ (by omega), List.getD_reverse k hlt]
    · rw [hnul, h.end_zero, List.getD_eq_default _ _ (by simp)]

theorem reverseTurn_outside {i j : Word} (hn : n < 2147483648)
    (hij : i.slt j = true → i.toNat < n ∧ j.toNat < n)
    (h : Outside n s t) : (reverseTurn (i, j, t)).Meets
      (fun q => (q.1.slt q.2.1 = true → q.1.toNat < n ∧ q.2.1.toNat < n) ∧ Outside n s q.2.2)
      fun u => Outside n s u := by
  by_cases hslt : i.slt j = true
  · obtain ⟨hi, hj⟩ := hij hslt
    have hlt : i.toNat < j.toNat := by
      rw [← word_toNat i, ← word_toNat j] at hslt
      exact (word_slt (by omega) (by omega)).mp hslt
    rw [reverseTurn, if_pos hslt]
    refine ⟨fun _ => ?_, (h.set hi _).set hj _⟩
    rw [← word_toNat i, ← word_toNat j, show (1 : Word) = word 1 from rfl, word_add, word_sub (by omega),
      toNat_word (by omega), toNat_word (by omega)]
    omega
  · rw [reverseTurn, if_neg hslt]
    exact h

theorem Text.reverse_outside (h : Text s l) (hl : l.length < 2147483648) (ht : Returns (Stdio.reverse s) t) :
    Outside l.length s t := by
  obtain ⟨n, hn, hexit⟩ := (returns_bind (strlen_fuelled s) fun _ => run_fuelled _ _).mp ht
  obtain rfl := (strlen_fuelled s).unique hn h.strlen
  refine Exits.result (fun q hq => reverseTurn_outside hl hq.1 hq.2) ⟨fun hslt => ?_, Outside.refl _ s⟩ hexit
  by_cases hempty : l.length = 0
  · have hnone : ¬(0 : Word).slt (word 0 - 1) = true := by decide
    rw [hempty] at hslt
    exact absurd hslt hnone
  · have hlast : word l.length - 1 = word (l.length - 1) := by
      rw [show (1 : Word) = word 1 from rfl, word_sub (by omega)]
    change 0 < l.length ∧ (word l.length - 1).toNat < l.length
    rw [hlast, toNat_word (by omega)]
    omega

end Rinix.Stdio
