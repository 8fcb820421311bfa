import Mathlib.Data.Nat.Digits.Lemmas
import Rinix.Stdio.Text

namespace Rinix.Stdio

open ByteMemory WhileLoop

def numeral (b n : ℕ) : List ℕ := if n = 0 then [0] else Nat.digits b n

variable (stray : Word → Byte)

def digitChars (base num : Word) : List Byte :=
  (numeral base.toNat num.toNat).map fun k => digits stray (word k)

def signedChars (base num : Word) : List Byte :=
  if num = 0x80000000 then [digits stray (num.srem base)] else digitChars stray base num

def magnitude (num : Word) : Word := if num.slt 0 then -num else num

def signChars (num : Word) : List Byte := if num.slt 0 then [minus] else []

def printed (l : List Byte) : List Byte := (l.takeWhile (· ≠ 0)).reverse

def itoaText (num base : Word) : List Byte :=
  printed (signedChars stray base (magnitude num) ++ signChars num)

def ltoaText (num base : Word) : List Byte := printed (signedChars stray base (magnitude num))

def utoaText (num base : Word) : List Byte := printed (digitChars stray base num)

variable {stray} {base num : Word} {s : Buffer} {l : List Byte} {b n : ℕ}

theorem numeral_step (hb : 2 ≤ b) (n : ℕ) :
    numeral b n = n % b :: if n / b = 0 then [] else numeral b (n / b) := by
  by_cases hn : n = 0
  · subst hn
    simp [numeral]
  · rw [numeral, if_neg hn, Nat.digits_eq_cons_digits_div hb hn]
    congr 1
    split_ifs with hdiv
    · rw [hdiv, Nat.digits_zero]
    · rw [numeral, if_neg hdiv]

theorem numeral_length (hb : 2 ≤ b) (hn : n < 4294967296) : (numeral b n).length ≤ 32 := by
  rw [numeral]
  split_ifs
  · decide
  · rw [Nat.digits_length_le_iff hb]
    calc n < 2 ^ 32 := hn
      _ ≤ b ^ 32 := Nat.pow_le_pow_left hb 32

theorem unsignedTurn_eq (base num i : Word) (s : Buffer) :
    unsignedTurn stray base (num, i, s) =
      if num.toNat / base.toNat = 0 then
        .exit (i + 1, s.set i (digits stray (word (num.toNat % base.toNat))))
      else .again (num / base, i + 1, s.set i (digits stray (word (num.toNat % base.toNat)))) := by
  have hmod : num % base = word (num.toNat % base.toNat) := by rw [← BitVec.toNat_umod, word_toNat]
  have hpos : 0 < num / base ↔ ¬num.toNat / base.toNat = 0 := by
    rw [BitVec.lt_def, BitVec.toNat_udiv]
    exact Nat.pos_iff_ne_zero
  rw [unsignedTurn, hmod]
  by_cases h : num.toNat / base.toNat = 0
  · rw [if_pos h, if_neg (fun hlt => hpos.mp hlt h)]
  · rw [if_neg h, if_pos (hpos.mpr h)]

theorem digitChars_step (hb : 2 ≤ base.toNat) (num : Word) : digitChars stray base num =
    digits stray (word (num.toNat % base.toNat)) ::
      if num.toNat / base.toNat = 0 then [] else digitChars stray base (num / base) := by
  rw [digitChars, numeral_step hb, List.map_cons]
  congr 1
  split_ifs with h
  · rfl
  · rw [digitChars, BitVec.toNat_udiv]

theorem digitChars_length (stray : Word → Byte) (hb : 2 ≤ base.toNat) (num : Word) :
    (digitChars stray base num).length ≤ 32 := by
  rw [digitChars, List.length_map]
  exact numeral_length hb num.isLt

theorem digits_exit {body : Word × Word × Buffer → Turn (Word × Word × Buffer) (Word × Buffer)}
    (hb : 2 ≤ base.toNat)
    (hbody : ∀ (v i : Word) (s : Buffer), v.toNat ≤ num.toNat →
    body (v, i, s) = unsignedTurn stray base (v, i, s))
    (h : Filled s l) (hl : l.length + (digitChars stray base num).length < 4294967296) :
    ∃ t, Exits body (num, word l.length, s) (word (l ++ digitChars stray base num).length, t) ∧
      Filled t (l ++ digitChars stray base num) ∧ Outside (l ++ digitChars stray base num).length s t := by
  induction hv : num.toNat using Nat.strong_induction_on generalizing num l s with
  | _ v ih =>
    have hturn := hbody num (word l.length) s (Nat.le_refl _)
    have hnext : word l.length + 1 = word (l.length + 1) := by
      rw [show (1 : Word) = word 1 from rfl, word_add]
    have hsnoc := h.snoc (by omega) (digits stray (word (num.toNat % base.toNat)))
    have hlen : (l ++ [digits stray (word (num.toNat % base.toNat))]).length = l.length + 1 := by simp
    have hkept : Outside (l.length + 1) s (s.set (word l.length)
      (digits stray (word (num.toNat % base.toNat)))) :=
      (Outside.refl (l.length + 1) s).set (by rw [toNat_word (by omega)]; omega) _
    rw [unsignedTurn_eq, hnext] at hturn
    rw [digitChars_step hb] at hl ⊢
    by_cases hdiv : num.toNat / base.toNat = 0
    · rw [if_pos hdiv] at hturn ⊢
      refine ⟨_, ?_, hsnoc, ?_⟩
      · rw [hlen]
        exact Exits.of_exit hturn
      · rw [hlen]
        exact hkept
    · rw [if_neg hdiv] at hturn hl ⊢
      have hnum : (num / base).toNat = num.toNat / base.toNat := BitVec.toNat_udiv
      have hpos : 0 < num.toNat := Nat.pos_of_ne_zero fun h => hdiv (by rw [h, Nat.zero_div])
      have hlt : num.toNat / base.toNat < num.toNat := Nat.div_lt_self hpos hb
      rw [List.length_cons] at hl
      have hrest := ih (num / base).toNat (by omega)
        (fun v i s hle => hbody v i s (by omega)) hsnoc (by omega) rfl
      obtain ⟨t, ht, hfilled, hout⟩ := hrest
      rw [List.append_assoc, List.singleton_append] at ht hfilled hout
      rw [hlen] at ht
      refine ⟨t, (exits_again hturn).mpr ht, hfilled, (hkept.mono ?_).trans hout⟩
      rw [List.length_append, List.length_cons]
      omega

theorem unsigned_exit (stray : Word → Byte) (hb : 2 ≤ base.toNat) (num : Word) (s : Buffer) :
    ∃ t, Exits (unsignedTurn stray base) (num, 0, s) (word (digitChars stray base num).length, t) ∧
      Filled t (digitChars stray base num) ∧ Outside (digitChars stray base num).length s t := by
  have hlen := digitChars_length stray hb num
  exact digits_exit hb (fun _ _ _ _ => rfl) (Filled.nil s) (by simp only [List.length_nil]; omega)

theorem msb_small {v : Word} (h : v.toNat < 0x80000000) : v.msb = false := by
  rw [BitVec.msb_eq_false_iff_two_mul_lt]
  omega

theorem signedTurn_eq {v : Word} (hv : v.toNat < 0x80000000) (hb : base.toNat ≤ 35) (i : Word) (s : Buffer) :
    signedTurn stray base (v, i, s) = unsignedTurn stray base (v, i, s) := by
  have hbase : base.msb = false := msb_small (by omega)
  have hrem : v.srem base = v % base := by rw [BitVec.srem_eq, msb_small hv, hbase]
  have hdiv : v.sdiv base = v / base := by
    rw [BitVec.sdiv_eq, msb_small hv, hbase]
    rfl
  have hquot : (v / base).toNat ≤ v.toNat := by
    rw [BitVec.toNat_udiv]
    exact Nat.div_le_self _ _
  have hpos : (0 : Word).slt (v / base) = true ↔ 0 < v / base := by
    rw [← word_toNat (v / base), show (0 : Word) = word 0 from rfl, word_slt (by omega) (by omega),
      word_lt (by omega) (by omega)]
  simp only [signedTurn, unsignedTurn, hrem, hdiv, hpos]

theorem signedTurn_min (hb : 1 ≤ base.toNat) (hb' : base.toNat ≤ 35) (i : Word) (s : Buffer) :
    signedTurn stray base (0x80000000, i, s) =
      .exit (i + 1, s.set i (digits stray ((0x80000000 : Word).srem base))) := by
  have hdiv : (0x80000000 : Word).sdiv base = -(0x80000000 / base) := by
    rw [BitVec.sdiv_eq, msb_small (v := base) (by omega)]
    rfl
  have hquot : (0x80000000 / base : Word).toNat = 0x80000000 / base.toNat := BitVec.toNat_udiv
  have hneg : ¬(0 : Word).slt ((0x80000000 : Word).sdiv base) = true := by
    have hpos : 0 < 0x80000000 / base.toNat := Nat.div_pos (by omega) hb
    have hle : 0x80000000 / base.toNat ≤ 0x80000000 := Nat.div_le_self _ _
    rw [hdiv, BitVec.slt_iff_toInt_lt, BitVec.toInt_eq_toNat_cond, BitVec.toInt_eq_toNat_cond,
      BitVec.toNat_neg, hquot]
    simp only [show (0 : Word).toNat = 0 from rfl]
    omega
  simp only [signedTurn, if_neg hneg]

theorem signed_exit (stray : Word → Byte) (hb : 2 ≤ base.toNat) (hb' : base.toNat ≤ 35)
    (hnum : num.toNat ≤ 0x80000000) (s : Buffer) :
    ∃ t, Exits (signedTurn stray base) (num, 0, s) (word (signedChars stray base num).length, t) ∧
      Filled t (signedChars stray base num) ∧ Outside (signedChars stray base num).length s t := by
  rw [signedChars]
  split_ifs with hmin
  · rw [hmin]
    exact ⟨_, Exits.of_exit (signedTurn_min (by omega) hb' 0 s), (Filled.nil s).snoc (by decide) _,
      (Outside.refl 1 s).set (show (0 : Word).toNat < 1 by decide) _⟩
  · have hlt : num.toNat < 0x80000000 := by
      refine Nat.lt_of_le_of_ne hnum fun h => hmin ?_
      rw [← word_toNat num, h]
      rfl
    have hlen := digitChars_length stray hb num
    exact digits_exit hb (fun v i s hle => signedTurn_eq (by omega) hb' i s) (Filled.nil s)
      (by simp only [List.length_nil]; omega)

theorem signedChars_length (stray : Word → Byte) (hb : 2 ≤ base.toNat) (num : Word) :
    (signedChars stray base num).length ≤ 32 := by
  rw [signedChars]
  split_ifs
  · exact Nat.le_add_left 1 31
  · exact digitChars_length stray hb num

theorem magnitude_le (num : Word) : (magnitude num).toNat ≤ 0x80000000 := by
  rw [magnitude]
  split_ifs with h
  all_goals
    rw [BitVec.slt_iff_toInt_lt, BitVec.toInt_eq_toNat_cond, BitVec.toInt_eq_toNat_cond] at h
    simp only [show (0 : Word).toNat = 0 from rfl] at h
    have hlt := num.isLt
  · rw [BitVec.toNat_neg]
    omega
  · omega

theorem not_badBase (hb : 2 ≤ base.toNat) (hb' : base.toNat ≤ 35) : ¬badBase base := by
  rw [← word_toNat base, badBase, BitVec.sle_eq_not_slt, show (0 : Word) = word 0 from rfl,
    show (35 : Word) = word 35 from rfl, Bool.not_eq_true', Bool.eq_false_iff, ne_eq,
      word_slt (by omega) (by omega),
    word_slt (by omega) (by omega)]
  omega

theorem reversed (h : Filled s l) (hl : l.length < 2147483648) :
    ∃ t, Returns (reverse (s.set (word l.length) 0)) t ∧ Text t (printed l) := by
  have hlen := (List.takeWhile_prefix (fun c : Byte => decide (c ≠ 0)) (l := l)).length_le
  exact (h.text (by omega)).reverse (by omega)

theorem convertUnsigned_leaves (stray : Word → Byte) (hb : 2 ≤ base.toNat) (hb' : base.toNat ≤ 35)
    (num : Word) (s : Buffer) :
    ∃ t, Returns (convertUnsigned stray num s base) t ∧ Text t (utoaText stray num base) := by
  have hlen := digitChars_length stray hb num
  obtain ⟨u, hexit, hfilled, -⟩ := unsigned_exit stray hb num s
  obtain ⟨t, ht, htext⟩ := reversed hfilled (by omega)
  refine ⟨t, ?_, htext⟩
  change Returns (fun fuel => convertUnsigned stray num s base fuel) t
  simp only [convertUnsigned, if_neg (not_badBase hb hb')]
  exact (returns_bind (run_fuelled _ _) fun _ => reverse_fuelled _).mpr ⟨_, hexit, ht⟩

theorem ltoa_leaves (stray : Word → Byte) (hb : 2 ≤ base.toNat) (hb' : base.toNat ≤ 35) (num : Word)
    (s : Buffer) :
    ∃ t, Returns (ltoa stray num s base) t ∧ Text t (ltoaText stray num base) := by
  have hlen := signedChars_length stray hb (magnitude num)
  obtain ⟨u, hexit, hfilled, -⟩ := signed_exit stray hb hb' (magnitude_le num) s
  obtain ⟨t, ht, htext⟩ := reversed hfilled (by omega)
  refine ⟨t, ?_, htext⟩
  change Returns (fun fuel => ltoa stray num s base fuel) t
  simp only [ltoa, if_neg (not_badBase hb hb')]
  exact (returns_bind (run_fuelled _ _) fun _ => reverse_fuelled _).mpr ⟨_, hexit, ht⟩

theorem sign_filled (h : Filled s l) (hl : l.length < 4294967296) (num : Word) :
    ∃ t, writeSign num (word l.length, s) = (word (l ++ signChars num).length, t) ∧
    Filled t (l ++ signChars num) ∧
      Outside (l ++ signChars num).length s t := by
  rw [writeSign, signChars]
  split_ifs
  · rw [List.length_append, List.length_singleton]
    refine ⟨_, ?_, h.snoc hl minus, ?_⟩
    · rw [show (1 : Word) = word 1 from rfl, word_add]
    · exact (Outside.refl _ s).set (by rw [toNat_word hl]; omega) _
  · rw [List.append_nil]
    exact ⟨s, rfl, h, Outside.refl _ s⟩

theorem signChars_length (num : Word) : (signChars num).length ≤ 1 := by
  rw [signChars]
  split_ifs <;> decide

theorem itoa_leaves (stray : Word → Byte) (hb : 2 ≤ base.toNat) (hb' : base.toNat ≤ 35) (num : Word)
    (s : Buffer) :
    ∃ t, Returns (itoa stray num s base) t ∧ Text t (itoaText stray num base) := by
  have hlen := signedChars_length stray hb (magnitude num)
  have hsign := signChars_length num
  obtain ⟨u, hexit, hfilled, -⟩ := signed_exit stray hb hb' (magnitude_le num) s
  obtain ⟨v, hwrite, hfilled, -⟩ := sign_filled hfilled (by omega) num
  obtain ⟨t, ht, htext⟩ := reversed hfilled (by rw [List.length_append]; omega)
  refine ⟨t, ?_, htext⟩
  change Returns (fun fuel => itoa stray num s base fuel) t
  simp only [itoa, if_neg (not_badBase hb hb')]
  refine (returns_bind (run_fuelled _ _) fun _ => reverse_fuelled _).mpr ⟨_, hexit, ?_⟩
  simp only [hwrite]
  exact ht

theorem convertUnsigned_fuelled (num : Word) (s : Buffer) (base : Word) :
    Fuelled (convertUnsigned stray num s base) :=
  Fuelled.ite (fuelled_const _) ((run_fuelled _ _).bind fun _ => reverse_fuelled _)

theorem ltoa_fuelled (num : Word) (s : Buffer) (base : Word) : Fuelled (ltoa stray num s base) :=
  Fuelled.ite (fuelled_const _) ((run_fuelled _ _).bind fun _ => reverse_fuelled _)

theorem itoa_fuelled (num : Word) (s : Buffer) (base : Word) : Fuelled (itoa stray num s base) :=
  Fuelled.ite (fuelled_const _) ((run_fuelled _ _).bind fun _ => reverse_fuelled _)

end Rinix.Stdio
