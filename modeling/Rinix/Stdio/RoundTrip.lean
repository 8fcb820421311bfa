import Rinix.Stdio.Interpret

namespace Rinix.Stdio

open ByteMemory WhileLoop

def zeroChar : Byte := 0x30

def digitValue (c : Byte) : Option ℕ := digitTable.idxOf? c

def readDigit (base : ℕ) (v : Option ℕ) (c : Byte) : Option ℕ :=
  v.bind fun v => (digitValue c).bind fun k => if k < base then some (base * v + k) else none

def readDigits (base : ℕ) (l : List Byte) : Option ℕ :=
  if l = [] then none else l.foldl (readDigit base) (some 0)

def readNumeral (base : ℕ) (l : List Byte) : Option ℤ :=
  if l.head? = some minus then (readDigits base l.tail).map fun v : ℕ => -(v : ℤ)
  else (readDigits base l).map Int.ofNat

structure IsNumeral (base : ℕ) (n : ℤ) (l : List Byte) : Prop where
  sign : l.head? = some minus ↔ n < 0
  lead : ∀ ds, l = zeroChar :: ds ∨ l = minus :: zeroChar :: ds → l = [zeroChar]
  value : readNumeral base l = some n

def digitChar (k : ℕ) : Byte := digitTable.getD k 0

def canonical (b n : ℕ) : List Byte := ((numeral b n).map digitChar).reverse

variable {stray : Word → Byte} {stack : ℕ → Buffer} {base num : Word} {b n k : ℕ} {l : List Byte}

theorem digitChar_facts : ∀ k < 36, digitChar k ≠ 0 ∧ digitChar k ≠ minus ∧
    digitValue (digitChar k) = some k := by
  decide

theorem digitChar_zero (hk : k < 36) (h : digitChar k = zeroChar) : k = 0 := by
  have hvalue := (digitChar_facts k hk).2.2
  rw [h] at hvalue
  exact (Option.some.inj hvalue).symm

theorem digits_table (stray : Word → Byte) (hk : k < 36) : digits stray (word k) = digitChar k := by
  rw [digits, toNat_word (by omega), if_pos]
  · rfl
  · rw [show digitTable.length = 36 from rfl]
    omega

theorem numeral_lt (hb : 2 ≤ b) (hk : k ∈ numeral b n) : k < b := by
  rw [numeral] at hk
  split_ifs at hk
  · rw [List.mem_singleton.mp hk]
    omega
  · exact Nat.digits_lt_base hb hk

theorem numeral_ne_nil (hb : 2 ≤ b) (n : ℕ) : numeral b n ≠ [] := by
  rw [numeral_step hb]
  exact List.cons_ne_nil _ _

theorem ofDigits_numeral (b n : ℕ) : Nat.ofDigits b (numeral b n) = n := by
  rw [numeral]
  split_ifs with hn
  · rw [hn, Nat.ofDigits_singleton]
  · exact Nat.ofDigits_digits b n

theorem canonical_ne_nil (hb : 2 ≤ b) (n : ℕ) : canonical b n ≠ [] := by
  intro h
  rw [canonical, List.reverse_eq_nil_iff, List.map_eq_nil_iff] at h
  exact numeral_ne_nil hb n h

theorem canonical_zero (b : ℕ) : canonical b 0 = [zeroChar] := rfl

theorem read_digits (ks : List ℕ) (hb' : b ≤ 36) (hks : ∀ k ∈ ks, k < b) :
    (ks.map digitChar).reverse.foldl (readDigit b) (some 0) = some (Nat.ofDigits b ks) := by
  rw [List.foldl_reverse]
  induction ks with
  | nil => rfl
  | cons k ks ih =>
    have hk := hks k List.mem_cons_self
    rw [List.map_cons, List.foldr_cons, ih fun j hj => hks j (List.mem_cons_of_mem _ hj)]
    simp only [readDigit, Option.bind_some, (digitChar_facts k (by omega)).2.2, if_pos hk, Nat.ofDigits_cons]
    rw [Nat.add_comm]

theorem readDigits_canonical (hb : 2 ≤ b) (hb' : b ≤ 36) (n : ℕ) : readDigits b (canonical b n) = some n := by
  rw [readDigits, if_neg (canonical_ne_nil hb n), canonical, read_digits _ hb' fun k hk => numeral_lt hb hk,
    ofDigits_numeral]

theorem canonical_head (hb : 2 ≤ b) (hn : n ≠ 0) :
    ∃ k ds, canonical b n = digitChar k :: ds ∧ k < b ∧ k ≠ 0 := by
  have hne : Nat.digits b n ≠ [] := Nat.digits_ne_nil_iff_ne_zero.mpr hn
  have hsplit := List.dropLast_append_getLast hne
  refine ⟨(Nat.digits b n).getLast hne, ((Nat.digits b n).dropLast.map digitChar).reverse, ?_, ?_, ?_⟩
  · rw [canonical, numeral, if_neg hn]
    conv_lhs => rw [← hsplit]
    rw [List.map_append, List.reverse_append]
    rfl
  · exact Nat.digits_lt_base hb (List.getLast_mem hne)
  · exact Nat.getLast_digit_ne_zero b hn

theorem canonical_no_sign (hb : 2 ≤ b) (hb' : b ≤ 36) (n : ℕ) : (canonical b n).head? ≠ some minus := by
  by_cases hn : n = 0
  · rw [hn, canonical_zero]
    decide
  · obtain ⟨k, ds, heq, hk, -⟩ := canonical_head hb hn
    rw [heq, List.head?_cons, ne_eq, Option.some.injEq]
    exact (digitChar_facts k (by omega)).2.1

theorem canonical_lead (hb : 2 ≤ b) (hb' : b ≤ 36) {ds : List Byte} (h : canonical b n = zeroChar :: ds) :
    n = 0 := by
  by_contra hn
  obtain ⟨k, ds', heq, hk, hzero⟩ := canonical_head hb hn
  rw [heq, List.cons.injEq] at h
  exact hzero (digitChar_zero (by omega) h.1)

theorem isNumeral_canonical (hb : 2 ≤ b) (hb' : b ≤ 36) (n : ℕ) : IsNumeral b n (canonical b n) where
  sign := iff_of_false (canonical_no_sign hb hb' n) (by omega)
  lead := by
    rintro ds (h | h)
    · rw [canonical_lead hb hb' h, canonical_zero]
    · exact absurd (congrArg List.head? h) (canonical_no_sign hb hb' n)
  value := by
    rw [readNumeral, if_neg (canonical_no_sign hb hb' n), readDigits_canonical hb hb', Option.map_some]
    rfl

theorem isNumeral_minus (hb : 2 ≤ b) (hb' : b ≤ 36) (hn : n ≠ 0) :
    IsNumeral b (-n) (minus :: canonical b n) where
  sign := iff_of_true rfl (by omega)
  lead := by
    rintro ds (h | h)
    · exact absurd (List.cons.inj h).1 (by decide)
    · exact absurd (canonical_lead hb hb' (List.cons.inj h).2) hn
  value := by
    rw [readNumeral, List.head?_cons, if_pos rfl, List.tail_cons, readDigits_canonical hb hb',
      Option.map_some]

theorem printed_of_noNul (h : 0 ∉ l) : printed l = l.reverse := by
  rw [printed, List.takeWhile_eq_self_iff.mpr]
  intro c hc
  exact decide_eq_true fun hzero => h (hzero ▸ hc)

theorem digitChars_eq (stray : Word → Byte) (hb : 2 ≤ base.toNat) (hb' : base.toNat ≤ 36) (num : Word) :
    digitChars stray base num = (numeral base.toNat num.toNat).map digitChar := by
  apply List.map_congr_left
  intro k hk
  have hlt := numeral_lt hb hk
  exact digits_table stray (by omega)

theorem digitChars_noNul (stray : Word → Byte) (hb : 2 ≤ base.toNat) (hb' : base.toNat ≤ 36) (num : Word) :
    0 ∉ digitChars stray base num := by
  rw [digitChars_eq stray hb hb']
  intro hmem
  obtain ⟨k, hk, hzero⟩ := List.mem_map.mp hmem
  have hlt := numeral_lt hb hk
  exact (digitChar_facts k (by omega)).1 hzero

theorem utoaText_eq (stray : Word → Byte) (hb : 2 ≤ base.toNat) (hb' : base.toNat ≤ 36) (num : Word) :
    utoaText stray num base = canonical base.toNat num.toNat := by
  rw [utoaText, printed_of_noNul (digitChars_noNul stray hb hb' num), digitChars_eq stray hb hb', canonical]

theorem magnitude_ne (h : num ≠ 0x80000000) : magnitude num ≠ 0x80000000 := by
  rw [magnitude]
  split_ifs
  · bv_omega
  · exact h

theorem ltoaText_eq (stray : Word → Byte) (hb : 2 ≤ base.toNat) (hb' : base.toNat ≤ 36)
    (h : num ≠ 0x80000000) :
    ltoaText stray num base = canonical base.toNat (magnitude num).toNat := by
  rw [ltoaText, signedChars, if_neg (magnitude_ne h)]
  exact utoaText_eq stray hb hb' _

theorem itoaText_eq (stray : Word → Byte) (hb : 2 ≤ base.toNat) (hb' : base.toNat ≤ 36)
    (h : num ≠ 0x80000000) :
    itoaText stray num base = signChars num ++ canonical base.toNat (magnitude num).toNat := by
  have hnul : 0 ∉ digitChars stray base (magnitude num) ++ signChars num := by
    rw [List.mem_append, not_or]
    refine ⟨digitChars_noNul stray hb hb' _, ?_⟩
    rw [signChars]
    split_ifs <;> decide
  have hsign : (signChars num).reverse = signChars num := by
    rw [signChars]
    split_ifs <;> rfl
  rw [itoaText, signedChars, if_neg (magnitude_ne h), printed_of_noNul hnul, List.reverse_append, hsign,
    digitChars_eq stray hb hb', canonical]

theorem slt_zero (num : Word) : num.slt 0 = true ↔ num.toInt < 0 := by
  rw [BitVec.slt_iff_toInt_lt]
  rfl

theorem magnitude_toInt (num : Word) :
    num.toInt = if num.slt 0 then -((magnitude num).toNat : ℤ) else (magnitude num).toNat := by
  have hlt := num.isLt
  rw [magnitude]
  split_ifs with hneg
  all_goals
    rw [slt_zero, BitVec.toInt_eq_toNat_cond] at hneg
    rw [BitVec.toInt_eq_toNat_cond]
  · rw [BitVec.toNat_neg]
    omega
  · omega

theorem isNumeral_itoa (stray : Word → Byte) (hb : 2 ≤ base.toNat) (hb' : base.toNat ≤ 36)
    (h : num ≠ 0x80000000) :
    IsNumeral base.toNat num.toInt (itoaText stray num base) := by
  rw [itoaText_eq stray hb hb' h, magnitude_toInt, signChars]
  split_ifs with hneg
  · apply isNumeral_minus hb hb'
    intro hzero
    have hint := magnitude_toInt num
    rw [if_pos hneg, hzero] at hint
    rw [slt_zero, hint] at hneg
    exact absurd hneg (by decide)
  · exact isNumeral_canonical hb hb' _

theorem canonical_length (hb : 2 ≤ b) (hn : n < 4294967296) : (canonical b n).length ≤ 32 := by
  rw [canonical, List.length_reverse, List.length_map]
  exact numeral_length hb hn

theorem canonical_digits (hb : 2 ≤ b) (hb' : b ≤ 36) (n : ℕ) :
    ∀ c ∈ canonical b n, c ∈ digitTable.take b := by
  intro c hc
  rw [canonical, List.mem_reverse] at hc
  obtain ⟨k, hk, rfl⟩ := List.mem_map.mp hc
  have hlt := numeral_lt hb hk
  have hlen : digitTable.length = 36 := rfl
  rw [digitChar, List.getD_eq_getElem _ _ (by omega)]
  exact List.mem_take_iff_getElem.mpr ⟨k, by omega, rfl⟩

theorem unsigned_round_trip (stray : Word → Byte) (num base : Word) (hb : 2 ≤ base.toNat)
    (hb' : base.toNat ≤ 35) :
    ∃ text, Leaves (fun s => utoa stray num s base) text ∧ Leaves (fun s => ultoa stray num s base) text ∧
      text.length ≤ 32 ∧ (∀ c ∈ text, c ∈ digitTable.take base.toNat) ∧
      IsNumeral base.toNat num.toNat text := by
  have hleaves := convertUnsigned_leaves stray hb hb' num
  rw [utoaText_eq stray hb (by omega)] at hleaves
  refine ⟨canonical base.toNat num.toNat, hleaves, hleaves, ?_, ?_, ?_⟩
  · exact canonical_length hb num.isLt
  · exact canonical_digits hb (by omega) _
  · exact isNumeral_canonical hb (by omega) _

theorem hex_round_trip : ∃ text, Leaves (fun s => utoa (fun _ => 0) 0xBEEF s 16) text ∧
    IsNumeral 16 0xBEEF text := by
  obtain ⟨text, hleaves, -, -, -, hnumeral⟩ :=
    unsigned_round_trip (fun _ => 0) 0xBEEF 16 (by decide) (by decide)
  exact ⟨text, hleaves, hnumeral⟩

def directive (d : Byte) (hd : d ≠ 0) : CString where
  bytes := [percent, d]
  noNul := by
    rw [List.mem_pair, not_or]
    exact ⟨by decide, hd.symm⟩

def Prints (f : CString → List Arg → ℕ → Option Printf) (format : CString) (args : List Arg)
    (text : List Byte) : Prop :=
  ∃ p, Returns (f format args) p ∧ p.out = text

variable {d : Byte} {a : Arg} {text text' : List Byte} {format : CString} {args : List Arg}

theorem directive_prints (stray : Word → Byte) (stack : ℕ → Buffer) (hd : d ≠ 0) (h : Emits stray d a text) :
    Prints (printf stray stack) (directive d hd) [a] text := by
  have hkind := emits_kind h
  have hneeds : needs [percent, d] = [a.kind] := by
    have hne : d ≠ percent := by
      rintro rfl
      cases hkind
    simp only [needs, ne_eq, not_true_eq_false, if_false, if_neg hne, hkind]
  obtain ⟨p, hint, -, hreturns⟩ := printf_returns stray stack (directive d hd) [a] (by
    change needs [percent, d] <+: _
    rw [hneeds]
    exact List.prefix_refl _)
  have hmeaning : Interprets stray false [percent, d] [a] (text ++ []) [] := .directive h .done
  refine ⟨p, (hreturns p).mpr rfl, ?_⟩
  rw [← ((hint _ _).mp hmeaning).1, List.append_nil]

theorem prints_unique (h : Prints (printf stray stack) format args text)
    (h' : Prints (printf stray stack) format args text') : text = text' := by
  obtain ⟨p, hp, rfl⟩ := h
  obtain ⟨q, hq, rfl⟩ := h'
  rw [(nested_fuelled formatTurn_fuelled _).unique hp hq]

structure DecimalExact (stray : Word → Byte) (stack : ℕ → Buffer) (n : Word) : Prop where
  reads : ∀ s v i t, Visits (signedTurn stray 10) (magnitude n, 0, s) (v, i, t) → (v.srem 10).toNat ≤ 34
  leaves : ∃ text, Leaves (fun s => itoa stray n s 10) text ∧ IsNumeral 10 n.toInt text ∧
    ∀ d hd, d = 0x64 ∨ d = 0x69 → Prints (printf stray stack) (directive d hd) [.int n] text

theorem visits_small {s t : Buffer} {u v i : Word} (hu : u.toNat < 0x80000000)
    (h : Visits (signedTurn stray 10) (u, 0, s) (v, i, t)) : v.toNat < 0x80000000 := by
  have hmeets (q : Word × Word × Buffer) (hq : q.1.toNat < 0x80000000) :
      (signedTurn stray 10 q).Meets (fun q => q.1.toNat < 0x80000000) fun _ => True := by
    obtain ⟨v, i, s⟩ := q
    rw [signedTurn_eq hq (by decide), unsignedTurn_eq]
    split_ifs
    · trivial
    · change (v / 10).toNat < 0x80000000
      rw [BitVec.toNat_udiv]
      exact Nat.lt_of_le_of_lt (Nat.div_le_self _ _) hq
  exact h.invariant (fun q => q.1.toNat < 0x80000000) hmeets hu

theorem srem_small {v : Word} (hv : v.toNat < 0x80000000) : (v.srem 10).toNat ≤ 34 := by
  rw [BitVec.srem_eq, msb_small hv, show (10 : Word).msb = false from rfl]
  change (v % 10).toNat ≤ 34
  rw [BitVec.toNat_umod]
  exact Nat.le_trans (Nat.le_of_lt (Nat.mod_lt _ (by decide))) (by decide)

theorem ten_base : 2 ≤ (10 : Word).toNat ∧ (10 : Word).toNat ≤ 35 := by decide

theorem decimalExact_of_ne (stray : Word → Byte) (stack : ℕ → Buffer) (h : num ≠ 0x80000000) :
    DecimalExact stray stack num where
  reads := by
    intro s v i t hvisits
    apply srem_small
    apply visits_small _ hvisits
    have hne := magnitude_ne h
    have hle := magnitude_le num
    apply Nat.lt_of_le_of_ne hle
    intro heq
    exact hne (BitVec.eq_of_toNat_eq heq)
  leaves := by
    have hleaves := itoa_leaves stray ten_base.1 ten_base.2 num
    refine ⟨_, hleaves, isNumeral_itoa stray ten_base.1 (by decide) h, ?_⟩
    rintro d hd (rfl | rfl)
    · exact directive_prints stray stack hd (.decimal hleaves)
    · exact directive_prints stray stack hd (.integer hleaves)

theorem min_reads_stray (stray : Word → Byte) (stack : ℕ → Buffer) :
    ¬DecimalExact stray stack 0x80000000 := by
  intro h
  exact absurd (h.reads (fun _ => 0) 0x80000000 0 (fun _ => 0) .refl) (by decide)

/-- The one number that is its own negation is the one that goes wrong. -/
theorem itoa_exact_iff (stray : Word → Byte) (stack : ℕ → Buffer) (n : Word) :
    DecimalExact stray stack n ↔ n ≠ 0x80000000 := by
  constructor
  · rintro h rfl
    exact min_reads_stray stray stack h
  · exact decimalExact_of_ne stray stack

theorem int_min_not_exact : ¬DecimalExact (fun _ => 0x2F) (fun _ _ => 0) 0x80000000 := min_reads_stray _ _

def SameString (stray : Word → Byte) (n base : Word) : Prop :=
  ∃ text, Leaves (fun s => ltoa stray n s base) text ∧ Leaves (fun s => itoa stray n s base) text

def SamePrint (f : CString → List Arg → ℕ → Option Printf) (n : Word) : Prop :=
  ∃ text, Prints f (directive 0x6C (by decide)) [.long n] text ∧
    Prints f (directive 0x64 (by decide)) [.int n] text

theorem texts_agree_iff (stray : Word → Byte) (hb : 2 ≤ base.toNat) (hb' : base.toNat ≤ 36)
    (h : num ≠ 0x80000000) :
    ltoaText stray num base = itoaText stray num base ↔ 0 ≤ num.toInt := by
  rw [ltoaText_eq stray hb hb' h, itoaText_eq stray hb hb' h, signChars]
  split_ifs with hneg
  · rw [slt_zero] at hneg
    refine iff_of_false (fun heq => ?_) (by omega)
    exact absurd (congrArg List.length heq) (by simp)
  · rw [slt_zero] at hneg
    exact iff_of_true rfl (by omega)

theorem sameString_iff (stray : Word → Byte) (hb : 2 ≤ base.toNat) (hb' : base.toNat ≤ 35)
    (h : num ≠ 0x80000000) :
    SameString stray num base ↔ 0 ≤ num.toInt := by
  have hlong : Leaves (fun s => ltoa stray num s base) (ltoaText stray num base) :=
    ltoa_leaves stray hb hb' num
  have hint : Leaves (fun s => itoa stray num s base) (itoaText stray num base) :=
    itoa_leaves stray hb hb' num
  rw [← texts_agree_iff stray hb (by omega) h]
  constructor
  · rintro ⟨text, htext, htext'⟩
    rw [hlong.unique (fun s => ltoa_fuelled _ s _) htext, hint.unique (fun s => itoa_fuelled _ s _) htext']
  · intro heq
    exact ⟨_, hlong, heq ▸ hint⟩

theorem samePrint_iff (stray : Word → Byte) (stack : ℕ → Buffer) (h : num ≠ 0x80000000) :
    SamePrint (printf stray stack) num ↔ 0 ≤ num.toInt := by
  have hlong := directive_prints stray stack (show (0x6C : Byte) ≠ 0 by decide)
    (.long (ltoa_leaves stray ten_base.1 ten_base.2 num))
  have hint := directive_prints stray stack (show (0x64 : Byte) ≠ 0 by decide)
    (.decimal (itoa_leaves stray ten_base.1 ten_base.2 num))
  rw [← texts_agree_iff stray ten_base.1 (by decide) h]
  constructor
  · rintro ⟨text, htext, htext'⟩
    rw [prints_unique hlong htext, prints_unique hint htext']
  · intro heq
    exact ⟨_, hlong, heq ▸ hint⟩

/-- `ltoa` takes the sign off, and `itoa` alone puts it back. -/
theorem ltoa_agrees_iff (stray : Word → Byte) (stack : ℕ → Buffer) (num base : Word) (h : num ≠ 0x80000000)
    (hb : 2 ≤ base.toNat) (hb' : base.toNat ≤ 35) :
    (SameString stray num base ↔ 0 ≤ num.toInt) ∧ (SamePrint (printf stray stack) num ↔ 0 ≤ num.toInt) ∧
      (SamePrint (vprintf stray stack) num ↔ 0 ≤ num.toInt) :=
  ⟨sameString_iff stray hb hb' h, samePrint_iff stray stack h, samePrint_iff stray stack h⟩

theorem seven_agrees : SameString (fun _ => 0) 7 10 ∧ SamePrint (printf (fun _ => 0) fun _ _ => 0) 7 := by
  have h := ltoa_agrees_iff (fun _ => 0) (fun _ _ => 0) 7 10 (by decide) (by decide) (by decide)
  exact ⟨h.1.mpr (by decide), h.2.1.mpr (by decide)⟩

theorem sign_dropped :
    ¬SameString (fun _ => 0) 0xFFFFFFFB 10 ∧ ¬SamePrint (printf (fun _ => 0) fun _ _ => 0) 0xFFFFFFFB := by
  rw [sameString_iff _ (by decide) (by decide) (by decide), samePrint_iff _ _ (by decide)]
  decide

end Rinix.Stdio
