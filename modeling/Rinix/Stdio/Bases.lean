import Rinix.Stdio.Numeral

namespace Rinix.Stdio

open ByteMemory WhileLoop

inductive Conversion where
  | itoa
  | utoa
  | ltoa
  | ultoa
deriving DecidableEq

def Conversion.convert (stray : Word → Byte) : Conversion → Word → Buffer → Word → ℕ → Option Buffer
  | .itoa => Stdio.itoa stray
  | .utoa => Stdio.utoa stray
  | .ltoa => Stdio.ltoa stray
  | .ultoa => Stdio.ultoa stray

def Conversion.Signed (f : Conversion) : Prop := f = .itoa ∨ f = .ltoa

def Conversion.write (stray : Word → Byte) (num : Word) (s : Buffer) (base : Word) :
    Conversion → ℕ → Option (Word × Buffer)
  | .itoa => fun fuel => (run (signedTurn stray base) fuel (magnitude num, 0, s)).map (writeSign num)
  | .utoa => fun fuel => run (unsignedTurn stray base) fuel (num, 0, s)
  | .ltoa => fun fuel => run (signedTurn stray base) fuel (magnitude num, 0, s)
  | .ultoa => fun fuel => run (unsignedTurn stray base) fuel (num, 0, s)

def bufferSize : ℕ := 64

structure EndsInside (stray : Word → Byte) (f : Conversion) (num base : Word) : Prop where
  counts : ∀ s, ∃ i t, Returns (f.write stray num s base) (i, t) ∧ i.toNat + 1 < bufferSize
  inside : ∀ s, ∃ t, Returns (f.convert stray num s base) t ∧ Outside (bufferSize - 1) s t

variable {stray : Word → Byte} {f : Conversion} {num base : Word} {s t u : Buffer} {l : List Byte}

theorem write_fuelled (stray : Word → Byte) (f : Conversion) (num : Word) (s : Buffer) (base : Word) :
    Fuelled (f.write stray num s base) := by
  cases f with
  | itoa => exact (run_fuelled _ _).map _
  | utoa => exact run_fuelled _ _
  | ltoa => exact run_fuelled _ _
  | ultoa => exact run_fuelled _ _

theorem convert_eq (h : ¬badBase base) (f : Conversion) (num : Word) (s : Buffer) (fuel : ℕ) :
    f.convert stray num s base fuel =
      (f.write stray num s base fuel).bind fun q => reverse (q.2.set q.1 0) fuel := by
  cases f with
  | itoa =>
    simp only [Conversion.convert, itoa, if_neg h, Conversion.write, Option.bind_map]
    rfl
  | utoa => exact if_neg h
  | ltoa => exact if_neg h
  | ultoa => exact if_neg h

theorem ends_of_written (h : ¬badBase base)
    (hwritten : ∀ s, ∃ (l : List Byte) (t : Buffer), Returns (f.write stray num s base) (word l.length, t) ∧
      Filled t l ∧ l.length ≤ 33 ∧ Outside l.length s t) : EndsInside stray f num base where
  counts s := by
    obtain ⟨l, t, hreturns, -, hlen, -⟩ := hwritten s
    refine ⟨word l.length, t, hreturns, ?_⟩
    rw [toNat_word (by omega), bufferSize]
    omega
  inside s := by
    obtain ⟨l, t, hreturns, hfilled, hlen, hout⟩ := hwritten s
    have htext := hfilled.text (by omega)
    have hshort := (List.takeWhile_prefix (fun c : Byte => decide (c ≠ 0)) (l := l)).length_le
    obtain ⟨u, hu, -⟩ := htext.reverse (by omega)
    have hreverse := (htext.reverse_outside (by omega) hu).mono (show _ ≤ 63 by omega)
    have hnul : Outside 63 s (t.set (word l.length) 0) := by
      apply (hout.mono (by omega)).set
      rw [toNat_word (by omega)]
      omega
    refine ⟨u, ?_, hnul.trans hreverse⟩
    change Returns (fun fuel => f.convert stray num s base fuel) u
    simp only [convert_eq h]
    exact (returns_bind (write_fuelled _ _ _ _ _) fun _ => reverse_fuelled _).mpr ⟨_, hreturns, hu⟩

def LoopEnds (body : Word × Word × Buffer → Turn (Word × Word × Buffer) (Word × Buffer))
    (num : Word) : Prop :=
  ∀ s : Buffer, ∃ (l : List Byte) (t : Buffer), Exits body (num, 0, s) (word l.length, t) ∧ Filled t l ∧
    l.length ≤ 32 ∧ Outside l.length s t

theorem ends_of_signed (h : ¬badBase base) (hloop : LoopEnds (signedTurn stray base) (magnitude num))
    (hf : f.Signed) : EndsInside stray f num base := by
  refine ends_of_written h fun s => ?_
  obtain ⟨l, t, hexit, hfilled, hlen, hout⟩ := hloop s
  rcases hf with rfl | rfl
  · have hsign := signChars_length num
    obtain ⟨u, hwrite, hfilled', hout'⟩ := sign_filled hfilled (by omega) num
    refine ⟨_, u, ?_, hfilled', by rw [List.length_append]; omega, (hout.mono ?_).trans hout'⟩
    · rw [← hwrite]
      exact Returns.map hexit (writeSign num)
    · rw [List.length_append]
      omega
  · exact ⟨l, t, hexit, hfilled, by omega, hout⟩

theorem ends_of_unsigned (h : ¬badBase base) (hloop : LoopEnds (unsignedTurn stray base) num)
    (hf : ¬f.Signed) :
    EndsInside stray f num base := by
  refine ends_of_written h fun s => ?_
  obtain ⟨l, t, hexit, hfilled, hlen, hout⟩ := hloop s
  cases f with
  | itoa => exact absurd (Or.inl rfl) hf
  | ltoa => exact absurd (Or.inr rfl) hf
  | utoa => exact ⟨l, t, hexit, hfilled, by omega, hout⟩
  | ultoa => exact ⟨l, t, hexit, hfilled, by omega, hout⟩

theorem one_turn {body : Word × Word × Buffer → Turn (Word × Word × Buffer) (Word × Buffer)} {c : Byte}
    (h : ∀ s : Buffer, body (num, 0, s) = .exit (1, s.set 0 c)) : LoopEnds body num :=
  fun s => ⟨[c], s.set 0 c, Exits.of_exit (h s), (Filled.nil s).snoc (by decide) c, Nat.le_add_left 1 31,
    (Outside.refl 1 s).set (show (0 : Word).toNat < 1 by decide) c⟩

theorem ends_base (h : ¬badBase base) (hb : 2 ≤ base.toNat) (hb' : base.toNat ≤ 35) :
    EndsInside stray f num base := by
  by_cases hf : f.Signed
  · refine ends_of_signed h (fun s => ?_) hf
    obtain ⟨t, hexit, hfilled, hout⟩ := signed_exit stray hb hb' (magnitude_le num) s
    exact ⟨_, t, hexit, hfilled, signedChars_length stray hb _, hout⟩
  · refine ends_of_unsigned h (fun s => ?_) hf
    obtain ⟨t, hexit, hfilled, hout⟩ := unsigned_exit stray hb num s
    exact ⟨_, t, hexit, hfilled, digitChars_length stray hb _, hout⟩

theorem base_one (h : ¬badBase base) (hb : ¬2 ≤ base.toNat) : base = 1 := by
  have hne : base ≠ 0 := by
    rintro rfl
    exact h (Or.inl (by decide))
  have hpos : base.toNat ≠ 0 := fun hzero => hne (BitVec.eq_of_toNat_eq hzero)
  apply BitVec.eq_of_toNat_eq
  change base.toNat = 1
  omega

theorem base_le (h : ¬badBase base) : base.toNat ≤ 35 := by
  have hle : ¬(0 : Word).slt base = false := fun hle => h (Or.inl (by rw [BitVec.sle_eq_not_slt, hle]; rfl))
  have hle' : ¬(35 : Word).slt base = true := fun hlt => h (Or.inr hlt)
  rw [Bool.not_eq_false, BitVec.slt_iff_toInt_lt, BitVec.toInt_eq_toNat_cond,
    BitVec.toInt_eq_toNat_cond] at hle
  rw [BitVec.slt_iff_toInt_lt, BitVec.toInt_eq_toNat_cond, BitVec.toInt_eq_toNat_cond] at hle'
  simp only [show (0 : Word).toNat = 0 from rfl, show (35 : Word).toNat = 35 from rfl] at hle hle'
  split_ifs at hle hle' <;> omega

theorem unsignedTurn_one (stray : Word → Byte) (hnum : num ≠ 0) (i : Word) (s : Buffer) :
    ∃ t, unsignedTurn stray 1 (num, i, s) = .again (num, i + 1, t) := by
  have hdiv : ¬num.toNat / (1 : Word).toNat = 0 := by
    intro hzero
    rw [show (1 : Word).toNat = 1 from rfl, Nat.div_one] at hzero
    exact hnum (BitVec.eq_of_toNat_eq hzero)
  have hturn : unsignedTurn stray 1 (num, i, s) = _ := (unsignedTurn_eq 1 num i s).trans (if_neg hdiv)
  rw [show num / 1 = num from BitVec.udiv_one] at hturn
  exact ⟨_, hturn⟩

theorem loops_for_ever {body : Word × Word × Buffer → Turn (Word × Word × Buffer) (Word × Buffer)}
    (hnum : num ≠ 0)
    (hbody : ∀ (i : Word) (s : Buffer), body (num, i, s) = unsignedTurn stray 1 (num, i, s)) (s : Buffer) :
    Diverges body (num, 0, s) := by
  refine diverges_of_invariant (fun q => q.1 = num) (fun q hq => ?_) rfl
  obtain ⟨v, i, s⟩ := q
  obtain rfl : v = num := hq
  obtain ⟨t, hturn⟩ := unsignedTurn_one stray hnum i s
  exact ⟨_, (hbody i s).trans hturn, rfl⟩

theorem signed_loops (hnum : num ≠ 0) (hlt : num.toNat < 0x80000000) (s : Buffer) :
    Diverges (signedTurn stray 1) (num, 0, s) :=
  loops_for_ever hnum (fun i s => signedTurn_eq hlt (by decide) i s) s

theorem unsigned_loops (hnum : num ≠ 0) (s : Buffer) : Diverges (unsignedTurn stray 1) (num, 0, s) :=
  loops_for_ever hnum (fun _ _ => rfl) s

theorem EndsInside.exits_signed (h : EndsInside stray f num base) (hf : f.Signed) (s : Buffer) :
    ∃ q, Exits (signedTurn stray base) (magnitude num, 0, s) q := by
  obtain ⟨i, t, ⟨fuel, hwrite⟩, -⟩ := h.counts s
  rcases hf with rfl | rfl
  · obtain ⟨q, hq, -⟩ := Option.map_eq_some_iff.mp hwrite
    exact ⟨q, fuel, hq⟩
  · exact ⟨_, fuel, hwrite⟩

theorem EndsInside.exits_unsigned (h : EndsInside stray f num base) (hf : ¬f.Signed) (s : Buffer) :
    ∃ q, Exits (unsignedTurn stray base) (num, 0, s) q := by
  obtain ⟨i, t, ⟨fuel, hwrite⟩, -⟩ := h.counts s
  cases f with
  | itoa => exact absurd (Or.inl rfl) hf
  | ltoa => exact absurd (Or.inr rfl) hf
  | utoa => exact ⟨_, fuel, hwrite⟩
  | ultoa => exact ⟨_, fuel, hwrite⟩

theorem magnitude_zero_iff : magnitude num = 0 ↔ num = 0 := by
  rw [magnitude]
  split_ifs
  · exact ⟨fun h => by bv_omega, fun h => by bv_omega⟩
  · exact Iff.rfl

theorem magnitude_min_iff : magnitude num = 0x80000000 ↔ num = 0x80000000 := by
  rw [magnitude]
  split_ifs
  · exact ⟨fun h => by bv_omega, fun h => by bv_omega⟩
  · exact Iff.rfl

theorem signed_one_iff (hf : f.Signed) : EndsInside stray f num 1 ↔ num = 0 ∨ num = 0x80000000 := by
  constructor
  · intro h
    by_contra hno
    obtain ⟨hzero, hmin⟩ := not_or.mp hno
    have hlt : (magnitude num).toNat < 0x80000000 := by
      refine Nat.lt_of_le_of_ne (magnitude_le num) fun heq => hmin (magnitude_min_iff.mp ?_)
      exact BitVec.eq_of_toNat_eq heq
    have hloops : Diverges (signedTurn stray 1) (magnitude num, 0, fun _ => 0) :=
      signed_loops (fun h => hzero (magnitude_zero_iff.mp h)) hlt _
    exact diverges_iff.mp hloops (h.exits_signed hf fun _ => 0)
  · rintro (rfl | rfl)
    · exact ends_of_signed (by decide) (one_turn fun _ => rfl) hf
    · exact ends_of_signed (by decide) (one_turn fun _ => signedTurn_min (by decide) (by decide) 0 _) hf

theorem unsigned_one_iff (hf : ¬f.Signed) : EndsInside stray f num 1 ↔ num = 0 := by
  constructor
  · intro h
    by_contra hzero
    have hloops : Diverges (unsignedTurn stray 1) (num, 0, fun _ => 0) := unsigned_loops hzero _
    exact diverges_iff.mp hloops (h.exits_unsigned hf fun _ => 0)
  · rintro rfl
    exact ends_of_unsigned (by decide) (one_turn fun _ => rfl) hf

/-- Of the admitted bases, 1 alone can keep a conversion from ending. -/
theorem ends_inside_iff (stray : Word → Byte) (f : Conversion) (num base : Word) (h : ¬badBase base) :
    EndsInside stray f num base ↔ base ≠ 1 ∨ num = 0 ∨ f.Signed ∧ num = 0x80000000 := by
  by_cases hb : 2 ≤ base.toNat
  · have hne : base ≠ 1 := by
      rintro rfl
      exact absurd hb (by decide)
    exact iff_of_true (ends_base h hb (base_le h)) (Or.inl hne)
  · obtain rfl := base_one h hb
    by_cases hf : f.Signed
    · rw [signed_one_iff hf]
      simp [hf]
    · rw [unsigned_one_iff hf]
      simp [hf]

theorem binary_ends : EndsInside (fun _ => 0) .itoa 0x80000001 2 :=
  (ends_inside_iff (fun _ => 0) .itoa 0x80000001 2 (by decide)).mpr (Or.inl (by decide))

theorem unary_never_ends : ¬EndsInside (fun _ => 0) .utoa 5 1 := by
  rw [unsigned_one_iff (by unfold Conversion.Signed; decide)]
  decide

end Rinix.Stdio
