import Rinix.Stdio.RoundTrip

namespace Rinix.Stdio

open ByteMemory WhileLoop

def directives : List Byte → List Byte
  | [] => []
  | c :: cs =>
    if c ≠ percent then directives cs
    else match cs with
      | [] => []
      | d :: ds => if d = percent then directives ds else if kindOf d = none then [] else d :: directives ds

/-- A directive and its argument that print nothing. The digit that a decimal conversion of
`INT_MIN` puts down is the byte eight places before the digits. -/
def Silent (stray : Word → Byte) : Byte × Arg → Prop
  | (d, .int v) => (d = 0x64 ∨ d = 0x69) ∧ v = 0x80000000 ∧ stray 0xFFFFFFF8 = 0
  | (d, .long v) => d = 0x6C ∧ v = 0x80000000 ∧ stray 0xFFFFFFF8 = 0
  | (_, .string s) => s.bytes = []

def owed (stray : Word → Byte) (p : Printf) : ℕ :=
  if p.rejected then 0
  else (((directives p.format).zip p.args).map fun c => (emitted stray c.1 c.2).length).sum

variable {stray : Word → Byte} {stack : ℕ → Buffer} {p q : Printf} {c d : Byte}
  {cs ds l : List Byte} {a : Arg} {args : List Arg} {ks : List Kind} {fuel n : ℕ} {format : CString}

theorem directives_cons (hc : c ≠ percent) (cs : List Byte) : directives (c :: cs) = directives cs := by
  rw [directives.eq_def]
  simp only [if_pos hc]

theorem directives_percent (cs : List Byte) : directives (percent :: percent :: cs) = directives cs := by
  rw [directives.eq_def]
  simp only [ne_eq, not_true_eq_false, if_false, if_true]

theorem directives_bad (hd : d ≠ percent) (hkind : kindOf d = none) (ds : List Byte) :
    directives (percent :: d :: ds) = [] := by
  rw [directives.eq_def]
  simp only [ne_eq, not_true_eq_false, if_false, if_neg hd, if_pos hkind]

theorem directives_kind (hd : d ≠ percent) (hkind : kindOf d ≠ none) (ds : List Byte) :
    directives (percent :: d :: ds) = d :: directives ds := by
  rw [directives.eq_def]
  simp only [ne_eq, not_true_eq_false, if_false, if_neg hd, if_neg hkind]

theorem directives_drop (n : ℕ) (h : ∀ c ∈ l.take n, c ≠ percent) : directives (l.drop n) = directives l := by
  induction n generalizing l with
  | zero => rfl
  | succ n ih =>
    cases l with
    | nil => rfl
    | cons c cs =>
      rw [List.take_succ_cons] at h
      rw [List.drop_succ_cons, directives_cons (h c List.mem_cons_self)]
      apply ih
      intro e he
      exact h e (List.mem_cons_of_mem _ he)

theorem textLength_some (h : textLength l = some n) : n < l.length ∧ ∀ c ∈ l.take n, c ≠ percent := by
  induction l generalizing n with
  | nil => cases h
  | cons c cs ih =>
    rw [textLength] at h
    split_ifs at h with hc
    · obtain ⟨m, hm, rfl⟩ := Option.map_eq_some_iff.mp h
      obtain ⟨hlt, hall⟩ := ih hm
      refine ⟨Nat.succ_lt_succ hlt, ?_⟩
      rw [List.take_succ_cons, List.forall_mem_cons]
      exact ⟨hc.2, hall⟩
    · obtain rfl := Option.some.inj h
      exact ⟨Nat.succ_pos _, by simp⟩

def Counts (stray : Word → Byte) (p q : Printf) : Prop :=
  ∃ n, q.out.length + owed stray q = p.out.length + owed stray p + n ∧ q.written = p.written + word n

theorem counts_chunk {r : Printf} (h : printC r (c :: cs) = some q) (hout : r.out = p.out)
    (hwritten : r.written = p.written) (howed : directives q.format = directives cs →
    owed stray q = owed stray p) :
    Counts stray p q := by
  obtain ⟨n, hn, rfl⟩ := Option.map_eq_some_iff.mp h
  rw [List.tail_cons] at hn
  obtain ⟨hlt, htext⟩ := textLength_some hn
  refine ⟨n + 1, ?_, by rw [hwritten]⟩
  rw [howed (directives_drop n htext)]
  simp only [List.length_append, List.length_take, List.length_cons, hout]
  omega

theorem printC_keeps {r : Printf} (h : printC r l = some q) : q.rejected = r.rejected ∧ q.args = r.args := by
  obtain ⟨n, -, rfl⟩ := Option.map_eq_some_iff.mp h
  exact ⟨rfl, rfl⟩

theorem owed_chunk (h : printC p l = some q) (hformat : directives q.format = directives p.format) :
    owed stray q = owed stray p := by
  obtain ⟨hrejected, hargs⟩ := printC_keeps h
  rw [owed, owed, hrejected, hargs, hformat]

theorem owed_rejected (h : p.rejected = true) : owed stray p = 0 := if_pos h

theorem owed_nil (h : directives p.format = []) : owed stray p = 0 := by
  rw [owed, h]
  split_ifs <;> rfl

theorem turn_counts (h : formatTurn stray stack p fuel = some (.again q)) : Counts stray p q := by
  cases turn_from h with
  | text hp _ hc hq =>
    apply counts_chunk hq rfl rfl
    intro hdirectives
    apply owed_chunk hq
    rw [hdirectives, hp, directives_cons hc]
  | percent hp hq =>
    apply counts_chunk hq rfl rfl
    intro hdirectives
    apply owed_chunk hq
    rw [hdirectives, hp, directives_percent]
  | bad hp hd hbad hq =>
    have howed : owed stray p = 0 := by
      rcases hbad with hrejected | hkind
      · exact owed_rejected hrejected
      · exact owed_nil (by rw [hp, directives_bad hd hkind])
    rw [incomprehensible, hp] at hq
    refine counts_chunk hq (by rfl) (by rfl) ?_
    intro _
    rw [howed]
    exact owed_rejected (printC_keeps hq).1
  | directive hp hd hrejected hkind hq =>
    obtain ⟨a, args, hargs, -, rfl⟩ := convert_some hq hkind
    refine ⟨0, ?_, by simp [word]⟩
    simp only [owed, hrejected, hp, hargs, directives_kind hd hkind, List.zip_cons_cons,
      List.map_cons, List.sum_cons, List.length_append, Bool.false_eq_true, if_false]
    omega

theorem loop_counts (h : Returns (fun fuel => nested (formatTurn stray stack) fuel fuel p) q) :
    Counts stray p q := by
  have hstep (r : Printf) (fuel : ℕ) (t : Turn Printf Printf) (hr : Counts stray p r)
      (ht : formatTurn stray stack r fuel = some t) : t.Meets (Counts stray p) (Counts stray p) := by
    cases t with
    | exit s =>
      cases turn_from ht
      exact hr
    | again s =>
      obtain ⟨m, hm, hw⟩ := hr
      obtain ⟨n, hn, hw'⟩ := turn_counts ht
      refine ⟨m + n, by omega, ?_⟩
      rw [hw', hw, BitVec.add_assoc, word_add]
  exact nested_result hstep ⟨0, rfl, by simp [word]⟩ h

theorem printed_nil_iff : printed (c :: l) = [] ↔ c = 0 := by
  rw [printed, List.reverse_eq_nil_iff]
  by_cases hc : c = 0
  · rw [List.takeWhile_cons_of_neg (by simpa using hc)]
    exact iff_of_true rfl hc
  · rw [List.takeWhile_cons_of_pos (by simpa using hc)]
    exact iff_of_false (List.cons_ne_nil _ _) hc

theorem signedChars_min (stray : Word → Byte) : signedChars stray 10 (magnitude 0x80000000) =
    [stray 0xFFFFFFF8] := rfl

theorem itoaText_nil_iff (v : Word) : itoaText stray v 10 = [] ↔ v = 0x80000000 ∧ stray 0xFFFFFFF8 = 0 := by
  by_cases hv : v = 0x80000000
  · subst hv
    rw [itoaText, signedChars_min, List.singleton_append, printed_nil_iff, and_iff_right rfl]
  · rw [itoaText_eq stray ten_base.1 (by decide) hv, List.append_eq_nil_iff]
    exact iff_of_false (fun h => canonical_ne_nil ten_base.1 _ h.2) (fun h => hv h.1)

theorem ltoaText_nil_iff (v : Word) : ltoaText stray v 10 = [] ↔ v = 0x80000000 ∧ stray 0xFFFFFFF8 = 0 := by
  by_cases hv : v = 0x80000000
  · subst hv
    rw [ltoaText, signedChars_min, printed_nil_iff, and_iff_right rfl]
  · rw [ltoaText_eq stray ten_base.1 (by decide) hv]
    exact iff_of_false (canonical_ne_nil ten_base.1 _) (fun h => hv h.1)

theorem emitted_nil_iff (h : kindOf d = some a.kind) : emitted stray d a = [] ↔ Silent stray (d, a) := by
  cases a with
  | int v =>
    rcases kind_int h with rfl | rfl | rfl | rfl
    · exact iff_of_false (List.cons_ne_nil _ _) (fun h => absurd h.1 (by decide))
    · exact (itoaText_nil_iff v).trans (and_iff_right (Or.inl rfl)).symm
    · exact (itoaText_nil_iff v).trans (and_iff_right (Or.inr rfl)).symm
    · refine iff_of_false ?_ (fun h => absurd h.1 (by decide))
      change utoaText stray v 8 ≠ []
      rw [utoaText_eq stray (by decide) (by decide)]
      exact canonical_ne_nil (by decide) _
  | long v =>
    rcases kind_long h with rfl | rfl
    · exact iff_of_false (List.cons_ne_nil _ _) (fun h => absurd h.1 (by decide))
    · exact (ltoaText_nil_iff v).trans (and_iff_right rfl).symm
  | string s => rfl

theorem directives_needs (l : List Byte) : (directives l).map kindOf = (needs l).map some := by
  fun_induction directives l with
  | case1 => rfl
  | case2 c cs hc ih => rw [needs.eq_def, ih]; simp only [if_pos hc]
  | case3 c hc => rw [needs.eq_def]; simp only [if_neg hc, List.map_nil]
  | case4 c hc ds ih => rw [needs.eq_def, ih]; simp only [if_neg hc, if_true]
  | case5 c hc d ds hd hkind => rw [needs.eq_def]; simp only [if_neg hc, if_neg hd, hkind, List.map_nil]
  | case6 c hc d ds hd hkind ih =>
    obtain ⟨k, hk⟩ := Option.ne_none_iff_exists'.mp hkind
    rw [needs.eq_def, List.map_cons, ih]
    simp only [if_neg hc, if_neg hd, hk, List.map_cons]

theorem zip_kinds (hds : ds.map kindOf = ks.map some) (h : ks <+: args.map Arg.kind) :
    ∀ c ∈ ds.zip args, kindOf c.1 = some c.2.kind := by
  induction ds generalizing ks args with
  | nil => simp
  | cons d ds ih =>
    cases ks with
    | nil => cases hds
    | cons k ks =>
      cases args with
      | nil => simp
      | cons a args =>
        rw [List.map_cons, List.map_cons, List.cons.injEq] at hds
        rw [List.map_cons, List.cons_prefix_cons] at h
        rw [List.zip_cons_cons, List.forall_mem_cons]
        exact ⟨by rw [hds.1, h.1], ih hds.2 h.2⟩

theorem owed_zero_iff (h : needs format.bytes <+: args.map Arg.kind) :
    owed stray (start format args) = 0 ↔ ∀ c ∈ (directives format.bytes).zip args, Silent stray c := by
  have hkinds := zip_kinds (directives_needs _) h
  have hnul : directives (format.bytes ++ [0]) = directives format.bytes := by
    generalize format.bytes = l
    fun_induction directives l with
    | case1 => rfl
    | case2 c cs hc ih => rw [List.cons_append, directives_cons hc, ih]
    | case3 c hc =>
      obtain rfl := not_not.mp hc
      exact directives_bad (by decide) rfl []
    | case4 c hc ds ih =>
      obtain rfl := not_not.mp hc
      exact (directives_percent _).trans ih
    | case5 c hc d ds hd hkind =>
      obtain rfl := not_not.mp hc
      exact directives_bad hd hkind _
    | case6 c hc d ds hd hkind ih =>
      obtain rfl := not_not.mp hc
      exact (directives_kind hd hkind _).trans (congrArg _ ih)
  simp only [owed, start, Bool.false_eq_true, if_false, hnul]
  rw [List.sum_eq_zero_iff_forall_eq_nat, List.forall_mem_map]
  refine forall_congr' fun c => forall_congr' fun hc => ?_
  rw [List.length_eq_zero_iff]
  exact emitted_nil_iff (hkinds c hc)

theorem printf_counts (stray : Word → Byte) (stack : ℕ → Buffer) (format : CString) (args : List Arg)
    (h : needs format.bytes <+: args.map Arg.kind) :
    ∃ p, (∀ q, Returns (printf stray stack format args) q ↔ q = p) ∧
      (p.out.length < 2147483648 →
        (p.written.toInt = p.out.length ↔ ∀ c ∈ (directives format.bytes).zip args, Silent stray c)) := by
  obtain ⟨p, -, hformat, hreturns⟩ := printf_returns stray stack format args h
  refine ⟨p, hreturns, fun hlen => ?_⟩
  have hrun : Returns (printf stray stack format args) p := (hreturns p).mpr rfl
  obtain ⟨n, hn, hw⟩ := loop_counts hrun
  have hend : owed stray p = 0 := owed_nil (by rw [hformat]; rfl)
  have hstart : (start format args).out.length = 0 := rfl
  have hzero : (start format args).written = word 0 := rfl
  rw [hend, hstart] at hn
  rw [hzero, word_add, Nat.zero_add] at hw
  rw [← owed_zero_iff h, hw, BitVec.toInt_eq_toNat_of_lt (by rw [toNat_word (by omega)]; omega),
    toNat_word (by omega)]
  omega

/-- The characters that a conversion prints are not counted, so the number is right when none prints
any. -/
theorem written_counts_iff (stray : Word → Byte) (stack : ℕ → Buffer) (format : CString) (args : List Arg)
    (h : needs format.bytes <+: args.map Arg.kind) :
    ∃ p, (∀ q, Returns (printf stray stack format args) q ↔ q = p) ∧
      (∀ q, Returns (vprintf stray stack format args) q ↔ q = p) ∧
      (p.out.length < 2147483648 →
        (p.written.toInt = p.out.length ↔ ∀ c ∈ (directives format.bytes).zip args, Silent stray c)) := by
  obtain ⟨p, hreturns, hcount⟩ := printf_counts stray stack format args h
  exact ⟨p, hreturns, hreturns, hcount⟩

def textFormat : CString := ⟨[0x61, 0x25, 0x73, 0x25, 0x25, 0x62], by decide⟩

theorem text_counted : ∃ p, Returns (printf (fun _ => 0) (fun _ _ => 0) textFormat
    [.string ⟨[], List.not_mem_nil⟩]) p ∧ p.out = [0x61, 0x25, 0x62] ∧ p.written.toInt = 3 := by
  obtain ⟨p, hreturns, -, hcount⟩ := written_counts_iff (fun _ => 0) (fun _ _ => 0) textFormat
    [.string ⟨[], List.not_mem_nil⟩] ⟨[], rfl⟩
  obtain ⟨q, hint, -, hreturns'⟩ := printf_returns (fun _ => 0) (fun _ _ => 0) textFormat
    [.string ⟨[], List.not_mem_nil⟩] ⟨[], rfl⟩
  obtain rfl : p = q := (hreturns' p).mp ((hreturns p).mpr rfl)
  have hmeaning : Interprets (fun _ => 0) false textFormat.bytes [.string ⟨[], List.not_mem_nil⟩]
      [0x61, 0x25, 0x62] [] :=
    .text (by decide) (.directive (.string ⟨[], List.not_mem_nil⟩) (.percent (.text (by decide) .done)))
  have hout : p.out = [0x61, 0x25, 0x62] := ((hint _ _).mp hmeaning).1.symm
  have hwritten : p.written.toInt = p.out.length := by
    refine (hcount (by rw [hout]; decide)).mpr ?_
    rintro c (_ | ⟨_, h⟩)
    · rfl
    · cases h
  exact ⟨p, (hreturns p).mpr rfl, hout, by rw [hwritten, hout]; rfl⟩

theorem char_not_counted :
    ∃ p, Returns (printf (fun _ => 0) (fun _ _ => 0) (directive 0x63 (by decide)) [.int 0x41]) p ∧
    p.out = [0x41] ∧
      p.written.toInt ≠ p.out.length := by
  obtain ⟨p, hreturns, hcount⟩ := printf_counts (fun _ => 0) (fun _ _ => 0) (directive 0x63 (by decide))
    [.int 0x41] (List.prefix_refl _)
  obtain ⟨q, hq, hout⟩ := directive_prints (fun _ => 0) (fun _ _ => 0) (show (0x63 : Byte) ≠ 0 by decide)
    (.char 0x41)
  obtain rfl := (hreturns q).mp hq
  refine ⟨q, hq, hout, fun heq => ?_⟩
  have hsilent := (hcount (by rw [hout]; decide)).mp heq (0x63, .int 0x41) List.mem_cons_self
  exact absurd hsilent.1 (by decide)

end Rinix.Stdio
