import Rinix.Stdio.Numeral
import Rinix.Stdio.Printf

/-!
What a format string means, and that the loop of `printf` and `vprintf` gives it that meaning.
-/

namespace Rinix.Stdio

open ByteMemory WhileLoop

inductive Kind where
  | int
  | long
  | string
deriving DecidableEq

def Arg.kind : Arg → Kind
  | .int _ => .int
  | .long _ => .long
  | .string _ => .string

def kindOf (specifier : Byte) : Option Kind :=
  if specifier = 0x63 then some .int
  else if specifier = 0x73 then some .string
  else if specifier = 0x64 ∨ specifier = 0x69 ∨ specifier = 0x6F then some .int
  else if specifier = 0x78 ∨ specifier = 0x6C then some .long
  else none

def needs : List Byte → List Kind
  | [] => []
  | c :: cs =>
    if c ≠ percent then needs cs
    else match cs with
      | [] => []
      | d :: ds =>
        if d = percent then needs ds
        else match kindOf d with
          | some k => k :: needs ds
          | none => []

def Leaves (conversion : Buffer → ℕ → Option Buffer) (text : List Byte) : Prop :=
  ∀ s, ∃ t, Returns (conversion s) t ∧ Text t text

inductive Emits (stray : Word → Byte) : Byte → Arg → List Byte → Prop where
  | char (v : Word) : Emits stray 0x63 (.int v) [v.setWidth 8]
  | string (s : CString) : Emits stray 0x73 (.string s) s.bytes
  | decimal {v : Word} {text : List Byte} : Leaves (fun s => itoa stray v s 10) text →
      Emits stray 0x64 (.int v) text
  | integer {v : Word} {text : List Byte} : Leaves (fun s => itoa stray v s 10) text →
      Emits stray 0x69 (.int v) text
  | octal {v : Word} {text : List Byte} : Leaves (fun s => utoa stray v s 8) text →
      Emits stray 0x6F (.int v) text
  | long {v : Word} {text : List Byte} : Leaves (fun s => ltoa stray v s 10) text →
      Emits stray 0x6C (.long v) text
  | hex {v : Word} {text : List Byte} : Leaves (fun s => ultoa stray v s 16) text →
      Emits stray 0x78 (.long v) ([0x30, 0x78] ++ text)

/-- `Interprets rejected format args out rest`: the format prints `out` and leaves the arguments
`rest`. -/
inductive Interprets (stray : Word → Byte) : Bool → List Byte → List Arg → List Byte → List Arg → Prop where
  | done {rejected : Bool} {args : List Arg} : Interprets stray rejected [] args [] args
  | text {rejected : Bool} {c : Byte} {cs out : List Byte} {args rest : List Arg} : c ≠ percent →
      Interprets stray rejected cs args out rest → Interprets stray rejected (c :: cs) args (c :: out) rest
  | percent {rejected : Bool} {cs out : List Byte} {args rest : List Arg} :
      Interprets stray rejected cs args out rest →
      Interprets stray rejected (percent :: percent :: cs) args (percent :: out) rest
  | directive {d : Byte} {a : Arg} {text cs out : List Byte} {args rest : List Arg} : Emits stray d a text →
      Interprets stray false cs args out rest →
      Interprets stray false (percent :: d :: cs) (a :: args) (text ++ out) rest
  | reject {d : Byte} {cs out : List Byte} {args rest : List Arg} : d ≠ percent → kindOf d = none →
      Interprets stray true cs args out rest →
      Interprets stray false (percent :: d :: cs) args (percent :: d :: out) rest
  | verbatim {d : Byte} {cs out : List Byte} {args rest : List Arg} : d ≠ percent →
      Interprets stray true cs args out rest →
      Interprets stray true (percent :: d :: cs) args (percent :: d :: out) rest
  | lone {rejected : Bool} {args : List Arg} : Interprets stray rejected [percent] args [percent] args

variable {stray : Word → Byte} {stack : ℕ → Buffer} {p q : Printf} {c d : Byte}
  {cs ds out out' text text' : List Byte}
  {a : Arg} {args rest rest' : List Arg} {rejected : Bool} {k : Kind} {s : Buffer}

theorem Text.length_le (h : Text s text) (h' : Text s text') : text'.length ≤ text.length := by
  by_contra hlt
  exact h'.ne_zero (by omega) h.end_zero

theorem Text.unique (h : Text s text) (h' : Text s text') : text = text' := by
  apply List.ext_getElem (Nat.le_antisymm (h'.length_le h) (h.length_le h'))
  intro i hi hi'
  rw [← List.getD_eq_getElem _ 0 hi, ← List.getD_eq_getElem _ 0 hi', ← h.chars i (Nat.le_of_lt hi),
    h'.chars i (Nat.le_of_lt hi')]

theorem Leaves.unique {conversion : Buffer → ℕ → Option Buffer} (hf : ∀ s, Fuelled (conversion s))
    (h : Leaves conversion text) (h' : Leaves conversion text') : text = text' := by
  obtain ⟨t, ht, htext⟩ := h fun _ => 0
  obtain ⟨t', ht', htext'⟩ := h' fun _ => 0
  rw [(hf _).unique ht' ht] at htext'
  exact htext.unique htext'

theorem printBuffer_fuelled (s : Buffer) : Fuelled (printBuffer s) := Fuelled.map (strlen_fuelled s) _

theorem printBuffer_text (h : Text s text) (hl : text.length < 4294967296) :
    Returns (printBuffer s) text := by
  obtain ⟨fuel, hlen⟩ := h.strlen
  refine ⟨fuel, ?_⟩
  rw [printBuffer, hlen, Option.map_some, toNat_word hl]
  congr 1
  apply List.ext_getElem
  · simp
  · intro i hi hi'
    rw [List.getElem_map, List.getElem_range, h.chars i (Nat.le_of_lt hi'), List.getD_eq_getElem _ _ hi']

theorem leaves_print (conversion : Buffer → ℕ → Option Buffer) (hf : Fuelled (conversion s))
    (h : ∃ t, Returns (conversion s) t ∧ Text t text) (hl : text.length < 4294967296) :
    Returns (fun fuel => (conversion s fuel).bind fun t => printBuffer t fuel) text := by
  obtain ⟨t, ht, htext⟩ := h
  exact (returns_bind hf printBuffer_fuelled).mpr ⟨t, ht, printBuffer_text htext hl⟩

theorem leaves_lead (conversion : Buffer → ℕ → Option Buffer) (lead : List Byte) (hf : Fuelled (conversion s))
    (h : ∃ t, Returns (conversion s) t ∧ Text t text) (hl : text.length < 4294967296) :
    Returns (fun fuel => (conversion s fuel).bind fun t => (printBuffer t fuel).map fun r => lead ++ r)
      (lead ++ text) := by
  obtain ⟨t, ht, htext⟩ := h
  exact (returns_bind hf fun t => Fuelled.map (printBuffer_fuelled t) _).mpr
    ⟨t, ht, Returns.map (printBuffer_text htext hl) _⟩

theorem printed_length (l : List Byte) : (printed l).length ≤ l.length := by
  rw [printed, List.length_reverse]
  exact (List.takeWhile_prefix _).length_le

theorem itoaText_length (v : Word) : (itoaText stray v 10).length < 4294967296 := by
  have hprinted := printed_length (signedChars stray 10 (magnitude v) ++ signChars v)
  have hlen := signedChars_length stray (show 2 ≤ (10 : Word).toNat by decide) (magnitude v)
  have hsign := signChars_length v
  rw [List.length_append] at hprinted
  rw [itoaText]
  omega

theorem ltoaText_length (v : Word) : (ltoaText stray v 10).length < 4294967296 := by
  have hprinted := printed_length (signedChars stray 10 (magnitude v))
  have hlen := signedChars_length stray (show 2 ≤ (10 : Word).toNat by decide) (magnitude v)
  rw [ltoaText]
  omega

theorem utoaText_length {base : Word} (hb : 2 ≤ base.toNat) (v : Word) :
    (utoaText stray v base).length < 4294967296 := by
  have hprinted := printed_length (digitChars stray base v)
  have hlen := digitChars_length stray hb v
  rw [utoaText]
  omega

theorem textLength_eq (hcs : 0 ∉ cs) : textLength (cs ++ [0]) = some (cs.takeWhile (· ≠ percent)).length := by
  induction cs with
  | nil => rfl
  | cons c cs ih =>
    obtain ⟨hc, hcs⟩ := not_or.mp (fun h => hcs (List.mem_cons.mpr h))
    rw [List.cons_append, textLength]
    by_cases hp : c = percent
    · rw [if_neg (fun h => h.2 hp), List.takeWhile_cons_of_neg (by simpa using hp)]
      rfl
    · rw [if_pos ⟨fun h => hc h.symm, hp⟩, List.takeWhile_cons_of_pos (by simpa using hp), ih hcs]
      rfl

theorem printC_eq (p : Printf) (c : Byte) (hcs : 0 ∉ cs) : ∃ w, printC p (c :: (cs ++ [0])) =
    some { p with
      format := cs.dropWhile (· ≠ percent) ++ [0]
      out := p.out ++ c :: cs.takeWhile (· ≠ percent)
      written := w } := by
  have hsplit : cs ++ [0] = cs.takeWhile (· ≠ percent) ++ (cs.dropWhile (· ≠ percent) ++ [0]) := by
    rw [← List.append_assoc, List.takeWhile_append_dropWhile]
  refine ⟨p.written + word ((cs.takeWhile (· ≠ percent)).length + 1), ?_⟩
  rw [printC, List.tail_cons, textLength_eq hcs, Option.map_some, List.drop_succ_cons, List.take_succ_cons]
  rw [hsplit, List.drop_left, List.take_left]

theorem printInt_fuelled (d : Byte) (v : Word) (s : Buffer) : Fuelled (printInt stray d v s) := by
  refine Fuelled.bind ?_ printBuffer_fuelled
  exact Fuelled.ite (itoa_fuelled _ _ _) (convertUnsigned_fuelled _ _ _)

theorem printLong_fuelled (d : Byte) (v : Word) (s : Buffer) : Fuelled (printLong stray d v s) := by
  refine Fuelled.bind ?_ fun t => Fuelled.map (printBuffer_fuelled t) _
  exact Fuelled.ite (ltoa_fuelled _ _ _) (convertUnsigned_fuelled _ _ _)

theorem convert_fuelled (p : Printf) (d : Byte) (cs : List Byte) : Fuelled (convert stray stack p d cs) := by
  refine Fuelled.ite (fuelled_const _) (Fuelled.ite (fuelled_const _)
    (Fuelled.ite ?_ (Fuelled.ite ?_ (fuelled_const _))))
  · split
    · exact Fuelled.map (printInt_fuelled _ _ _) _
    · exact fuelled_const _
  · split
    · exact Fuelled.map (printLong_fuelled _ _ _) _
    · exact fuelled_const _

theorem formatTurn_fuelled (p : Printf) : Fuelled (formatTurn stray stack p) := by
  change Fuelled fun fuel => formatTurn stray stack p fuel
  simp only [formatTurn]
  split
  · exact fuelled_const _
  · refine Fuelled.ite (fuelled_const _) (Fuelled.ite (fuelled_const _) ?_)
    split
    · exact fuelled_const _
    · exact Fuelled.ite (fuelled_const _) (Fuelled.ite (fuelled_const _)
        (Fuelled.map (convert_fuelled _ _ _) _))

theorem convert_int (hd : d = 0x64 ∨ d = 0x69 ∨ d = 0x6F) {v : Word} (hargs : p.args = .int v :: args)
    (h : Returns (printInt stray d v (stack cs.length)) text) :
    Returns (convert stray stack p d cs) { p with format := cs, args := args, out := p.out ++ text } := by
  have hc : d ≠ 0x63 := by rcases hd with rfl | rfl | rfl <;> decide
  have hs : d ≠ 0x73 := by rcases hd with rfl | rfl | rfl <;> decide
  obtain ⟨fuel, h⟩ := h
  refine ⟨fuel, ?_⟩
  rw [convert, if_neg hc, if_neg hs, if_pos hd, hargs]
  exact Option.map_eq_some_iff.mpr ⟨text, h, rfl⟩

theorem convert_long (hd : d = 0x78 ∨ d = 0x6C) {v : Word} (hargs : p.args = .long v :: args)
    (h : Returns (printLong stray d v (stack cs.length)) text) :
    Returns (convert stray stack p d cs) { p with format := cs, args := args, out := p.out ++ text } := by
  have hc : d ≠ 0x63 := by rcases hd with rfl | rfl <;> decide
  have hs : d ≠ 0x73 := by rcases hd with rfl | rfl <;> decide
  have hi : ¬(d = 0x64 ∨ d = 0x69 ∨ d = 0x6F) := by rcases hd with rfl | rfl <;> decide
  obtain ⟨fuel, h⟩ := h
  refine ⟨fuel, ?_⟩
  rw [convert, if_neg hc, if_neg hs, if_neg hi, if_pos hd, hargs]
  exact Option.map_eq_some_iff.mpr ⟨text, h, rfl⟩

theorem printInt_decimal (v : Word) (s : Buffer) (hd : intRadius d = 10) :
    Returns (printInt stray d v s) (itoaText stray v 10) := by
  have hprint := leaves_print (fun s => itoa stray v s 10) (itoa_fuelled _ _ _)
    (itoa_leaves stray (by decide) (by decide) v s) (itoaText_length v)
  change Returns (fun fuel => printInt stray d v s fuel) _
  simp only [printInt, convertInt, hd]
  exact hprint

theorem printInt_octal (v : Word) (s : Buffer) : Returns (printInt stray 0x6F v s) (utoaText stray v 8) :=
  leaves_print (fun s => utoa stray v s 8) (convertUnsigned_fuelled _ _ _)
    (convertUnsigned_leaves stray (by decide) (by decide) v s) (utoaText_length (by decide) v)

theorem printLong_decimal (v : Word) (s : Buffer) :
    Returns (printLong stray 0x6C v s) (ltoaText stray v 10) :=
  leaves_lead (fun s => ltoa stray v s 10) [] (ltoa_fuelled _ _ _)
    (ltoa_leaves stray (by decide) (by decide) v s) (ltoaText_length v)

theorem printLong_hex (v : Word) (s : Buffer) :
    Returns (printLong stray 0x78 v s) ([0x30, 0x78] ++ utoaText stray v 16) :=
  leaves_lead (fun s => ultoa stray v s 16) [0x30, 0x78] (convertUnsigned_fuelled _ _ _)
    (convertUnsigned_leaves stray (by decide) (by decide) v s) (utoaText_length (by decide) v)

def emitted (stray : Word → Byte) (d : Byte) : Arg → List Byte
  | .int v =>
    if d = 0x63 then [v.setWidth 8]
    else if d = 0x6F then utoaText stray v 8 else itoaText stray v 10
  | .string s => s.bytes
  | .long v => if d = 0x78 then [0x30, 0x78] ++ utoaText stray v 16 else ltoaText stray v 10

theorem kind_int (hd : kindOf d = some Kind.int) : d = 0x63 ∨ d = 0x64 ∨ d = 0x69 ∨ d = 0x6F := by
  rw [kindOf] at hd
  split_ifs at hd with hc hs hi hl
  · exact Or.inl hc
  · cases hd
  · exact Or.inr hi
  · cases hd

theorem kind_long (hd : kindOf d = some Kind.long) : d = 0x78 ∨ d = 0x6C := by
  rw [kindOf] at hd
  split_ifs at hd with hc hs hi hl
  · cases hd
  · cases hd
  · cases hd
  · exact hl

theorem kind_string (hd : kindOf d = some Kind.string) : d = 0x73 := by
  rw [kindOf] at hd
  split_ifs at hd with hc hs hi hl
  · cases hd
  · exact hs
  · cases hd
  · cases hd

theorem emits_emitted (stray : Word → Byte) (hd : kindOf d = some a.kind) :
    Emits stray d a (emitted stray d a) := by
  cases a with
  | int v =>
    rcases kind_int hd with rfl | rfl | rfl | rfl
    · exact .char v
    · exact .decimal (itoa_leaves stray (by decide) (by decide) v)
    · exact .integer (itoa_leaves stray (by decide) (by decide) v)
    · exact .octal (convertUnsigned_leaves stray (by decide) (by decide) v)
  | long v =>
    rcases kind_long hd with rfl | rfl
    · exact .hex (convertUnsigned_leaves stray (by decide) (by decide) v)
    · exact .long (ltoa_leaves stray (by decide) (by decide) v)
  | string s =>
    obtain rfl := kind_string hd
    exact .string s

theorem convert_emitted (stray : Word → Byte) (stack : ℕ → Buffer) (cs : List Byte)
    (hd : kindOf d = some a.kind)
    (hargs : p.args = a :: args) : Returns (convert stray stack p d cs)
      { p with format := cs, args := args, out := p.out ++ emitted stray d a } := by
  cases a with
  | int v =>
    rcases kind_int hd with rfl | rfl | rfl | rfl
    · exact ⟨0, by rw [convert, if_pos rfl, hargs]; rfl⟩
    · exact convert_int (Or.inl rfl) hargs (printInt_decimal v _ rfl)
    · exact convert_int (Or.inr (Or.inl rfl)) hargs (printInt_decimal v _ rfl)
    · exact convert_int (Or.inr (Or.inr rfl)) hargs (printInt_octal v _)
  | long v =>
    rcases kind_long hd with rfl | rfl
    · exact convert_long (Or.inl rfl) hargs (printLong_hex v _)
    · exact convert_long (Or.inr rfl) hargs (printLong_decimal v _)
  | string s =>
    obtain rfl := kind_string hd
    exact ⟨0, by rw [convert, if_neg (by decide), if_pos rfl, hargs]; rfl⟩

theorem convert_bad (hd : kindOf d = none) (fuel : ℕ) :
    convert stray stack p d cs fuel = incomprehensible p := by
  have hc : d ≠ 0x63 := by rintro rfl; cases hd
  have hs : d ≠ 0x73 := by rintro rfl; cases hd
  have hi : ¬(d = 0x64 ∨ d = 0x69 ∨ d = 0x6F) := by rintro (rfl | rfl | rfl) <;> cases hd
  have hl : ¬(d = 0x78 ∨ d = 0x6C) := by rintro (rfl | rfl) <;> cases hd
  rw [convert, if_neg hc, if_neg hs, if_neg hi, if_neg hl]

theorem interprets_text (htext : ∀ c ∈ text, c ≠ percent) (h : Interprets stray rejected cs args out rest) :
    Interprets stray rejected (text ++ cs) args (text ++ out) rest := by
  induction text with
  | nil => exact h
  | cons c text ih =>
    exact .text (htext c List.mem_cons_self) (ih fun d hd => htext d (List.mem_cons_of_mem _ hd))

theorem needs_text (htext : ∀ c ∈ text, c ≠ percent) (cs : List Byte) : needs (text ++ cs) = needs cs := by
  induction text with
  | nil => rfl
  | cons c text ih =>
    rw [List.cons_append, needs.eq_def]
    simp only [if_pos (htext c List.mem_cons_self)]
    exact ih fun d hd => htext d (List.mem_cons_of_mem _ hd)

theorem not_percent (cs : List Byte) (c : Byte) (hc : c ∈ cs.takeWhile (· ≠ percent)) : c ≠ percent := by
  have h := List.mem_takeWhile_imp hc
  exact of_decide_eq_true h

def Printed (stray : Word → Byte) (stack : ℕ → Buffer) (cs : List Byte) : Prop :=
  0 ∉ cs → ∀ p : Printf, p.format = cs ++ [0] → (p.rejected = false → needs cs <+: p.args.map Arg.kind) →
    ∃ q out, Interprets stray p.rejected cs p.args out q.args ∧ q.out = p.out ++ out ∧ q.format = [0] ∧
      Returns (fun fuel => nested (formatTurn stray stack) fuel fuel p) q

theorem chunk_run (ih : Printed stray stack (cs.dropWhile (· ≠ percent))) (hcs : 0 ∉ cs) {r : Printf}
    (hneeds : r.rejected = false → needs cs <+: r.args.map Arg.kind)
    (hturn : ∀ q, printC r (c :: (cs ++ [0])) = some q → Returns (formatTurn stray stack p) (.again q)) :
    ∃ q out, Interprets stray r.rejected cs r.args out q.args ∧ q.out = r.out ++ c :: out ∧ q.format = [0] ∧
      Returns (fun fuel => nested (formatTurn stray stack) fuel fuel p) q := by
  have hsplit : cs.takeWhile (· ≠ percent) ++ cs.dropWhile (· ≠ percent) = cs :=
    List.takeWhile_append_dropWhile
  have hpercent := not_percent cs
  have hneeds' : needs (cs.dropWhile (· ≠ percent)) = needs cs := by
    rw [← needs_text hpercent, hsplit]
  obtain ⟨w, hprint⟩ := printC_eq r c hcs
  have hdrop : 0 ∉ cs.dropWhile (· ≠ percent) := fun h => hcs (List.dropWhile_sublist _ |>.subset h)
  obtain ⟨q, out, hint, hout, hformat, hreturns⟩ := ih hdrop
    { r with
      format := cs.dropWhile (· ≠ percent) ++ [0]
      out := r.out ++ c :: cs.takeWhile (· ≠ percent)
      written := w } rfl (fun hr => by rw [hneeds']; exact hneeds hr)
  refine ⟨q, cs.takeWhile (· ≠ percent) ++ out, ?_, ?_, hformat,
    nested_again formatTurn_fuelled (hturn _ hprint) hreturns⟩
  · have htext := interprets_text hpercent hint
    rwa [hsplit] at htext
  · rw [hout]
    simp

theorem turn_done (hp : p.format = [0]) : Returns (formatTurn stray stack p) (.exit p) :=
  ⟨0, by simp only [formatTurn, hp, if_pos]⟩

theorem turn_text (hp : p.format = c :: (cs ++ [0])) (hzero : c ≠ 0) (hc : c ≠ percent)
    (hq : printC p (c :: (cs ++ [0])) = some q) : Returns (formatTurn stray stack p) (.again q) :=
  ⟨0, by simp only [formatTurn, hp, if_neg hzero, if_pos hc, hq, Option.map_some]⟩

theorem percent_ne_zero : percent ≠ 0 := by decide

theorem turn_percent (hp : p.format = percent :: percent :: (cs ++ [0]))
    (hq : printC p (percent :: (cs ++ [0])) = some q) : Returns (formatTurn stray stack p) (.again q) :=
  ⟨0, by simp only [formatTurn, hp, if_neg percent_ne_zero, ne_eq, not_true_eq_false, if_false, if_true, hq,
    Option.map_some]⟩

theorem turn_bad (hp : p.format = percent :: d :: ds) (hd : d ≠ percent)
    (hbad : p.rejected = true ∨ kindOf d = none)
    (hq : printC { p with rejected := true } (percent :: d :: ds) = some q) :
    Returns (formatTurn stray stack p) (.again q) := by
  have hincomprehensible : incomprehensible p = some q := by
    rw [← hp] at hq
    exact hq
  refine ⟨0, ?_⟩
  simp only [formatTurn, hp, if_neg percent_ne_zero, ne_eq, not_true_eq_false, if_false, if_neg hd]
  split_ifs with hrejected
  · rw [hincomprehensible, Option.map_some]
  · rw [convert_bad (hbad.resolve_left hrejected), hincomprehensible, Option.map_some]

theorem turn_directive (hp : p.format = percent :: d :: ds) (hd : d ≠ percent)
    (hrejected : p.rejected = false)
    (hq : Returns (convert stray stack p d ds) q) : Returns (formatTurn stray stack p) (.again q) := by
  obtain ⟨fuel, hq⟩ := hq
  refine ⟨fuel, ?_⟩
  simp only [formatTurn, hp, if_neg percent_ne_zero, ne_eq, not_true_eq_false, if_false, if_neg hd, hrejected,
    Bool.false_eq_true, hq, Option.map_some]

theorem interprets_cons (hd : d ≠ percent) (h : Interprets stray rejected (d :: cs) args out rest) :
    ∃ out', out = d :: out' ∧ Interprets stray rejected cs args out' rest := by
  cases h with
  | text _ h => exact ⟨_, rfl, h⟩
  | percent _ => exact absurd rfl hd
  | directive _ _ => exact absurd rfl hd
  | reject _ _ _ => exact absurd rfl hd
  | verbatim _ _ => exact absurd rfl hd
  | lone => exact absurd rfl hd

theorem interprets_nil (h : Interprets stray rejected [] args out rest) : out = [] ∧ rest = args := by
  cases h
  exact ⟨rfl, rfl⟩

theorem directive_run (ih : Printed stray stack cs) (hcs : 0 ∉ cs)
    (hp : p.format = percent :: d :: (cs ++ [0]))
    (hd : d ≠ percent) (hrejected : p.rejected = false) (hkind : kindOf d = some k)
    (hneeds : k :: needs cs <+: p.args.map Arg.kind) :
    ∃ q out, Interprets stray false (percent :: d :: cs) p.args out q.args ∧ q.out = p.out ++ out ∧
    q.format = [0] ∧
      Returns (fun fuel => nested (formatTurn stray stack) fuel fuel p) q := by
  cases hargs : p.args with
  | nil =>
    rw [hargs] at hneeds
    exact absurd hneeds.length_le (by simp)
  | cons a args =>
    rw [hargs, List.map_cons, List.cons_prefix_cons] at hneeds
    obtain ⟨rfl, hneeds⟩ := hneeds
    have hconvert := convert_emitted stray stack (cs ++ [0]) hkind hargs
    obtain ⟨q, out, hint, hout, hformat, hreturns⟩ := ih hcs
      { p with format := cs ++ [0], args := args, out := p.out ++ emitted stray d a } rfl fun _ => hneeds
    rw [hrejected] at hint
    refine ⟨q, emitted stray d a ++ out, .directive (emits_emitted stray hkind) hint, ?_, hformat,
      nested_again formatTurn_fuelled (turn_directive hp hd hrejected hconvert) hreturns⟩
    rw [hout, List.append_assoc]

theorem printed_text (ih : Printed stray stack (cs.dropWhile (· ≠ percent))) (hc : c ≠ percent) :
    Printed stray stack (c :: cs) := by
  intro hcs p hp hneeds
  obtain ⟨hzero, hcs'⟩ := not_or.mp (fun h => hcs (List.mem_cons.mpr h))
  rw [needs.eq_def] at hneeds
  simp only [if_pos hc] at hneeds
  obtain ⟨q, out, hint, hout, hrest⟩ := chunk_run ih hcs' hneeds fun q hq =>
    turn_text hp (Ne.symm hzero) hc hq
  exact ⟨q, c :: out, .text hc hint, hout, hrest⟩

theorem printed_lone (ih : Printed stray stack ([].dropWhile (· ≠ percent))) :
    Printed stray stack [percent] := by
  intro hcs p hp hneeds
  have hlone := chunk_run (c := percent) (r := { p with rejected := true }) ih List.not_mem_nil
    (fun hr => by cases hr) fun q hq => turn_bad hp (by decide) (Or.inr rfl) hq
  obtain ⟨q, out, hint, hout, hrest⟩ := hlone
  obtain ⟨rfl, hargs⟩ := interprets_nil hint
  exact ⟨q, [percent], hargs ▸ .lone, hout, hrest⟩

theorem printed_percent (ih : Printed stray stack (cs.dropWhile (· ≠ percent))) :
    Printed stray stack (percent :: percent :: cs) := by
  intro hcs p hp hneeds
  rw [needs.eq_def] at hneeds
  simp only [ne_eq, not_true_eq_false, if_false, if_true] at hneeds
  obtain ⟨q, out, hint, hout, hrest⟩ := chunk_run ih
    (fun h => hcs (List.mem_cons_of_mem _ (List.mem_cons_of_mem _ h))) hneeds fun q hq => turn_percent hp hq
  exact ⟨q, percent :: out, .percent hint, hout, hrest⟩

theorem bad_run (ih : Printed stray stack ((d :: cs).dropWhile (· ≠ percent))) (hcs : 0 ∉ d :: cs)
    (hp : p.format = percent :: d :: (cs ++ [0])) (hd : d ≠ percent)
    (hbad : p.rejected = true ∨ kindOf d = none) :
    ∃ q out, Interprets stray true cs p.args out q.args ∧ q.out = p.out ++ percent :: d :: out ∧
      q.format = [0] ∧ Returns (fun fuel => nested (formatTurn stray stack) fuel fuel p) q := by
  obtain ⟨q, out, hint, hout, hrest⟩ := chunk_run (c := percent) (r := { p with rejected := true }) ih hcs
    (fun hr => by cases hr) fun q hq => turn_bad hp hd hbad hq
  obtain ⟨out', rfl, htail⟩ := interprets_cons hd hint
  exact ⟨q, out', htail, hout, hrest⟩

theorem printed_directive (ih : Printed stray stack cs)
    (ihbad : Printed stray stack ((d :: cs).dropWhile (· ≠ percent)))
    (hd : d ≠ percent) : Printed stray stack (percent :: d :: cs) := by
  intro hcs p hp hneeds
  have hcs' : 0 ∉ d :: cs := fun h => hcs (List.mem_cons_of_mem _ h)
  rw [needs.eq_def] at hneeds
  simp only [ne_eq, not_true_eq_false, if_false, if_neg hd] at hneeds
  by_cases hrejected : p.rejected = true
  · obtain ⟨q, out, hint, hrest⟩ := bad_run ihbad hcs' hp hd (Or.inl hrejected)
    exact ⟨q, _, hrejected ▸ .verbatim hd hint, hrest⟩
  · have hfalse : p.rejected = false := by simpa using hrejected
    have hneeds := hneeds hfalse
    cases hkind : kindOf d with
    | none =>
      obtain ⟨q, out, hint, hrest⟩ := bad_run ihbad hcs' hp hd (Or.inr hkind)
      exact ⟨q, _, hfalse ▸ .reject hd hkind hint, hrest⟩
    | some k =>
      simp only [hkind] at hneeds
      rw [hfalse]
      exact directive_run ih (fun h => hcs' (List.mem_cons_of_mem _ h)) hp hd hfalse hkind hneeds

theorem printed_all (stray : Word → Byte) (stack : ℕ → Buffer) (cs : List Byte) : Printed stray stack cs := by
  induction hn : cs.length using Nat.strong_induction_on generalizing cs with
  | _ n ih =>
    have hdrop (ds : List Byte) (hds : ds.length < cs.length) :
      Printed stray stack (ds.dropWhile (· ≠ percent)) := by
      have hle := (List.dropWhile_sublist (fun x : Byte => decide (x ≠ percent)) (l := ds)).length_le
      exact ih _ (by omega) _ rfl
    cases cs with
    | nil =>
      intro _ p hp _
      exact ⟨p, [], .done, (List.append_nil _).symm, hp, nested_exit formatTurn_fuelled (turn_done hp)⟩
    | cons c cs =>
      by_cases hc : c = percent
      · subst hc
        cases cs with
        | nil => exact printed_lone (hdrop [] (by simp))
        | cons d cs =>
          by_cases hd : d = percent
          · subst hd
            exact printed_percent (hdrop cs (by simp only [List.length_cons]; omega))
          · exact printed_directive (ih cs.length (by rw [← hn]; simp) cs rfl) (hdrop (d :: cs) (by simp)) hd
      · exact printed_text (hdrop cs (by simp)) hc

theorem emits_unique (h : Emits stray d a text) (h' : Emits stray d a text') : text = text' := by
  cases h with
  | char v => cases h'; rfl
  | string s => cases h'; rfl
  | decimal h =>
    cases h' with
    | decimal h' => exact h.unique (fun s => itoa_fuelled _ s _) h'
  | integer h =>
    cases h' with
    | integer h' => exact h.unique (fun s => itoa_fuelled _ s _) h'
  | octal h =>
    cases h' with
    | octal h' => exact h.unique (fun s => convertUnsigned_fuelled _ s _) h'
  | long h =>
    cases h' with
    | long h' => exact h.unique (fun s => ltoa_fuelled _ s _) h'
  | hex h =>
    cases h' with
    | hex h' => rw [h.unique (fun s => convertUnsigned_fuelled _ s _) h']

theorem emits_kind (h : Emits stray d a text) : kindOf d = some a.kind := by cases h <;> rfl

theorem interprets_unique (h : Interprets stray rejected cs args out rest)
    (h' : Interprets stray rejected cs args out' rest') : out = out' ∧ rest = rest' := by
  induction h generalizing out' rest' with
  | done => exact (interprets_nil h').imp Eq.symm Eq.symm
  | text hc _ ih =>
    obtain ⟨out'', rfl, htail⟩ := interprets_cons hc h'
    obtain ⟨rfl, rfl⟩ := ih htail
    exact ⟨rfl, rfl⟩
  | percent _ ih =>
    cases h' with
    | text hc _ => exact absurd rfl hc
    | percent h' =>
      obtain ⟨rfl, rfl⟩ := ih h'
      exact ⟨rfl, rfl⟩
    | directive he _ => cases emits_kind he
    | reject hd _ _ => exact absurd rfl hd
    | verbatim hd _ => exact absurd rfl hd
  | directive he _ ih =>
    cases h' with
    | text hc _ => exact absurd rfl hc
    | percent h' => cases emits_kind he
    | directive he' h' =>
      obtain ⟨rfl, rfl⟩ := ih h'
      exact ⟨by rw [emits_unique he he'], rfl⟩
    | reject _ hkind _ => rw [emits_kind he] at hkind; cases hkind
  | reject hd hkind _ ih =>
    cases h' with
    | text hc _ => exact absurd rfl hc
    | percent h' => exact absurd rfl hd
    | directive he' h' => rw [emits_kind he'] at hkind; cases hkind
    | reject _ _ h' =>
      obtain ⟨rfl, rfl⟩ := ih h'
      exact ⟨rfl, rfl⟩
  | verbatim hd _ ih =>
    cases h' with
    | text hc _ => exact absurd rfl hc
    | percent h' => exact absurd rfl hd
    | verbatim _ h' =>
      obtain ⟨rfl, rfl⟩ := ih h'
      exact ⟨rfl, rfl⟩
  | lone =>
    cases h' with
    | text hc _ => exact absurd rfl hc
    | lone => exact ⟨rfl, rfl⟩

theorem convert_some {fuel : ℕ} (h : convert stray stack p d ds fuel = some q) (hkind : kindOf d ≠ none) :
    ∃ a args, p.args = a :: args ∧ kindOf d = some a.kind ∧
      q = { p with format := ds, args := args, out := p.out ++ emitted stray d a } := by
  have htakes : ∃ a args, p.args = a :: args ∧ kindOf d = some a.kind := by
    simp only [convert] at h
    split_ifs at h with hc hs hi hl
    · split at h
      · next hargs => exact ⟨_, _, hargs, by rw [hc]; rfl⟩
      · cases h
    · split at h
      · next hargs => exact ⟨_, _, hargs, by rw [hs]; rfl⟩
      · cases h
    · split at h
      · next hargs => exact ⟨_, _, hargs, by rw [kindOf, if_neg hc, if_neg hs, if_pos hi]; rfl⟩
      · cases h
    · split at h
      · next hargs => exact ⟨_, _, hargs, by rw [kindOf, if_neg hc, if_neg hs, if_neg hi, if_pos hl]; rfl⟩
      · cases h
    · rw [kindOf, if_neg hc, if_neg hs, if_neg hi, if_neg hl] at hkind
      exact absurd rfl hkind
  obtain ⟨a, args, hargs, hak⟩ := htakes
  exact ⟨a, args, hargs, hak, (convert_fuelled p d ds).unique ⟨fuel, h⟩
    (convert_emitted stray stack ds hak hargs)⟩

theorem printC_format {r : Printf} (hcs : 0 ∉ cs) (h : printC r (c :: (cs ++ [0])) = some q) :
    q.format = cs.dropWhile (· ≠ percent) ++ [0] := by
  obtain ⟨w, hq⟩ := printC_eq r c hcs
  rw [hq] at h
  cases h
  rfl

inductive TurnFrom (stray : Word → Byte) (stack : ℕ → Buffer) (p : Printf) (fuel : ℕ) :
    Turn Printf Printf → Prop where
  | done {cs : List Byte} : p.format = 0 :: cs → TurnFrom stray stack p fuel (.exit p)
  | text {c : Byte} {cs : List Byte} {q : Printf} : p.format = c :: cs → c ≠ 0 → c ≠ percent →
      printC p (c :: cs) = some q → TurnFrom stray stack p fuel (.again q)
  | percent {cs : List Byte} {q : Printf} : p.format = percent :: percent :: cs →
      printC p (percent :: cs) = some q → TurnFrom stray stack p fuel (.again q)
  | bad {d : Byte} {ds : List Byte} {q : Printf} : p.format = percent :: d :: ds → d ≠ percent →
      p.rejected = true ∨ kindOf d = none → incomprehensible p = some q →
      TurnFrom stray stack p fuel (.again q)
  | directive {d : Byte} {ds : List Byte} {q : Printf} : p.format = percent :: d :: ds → d ≠ percent →
      p.rejected = false → kindOf d ≠ none → convert stray stack p d ds fuel = some q →
      TurnFrom stray stack p fuel (.again q)

theorem again_inv {o : Option Printf} {t : Turn Printf Printf} (h : o.map Turn.again = some t) :
    ∃ q, o = some q ∧ t = .again q := by
  obtain ⟨q, hq, rfl⟩ := Option.map_eq_some_iff.mp h
  exact ⟨q, hq, rfl⟩

theorem turn_from {fuel : ℕ} {t : Turn Printf Printf} (h : formatTurn stray stack p fuel = some t) :
    TurnFrom stray stack p fuel t := by
  cases hp : p.format with
  | nil =>
    rw [formatTurn, hp] at h
    cases h
  | cons c cs =>
    simp only [formatTurn, hp] at h
    by_cases hzero : c = 0
    · rw [if_pos hzero] at h
      cases h
      exact .done (hzero ▸ hp)
    rw [if_neg hzero] at h
    by_cases hc : c = percent
    · subst hc
      rw [if_neg (not_not.mpr rfl)] at h
      cases cs with
      | nil => cases h
      | cons d ds =>
        simp only at h
        split_ifs at h with hd hrejected
        · obtain ⟨q, hq, rfl⟩ := again_inv h
          exact .percent (hd ▸ hp) (hd ▸ hq)
        · obtain ⟨q, hq, rfl⟩ := again_inv h
          exact .bad hp hd (Or.inl hrejected) hq
        · obtain ⟨q, hq, rfl⟩ := again_inv h
          by_cases hkind : kindOf d = none
          · rw [convert_bad hkind] at hq
            exact .bad hp hd (Or.inr hkind) hq
          · exact .directive hp hd (by simpa using hrejected) hkind hq
    · rw [if_pos hc] at h
      obtain ⟨q, hq, rfl⟩ := again_inv h
      exact .text hp hzero hc hq

theorem suffix_cut (h : c :: ds <:+ cs ++ [0]) (hc : c ≠ 0) : ∃ es, ds = es ++ [0] ∧ c :: es <:+ cs := by
  obtain ⟨front, hfront⟩ := h
  rcases List.eq_nil_or_concat ds with rfl | ⟨es, x, rfl⟩
  · exact absurd (List.cons.inj (List.append_inj' hfront rfl).2).1 hc
  · have hsplit : (front ++ c :: es) ++ [x] = cs ++ [0] := by
      rw [← hfront]
      simp
    obtain ⟨hcs, hx⟩ := List.append_inj' hsplit rfl
    refine ⟨es, ?_, front, hcs⟩
    rw [List.concat_eq_append, hx]

theorem turn_advances (hcs : 0 ∉ cs) (hp : p.format = cs ++ [0]) {fuel : ℕ}
    (h : formatTurn stray stack p fuel = some (.again q)) :
    ∃ ds, q.format = ds ++ [0] ∧ ds <:+ cs ∧ ds.length < cs.length := by
  have hchunk {r : Printf} {c : Byte} {ds : List Byte} (hds : c :: ds <:+ cs ++ [0]) (hc : c ≠ 0)
      (h : printC r (c :: ds) = some q) : ∃ ds, q.format = ds ++ [0] ∧ ds <:+ cs ∧ ds.length < cs.length := by
    obtain ⟨es, rfl, hes⟩ := suffix_cut hds hc
    have hsuffix := List.dropWhile_suffix (fun x : Byte => decide (x ≠ percent)) (l := es)
    have hle := hsuffix.length_le
    have hlt := hes.length_le
    rw [List.length_cons] at hlt
    refine ⟨_, printC_format (fun hmem => hcs (hes.subset (List.mem_cons_of_mem _ hmem))) h, ?_, by omega⟩
    exact hsuffix.trans ((List.suffix_cons c es).trans hes)
  cases turn_from h with
  | text hformat hzero _ hq =>
    rw [hp] at hformat
    exact hchunk (by rw [hformat]) hzero hq
  | percent hformat hq =>
    rw [hp] at hformat
    exact hchunk (by rw [hformat]; exact List.suffix_cons _ _) percent_ne_zero hq
  | bad hformat _ _ hq =>
    rw [incomprehensible, hformat] at hq
    rw [hp] at hformat
    exact hchunk (by rw [hformat]) percent_ne_zero hq
  | @directive d ds _ hformat _ _ hkind hq =>
    obtain ⟨a, args, -, -, rfl⟩ := convert_some hq hkind
    have hzero : d ≠ 0 := by
      rintro rfl
      exact hkind rfl
    rw [hp] at hformat
    have hds : d :: ds <:+ cs ++ [0] := by
      rw [hformat]
      exact List.suffix_cons _ _
    obtain ⟨es, rfl, hes⟩ := suffix_cut hds hzero
    have hlt := hes.length_le
    exact ⟨es, rfl, (List.suffix_cons d es).trans hes, hlt⟩

theorem printf_returns (stray : Word → Byte) (stack : ℕ → Buffer) (format : CString) (args : List Arg)
    (h : needs format.bytes <+: args.map Arg.kind) :
    ∃ p, (∀ out rest, Interprets stray false format.bytes args out rest ↔ out = p.out ∧ rest = p.args) ∧
      p.format = [0] ∧ ∀ q, Returns (printf stray stack format args) q ↔ q = p := by
  obtain ⟨p, out, hint, hout, hformat, hreturns⟩ := printed_all stray stack format.bytes
    format.noNul (start format args) rfl fun _ => h
  have hout' : p.out = out := hout
  refine ⟨p, fun out' rest => ⟨fun hint' => ?_, ?_⟩, hformat, fun q => ⟨fun hq => ?_, ?_⟩⟩
  · rw [hout']
    exact interprets_unique hint' hint
  · rintro ⟨rfl, rfl⟩
    rw [hout']
    exact hint
  · exact (nested_fuelled formatTurn_fuelled _).unique hq hreturns
  · rintro rfl
    exact hreturns

/-- With enough arguments of the types that the directives take, both functions return, and have
printed what the format means; every turn of their loop moves on, and stays on the string. -/
theorem printf_interprets (stray : Word → Byte) (stack : ℕ → Buffer) (format : CString) (args : List Arg)
    (h : needs format.bytes <+: args.map Arg.kind) :
    (∃ p, (∀ out rest, Interprets stray false format.bytes args out rest ↔ out = p.out ∧ rest = p.args) ∧
      p.format = [0] ∧ (∀ q, Returns (printf stray stack format args) q ↔ q = p) ∧
      ∀ q, Returns (vprintf stray stack format args) q ↔ q = p) ∧
    ∀ (p q : Printf) (cs : List Byte) (fuel : ℕ), cs <:+ format.bytes → p.format = cs ++ [0] →
      formatTurn stray stack p fuel = some (.again q) →
      ∃ ds, q.format = ds ++ [0] ∧ ds <:+ cs ∧ ds.length < cs.length := by
  obtain ⟨p, hint, hformat, hreturns⟩ := printf_returns stray stack format args h
  refine ⟨⟨p, hint, hformat, hreturns, hreturns⟩, fun p q cs fuel hcs hp hturn => ?_⟩
  exact turn_advances (fun hmem => format.noNul (hcs.subset hmem)) hp hturn

def mixedFormat : CString := ⟨[0x25, 0x63, 0x25, 0x25, 0x25, 0x7A], by decide⟩

theorem mixedFormat_prints : ∃ p, Returns (printf (fun _ => 0) (fun _ _ => 0) mixedFormat [.int 0x41]) p ∧
    p.out = [0x41, 0x25, 0x25, 0x7A] := by
  obtain ⟨⟨p, hint, -, hreturns, -⟩, -⟩ := printf_interprets (fun _ => 0) (fun _ _ => 0) mixedFormat
    [.int 0x41] ⟨[], rfl⟩
  have hmeaning : Interprets (fun _ => 0) false mixedFormat.bytes [.int 0x41] [0x41, 0x25, 0x25, 0x7A] [] :=
    .directive (.char 0x41) (.percent (.reject (by decide) rfl .done))
  exact ⟨p, (hreturns p).mpr rfl, ((hint _ _).mp hmeaning).1.symm⟩

end Rinix.Stdio
