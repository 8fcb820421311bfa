import Rinix.Stdio.RoundTrip
import Rinix.Terminal.Scroll

namespace Rinix.Console

open ByteMemory WhileLoop Paper Stdio Terminal

def ascii (s : String) : List Byte := s.toList.map fun c => BitVec.ofNat 8 c.toNat

def literal (s : String) (h : 0 ∉ ascii s) : CString := ⟨ascii s, h⟩

def newline : Byte := 0x0A

def putchar (t : Term) (ic : Word) : Term := termWrite t [ic.setWidth 8]

def print (t : Term) (data : List Byte) : Term := data.foldl (fun t c => putchar t (c.setWidth 32)) t

section

variable (stray : Word → Byte) (stack : ℕ → Buffer)

/-- What `printf` prints does not depend on the screen, so the screen can come after it. -/
def printf (format : CString) (args : List Arg) (t : Term) (fuel : ℕ) : Option Term :=
  (Stdio.printf stray stack format args fuel).map fun p => print t p.out

def vprintf (format : CString) (param : List Arg) (t : Term) (fuel : ℕ) : Option Term :=
  (Stdio.vprintf stray stack format param fuel).map fun p => print t p.out

def putsFormat : CString := ⟨[percent, 0x73, newline], by decide⟩

def puts (s : CString) (t : Term) (fuel : ℕ) : Option Term := printf stray stack putsFormat [.string s] t fuel

end

def andThen (f g : Term → ℕ → Option Term) (t : Term) (fuel : ℕ) : Option Term :=
  (f t fuel).bind fun u => g u fuel

def Puts (f : Term → ℕ → Option Term) (out : List Byte) : Prop :=
  ∀ t, Fuelled (f t) ∧ Returns (f t) (termWrite t out)

def Shown (data : List Byte) (t : Term) : Prop := Shows (empty.print 80 (data.map move)) t

def Line (t : Term) (row : ℕ) (text : List Byte) : Prop := ∀ col < 80, t.charAt row col = text.getD col blank

def Printable (text : List Byte) : Prop := ∀ c ∈ text, blank.sle c = true

instance (text : List Byte) : Decidable (Printable text) := inferInstanceAs (Decidable (∀ c ∈ text, _))

variable {stray : Word → Byte} {stack : ℕ → Buffer} {f g : Term → ℕ → Option Term} {t u : Term}
  {data out rest text lead tail : List Byte} {texts : List (List Byte)} {format : CString}
  {args args' : List Arg} {a : Arg} {c d : Byte} {row : ℕ} {p : Sheet Byte}

theorem print_eq (t : Term) (data : List Byte) : print t data = termWrite t data := by
  induction data generalizing t with
  | nil => rfl
  | cons c data ih =>
    have hcut : (c.setWidth 32).setWidth 8 = c := by
      rw [BitVec.setWidth_setWidth_of_le _ (by decide)]
      exact BitVec.setWidth_eq c
    rw [print, List.foldl_cons, putchar, hcut]
    exact ih (termPutchar t c)

theorem needs_interprets {rejected : Bool} {cs : List Byte} (h : Interprets stray rejected cs args out args')
    (hr : rejected = false) : needs cs <+: args.map Arg.kind := by
  induction h with
  | done => exact List.nil_prefix
  | text hc _ ih =>
    rw [needs.eq_def]
    simp only [if_pos hc]
    exact ih hr
  | percent _ ih =>
    simp only [needs, ne_eq, not_true_eq_false, if_false, if_true]
    exact ih hr
  | @directive d _ _ _ _ _ _ he _ ih =>
    have hkind := emits_kind he
    have hne : d ≠ percent := by
      rintro rfl
      cases hkind
    simp only [needs, ne_eq, not_true_eq_false, if_false, if_neg hne, hkind, List.map_cons]
    exact (List.prefix_cons_inj _).mpr (ih rfl)
  | reject hd hkind _ _ =>
    simp only [needs, ne_eq, not_true_eq_false, if_false, if_neg hd, hkind]
    exact List.nil_prefix
  | verbatim => exact absurd hr (by decide)
  | lone => exact List.nil_prefix

theorem printf_puts (h : Interprets stray false format.bytes args out args') :
    Puts (printf stray stack format args) out := by
  intro t
  obtain ⟨p, hint, -, hreturns⟩ := printf_returns stray stack format args (needs_interprets h rfl)
  have hout := ((hint _ _).mp h).1
  refine ⟨Fuelled.map (nested_fuelled formatTurn_fuelled _) _, ?_⟩
  rw [hout, ← print_eq]
  exact Returns.map ((hreturns p).mpr rfl) fun p => print t p.out

theorem vprintf_puts (h : Interprets stray false format.bytes args out args') :
    Puts (vprintf stray stack format args) out := printf_puts h

theorem andThen_fuelled (hf : ∀ t, Fuelled (f t)) (hg : ∀ t, Fuelled (g t)) (t : Term) :
    Fuelled (andThen f g t) :=
  Fuelled.bind (hf t) hg

theorem Puts.fuelled (h : Puts f out) (t : Term) : Fuelled (f t) := (h t).1

theorem Puts.before (hf : Puts f out) (hg : ∀ u, Fuelled (g u)) :
    Returns (andThen f g t) u ↔ Returns (g (termWrite t out)) u := by
  obtain ⟨hfuel, hreturns⟩ := hf t
  change Returns (fun n => (f t n).bind fun u => g u n) u ↔ _
  exact returns_bind_of hfuel hg hreturns

theorem Puts.andThen (hf : Puts f out) (hg : Puts g rest) : Puts (andThen f g) (out ++ rest) := by
  intro t
  have hall : termWrite t (out ++ rest) = termWrite (termWrite t out) rest := List.foldl_append
  refine ⟨andThen_fuelled hf.fuelled hg.fuelled t, ?_⟩
  rw [hf.before hg.fuelled, hall]
  exact (hg _).2

theorem Puts.result (h : Puts f out) : Returns (f t) u ↔ u = termWrite t out := by
  obtain ⟨hfuel, hreturns⟩ := h t
  constructor
  · intro hu
    exact hfuel.unique hu hreturns
  · rintro rfl
    exact hreturns

theorem text_interprets (htext : percent ∉ text) : Interprets stray false text [] text [] := by
  have h : Interprets stray false (text ++ []) [] (text ++ []) [] :=
    interprets_text (fun c hc heq => htext (heq ▸ hc)) .done
  rwa [List.append_nil] at h

theorem then_directive {cs : List Byte} (hlead : percent ∉ lead) (he : Emits stray d a text)
    (h : Interprets stray false cs args out args') :
    Interprets stray false (lead ++ percent :: d :: cs) (a :: args) (lead ++ (text ++ out)) args' :=
  interprets_text (fun _ hc heq => hlead (heq ▸ hc)) (.directive he h)

theorem emits_string (stray : Word → Byte) (s : CString) : Emits stray 0x73 (.string s) s.bytes := .string s

theorem emits_int (stray : Word → Byte) (v : Word) : Emits stray 0x69 (.int v) (itoaText stray v 10) :=
  .integer (itoa_leaves stray ten_base.1 ten_base.2 v)

theorem emits_hex (stray : Word → Byte) (v : Word) :
    Emits stray 0x78 (.long v) ([0x30, 0x78] ++ canonical 16 v.toNat) := by
  have hleaves : Leaves (fun s => ultoa stray v s 16) (canonical 16 v.toNat) := by
    have htext : utoaText stray v 16 = canonical 16 v.toNat := utoaText_eq stray (by decide) (by decide) v
    rw [← htext]
    exact convertUnsigned_leaves stray (by decide) (by decide) v
  exact .hex hleaves

theorem text_puts (stray : Word → Byte) (stack : ℕ → Buffer) (format : CString) (text : List Byte)
    (hformat : format.bytes = text) (htext : percent ∉ text) : Puts (printf stray stack format []) text := by
  apply printf_puts
  rw [hformat]
  exact text_interprets htext

theorem directive_puts (stack : ℕ → Buffer) (format : CString) (lead tail : List Byte)
    (hformat : format.bytes = lead ++ percent :: d :: tail) (hlead : percent ∉ lead) (htail : percent ∉ tail)
    (h : Emits stray d a text) :
    Puts (printf stray stack format [a]) (lead ++ (text ++ tail)) := by
  apply printf_puts
  rw [hformat]
  exact then_directive hlead h (text_interprets htail)

theorem print_map_append (p : Sheet Byte) (data out : List Byte) :
    p.print 80 ((data ++ out).map move) = (p.print 80 (data.map move)).print 80 (out.map move) := by
  rw [List.map_append, Sheet.print_append]

theorem fresh_printed (data : List Byte) : ((empty : Sheet Byte).print 80 (data.map move)).Fresh 80 :=
  Sheet.Fresh.print (by decide) (fresh_empty (by decide)) _

theorem shown_session (t : Term) (calls : List Call) :
    Shown (chars calls) (session (termInit { t with stores := [] }) calls) := by
  rw [session_chars]
  exact ((shows_init t).print (fresh_empty (by decide)) (chars calls)).1

theorem Shown.write (h : Shown data t) (out : List Byte) : Shown (data ++ out) (termWrite t out) := by
  rw [Shown, print_map_append]
  exact (h.print (fresh_printed data) out).1

/-- Whatever was printed before, the screen shows it with the meaning of the format behind it, for
both functions. -/
theorem printf_on_screen (stray : Word → Byte) (stack : ℕ → Buffer) (t : Term) (calls : List Call)
    (format : CString)
    (args : List Arg) (h : needs format.bytes <+: args.map Arg.kind) :
    ∃ (out : List Byte) (rest : List Arg) (u : Term),
      Interprets stray false format.bytes args out rest ∧ Shown (chars calls ++ out) u ∧
      (∀ r, Returns (printf stray stack format args
      (session (termInit { t with stores := [] }) calls)) r ↔ r = u) ∧
      ∀ r, Returns (vprintf stray stack format args
        (session (termInit { t with stores := [] }) calls)) r ↔ r = u := by
  obtain ⟨p, hint, -, -⟩ := printf_returns stray stack format args h
  have hmeaning := (hint _ _).mpr ⟨rfl, rfl⟩
  exact ⟨p.out, p.args, _, hmeaning, (shown_session t calls).write p.out,
    fun r => (printf_puts hmeaning).result,
    fun r => (vprintf_puts hmeaning).result⟩

example : ∃ (out : List Byte) (u : Term), Shown (chars [.putchar newline] ++ out) u ∧
    Returns (printf (fun _ => 0) (fun _ _ => 0) mixedFormat [.int 0x41]
      (session (termInit { (⟨0, 0, 0, fun _ => 0, [], []⟩ : Term) with stores := [] })
      [.putchar newline])) u := by
  obtain ⟨out, rest, u, -, hshown, hreturns, -⟩ := printf_on_screen (fun _ => 0) (fun _ _ => 0)
    ⟨0, 0, 0, fun _ => 0, [], []⟩ [.putchar newline] mixedFormat [.int 0x41] ⟨[], rfl⟩
  exact ⟨out, u, hshown, (hreturns u).mpr rfl⟩

theorem move_glyph (h : blank.sle c = true) : move c = .glyph c := by
  have hnl : c ≠ 0x0A := by
    rintro rfl
    exact absurd h (by decide)
  have hcr : c ≠ 0x0D := by
    rintro rfl
    exact absurd h (by decide)
  rw [move, if_neg hnl, if_neg hcr, if_pos h]

theorem move_line (h : Printable text) : (text ++ [newline]).map move = line text := by
  rw [List.map_append, line]
  congr 1
  exact List.map_congr_left fun c hc => move_glyph (h c hc)

theorem move_lines (h : ∀ text ∈ texts, Printable text) :
    (texts.flatMap (· ++ [newline])).map move = texts.flatMap line := by
  rw [List.map_flatMap]
  induction texts with
  | nil => rfl
  | cons text texts ih =>
    rw [List.flatMap_cons, List.flatMap_cons, move_line (h text List.mem_cons_self),
      ih fun text ht => h text (List.mem_cons_of_mem _ ht)]

theorem shows_line (h : Shows p t) (hline : p.Line (p.top 25 + row) text) (hrow : row < 25) :
    Line t row text := by
  intro col hcol
  rw [h.chars row hrow col hcol, hline col, List.getD_eq_getElem?_getD]

theorem Shown.lines (h : Shown (data ++ newline :: texts.flatMap (· ++ [newline])) t)
    (hprintable : ∀ text ∈ texts, Printable text) (hlength : ∀ text ∈ texts, text.length < 80)
    (hfew : texts.length < 25) : t.termX = 0 ∧ texts.length ≤ t.termY.toNat ∧
      ∀ i text, texts[i]? = some text → Line t (t.termY.toNat - texts.length + i) text := by
  have hsplit : data ++ newline :: texts.flatMap (· ++ [newline]) =
      data ++ [newline] ++ texts.flatMap (· ++ [newline]) := by
    rw [List.append_assoc, List.singleton_append]
  rw [hsplit, Shown, print_map_append, print_map_append, move_lines hprintable] at h
  have hclean := (fresh_printed data).newline
  change Shows (((empty.print 80 (data.map move)).feed 80 .newline).print 80 _) t at h
  generalize (empty.print 80 (data.map move)).feed 80 .newline = p at hclean h
  obtain ⟨hlast, hy, hlines, -⟩ := hclean.lines hlength
  have hrow : t.termY.toNat = min (p.y + texts.length) 24 := by
    rw [h.y, hy, toNat_word (by omega)]
  refine ⟨?_, ?_, fun i text hi => ?_⟩
  · rw [h.x, hlast.x_zero]
    rfl
  · omega
  · have hlt : i < texts.length := (List.getElem?_eq_some_iff.mp hi).1
    apply shows_line h
    · have hplace : (p.print 80 (texts.flatMap line)).top 25 + (t.termY.toNat - texts.length + i) =
        p.y + i := by
        rw [Sheet.top, hy, hrow]
        omega
      rw [hplace]
      exact hlines i text hi
    · omega

end Rinix.Console
