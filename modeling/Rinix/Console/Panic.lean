import Rinix.Console.Exceptions

namespace Rinix.Console

open ByteMemory WhileLoop Paper Stdio Terminal

def panicMessages : List String :=
  ["You feel like you're going to have a bad time.", "Remember! ebx != ebp!", "Generic Message"]

def messageSelect (ticks : Word) : Word := ticks % 3

theorem messageSelect_lt (ticks : Word) : (messageSelect ticks).toNat < panicMessages.length :=
  Nat.mod_lt _ (by decide)

theorem panicMessages_noNul : ∀ s ∈ panicMessages, 0 ∉ ascii s := by decide

def panicMessage (ticks : Word) : CString :=
  literal (panicMessages.get ⟨_, messageSelect_lt ticks⟩) (panicMessages_noNul _ (List.get_mem ..))

def colorLightGrey : Byte := 7

section

variable (stray : Word → Byte) (stack : ℕ → ℕ → Buffer)

def panicSplash : Term → ℕ → Option Term :=
  andThen (printf stray (stack 0) (literal "\n" (by decide)) [])
    (printf stray (stack 1) (literal "panic: " (by decide)) [])

def printPanicJoke (ticks : Word) : Term → ℕ → Option Term :=
  andThen (printf stray (stack 3) (literal "\n%s" (by decide)) [.string (panicMessage ticks)]) fun t =>
    printf stray (stack 4) (literal "\n" (by decide)) []
      (termSetcolor t (makeColor colorLightGrey colorBlack))

def panic (str : CString) (args : List Arg) (ticks : Word) : Term → ℕ → Option Term :=
  andThen (panicSplash stray stack) (andThen (vprintf stray (stack 2) str args)
    (printPanicJoke stray stack ticks))

end

variable {stray : Word → Byte} {stack : ℕ → ℕ → Buffer} {t u : Term} {data out : List Byte}
  {f : Term → ℕ → Option Term} {ticks : Word} {p : Sheet Byte}

theorem scroll_color (t : Term) : (termScroll t).termColor = t.termColor := by
  have hhome (u : Term) (x y : Word) : Term.termColor { u with termX := x, termY := y } = u.termColor := rfl
  rw [termScroll]
  split_ifs
  · rw [hhome]
    exact (clear_drawn (shift_drawn t)).color
  · rfl

theorem newline_color (t : Term) : (termWrite t [newline]).termColor = t.termColor := by
  have hputchar : termWrite t [newline] = updateCursor
    (termScroll { t with termY := t.termY + 1, termX := 0 }) := rfl
  have hcursor (u : Term) : (updateCursor u).termColor = u.termColor := rfl
  rw [hputchar, hcursor, scroll_color]

theorem shows_setcolor (h : Shows p t) (color : Byte) : Shows p (termSetcolor t color) :=
  ⟨h.x, h.y, h.chars, h.stores⟩

theorem Shown.setcolor (h : Shown data t) (color : Byte) : Shown data (termSetcolor t color) :=
  shows_setcolor h color

theorem message_printable (ticks : Word) : Printable (panicMessage ticks).bytes := by
  have hall : ∀ s ∈ panicMessages, Printable (ascii s) := by decide
  exact hall _ (List.get_mem ..)

theorem message_length (ticks : Word) : (panicMessage ticks).bytes.length < 80 := by
  have hall : ∀ s ∈ panicMessages, (ascii s).length < 80 := by decide
  exact hall _ (List.get_mem ..)

theorem splash_puts (stray : Word → Byte) (stack : ℕ → ℕ → Buffer) :
    Puts (panicSplash stray stack) (newline :: ascii "panic: ") :=
  (text_puts stray (stack 0) (literal "\n" (by decide)) [newline] rfl (by decide)).andThen
    (text_puts stray (stack 1) (literal "panic: " (by decide)) (ascii "panic: ") rfl (by decide))

theorem joke_puts (stray : Word → Byte) (stack : ℕ → ℕ → Buffer) (ticks : Word) :
    Puts (printf stray (stack 3) (literal "\n%s" (by decide)) [.string (panicMessage ticks)])
      (newline :: (panicMessage ticks).bytes) := by
  have h := directive_puts (stack 3) (literal "\n%s" (by decide)) [newline] [] rfl (by decide)
    List.not_mem_nil (emits_string stray (panicMessage ticks))
  rwa [List.append_nil, List.singleton_append] at h

theorem last_puts (stray : Word → Byte) (stack : ℕ → ℕ → Buffer) :
    Puts (printf stray (stack 4) (literal "\n" (by decide)) []) [newline] :=
  text_puts stray (stack 4) (literal "\n" (by decide)) [newline] rfl (by decide)

theorem joke_fuelled (stray : Word → Byte) (stack : ℕ → ℕ → Buffer) (ticks : Word) (t : Term) :
    Fuelled (printPanicJoke stray stack ticks t) :=
  andThen_fuelled (joke_puts stray stack ticks).fuelled (fun _ => (last_puts stray stack).fuelled _) t

theorem joke_returns (stray : Word → Byte) (stack : ℕ → ℕ → Buffer) (ticks : Word) (t u : Term) :
    Returns (printPanicJoke stray stack ticks t) u ↔ u = termWrite (termSetcolor
      (termWrite t (newline :: (panicMessage ticks).bytes)) (makeColor colorLightGrey colorBlack))
      [newline] := by
  rw [printPanicJoke, (joke_puts stray stack ticks).before fun _ => (last_puts stray stack).fuelled _]
  exact (last_puts stray stack).result

/-- Whatever the message is, it comes behind all that was printed, and the joke of the hour has the
row above the cursor to itself. -/
theorem panic_shown (stray : Word → Byte) (stack : ℕ → ℕ → Buffer) (t : Term) (calls : List Call)
    (str : CString) (args : List Arg) (ticks : Word) (h : needs str.bytes <+: args.map Arg.kind) :
    ∃ (out : List Byte) (rest : List Arg) (u : Term), Interprets stray false str.bytes args out rest ∧
      (∀ r, Returns (panic stray stack str args ticks
      (session (termInit { t with stores := [] }) calls)) r ↔ r = u) ∧
      Shown (chars calls ++ newline :: ascii "panic: " ++ out ++
        newline :: [(panicMessage ticks).bytes].flatMap (· ++ [newline])) u ∧
      u.termX = 0 ∧ 1 ≤ u.termY.toNat ∧ Line u (u.termY.toNat - 1) (panicMessage ticks).bytes ∧
      u.termColor = makeColor colorLightGrey colorBlack := by
  obtain ⟨p, hint, -, -⟩ := printf_returns stray (stack 2) str args h
  have hmeaning := (hint _ _).mpr ⟨rfl, rfl⟩
  have hsplash := splash_puts stray stack
  have hmessage : Puts (vprintf stray (stack 2) str args) p.out := vprintf_puts hmeaning
  have hbefore := shown_session t calls
  generalize session (termInit { t with stores := [] }) calls = s at hbefore
  have hreturns (r : Term) : Returns (panic stray stack str args ticks s) r ↔ r = termWrite (termSetcolor
      (termWrite (termWrite (termWrite s (newline :: ascii "panic: ")) p.out)
        (newline :: (panicMessage ticks).bytes))
      (makeColor colorLightGrey colorBlack)) [newline] := by
    rw [panic, hsplash.before (andThen_fuelled hmessage.fuelled (joke_fuelled stray stack ticks)),
      hmessage.before (joke_fuelled stray stack ticks)]
    exact joke_returns stray stack ticks _ r
  have hshown := (((((hbefore.write (newline :: ascii "panic: ")).write p.out).write
    (newline :: (panicMessage ticks).bytes)).setcolor (makeColor colorLightGrey colorBlack)).write [newline])
  have hlines : chars calls ++ newline :: ascii "panic: " ++ p.out ++ newline :: (panicMessage ticks).bytes ++
      [newline] =
      chars calls ++ newline :: ascii "panic: " ++ p.out ++
        newline :: [(panicMessage ticks).bytes].flatMap (· ++ [newline]) := by
    rw [List.flatMap_singleton, List.append_assoc, List.cons_append]
  rw [hlines] at hshown
  obtain ⟨hx, hy, hrow⟩ := hshown.lines
    (fun text htext => by rw [List.mem_singleton.mp htext]; exact message_printable ticks)
    (fun text htext => by rw [List.mem_singleton.mp htext]; exact message_length ticks)
    (by rw [List.length_singleton]; decide)
  exact ⟨p.out, p.args, _, hmeaning, hreturns, hshown, hx, hy, hrow 0 _ rfl, newline_color _⟩

example : ∃ u : Term, Returns (panic (fun _ => 0) (fun _ _ _ => 0) (literal "at %x" (by decide))
      [.long 0xBEEF] 4
      (session (termInit { (⟨0, 0, 0, fun _ => 0, [], []⟩ : Term) with stores := [] }) [])) u ∧
    Line u (u.termY.toNat - 1) (ascii "Remember! ebx != ebp!") := by
  obtain ⟨out, rest, u, -, hreturns, -, -, -, hline, -⟩ := panic_shown (fun _ => 0) (fun _ _ _ => 0)
    ⟨0, 0, 0, fun _ => 0, [], []⟩ [] (literal "at %x" (by decide)) [.long 0xBEEF] 4 ⟨[], rfl⟩
  exact ⟨u, (hreturns u).mpr rfl, hline⟩

end Rinix.Console
