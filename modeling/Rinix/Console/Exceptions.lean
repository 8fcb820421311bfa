import Rinix.Console.Output
import Rinix.Interrupts.Stubs

namespace Rinix.Console

open ByteMemory WhileLoop Paper Stdio Terminal I386 Interrupts

def exceptionMessages : List String := [
  "Division by Zero", "Debug", "Non Maskable Interrupt", "Breakpoint",
  "Into Detected Overflow", "Out of Bounds", "Invalid Opcode", "No Coprocessor",
  "Double Fault", "Coprocessor Segment Overrun", "Bad TSS", "Segment Not Present",
  "Stack Fault", "General Protection Fault", "Page Fault", "Unknown Interrupt",
  "Coprocessor Fault", "Alignment Check", "Machine Check", "Reserved", "Reserved", "Reserved",
  "Reserved", "Reserved", "Reserved", "Reserved", "Reserved",
  "Reserved", "Reserved", "Reserved", "Reserved", "Reserved"]

theorem messages_noNul : ∀ s ∈ exceptionMessages, 0 ∉ ascii s := by decide

def exceptionMessage (n : Fin 32) : CString :=
  literal (exceptionMessages.get n) (messages_noNul _ (List.get_mem exceptionMessages n))

inductive Outcome where
  | returned (t : Term)
  | halted (t : Term)

section

variable (stray : Word → Byte) (stack : ℕ → ℕ → Buffer)

/-- What is printed as `cr2` is the stack pointer. -/
def printException (n : Fin 32) (r : Regs) (esp : Word) : Term → ℕ → Option Term :=
  andThen (printf stray (stack 0) (literal "%s" (by decide)) [.string (exceptionMessage n)]) <|
  andThen (printf stray (stack 1) (literal " Exception. System Halted!\n" (by decide)) []) <|
  andThen (printf stray (stack 2) (literal "Error Code: %i\n" (by decide)) [.int r.errCode]) <|
  andThen (printf stray (stack 3) (literal "eip: %x\n" (by decide)) [.long r.eip]) <|
  if r.intNo = 14 then printf stray (stack 4) (literal "cr2 value: %x\n" (by decide)) [.long esp]
  else fun t _ => some t

def isrHandler (r : Regs) (esp : Word) (t : Term) (fuel : ℕ) : Option Outcome :=
  if h : r.intNo < 32 then (printException stray stack ⟨r.intNo.toNat, h⟩ r esp t fuel).map .halted
  else some (.returned t)

end

def details (n : Word) (code eip cr2 : List Byte) : List (List Byte) :=
  [ascii "Error Code: " ++ code, ascii "eip: 0x" ++ eip] ++
    if n = 14 then [ascii "cr2 value: 0x" ++ cr2] else []

def headline (n : Fin 32) : List Byte := (exceptionMessage n).bytes ++ ascii " Exception. System Halted!"

variable {v : Word}

theorem printable_table : Printable digitTable := by decide

theorem printable_canonical {b n : ℕ} (hb : 2 ≤ b) (hb' : b ≤ 36) : Printable (canonical b n) :=
  fun c hc => printable_table c (List.mem_of_mem_take (canonical_digits hb hb' n c hc))

theorem printable_append {l l' : List Byte} (h : Printable l) (h' : Printable l') : Printable (l ++ l') :=
  fun c hc => (List.mem_append.mp hc).elim (h c) (h' c)

theorem printable_itoa (stray : Word → Byte) (hv : v ≠ 0x80000000) : Printable (itoaText stray v 10) := by
  rw [itoaText_eq stray ten_base.1 (by decide) hv]
  apply printable_append
  · rw [signChars]
    split_ifs <;> decide
  · exact printable_canonical ten_base.1 (by decide)

theorem length_itoa (stray : Word → Byte) (hv : v ≠ 0x80000000) : (itoaText stray v 10).length ≤ 33 := by
  have hsign := signChars_length v
  have hdigits := canonical_length ten_base.1 (magnitude v).isLt
  rw [itoaText_eq stray ten_base.1 (by decide) hv, List.length_append]
  omega

theorem ends_puts : Puts (fun t _ => some t) [] := fun _ => ⟨fuelled_const _, 0, rfl⟩

theorem exception_puts (stray : Word → Byte) (stack : ℕ → ℕ → Buffer) (n : Fin 32) (r : Regs) (esp : Word) :
    Puts (printException stray stack n r esp)
    (headline n ++ newline :: (details r.intNo (itoaText stray r.errCode 10) (canonical 16 r.eip.toNat)
      (canonical 16 esp.toNat)).flatMap (· ++ [newline])) := by
  have hname := directive_puts (stack 0) (literal "%s" (by decide)) [] [] rfl List.not_mem_nil
    List.not_mem_nil (emits_string stray (exceptionMessage n))
  have hhalted := text_puts stray (stack 1) (literal " Exception. System Halted!\n" (by decide))
    (ascii " Exception. System Halted!" ++ [newline]) rfl (by decide)
  have hcode := directive_puts (stack 2) (literal "Error Code: %i\n" (by decide))
    (ascii "Error Code: ") [newline] rfl (by decide) (by decide) (emits_int stray r.errCode)
  have heip := directive_puts (stack 3) (literal "eip: %x\n" (by decide)) (ascii "eip: ") [newline] rfl
    (by decide) (by decide) (emits_hex stray r.eip)
  have hcr2 := directive_puts (stack 4) (literal "cr2 value: %x\n" (by decide))
    (ascii "cr2 value: ") [newline] rfl (by decide) (by decide) (emits_hex stray esp)
  have heip' : ascii "eip: 0x" = ascii "eip: " ++ [0x30, 0x78] := rfl
  have hcr2' : ascii "cr2 value: 0x" = ascii "cr2 value: " ++ [0x30, 0x78] := rfl
  rw [printException, details, headline, heip', hcr2']
  split_ifs with hn
  · have hall := hname.andThen (hhalted.andThen (hcode.andThen (heip.andThen hcr2)))
    simp only [List.nil_append, List.append_nil, List.append_assoc, List.flatMap_cons, List.flatMap_nil,
      List.cons_append] at hall ⊢
    exact hall
  · have hall := hname.andThen (hhalted.andThen (hcode.andThen (heip.andThen ends_puts)))
    simp only [List.nil_append, List.append_nil, List.append_assoc, List.flatMap_cons, List.flatMap_nil,
      List.cons_append] at hall ⊢
    exact hall

theorem isrHandler_halts (stray : Word → Byte) (stack : ℕ → ℕ → Buffer) (t : Term) {n : Fin 32} {r : Regs}
    (hn : r.intNo = word n.val) (esp : Word) (o : Outcome) :
    Returns (isrHandler stray stack r esp t) o ↔ o = .halted (termWrite t (headline n ++ newline ::
      (details r.intNo (itoaText stray r.errCode 10) (canonical 16 r.eip.toNat)
      (canonical 16 esp.toNat)).flatMap
        (· ++ [newline]))) := by
  have hlt := n.isLt
  have hno : r.intNo.toNat = n.val := by rw [hn, toNat_word (by omega)]
  have hsmall : r.intNo < 32 := by
    rw [BitVec.lt_def, hno]
    exact hlt
  have hindex : (⟨r.intNo.toNat, hsmall⟩ : Fin 32) = n := Fin.ext hno
  obtain ⟨hfuel, hreturns⟩ := exception_puts stray stack n r esp t
  have hhandler : isrHandler stray stack r esp t = fun fuel =>
      (printException stray stack n r esp t fuel).map .halted := by
    funext fuel
    rw [isrHandler, dif_pos hsmall, hindex]
  rw [hhandler]
  constructor
  · intro ho
    exact (Fuelled.map hfuel _).unique ho (Returns.map hreturns _)
  · rintro rfl
    exact Returns.map hreturns _

theorem details_printable {n : Word} {code eip cr2 : List Byte} (hcode : Printable code)
    (heip : Printable eip)
    (hcr2 : Printable cr2) : ∀ text ∈ details n code eip cr2, Printable text := by
  have hlead : Printable (ascii "Error Code: ") ∧ Printable (ascii "eip: 0x") ∧
      Printable (ascii "cr2 value: 0x") := by
    decide
  obtain ⟨hlead, hlead', hlead''⟩ := hlead
  intro text htext
  rw [details, List.mem_append, List.mem_pair] at htext
  rcases htext with (rfl | rfl) | hlast
  · exact printable_append hlead hcode
  · exact printable_append hlead' heip
  · split_ifs at hlast with hn
    · rw [List.mem_singleton.mp hlast]
      exact printable_append hlead'' hcr2
    · exact absurd hlast List.not_mem_nil

theorem details_length {n : Word} {code eip cr2 : List Byte} (hcode : code.length ≤ 33)
    (heip : eip.length ≤ 32)
    (hcr2 : cr2.length ≤ 32) : ∀ text ∈ details n code eip cr2, text.length < 80 := by
  have hlead : (ascii "Error Code: ").length = 12 := rfl
  have hlead' : (ascii "eip: 0x").length = 7 := rfl
  have hlead'' : (ascii "cr2 value: 0x").length = 13 := rfl
  intro text htext
  rw [details, List.mem_append, List.mem_pair] at htext
  rcases htext with (rfl | rfl) | hlast
  · rw [List.length_append]
    omega
  · rw [List.length_append]
    omega
  · split_ifs at hlast with hn
    · rw [List.mem_singleton.mp hlast, List.length_append]
      omega
    · exact absurd hlast List.not_mem_nil

theorem details_few (n : Word) (code eip cr2 : List Byte) : (details n code eip cr2).length < 25 := by
  rw [details]
  split_ifs <;> simp

/-- Whatever is on the screen: an exception whose error code the stub expects ends in the endless
loop, and above the cursor are the numerals of the error code and of where the program was
interrupted. -/
theorem exception_shown (stray : Word → Byte) (stack : ℕ → ℕ → Buffer) (t : Term) (calls : List Call)
    (upper : Cpu → BitVec 16) (c : Cpu) (v : Fin 32) (handler next entry esp : Word) (selector : BitVec 16)
    (pushed : Option Word) (hpushed : pushed.isSome ↔ v ∈ errorVectors)
    (herror : pushed.getD 0 ≠ 0x80000000) :
    ∃ (d : Cpu) (u : Term) (code eip cr2 : List Byte),
      d = enter upper (isrStub v) handler next (c.interrupt upper selector entry pushed) ∧
      (∀ o, Returns (isrHandler stray stack (Regs.read d.mem (d.peek 1)) esp
        (session (termInit { t with stores := [] }) calls)) o ↔ o = .halted u) ∧
      IsNumeral 10 (pushed.getD 0).toInt code ∧ IsNumeral 16 c.eip.toNat eip ∧ IsNumeral 16 esp.toNat cr2 ∧
      Shown (chars calls ++ (headline v ++ newline ::
        (details (word v) code eip cr2).flatMap (· ++ [newline]))) u ∧
      u.termX = 0 ∧ (details (word v) code eip cr2).length ≤ u.termY.toNat ∧
      ∀ i line, (details (word v) code eip cr2)[i]? = some line →
        Line u (u.termY.toNat - (details (word v) code eip cr2).length + i) line := by
  have hin : Entered c (enter upper (isrStub v) handler next
    (c.interrupt upper selector entry pushed)) (word v)
      (pushed.getD 0) := by
    rw [isrStub_eq]
    cases pushed with
    | none =>
      rw [if_neg fun hv => absurd (hpushed.mpr hv) (by decide)]
      exact entered_dummy upper c (word v) handler next entry selector
    | some error =>
      rw [if_pos (hpushed.mp rfl)]
      exact entered_error upper c (word v) handler next entry error selector
  obtain ⟨-, -, hsaves, -, -, -, -⟩ := hin
  have hhalts (o : Outcome) := isrHandler_halts stray stack (session (termInit { t with stores := [] }) calls)
    hsaves.intNo esp o
  rw [hsaves.intNo, hsaves.errCode, hsaves.eip] at hhalts
  have hshown := (shown_session t calls).write (headline v ++ newline ::
    (details (word v) (itoaText stray (pushed.getD 0) 10) (canonical 16 c.eip.toNat)
      (canonical 16 esp.toNat)).flatMap (· ++ [newline]))
  refine ⟨_, _, _, _, _, rfl, hhalts, isNumeral_itoa stray ten_base.1 (by decide) herror,
    isNumeral_canonical (by decide) (by decide) _, isNumeral_canonical (by decide) (by decide) _, hshown, ?_⟩
  rw [← List.append_assoc] at hshown
  refine hshown.lines (details_printable (printable_itoa stray herror) ?_ ?_)
    (details_length (length_itoa stray herror) ?_ ?_) (details_few _ _ _ _)
  · exact printable_canonical (by decide) (by decide)
  · exact printable_canonical (by decide) (by decide)
  · exact canonical_length (by decide) c.eip.isLt
  · exact canonical_length (by decide) esp.isLt

example : ∃ (u : Term) (code eip : List Byte), IsNumeral 10 16 code ∧ IsNumeral 16 5 eip ∧
    2 ≤ u.termY.toNat ∧ Line u (u.termY.toNat - 2) (ascii "Error Code: " ++ code) ∧
    Line u (u.termY.toNat - 1) (ascii "eip: 0x" ++ eip) := by
  obtain ⟨-, u, code, eip, cr2, -, -, hcode, heip, -, -, -, hrow, hlines⟩ := exception_shown (fun _ => 0)
    (fun _ _ _ => 0) ⟨0, 0, 0, fun _ => 0, [], []⟩ [] (fun _ => 0) (blank 5) 13 0 0 0 0 0x08
    (some 16) (by decide) (by decide)
  have hdetails : details (word (13 : Fin 32).val) code eip cr2 =
      [ascii "Error Code: " ++ code, ascii "eip: 0x" ++ eip] := rfl
  rw [hdetails] at hlines hrow
  have htwo : 2 ≤ u.termY.toNat := hrow
  have hplace : u.termY.toNat - [ascii "Error Code: " ++ code, ascii "eip: 0x" ++ eip].length + 1 =
      u.termY.toNat - 1 := by
    simp only [List.length_cons, List.length_nil]
    omega
  have hlast := hlines 1 _ rfl
  rw [hplace] at hlast
  exact ⟨u, code, eip, hcode, heip, htwo, hlines 0 _ rfl, hlast⟩

end Rinix.Console
