import Rinix.Stdio.Convert

namespace Rinix.Stdio

open ByteMemory WhileLoop

structure CString where
  bytes : List Byte
  noNul : 0 ∉ bytes

inductive Arg where
  | int (v : Word)
  | long (v : Word)
  | string (s : CString)

/-- `format` is the rest of the string with its NUL, `args` what `va_arg` has not taken, `out` what
was passed to `putchar`. -/
structure Printf where
  format : List Byte
  rejected : Bool
  args : List Arg
  out : List Byte
  written : Word

def percent : Byte := 0x25

/-- The `amount` loop: how many of the characters come before the next `%` or NUL. A read behind the
NUL has no result. -/
def textLength : List Byte → Option ℕ
  | [] => none
  | c :: cs => if c ≠ 0 ∧ c ≠ percent then (textLength cs).map (· + 1) else some 0

def printC (p : Printf) (format : List Byte) : Option Printf :=
  (textLength format.tail).map fun n =>
    { p with
      format := format.drop (n + 1)
      out := p.out ++ format.take (n + 1)
      written := p.written + word (n + 1) }

def incomprehensible (p : Printf) : Option Printf := printC { p with rejected := true } p.format

def printBuffer (s : Buffer) (fuel : ℕ) : Option (List Byte) :=
  (strlen s fuel).map fun length => (List.range length.toNat).map fun i => s (word i)

section

-- the memory around the digits, and what `char s[64]` holds before it is written
variable (stray : Word → Byte) (stack : ℕ → Buffer)

def intRadius (specifier : Byte) : Word :=
  if specifier = 0x64 ∨ specifier = 0x69 then 10 else if specifier = 0x6F then 8 else 10

def longRadius (specifier : Byte) : Word := if specifier = 0x78 then 16 else 10

def convertInt (v : Word) (s : Buffer) (radius : Word) (fuel : ℕ) : Option Buffer :=
  if radius = 10 then itoa stray v s radius fuel else utoa stray v s radius fuel

def convertLong (v : Word) (s : Buffer) (radius : Word) (fuel : ℕ) : Option Buffer :=
  if radius = 10 then ltoa stray v s radius fuel else ultoa stray v s radius fuel

def printInt (specifier : Byte) (v : Word) (s : Buffer) (fuel : ℕ) : Option (List Byte) :=
  (convertInt stray v s (intRadius specifier) fuel).bind fun s => printBuffer s fuel

def printLong (specifier : Byte) (v : Word) (s : Buffer) (fuel : ℕ) : Option (List Byte) :=
  let lead : List Byte := if specifier = 0x78 then [0x30, 0x78] else []
  (convertLong stray v s (longRadius specifier) fuel).bind fun s =>
    (printBuffer s fuel).map fun t => lead ++ t

def convert (p : Printf) (specifier : Byte) (rest : List Byte) (fuel : ℕ) : Option Printf :=
  if specifier = 0x63 then
    match p.args with
    | .int v :: args => some { p with format := rest, args := args, out := p.out ++ [v.setWidth 8] }
    | _ => none
  else if specifier = 0x73 then
    match p.args with
    | .string s :: args => some { p with format := rest, args := args, out := p.out ++ s.bytes }
    | _ => none
  else if specifier = 0x64 ∨ specifier = 0x69 ∨ specifier = 0x6F then
    match p.args with
    | .int v :: args =>
      (printInt stray specifier v (stack rest.length) fuel).map fun s =>
        { p with format := rest, args := args, out := p.out ++ s }
    | _ => none
  else if specifier = 0x78 ∨ specifier = 0x6C then
    match p.args with
    | .long v :: args =>
      (printLong stray specifier v (stack rest.length) fuel).map fun s =>
        { p with format := rest, args := args, out := p.out ++ s }
    | _ => none
  else incomprehensible p

def formatTurn (p : Printf) (fuel : ℕ) : Option (Turn Printf Printf) :=
  match p.format with
  | [] => none
  | c :: rest =>
    if c = 0 then some (.exit p)
    else if c ≠ percent then (printC p p.format).map .again
    else match rest with
      | [] => none
      | specifier :: rest' =>
        if specifier = percent then (printC p rest).map .again
        else if p.rejected then (incomprehensible p).map .again
        else (convert stray stack p specifier rest' fuel).map .again

def start (format : CString) (args : List Arg) : Printf := ⟨format.bytes ++ [0], false, args, [], 0⟩

def printf (format : CString) (args : List Arg) (fuel : ℕ) : Option Printf :=
  nested (formatTurn stray stack) fuel fuel (start format args)

def vprintf (format : CString) (param : List Arg) (fuel : ℕ) : Option Printf :=
  nested (formatTurn stray stack) fuel fuel (start format param)

end

end Rinix.Stdio
