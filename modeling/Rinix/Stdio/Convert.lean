import Rinix.Lib.ByteMemory
import Rinix.Lib.WhileLoop

namespace Rinix.Stdio

open ByteMemory WhileLoop

abbrev Buffer := Word → Byte

def Buffer.set (s : Buffer) (i : Word) (c : Byte) : Buffer := fun k => if k = i then c else s k

def strlenTurn (s : Buffer) (result : Word) : Turn Word Word :=
  if s result ≠ 0 then .again (result + 1) else .exit result

def strlen (s : Buffer) (fuel : ℕ) : Option Word := run (strlenTurn s) fuel 0

def reverseTurn : Word × Word × Buffer → Turn (Word × Word × Buffer) Buffer
  | (i, j, s) => if i.slt j then .again (i + 1, j - 1, (s.set i (s j)).set j (s i)) else .exit s

def reverse (s : Buffer) (fuel : ℕ) : Option Buffer :=
  (strlen s fuel).bind fun length => run reverseTurn fuel (0, length - 1, s)

def digitTable : List Byte :=
  "0123456789abcdefghijklmnopqrstuvwxyz".toList.map fun c => BitVec.ofNat 8 c.toNat

/-- `digits[k]`, where `stray` is the memory around the string. -/
def digits (stray : Word → Byte) (k : Word) : Byte :=
  if k.toNat ≤ digitTable.length then digitTable.getD k.toNat 0 else stray k

variable (stray : Word → Byte)

def signedTurn (base : Word) : Word × Word × Buffer → Turn (Word × Word × Buffer) (Word × Buffer)
  | (num, i, buffer) =>
    let buffer := buffer.set i (digits stray (num.srem base))
    let num := num.sdiv base
    if (0 : Word).slt num then .again (num, i + 1, buffer) else .exit (i + 1, buffer)

def unsignedTurn (base : Word) : Word × Word × Buffer → Turn (Word × Word × Buffer) (Word × Buffer)
  | (num, i, buffer) =>
    let buffer := buffer.set i (digits stray (num % base))
    let num := num / base
    if 0 < num then .again (num, i + 1, buffer) else .exit (i + 1, buffer)

def badBase (base : Word) : Prop := base.sle 0 ∨ (35 : Word).slt base

instance (base : Word) : Decidable (badBase base) := inferInstanceAs (Decidable (_ ∨ _))

def minus : Byte := 0x2D

def writeSign (sign : Word) : Word × Buffer → Word × Buffer
  | (i, buffer) => if sign.slt 0 then (i + 1, buffer.set i minus) else (i, buffer)

def itoa (num : Word) (buffer : Buffer) (base : Word) (fuel : ℕ) : Option Buffer :=
  if badBase base then some buffer
  else
    let sign := num
    let num := if sign.slt 0 then -num else num
    (run (signedTurn stray base) fuel (num, 0, buffer)).bind fun (i, buffer) =>
      let (i, buffer) := writeSign sign (i, buffer)
      reverse (buffer.set i 0) fuel

def convertUnsigned (num : Word) (buffer : Buffer) (base : Word) (fuel : ℕ) : Option Buffer :=
  if badBase base then some buffer
  else
    (run (unsignedTurn stray base) fuel (num, 0, buffer)).bind fun (i, buffer) =>
      reverse (buffer.set i 0) fuel

def utoa (num : Word) (buffer : Buffer) (base : Word) (fuel : ℕ) : Option Buffer :=
  convertUnsigned stray num buffer base fuel

/-- The sign is taken, but not written. -/
def ltoa (num : Word) (buffer : Buffer) (base : Word) (fuel : ℕ) : Option Buffer :=
  if badBase base then some buffer
  else
    let sign := num
    let num := if sign.slt 0 then -num else num
    (run (signedTurn stray base) fuel (num, 0, buffer)).bind fun (i, buffer) => reverse (buffer.set i 0) fuel

def ultoa (num : Word) (buffer : Buffer) (base : Word) (fuel : ℕ) : Option Buffer :=
  convertUnsigned stray num buffer base fuel

end Rinix.Stdio
