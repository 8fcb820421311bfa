import Rinix.Lib.ByteMemory

namespace Rinix.Keyboard

open ByteMemory

structure KbdState where
  flags : Byte
  pauseFlag : Word
  printed : List Byte

def keys (rows : List String) : List Byte :=
  rows.flatMap fun row => row.toList.map fun c => BitVec.ofNat 8 c.toNat

def kbdus : List Byte := keys [
  "\x00\x1b1234567890-=\x08",
  "\tqwertyuiop[]\n",
  "\x00asdfghjkl;'\x60\x00",
  "\\zxcvbnm,./\x00",
  "*\x00 \x00",
  "\x00\x00\x00\x00\x00\x00\x00\x00\x00\x00",
  "\x00\x00",
  "\x00\x00\x00-\x00\x00\x00+\x00\x00\x00\x00\x00",
  "\x00\x00\x00\x00\x00\x00"]

def kbdusShift : List Byte := keys [
  "\x00\x1b!@#$%^&*()_+\x08",
  "\tQWERTYUIOP\x7b\x7d\n",
  "\x00ASDFGHJKL:\"~\x00",
  "|ZXCVBNM<>?\x00",
  "*\x00 \x00",
  "\x00\x00\x00\x00\x00\x00\x00\x00\x00\x00",
  "\x00\x00",
  "\x00\x00\x00-\x00\x00\x00+\x00\x00\x00\x00\x00",
  "\x00\x00\x00\x00\x00\x00"]

def shift (flags : Byte) : Byte := flags &&& 0x0C

def capslock (flags : Byte) : Byte := flags &&& 0x40

def releasedFlags (flags scancode : Byte) : Byte :=
  if scancode &&& 0x7F = 0x2A then flags &&& 0xF7
  else if scancode &&& 0x7F = 0x36 then flags &&& 0xFA
  else if scancode &&& 0x7F = 0x1D then flags &&& 0xFD
  else if scancode &&& 0x7F = 0x38 then flags &&& 0xFE
  else flags

def pressedFlags (flags scancode : Byte) : Byte :=
  if scancode &&& 0x7F = 0x2A then flags ||| 0x08
  else if scancode &&& 0x7F = 0x36 then flags ||| 0x04
  else if scancode &&& 0x7F = 0x1D then flags ||| 0x02
  else if scancode &&& 0x7F = 0x38 then flags ||| 0x01
  else if scancode &&& 0x7F = 0x3A then flags ^^^ 0x40
  else if scancode &&& 0x7F = 0x45 then flags ^^^ 0x20
  else if scancode &&& 0x7F = 0x46 then flags ^^^ 0x10
  else flags

/-- The entries that an initializer leaves out are 0. -/
def charFor (flags scancode : Byte) : Byte :=
  if (shift flags ≠ 0 ∧ capslock flags = 0) ∨ (capslock flags ≠ 0 ∧ shift flags = 0) then
    kbdusShift.getD scancode.toNat 0
  else kbdus.getD scancode.toNat 0

/-- `pause` up to its loop, in which the program waits for the next key. -/
def pause (k : KbdState) : KbdState := { k with pauseFlag := 1 }

def unpause (k : KbdState) : KbdState := if k.pauseFlag = 1 then { k with pauseFlag := 0 } else k

def keyboardHandler (k : KbdState) (scancode : Byte) : KbdState :=
  if scancode &&& 0x80 ≠ 0 then { k with flags := releasedFlags k.flags scancode }
  else
    let k := { k with flags := pressedFlags k.flags scancode }
    if k.pauseFlag = 1 then unpause k
    else { k with printed := k.printed ++ [charFor k.flags scancode] }

end Rinix.Keyboard
