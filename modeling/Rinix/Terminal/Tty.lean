import Rinix.Lib.ByteMemory
import Rinix.Lib.WhileLoop

namespace Rinix.Terminal

open ByteMemory WhileLoop

abbrev VgaEntry := BitVec 16

/-- The globals of `tty.c`. `termBuf` is indexed as the array it points at, `stores` are the indices
written so far, and `ports` are the bytes sent to the CRT controller. -/
structure Term where
  termY : Word
  termX : Word
  termColor : Byte
  termBuf : Word → VgaEntry
  stores : List Word
  ports : List (BitVec 16 × Byte)

def vgaWidth : Word := 80

def vgaHeight : Word := 25

def colorBlack : Byte := 0

def colorWhite : Byte := 15

def makeColor (fg bg : Byte) : Byte := fg ||| bg <<< 4

def makeVgaentry (c color : Byte) : VgaEntry := c.signExtend 16 ||| color.setWidth 16 <<< 8

def Term.put (t : Term) (index : Word) (entry : VgaEntry) : Term :=
  { t with
    termBuf := fun i => if i = index then entry else t.termBuf i
    stores := index :: t.stores }

def Term.outb (t : Term) (port : BitVec 16) (value : Byte) : Term :=
  { t with ports := t.ports ++ [(port, value)] }

def updateCursor (t : Term) : Term :=
  let csrPos := t.termY * vgaWidth + t.termX
  (((t.outb 0x3D4 14).outb 0x3D5 ((csrPos >>> 8).setWidth 8)).outb 0x3D4 15).outb 0x3D5 (csrPos.setWidth 8)

def blank : Byte := 0x20

def termScroll (t : Term) : Term :=
  if 25 ≤ t.termY then
    let t := upTo (24 * 80) (fun t i => t.put (word i) (t.termBuf (word i + 80))) t
    let t := upTo 80 (fun t i => t.put (word (24 * 80 + i)) (makeVgaentry blank t.termColor)) t
    { t with termX := 0, termY := 24 }
  else t

def termFill (t : Term) : Term :=
  upTo vgaHeight.toNat (fun t y =>
    upTo vgaWidth.toNat (fun t x => t.put (word y * vgaWidth + word x) (makeVgaentry blank t.termColor)) t) t

def termSetcolor (t : Term) (color : Byte) : Term := { t with termColor := color }

def Term.home (t : Term) : Term := { t with termY := 0, termX := 0 }

def termInit (t : Term) : Term :=
  let t := termFill (termSetcolor t.home (makeColor colorWhite colorWhite))
  let t := termFill (termSetcolor t (makeColor colorWhite colorBlack))
  t.home

def termPutentry (t : Term) (c color : Byte) (x y : Word) : Term :=
  t.put (y * vgaWidth + x) (makeVgaentry c color)

def termPutchar (t : Term) (c : Byte) : Term :=
  let t :=
    if c = 0x0A then { t with termY := t.termY + 1, termX := 0 }
    else if c = 0x0D then { t with termX := 0 }
    else if blank.sle c then
      let t := termPutentry t c t.termColor t.termX t.termY
      let t := { t with termX := t.termX + 1 }
      if t.termX = vgaWidth then { t with termX := 0, termY := t.termY + 1 } else t
    else t
  updateCursor (termScroll t)

def termWrite (t : Term) (data : List Byte) : Term := data.foldl termPutchar t

end Rinix.Terminal
