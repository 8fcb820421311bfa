import Mathlib.Data.List.FinRange
import Mathlib.Data.Nat.Notation
import Mathlib.Logic.Function.Basic
import Mathlib.Tactic.Common
import Rinix.Descriptors.Create
import Rinix.Interrupts.Stubs

namespace Rinix.Descriptors

open ByteMemory BitField Interrupts

structure TablePtr where
  limit : BitVec 16
  base : Word

def gdtDesctype (x : BitVec 16) : BitVec 16 := x <<< 0x04
def gdtPres (x : BitVec 16) : BitVec 16 := x <<< 0x07
def gdtSavl (x : BitVec 16) : BitVec 16 := x <<< 0x0C
def gdtLong (x : BitVec 16) : BitVec 16 := x <<< 0x0D
def gdtSize (x : BitVec 16) : BitVec 16 := x <<< 0x0E
def gdtGran (x : BitVec 16) : BitVec 16 := x <<< 0x0F
def gdtPriv (x : BitVec 16) : BitVec 16 := (x &&& 0x03) <<< 0x05

def gdtDataRdwr : BitVec 16 := 0x02
def gdtCodeExrd : BitVec 16 := 0x0A

def gdtFlags (privilege kind : BitVec 16) : BitVec 16 :=
  gdtDesctype 1 ||| gdtPres 1 ||| gdtSavl 0 ||| gdtLong 0 ||| gdtSize 1 ||| gdtGran 1 |||
  gdtPriv privilege ||| kind

def gdtCodePl0 : BitVec 16 := gdtFlags 0 gdtCodeExrd
def gdtDataPl0 : BitVec 16 := gdtFlags 0 gdtDataRdwr
def gdtCodePl3 : BitVec 16 := gdtFlags 3 gdtCodeExrd
def gdtDataPl3 : BitVec 16 := gdtFlags 3 gdtDataRdwr

def gdtInit (address : Word) (gdt : Word → Entry) : TablePtr × (Word → Entry) :=
  let gp : TablePtr := ⟨5 * 8, address⟩
  let gdt := createGdtDescriptor gdt 0 0 0 0
  let gdt := createGdtDescriptor gdt 1 0 0x000FFFFF gdtCodePl0
  let gdt := createGdtDescriptor gdt 2 0 0x000FFFFF gdtDataPl0
  let gdt := createGdtDescriptor gdt 3 0 0x000FFFFF gdtCodePl3
  let gdt := createGdtDescriptor gdt 4 0 0x000FFFFF gdtDataPl3
  (gp, gdt)

def intelIsrInstall (image : Image) (idt : Byte → Entry) : Byte → Entry :=
  (List.finRange 32).foldl (fun idt n =>
    createIdtDescriptor idt (BitVec.ofNat 8 n.val) (image.isr n) 0x08 0x8E) idt

abbrev PortWrite := BitVec 16 × Byte

def irqRemap : List PortWrite :=
  [(0x20, 0x11), (0xA0, 0x11), (0x21, 0x20), (0xA1, 0x28), (0x21, 0x04), (0xA1, 0x02), (0x21, 0x01),
    (0xA1, 0x01), (0x21, 0x0), (0xA1, 0x0)]

def irqInstall (image : Image) (idt : Byte → Entry) : Byte → Entry :=
  (List.finRange 16).foldl
    (fun idt n => createIdtDescriptor idt (BitVec.ofNat 8 (32 + n.val)) (image.irq n) 0x08 0x8E) idt

def idtInit (image : Image) (address : Word) (_idt : Byte → Entry) : TablePtr × (Byte → Entry) :=
  let ip : TablePtr := ⟨256 * 8, address⟩
  (ip, irqInstall image (intelIsrInstall image fun _ => 0))

section

variable {w k : ℕ} {number : Fin k → BitVec w} {d : Fin k → Entry} {table : BitVec w → Entry} {i : BitVec w}

def puts (number : Fin k → BitVec w) (d : Fin k → Entry) (ns : List (Fin k)) (table : BitVec w → Entry) :
    BitVec w → Entry :=
  ns.foldl (fun t n => put t (number n) (d n)) table

theorem puts_other {ns : List (Fin k)} (h : ∀ n ∈ ns, i ≠ number n) : puts number d ns table i = table i := by
  induction ns generalizing table with
  | nil => rfl
  | cons n ns ih =>
    have hrest : puts number d ns (put table (number n) (d n)) i = put table (number n) (d n) i :=
      ih fun m hm => h m (List.mem_cons_of_mem n hm)
    exact hrest.trans (put_other table (d n) (h n List.mem_cons_self))

theorem puts_mem (hnumber : Function.Injective number) {ns : List (Fin k)} (hns : ns.Nodup) {n : Fin k}
    (hn : n ∈ ns) : puts number d ns table (number n) = d n := by
  induction ns generalizing table with
  | nil => exact absurd hn List.not_mem_nil
  | cons m ns ih =>
    obtain ⟨hm, hrest⟩ := List.nodup_cons.mp hns
    rcases List.mem_cons.mp hn with rfl | hn
    · have hlater : puts number d ns (put table (number n) (d n)) (number n) =
          put table (number n) (d n) (number n) :=
        puts_other fun j hj heq => hm (hnumber heq ▸ hj)
      exact hlater.trans (put_self table (number n) (d n))
    · exact ih hrest hn

end

def isrNumber (n : Fin 32) : Byte := BitVec.ofNat 8 n.val

def irqNumber (n : Fin 16) : Byte := BitVec.ofNat 8 (32 + n.val)

theorem isrNumber_injective : Function.Injective isrNumber := by
  intro n m h
  have h' := congrArg BitVec.toNat h
  simp only [isrNumber, BitVec.toNat_ofNat] at h'
  omega

theorem irqNumber_injective : Function.Injective irqNumber := by
  intro n m h
  have h' := congrArg BitVec.toNat h
  simp only [irqNumber, BitVec.toNat_ofNat] at h'
  omega

theorem isr_apart_irq (n : Fin 32) (m : Fin 16) : isrNumber n ≠ irqNumber m := by
  intro h
  have h' := congrArg BitVec.toNat h
  simp only [isrNumber, irqNumber, BitVec.toNat_ofNat] at h'
  omega

def stubGate (base : Word) : Entry := idtDescriptor base 0x08 0x8E

theorem intelIsr_puts (image : Image) (idt : Byte → Entry) :
    intelIsrInstall image idt = puts isrNumber (fun n => stubGate (image.isr n)) (List.finRange 32) idt := by
  simp only [intelIsrInstall, createIdt_eq]
  rfl

theorem irqInstall_puts (image : Image) (idt : Byte → Entry) :
    irqInstall image idt = puts irqNumber (fun n => stubGate (image.irq n)) (List.finRange 16) idt := by
  simp only [irqInstall, createIdt_eq]
  rfl

variable {image : Image} {address : Word} {idt : Byte → Entry}

theorem idtInit_puts : (idtInit image address idt).2 =
    puts irqNumber (fun n => stubGate (image.irq n)) (List.finRange 16)
      (puts isrNumber (fun n => stubGate (image.isr n)) (List.finRange 32) fun _ => 0) := by
  rw [← intelIsr_puts, ← irqInstall_puts]
  rfl

theorem idt_isr (n : Fin 32) : (idtInit image address idt).2 (isrNumber n) = stubGate (image.isr n) := by
  rw [idtInit_puts, puts_other fun m _ => isr_apart_irq n m]
  exact puts_mem isrNumber_injective (List.nodup_finRange 32) (List.mem_finRange n)

theorem idt_irq (n : Fin 16) : (idtInit image address idt).2 (irqNumber n) = stubGate (image.irq n) := by
  rw [idtInit_puts]
  exact puts_mem irqNumber_injective (List.nodup_finRange 16) (List.mem_finRange n)

theorem idt_rest {v : Byte} (h : 48 ≤ v.toNat) : (idtInit image address idt).2 v = 0 := by
  have hirq (n : Fin 16) : v ≠ irqNumber n := by
    rintro rfl
    simp only [irqNumber, BitVec.toNat_ofNat] at h
    omega
  have hisr (n : Fin 32) : v ≠ isrNumber n := by
    rintro rfl
    simp only [isrNumber, BitVec.toNat_ofNat] at h
    omega
  rw [idtInit_puts, puts_other fun n _ => hirq n, puts_other fun n _ => hisr n]

def TablePtr.Admits (p : TablePtr) (n : ℕ) : Prop := 8 * n + 7 ≤ p.limit.toNat

theorem gdt_admits (address : Word) (gdt : Word → Entry) (n : ℕ) :
    (gdtInit address gdt).1.Admits n ↔ n < 5 := by
  show 8 * n + 7 ≤ 40 ↔ n < 5
  omega

theorem idt_admits (image : Image) (address : Word) (idt : Byte → Entry) (n : ℕ) :
    (idtInit image address idt).1.Admits n ↔ n < 256 := by
  show 8 * n + 7 ≤ 2048 ↔ n < 256
  omega

theorem gdt_entries (address : Word) (gdt : Word → Entry) :
    (gdtInit address gdt).2 1 = gdtDescriptor 0 0x000FFFFF gdtCodePl0 ∧
      (gdtInit address gdt).2 2 = gdtDescriptor 0 0x000FFFFF gdtDataPl0 ∧
      (gdtInit address gdt).2 3 = gdtDescriptor 0 0x000FFFFF gdtCodePl3 ∧
      (gdtInit address gdt).2 4 = gdtDescriptor 0 0x000FFFFF gdtDataPl3 :=
  ⟨rfl, rfl, rfl, rfl⟩

theorem stubGate_decoded (base : Word) : decodeGate (stubGate base) = ⟨base, 0x08, 0, 0x8E⟩ :=
  gate_eq base 0x08 0x8E

end Rinix.Descriptors
