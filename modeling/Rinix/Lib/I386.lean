import Mathlib.Data.Nat.Notation
import Mathlib.Logic.Function.Basic
import Mathlib.Tactic.Common
import Rinix.Lib.ByteMemory

/-!
Straight pieces of i386 assembly, at one privilege level, over a flat memory: the processor with its
stack in memory, and the same instructions over a stack that is a list.
-/

namespace I386

open ByteMemory

inductive Reg where
  | eax | ecx | edx | ebx | esp | ebp | esi | edi
  deriving DecidableEq

inductive Seg where
  | es | cs | ss | ds | fs | gs
  deriving DecidableEq

structure Cpu where
  reg : Reg → Word
  seg : Seg → BitVec 16
  eip : Word
  eflags : Word
  mem : Mem

inductive Instr where
  | cli
  | push (v : Word)
  | pushReg (r : Reg)
  | pushSeg (s : Seg)
  | pusha
  | movAx (v : BitVec 16)
  | movSeg (s : Seg)
  | mov (v : Word) (r : Reg)
  | movReg (src dst : Reg)
  | call (r : Reg) (next : Word)
  | popReg (r : Reg)
  | popSeg (s : Seg)
  | popa
  | addSp (v : Word)
  | iret
  deriving DecidableEq

def flagIF : Word := 0x200

def gateFlags : Word := 0x34300

def addFlags (eflags a b : Word) : Word :=
  let s := a + b
  let low := s.setWidth 8
  let parity := (List.range 8).countP fun i => low.getLsbD i
  let bit (p : Bool) (i : ℕ) : Word := if p then 1 <<< i else 0
  (eflags &&& ~~~0x8D5) ||| bit (decide (4294967296 ≤ a.toNat + b.toNat)) 0 |||
    bit (decide (parity % 2 = 0)) 2 ||| bit (decide (16 ≤ a.toNat % 16 + b.toNat % 16)) 4 |||
    bit (decide (s = 0)) 6 ||| bit s.msb 7 |||
    bit (a.msb == b.msb && s.msb != a.msb) 11

namespace Cpu

def set (c : Cpu) (r : Reg) (v : Word) : Cpu := { c with reg := Function.update c.reg r v }

def setSeg (c : Cpu) (s : Seg) (v : BitVec 16) : Cpu := { c with seg := Function.update c.seg s v }

def push (c : Cpu) (v : Word) : Cpu :=
  { c.set .esp (c.reg .esp - 4) with mem := store c.mem (c.reg .esp - 4) v }

def peek (c : Cpu) (i : ℕ) : Word := load c.mem (c.reg .esp + word (4 * i))

def drop (c : Cpu) (i : ℕ) : Cpu := c.set .esp (c.reg .esp + word (4 * i))

variable (c : Cpu) (r : Reg) (s : Seg) (x : Word) (y : BitVec 16) (i : ℕ)

@[simp] theorem set_reg : (c.set r x).reg = Function.update c.reg r x := rfl

@[simp] theorem set_mem : (c.set r x).mem = c.mem := rfl

@[simp] theorem setSeg_reg : (c.setSeg s y).reg = c.reg := rfl

@[simp] theorem setSeg_seg : (c.setSeg s y).seg = Function.update c.seg s y := rfl

@[simp] theorem push_reg : (c.push x).reg = Function.update c.reg .esp (c.reg .esp - 4) := rfl

@[simp] theorem push_mem : (c.push x).mem = store c.mem (c.reg .esp - 4) x := rfl

@[simp] theorem drop_reg : (c.drop i).reg = Function.update c.reg .esp (c.reg .esp + word (4 * i)) := rfl

@[simp] theorem drop_mem : (c.drop i).mem = c.mem := rfl

end Cpu

def Cpu.pushSelector (upper : Cpu → BitVec 16) (c : Cpu) (s : BitVec 16) : Cpu := c.push (upper c ++ s)

/-- `call` is here the push of the return address alone. -/
def Instr.step (upper : Cpu → BitVec 16) (c : Cpu) : Instr → Cpu
  | .cli => { c with eflags := c.eflags &&& ~~~flagIF }
  | .push v => c.push v
  | .pushReg r => c.push (c.reg r)
  | .pushSeg s => c.pushSelector upper (c.seg s)
  | .pusha => [Reg.eax, .ecx, .edx, .ebx, .esp, .ebp, .esi, .edi].foldl (fun d r => d.push (c.reg r)) c
  | .movAx v => c.set .eax ((c.reg .eax).extractLsb' 16 16 ++ v)
  | .movSeg s => c.setSeg s ((c.reg .eax).setWidth 16)
  | .mov v r => c.set r v
  | .movReg src dst => c.set dst (c.reg src)
  | .call _ next => c.push next
  | .popReg r => (c.drop 1).set r (c.peek 0)
  | .popSeg s => (c.drop 1).setSeg s ((c.peek 0).setWidth 16)
  | .popa =>
    ((((((((c.drop 8).set .edi (c.peek 0)).set .esi (c.peek 1)).set .ebp (c.peek 2)).set .ebx (c.peek 4)).set
      .edx (c.peek 5)).set .ecx (c.peek 6)).set .eax (c.peek 7))
  | .addSp v => { c.set .esp (c.reg .esp + v) with eflags := addFlags c.eflags (c.reg .esp) v }
  | .iret => { (c.drop 3).setSeg .cs ((c.peek 1).setWidth 16) with eip := c.peek 0, eflags := c.peek 2 }

def Cpu.interrupt (upper : Cpu → BitVec 16) (c : Cpu) (selector : BitVec 16) (entry : Word)
    (error : Option Word) : Cpu :=
  let d := ((c.push c.eflags).pushSelector upper (c.seg .cs)).push c.eip
  let d := match error with
    | none => d
    | some e => d.push e
  { d.setSeg .cs selector with eip := entry, eflags := c.eflags &&& ~~~gateFlags }

/-- The processor's choices, and the functions at the addresses that are called. `none`: the call
does not return. -/
structure Outside (ω : Type) where
  upper : Cpu → BitVec 16
  call : Word → Cpu → ω → Option (Cpu × ω)

variable {ω : Type} {o : Outside ω} {upper : Cpu → BitVec 16}

def Outside.turn (o : Outside ω) (s : Cpu × ω) : Instr → Option (Cpu × ω)
  | .call r next => o.call (s.1.reg r) (s.1.push next) s.2
  | i => some (i.step o.upper s.1, s.2)

def Outside.exec (o : Outside ω) : List Instr → Cpu × ω → Option (Cpu × ω)
  | [], s => some s
  | i :: is, s => (o.turn s i).bind (o.exec is)

def Instr.isCall : Instr → Bool
  | .call _ _ => true
  | _ => false

def steps (upper : Cpu → BitVec 16) (is : List Instr) (c : Cpu) : Cpu := is.foldl (Instr.step upper) c

theorem exec_append (is js : List Instr) (s : Cpu × ω) :
    o.exec (is ++ js) s = (o.exec is s).bind (o.exec js) := by
  induction is generalizing s with
  | nil => rfl
  | cons i is ih =>
    simp only [List.cons_append, Outside.exec]
    cases o.turn s i with
    | none => rfl
    | some t => exact ih t

theorem exec_steps {is : List Instr} (h : ∀ i ∈ is, i.isCall = false) (c : Cpu) (w : ω) :
    o.exec is (c, w) = some (steps o.upper is c, w) := by
  induction is generalizing c with
  | nil => rfl
  | cons i is ih =>
    have hi := h i List.mem_cons_self
    have hturn : o.turn (c, w) i = some (i.step o.upper c, w) := by
      cases i with
      | call r next => exact absurd hi (by simp [Instr.isCall])
      | _ => rfl
    rw [Outside.exec, hturn]
    exact ih (fun j hj => h j (List.mem_cons_of_mem i hj)) _

theorem exec_call (r : Reg) (next : Word) (is : List Instr) (c : Cpu) (w : ω) :
    o.exec (.call r next :: is) (c, w) = (o.call (c.reg r) (c.push next) w).bind (o.exec is) := rfl

theorem steps_append (is js : List Instr) (c : Cpu) : steps upper (is ++ js) c =
    steps upper js (steps upper is c) :=
  List.foldl_append

inductive Slot where
  | word (v : Word)
  | selector (s : BitVec 16)

def Slot.Reads : Slot → Word → Prop
  | .word v, x => x = v
  | .selector s, x => x.setWidth 16 = s

def Slot.low : Slot → BitVec 16
  | .word v => v.setWidth 16
  | .selector s => s

@[ext]
structure View where
  base : Word
  reg : Reg → Word
  seg : Seg → BitVec 16
  eip : Word
  eflags : Word
  stack : List Slot

namespace View

def esp (v : View) : Word := v.base - ByteMemory.word (4 * v.stack.length)

def get (v : View) (r : Reg) : Word := if r = .esp then v.esp else v.reg r

def set (v : View) (r : Reg) (x : Word) : View := { v with reg := Function.update v.reg r x }

def setSeg (v : View) (s : Seg) (x : BitVec 16) : View := { v with seg := Function.update v.seg s x }

def push (v : View) (x : Slot) : View := { v with stack := x :: v.stack }

def step (v : View) : Instr → Option View
  | .cli => some { v with eflags := v.eflags &&& ~~~flagIF }
  | .push x => some (v.push (.word x))
  | .pushReg r => some (v.push (.word (v.get r)))
  | .pushSeg s => some (v.push (.selector (v.seg s)))
  | .pusha => some ([Reg.eax, .ecx, .edx, .ebx, .esp, .ebp, .esi, .edi].foldl (fun d r =>
      d.push (.word (v.get r))) v)
  | .movAx x => some (v.set .eax ((v.reg .eax).extractLsb' 16 16 ++ x))
  | .movSeg s => some (v.setSeg s ((v.reg .eax).setWidth 16))
  | .mov x r => if r = .esp then none else some (v.set r x)
  | .movReg src dst => if dst = .esp then none else some (v.set dst (v.get src))
  | .call _ next => some (v.push (.word next))
  | .popReg r => match v.stack with
    | .word x :: rest => if r = .esp then none else some ({ v with stack := rest }.set r x)
    | _ => none
  | .popSeg s => match v.stack with
    | x :: rest => some ({ v with stack := rest }.setSeg s x.low)
    | [] => none
  | .popa => match v.stack with
    | .word edi :: .word esi :: .word ebp :: _ :: .word ebx :: .word edx :: .word ecx :: .word eax :: rest =>
      some ((((((({ v with stack := rest }.set .edi edi).set .esi esi).set .ebp ebp).set .ebx ebx).set
        .edx edx).set .ecx ecx).set .eax eax)
    | _ => none
  | .addSp x => if x.toNat % 4 = 0 ∧ x.toNat / 4 ≤ v.stack.length then
      some { v with stack := v.stack.drop (x.toNat / 4), eflags := addFlags v.eflags v.esp x }
    else none
  | .iret => match v.stack with
    | .word eip :: cs :: .word eflags :: rest =>
      some { v.setSeg .cs cs.low with stack := rest, eip := eip, eflags := eflags }
    | _ => none

def interrupt (v : View) (selector : BitVec 16) (entry : Word) (error : Option Word) : View :=
  let d := ((v.push (.word v.eflags)).push (.selector (v.seg .cs))).push (.word v.eip)
  let d := match error with
    | none => d
    | some e => d.push (.word e)
  { d.setSeg .cs selector with eip := entry, eflags := v.eflags &&& ~~~gateFlags }

def steps (n : ℕ) : View → List Instr → Option View
  | v, [] => some v
  | v, i :: is => (v.step i).bind fun u => if u.stack.length ≤ n then steps n u is else none

variable (v : View) (r : Reg) (s : Slot) (x : Word)

theorem get_esp : v.get .esp = v.esp := if_pos rfl

theorem get_other {r : Reg} (h : r ≠ .esp) : v.get r = v.reg r := if_neg h

@[simp] theorem set_reg : (v.set r x).reg = Function.update v.reg r x := rfl

@[simp] theorem set_esp : (v.set r x).esp = v.esp := rfl

@[simp] theorem set_stack : (v.set r x).stack = v.stack := rfl

@[simp] theorem set_set (y : Word) : (v.set r x).set r y = v.set r y := by
  simp only [set, Function.update_idem]

theorem set_comm {r r' : Reg} (h : r ≠ r') (x y : Word) : (v.set r x).set r' y = (v.set r' y).set r x := by
  simp only [set, Function.update_comm h]

@[simp] theorem set_reg_self : v.set r (v.reg r) = v := by
  simp only [set, Function.update_eq_self]

theorem push_esp : (v.push s).esp = v.esp - 4 := by
  simp only [esp, push, List.length_cons, Nat.mul_add, ← word_add]
  rw [show ByteMemory.word (4 * 1) = 4 from rfl]
  grind

theorem drop_esp {k : ℕ} (hk : k ≤ v.stack.length) :
    esp { v with stack := v.stack.drop k } = v.esp + ByteMemory.word (4 * k) := by
  simp only [esp, List.length_drop, Nat.mul_sub]
  rw [← word_sub (Nat.mul_le_mul_left 4 hk)]
  grind

end View

structure Cpu.Shows (c : Cpu) (m : Mem) (n : ℕ) (v : View) : Prop where
  reg : ∀ r, c.reg r = v.get r
  seg : c.seg = v.seg
  eip : c.eip = v.eip
  eflags : c.eflags = v.eflags
  stack : ∀ i (h : i < v.stack.length), v.stack[i].Reads (c.peek i)
  room : v.stack.length ≤ n
  kept : ∀ x, 4 * n ≤ (x - (v.base - ByteMemory.word (4 * n))).toNat → c.mem x = m x

variable {c : Cpu} {m : Mem} {n : ℕ} {v v' : View}

theorem outside_window {b y : Word} {k : ℕ} (hk : k < n) (hn : 4 * n < 4294967296)
    (hy : 4 * n ≤ (y - (b - word (4 * n))).toNat) : 4 ≤ (y - (b - word (4 * k) - 4)).toNat := by
  rw [show y - (b - word (4 * n)) = y - b + word (4 * n) by grind, BitVec.toNat_add, toNat_word hn] at hy
  rw [show y - (b - word (4 * k) - 4) = y - b + word (4 * k + 4) by
    rw [← word_add]
    rw [show word 4 = 4 from rfl]
    grind, BitVec.toNat_add, toNat_word (by omega)]
  omega

namespace Cpu.Shows

theorem esp (h : c.Shows m n v) : c.reg .esp = v.esp := (h.reg .esp).trans v.get_esp

theorem peek (h : c.Shows m n v) {i : ℕ} (hi : i < v.stack.length) : v.stack[i].Reads (c.peek i) :=
  h.stack i hi

theorem set (h : c.Shows m n v) {r : Reg} (hr : r ≠ .esp) (x : Word) : (c.set r x).Shows m n (v.set r x) := by
  refine ⟨fun s => ?_, h.seg, h.eip, h.eflags, fun i hi => ?_, h.room, h.kept⟩
  · by_cases hs : s = r
    · subst hs
      rw [View.get_other _ hr, set_reg, View.set_reg, Function.update_self, Function.update_self]
    · rw [set_reg, Function.update_of_ne hs, h.reg s]
      simp only [View.get, View.set_reg, View.set_esp, Function.update_of_ne hs]
  · rw [Cpu.peek, set_reg, Function.update_of_ne hr.symm, set_mem]
    exact h.stack i hi

theorem setSeg (h : c.Shows m n v) (s : Seg) (x : BitVec 16) : (c.setSeg s x).Shows m n (v.setSeg s x) := by
  refine ⟨h.reg, ?_, h.eip, h.eflags, h.stack, h.room, h.kept⟩
  rw [setSeg_seg, h.seg]
  rfl

theorem flags (h : c.Shows m n v) (x : Word) : Shows { c with eflags := x } m n { v with eflags := x } :=
  ⟨h.reg, h.seg, h.eip, rfl, h.stack, h.room, h.kept⟩

theorem jump (h : c.Shows m n v) (x : Word) : Shows { c with eip := x } m n { v with eip := x } :=
  ⟨h.reg, h.seg, rfl, h.eflags, h.stack, h.room, h.kept⟩

theorem reg_esp (h : c.Shows m n v) {x : Word} {stack : List Slot}
    (hx : x = View.esp { v with stack := stack })
    (r : Reg) : Function.update c.reg .esp x r = View.get { v with stack := stack } r := by
  by_cases hr : r = .esp
  · subst hr
    rw [Function.update_self, hx, View.get_esp]
  · rw [Function.update_of_ne hr, h.reg r, View.get_other _ hr, View.get_other _ hr]

theorem push (h : c.Shows m n v) {x : Word} {s : Slot} (hs : s.Reads x) (hroom : v.stack.length < n)
    (hn : 4 * n < 4294967296) : (c.push x).Shows m n (v.push s) := by
  refine ⟨?_, h.seg, h.eip, h.eflags, fun i hi => ?_, hroom, fun y hy => ?_⟩
  · rw [push_reg, h.esp]
    exact h.reg_esp (v.push_esp s).symm
  · rw [Cpu.peek, push_reg, Function.update_self, push_mem]
    cases i with
    | zero =>
      rw [show c.reg .esp - 4 + word (4 * 0) = c.reg .esp - 4 from BitVec.add_zero _, load_store]
      exact hs
    | succ i =>
      have hi' : i < v.stack.length := Nat.lt_of_succ_lt_succ hi
      have hsmall := toNat_word (show 4 * i + 4 < 4294967296 by omega)
      have hplace : c.reg .esp + word (4 * i) = c.reg .esp - 4 + word (4 * i + 4) := by
        rw [← word_add, show word 4 = 4 from rfl]
        grind
      rw [show 4 * (i + 1) = 4 * i + 4 from rfl, load_store_miss]
      · rw [← hplace]
        exact h.stack i hi'
      · rw [show c.reg .esp - 4 + word (4 * i + 4) - (c.reg .esp - 4) = word (4 * i + 4) by grind, hsmall]
        omega
      · rw [show c.reg .esp - 4 - (c.reg .esp - 4 + word (4 * i + 4)) = -word (4 * i + 4) by grind,
          BitVec.toNat_neg, hsmall]
        omega
  · rw [push_mem, h.esp]
    exact (store_miss (outside_window hroom hn hy)).trans (h.kept y hy)

theorem drop (h : c.Shows m n v) {k : ℕ} (hk : k ≤ v.stack.length) :
    (c.drop k).Shows m n { v with stack := v.stack.drop k } := by
  refine ⟨?_, h.seg, h.eip, h.eflags, fun i hi => ?_, ?_, h.kept⟩
  · rw [drop_reg, h.esp]
    exact h.reg_esp (v.drop_esp hk).symm
  · have hi' : k + i < v.stack.length := by
      rw [List.length_drop] at hi
      omega
    rw [Cpu.peek, drop_reg, Function.update_self, drop_mem, BitVec.add_assoc, word_add, ← Nat.mul_add]
    simp only [List.getElem_drop]
    exact h.stack (k + i) hi'
  · rw [List.length_drop]
    exact Nat.le_trans (Nat.sub_le _ _) h.room

theorem pushes (h : c.Shows m n v) (hn : 4 * n < 4294967296) {rs : List Reg} {f g : Reg → Word}
    (hfg : ∀ r, f r = g r) (hroom : v.stack.length + rs.length ≤ n) :
    (rs.foldl (fun d r => d.push (f r)) c).Shows m n (rs.foldl (fun d r => d.push (.word (g r))) v) := by
  induction rs generalizing c v with
  | nil => exact h
  | cons r rs ih =>
    rw [List.length_cons] at hroom
    refine ih (h.push (hfg r) (by omega) hn) ?_
    simp only [View.push, List.length_cons]
    omega

theorem read (h : c.Shows m n v) {i : ℕ} {x : Word} (hi : v.stack[i]? = some (.word x)) : c.peek i = x := by
  obtain ⟨hlt, hget⟩ := List.getElem?_eq_some_iff.mp hi
  have hreads := h.stack i hlt
  rw [hget] at hreads
  exact hreads

theorem read_low (h : c.Shows m n v) {i : ℕ} {s : Slot} (hi : v.stack[i]? = some s) :
    (c.peek i).setWidth 16 = s.low := by
  obtain ⟨hlt, hget⟩ := List.getElem?_eq_some_iff.mp hi
  have hreads := h.stack i hlt
  rw [hget] at hreads
  cases s with
  | word x => rw [show c.peek i = x from hreads, Slot.low]
  | selector s => exact hreads

theorem pushSelector (upper : Cpu → BitVec 16) (h : c.Shows m n v) (s : BitVec 16)
    (hroom : v.stack.length < n) (hn : 4 * n < 4294967296) :
    (c.pushSelector upper s).Shows m n (v.push (.selector s)) := by
  have hlow : (upper c ++ s).setWidth 16 = s := by
    apply BitVec.eq_of_getLsbD_eq
    intro i hi
    simp only [BitVec.getLsbD_setWidth, BitVec.getLsbD_append]
    grind
  exact h.push hlow hroom hn

theorem store (h : c.Shows m n v) (hn : 4 * n < 4294967296) {a : Word}
    (ha : ∀ y, (y - a).toNat < 4 → 4 * n ≤ (y - (v.base - word (4 * n))).toNat) (x : Word) :
    Shows { c with mem := ByteMemory.store c.mem a x } (ByteMemory.store m a x) n v := by
  refine ⟨h.reg, h.seg, h.eip, h.eflags, fun i hi => ?_, h.room, fun y hy => ?_⟩
  · have hroom := h.room
    have hread := h.stack i hi
    have hkept : load (ByteMemory.store c.mem a x) (c.reg .esp + word (4 * i)) = c.peek i := by
      apply load_congr
      intro y hy
      apply store_miss
      by_contra hin
      have hout := ha y (by omega)
      have hbase := toNat_word hn
      have hlength := toNat_word (show 4 * v.stack.length < 4294967296 by omega)
      have hindex := toNat_word (show 4 * i < 4294967296 by omega)
      rw [h.esp, View.esp] at hy
      bv_omega
    rw [← hkept] at hread
    exact hread
  · simp only [ByteMemory.store, h.kept y hy]

theorem step (h : c.Shows m n v) (hn : 4 * n < 4294967296) {i : Instr} (hstep : v.step i = some v')
    (hroom : v'.stack.length ≤ n) : (i.step upper c).Shows m n v' := by
  cases i with
  | cli =>
    cases hstep
    rw [Instr.step, h.eflags]
    exact h.flags _
  | push x =>
    cases hstep
    exact h.push rfl hroom hn
  | pushReg r =>
    cases hstep
    exact h.push (h.reg r) hroom hn
  | pushSeg s =>
    cases hstep
    rw [Instr.step, h.seg]
    exact h.pushSelector upper _ hroom hn
  | pusha =>
    cases hstep
    exact h.pushes hn h.reg hroom
  | movAx x =>
    cases hstep
    rw [Instr.step, h.reg, View.get_other _ (by decide)]
    exact h.set (by decide) _
  | movSeg s =>
    cases hstep
    rw [Instr.step, h.reg, View.get_other _ (by decide)]
    exact h.setSeg s _
  | mov x r =>
    by_cases hr : r = .esp
    · simp [View.step, hr] at hstep
    · simp only [View.step, if_neg hr, Option.some.injEq] at hstep
      subst hstep
      exact h.set hr x
  | movReg src dst =>
    by_cases hr : dst = .esp
    · simp [View.step, hr] at hstep
    · simp only [View.step, if_neg hr, Option.some.injEq] at hstep
      subst hstep
      rw [Instr.step, h.reg]
      exact h.set hr _
  | call r next =>
    cases hstep
    exact h.push rfl hroom hn
  | popReg r =>
    simp only [View.step] at hstep
    split at hstep
    · rename_i x rest hstack
      by_cases hr : r = .esp
      · simp [hr] at hstep
      · simp only [if_neg hr, Option.some.injEq] at hstep
        subst hstep
        have hx : c.peek 0 = x := h.read (by rw [hstack, List.getElem?_cons_zero])
        have hdrop := h.drop (k := 1) (by rw [hstack]; simp)
        rw [Instr.step, hx]
        rw [hstack] at hdrop
        exact hdrop.set hr x
    · cases hstep
  | popSeg s =>
    simp only [View.step] at hstep
    split at hstep
    · rename_i x rest hstack
      cases hstep
      have hx := h.read_low (i := 0) (s := x) (by rw [hstack, List.getElem?_cons_zero])
      have hdrop := h.drop (k := 1) (by rw [hstack]; simp)
      rw [Instr.step, hx]
      rw [hstack] at hdrop
      exact hdrop.setSeg s _
    · cases hstep
  | popa =>
    simp only [View.step] at hstep
    split at hstep
    · rename_i edi esi ebp sp ebx edx ecx eax rest hstack
      cases hstep
      have hword (k : ℕ) {x : Word} (hk : v.stack[k]? = some (.word x)) : c.peek k = x := h.read hk
      rw [hstack] at hword
      have hdrop := h.drop (k := 8) (by rw [hstack]; simp)
      rw [hstack] at hdrop
      rw [Instr.step, hword 0 rfl, hword 1 rfl, hword 2 rfl, hword 4 rfl, hword 5 rfl,
        hword 6 rfl, hword 7 rfl]
      exact ((((((hdrop.set (by decide) edi).set (by decide) esi).set (by decide) ebp).set
        (by decide) ebx).set (by decide) edx).set (by decide) ecx).set (by decide) eax
    · cases hstep
  | addSp x =>
    by_cases hx : x.toNat % 4 = 0 ∧ x.toNat / 4 ≤ v.stack.length
    · simp only [View.step, if_pos hx, Option.some.injEq] at hstep
      subst hstep
      have hmul : word (4 * (x.toNat / 4)) = x := by
        rw [Nat.mul_div_cancel' (Nat.dvd_of_mod_eq_zero hx.1), word_toNat]
      have hdrop := h.drop hx.2
      rw [Cpu.drop, hmul] at hdrop
      rw [Instr.step, h.eflags, h.esp]
      rw [h.esp] at hdrop
      exact hdrop.flags _
    · simp [View.step, hx] at hstep
  | iret =>
    simp only [View.step] at hstep
    split at hstep
    · rename_i eip cs eflags rest hstack
      cases hstep
      have heip : c.peek 0 = eip := h.read (by rw [hstack]; rfl)
      have hcs := h.read_low (i := 1) (s := cs) (by rw [hstack]; rfl)
      have hflags : c.peek 2 = eflags := h.read (by rw [hstack]; rfl)
      have hdrop := h.drop (k := 3) (by rw [hstack]; simp)
      rw [hstack] at hdrop
      rw [Instr.step, heip, hcs, hflags]
      exact ((hdrop.setSeg .cs cs.low).jump eip).flags eflags
    · cases hstep

theorem steps (upper : Cpu → BitVec 16) (h : c.Shows m n v) (hn : 4 * n < 4294967296) (is : List Instr)
    (hsteps : v.steps n is = some v') : (steps upper is c).Shows m n v' := by
  induction is generalizing c v with
  | nil =>
    cases hsteps
    exact h
  | cons i is ih =>
    obtain ⟨u, hu, hrest⟩ := Option.bind_eq_some_iff.mp hsteps
    split_ifs at hrest with hroom
    exact ih (h.step hn hu hroom) hrest

theorem interrupt (h : c.Shows m n v) (hn : 4 * n < 4294967296) {selector : BitVec 16} {entry : Word}
    {error : Option Word} (hroom : (v.interrupt selector entry error).stack.length ≤ n) :
    (c.interrupt upper selector entry error).Shows m n (v.interrupt selector entry error) := by
  have hpushed : v.stack.length + 3 ≤ n := by
    cases error with
    | none => exact hroom
    | some e => exact Nat.le_of_succ_le hroom
  have hflags := h.push (s := .word v.eflags) h.eflags (by omega) hn
  have hcs := hflags.pushSelector upper (v.seg .cs) (show v.stack.length + 1 < n by omega) hn
  have heip := hcs.push (s := .word v.eip) h.eip (show v.stack.length + 2 < n by omega) hn
  have hmasked : c.eflags &&& ~~~gateFlags = v.eflags &&& ~~~gateFlags := by rw [h.eflags]
  unfold Cpu.interrupt
  rw [h.seg, hmasked]
  cases error with
  | none => exact ((heip.setSeg .cs selector).jump entry).flags _
  | some e =>
    have hread : (Slot.word e).Reads e := rfl
    have herror := heip.push hread (show v.stack.length + 3 < n from hroom) hn
    exact ((herror.setSeg .cs selector).jump entry).flags _

end Cpu.Shows

def View.of (c : Cpu) : View := ⟨c.reg .esp, c.reg, c.seg, c.eip, c.eflags, []⟩

def View.words (c : Cpu) (k : ℕ) : View :=
  ⟨c.reg .esp + word (4 * k), c.reg, c.seg, c.eip, c.eflags, (List.range k).map fun i => .word (c.peek i)⟩

theorem shows_of (c : Cpu) (n : ℕ) : c.Shows c.mem n (View.of c) := by
  refine ⟨fun r => ?_, rfl, rfl, rfl, fun i hi => absurd hi (Nat.not_lt_zero i), Nat.zero_le n,
    fun _ _ => rfl⟩
  rw [View.get]
  split_ifs with hr
  · rw [hr]
    exact (BitVec.sub_zero _).symm
  · rfl

theorem shows_words (c : Cpu) (k : ℕ) : c.Shows c.mem k (View.words c k) := by
  have hlength : (View.words c k).stack.length = k := by rw [View.words, List.length_map, List.length_range]
  refine ⟨fun r => ?_, rfl, rfl, rfl, fun i hi => ?_, Nat.le_of_eq hlength, fun _ _ => rfl⟩
  · rw [View.get]
    split_ifs with hr
    · rw [hr, View.esp, hlength, View.words]
      grind
    · rfl
  · simp only [View.words, List.getElem_map, List.getElem_range]
    rfl

end I386
