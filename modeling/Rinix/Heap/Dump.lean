import Rinix.Console.Output
import Rinix.Heap.WellFormed
import Rinix.Keyboard.Handler

namespace Rinix.Heap

open ByteMemory WhileLoop Runs Stdio Console Keyboard

def dumpFormat : CString :=
  literal "This Block: %x size: %x prev: %x flags: %x Next Block: %x\n" (by decide)

def dumpArgs (m : Mem) (ptr : Word) : List Arg :=
  [.long ptr, .long (kmemptr m ptr).size, .long (kmemptr m ptr).prev,
    .long ((kmemptr m ptr).flags.setWidth 32), .long (kmemptrNext m ptr)]

inductive Dump.Place where
  | starting
  | entering
  | waiting
  | printing
  | left
deriving DecidableEq

structure Dump where
  kbd : KbdState
  place : Dump.Place
  scratch : Word
  shown : List Word
  out : List Byte

inductive Dump.Event where
  | key (scancode : Byte)
  | main
deriving DecidableEq

def Dump.Event.isPress : Dump.Event → Bool
  | .key scancode => scancode &&& 0x80 = 0
  | .main => false

def Dump.advance (s : Kmem) (d : Dump) : Dump :=
  let scratch := kmemptrNext s.mem d.scratch
  { d with scratch, place := if (kmemptr s.mem scratch).flags ≠ kmemTail then .entering else .left }

inductive Dump.Step (stray : Word → Byte) (stack : ℕ → Buffer) (s : Kmem) : Dump → Dump.Event →
    Dump → Prop where
  | key (d : Dump) (scancode : Byte) :
      Step stray stack s d (.key scancode) { d with kbd := keyboardHandler d.kbd scancode }
  | start (d : Dump) (head size : List Byte) (hplace : d.place = .starting)
      (hhead : Prints (Stdio.printf stray stack) (literal "kmem_tables dump\n" (by decide)) [] head)
      (hsize : Prints (Stdio.printf stray stack) (literal "heap size: %x\n" (by decide))
        [.long s.totalLength] size) :
      Step stray stack s d .main
        { d with place := .entering, scratch := s.head, out := d.out ++ head ++ size }
  | pause (d : Dump) (hplace : d.place = .entering) :
      Step stray stack s d .main { d with kbd := { d.kbd with pauseFlag := 1 }, place := .waiting }
  | spin (d : Dump) (hplace : d.place = .waiting) (hflag : d.kbd.pauseFlag = 1) : Step stray stack s d .main d
  | wake (d : Dump) (hplace : d.place = .waiting) (hflag : d.kbd.pauseFlag ≠ 1) :
      Step stray stack s d .main { d with place := .printing }
  | print (d : Dump) (text : List Byte) (hplace : d.place = .printing) (hnull : d.scratch ≠ 0)
      (htext : Prints (Stdio.printf stray stack) dumpFormat (dumpArgs s.mem d.scratch) text) :
      Step stray stack s d .main
        (Dump.advance s { d with shown := d.shown ++ [d.scratch], out := d.out ++ text })
  | skip (d : Dump) (hplace : d.place = .printing) (hnull : d.scratch = 0) :
      Step stray stack s d .main (Dump.advance s d)

def Dump.woken (d : Dump) : ℕ :=
  match d.place with
  | .waiting => if d.kbd.pauseFlag = 1 then 0 else 1
  | .printing => 1
  | _ => 0

def hex (v : Word) : List Byte := [0x30, 0x78] ++ canonical 16 v.toNat

def dumpHead (s : Kmem) : List Byte :=
  ascii "kmem_tables dump\n" ++ (ascii "heap size: " ++ (hex s.totalLength ++ [newline]))

def dumpLine (m : Mem) (ptr : Word) : List Byte :=
  ascii "This Block: " ++ (hex ptr ++ (ascii " size: " ++ (hex (kmemptr m ptr).size ++ (ascii " prev: " ++
    (hex (kmemptr m ptr).prev ++ (ascii " flags: " ++ (hex ((kmemptr m ptr).flags.setWidth 32) ++
      (ascii " Next Block: " ++ (hex (kmemptrNext m ptr) ++ [newline])))))))))

variable {stray : Word → Byte} {stack : ℕ → Buffer} {s : Kmem} {d u : Dump} {e : Dump.Event}
  {es : List Dump.Event} {m : Mem} {ptr : Word} {text : List Byte} {n echoed : ℕ} {k : KbdState}

theorem printf_prints {format : CString} {args rest : List Arg}
    (h : Interprets stray false format.bytes args text rest) :
    Prints (Stdio.printf stray stack) format args text := by
  obtain ⟨p, hint, -, hreturns⟩ := printf_returns stray stack format args (needs_interprets h rfl)
  exact ⟨p, (hreturns p).mpr rfl, ((hint _ _).mp h).1.symm⟩

theorem head_prints (stray : Word → Byte) (stack : ℕ → Buffer) :
    Prints (Stdio.printf stray stack) (literal "kmem_tables dump\n" (by decide)) []
      (ascii "kmem_tables dump\n") :=
  printf_prints (text_interprets (by decide))

theorem size_prints (stray : Word → Byte) (stack : ℕ → Buffer) (v : Word) :
    Prints (Stdio.printf stray stack) (literal "heap size: %x\n" (by decide)) [.long v]
      (ascii "heap size: " ++ (hex v ++ [newline])) := by
  apply printf_prints
  have hformat : (literal "heap size: %x\n" (by decide)).bytes =
      ascii "heap size: " ++ percent :: 0x78 :: [newline] := rfl
  rw [hformat]
  exact then_directive (by decide) (emits_hex stray v) (text_interprets (by decide))

theorem line_prints (stray : Word → Byte) (stack : ℕ → Buffer) (m : Mem) (ptr : Word) :
    Prints (Stdio.printf stray stack) dumpFormat (dumpArgs m ptr) (dumpLine m ptr) := by
  have hformat : dumpFormat.bytes = ascii "This Block: " ++ percent :: 0x78 ::
      (ascii " size: " ++ percent :: 0x78 :: (ascii " prev: " ++ percent :: 0x78 ::
        (ascii " flags: " ++ percent :: 0x78 ::
          (ascii " Next Block: " ++ percent :: 0x78 :: [newline])))) := rfl
  apply printf_prints
  rw [hformat]
  have hemits := emits_hex stray
  exact then_directive (by decide) (hemits _)
    (then_directive (by decide) (hemits _) (then_directive (by decide)
    (hemits _) (then_directive (by decide) (hemits _) (then_directive (by decide) (hemits _)
      (text_interprets (by decide))))))

theorem key_cases (k : KbdState) (scancode : Byte) :
    (Dump.Event.isPress (.key scancode) = false ∧ (keyboardHandler k scancode).pauseFlag = k.pauseFlag ∧
      (keyboardHandler k scancode).printed.length = k.printed.length) ∨
    (Dump.Event.isPress (.key scancode) = true ∧ k.pauseFlag = 1 ∧
    (keyboardHandler k scancode).pauseFlag = 0 ∧
      (keyboardHandler k scancode).printed.length = k.printed.length) ∨
    (Dump.Event.isPress (.key scancode) = true ∧ k.pauseFlag ≠ 1 ∧
      (keyboardHandler k scancode).pauseFlag = k.pauseFlag ∧
      (keyboardHandler k scancode).printed.length = k.printed.length + 1) := by
  by_cases hrelease : scancode &&& 0x80 ≠ 0
  · left
    rw [keyboardHandler, if_pos hrelease]
    exact ⟨decide_eq_false hrelease, rfl, rfl⟩
  · right
    have hpress : Dump.Event.isPress (.key scancode) = true := decide_eq_true (not_not.mp hrelease)
    rw [keyboardHandler, if_neg hrelease]
    by_cases hflag : k.pauseFlag = 1
    · left
      simp only [hflag, if_true, unpause]
      exact ⟨hpress, trivial, trivial, trivial⟩
    · right
      rw [if_neg hflag]
      exact ⟨hpress, hflag, rfl, List.length_append⟩

theorem block_succ (s : Kmem) (i : ℕ) : block s (i + 1) = (header s i).next := by
  rw [block, Function.iterate_succ_apply']
  rfl

section WellFormed

variable (h : WellFormed s n)
include h

theorem WellFormed.inner {i : ℕ} (hi : i < n) : (header s i).flags ≠ kmemTail := by
  rcases h.flags i hi with hflags | hflags
  · rw [hflags]
    decide
  · rw [hflags]
    decide

theorem WellFormed.walk {i : ℕ} (hi : i < n) : kmemptrNext s.mem (block s i) = block s (i + 1) := by
  have hflags : (kmemptr s.mem (block s i)).flags ≠ kmemTail := h.inner hi
  rw [kmemptrNext, if_pos hflags, block_succ, header]

theorem WellFormed.more {i : ℕ} (hi : i < n) :
    (if (kmemptr s.mem (block s (i + 1))).flags ≠ kmemTail then Dump.Place.entering else .left) =
      if i + 1 < n then .entering else .left := by
  by_cases hmore : i + 1 < n
  · have hflags : (kmemptr s.mem (block s (i + 1))).flags ≠ kmemTail := h.inner hmore
    rw [if_pos hmore, if_pos hflags]
  · have hlast : i + 1 = n := by omega
    have hflags : (kmemptr s.mem (block s n)).flags = kmemTail := h.tail
    rw [hlast, if_neg (Nat.lt_irrefl n), if_neg (not_not.mpr hflags)]

theorem WellFormed.above {i : ℕ} (hi : i ≤ n) : 0xD0000000 ≤ (block s i).toNat := by
  induction i with
  | zero =>
    have hhead : block s 0 = kernelHeapStart := h.start
    rw [hhead]
    decide
  | succ i ih =>
    rw [h.next i (by omega)]
    have hbelow := ih (by omega)
    omega

theorem WellFormed.nonnull {i : ℕ} (hi : i ≤ n) : block s i ≠ 0 := by
  intro hzero
  have habove := h.above hi
  rw [hzero] at habove
  exact absurd habove (by decide)

end WellFormed

/-- As far as the dump has come: the first blocks are on the screen, and the flag of `pause.c` is
set only where the main program waits for it. -/
structure Dump.Good (s : Kmem) (n : ℕ) (d : Dump) : Prop where
  flag : d.kbd.pauseFlag = 1 → d.place = .waiting
  shown : d.shown = (List.range d.shown.length).map (block s)
  first : d.place = .starting → d.shown = [] ∧ d.out = []
  pos : 0 < n
  out : d.place ≠ .starting → d.out = dumpHead s ++ d.shown.flatMap (dumpLine s.mem)
  scratch : d.place = .entering ∨ d.place = .waiting ∨ d.place = .printing →
    d.scratch = block s d.shown.length ∧ d.shown.length < n
  left : d.place = .left → d.shown.length = n

def Dump.account (d : Dump) : ℕ := d.kbd.printed.length + d.shown.length + d.woken

section Good

variable (hwell : WellFormed s n) (h : d.Good s n)
include h

theorem Dump.Good.key (scancode : Byte) : Dump.Good s n { d with kbd := keyboardHandler d.kbd scancode } ∧
    (Dump.Event.isPress (.key scancode)).toNat + d.account =
      Dump.account { d with kbd := keyboardHandler d.kbd scancode } := by
  rcases key_cases d.kbd scancode with ⟨hpress, hflag, hprinted⟩ | ⟨hpress, hset, hflag, hprinted⟩ |
    ⟨hpress, hclear, hflag, hprinted⟩
  · refine ⟨⟨fun hone => h.flag (hflag ▸ hone), h.shown, h.first, h.pos, h.out, h.scratch, h.left⟩, ?_⟩
    rw [hpress]
    simp only [Dump.account, Dump.woken, hflag, hprinted]
    exact Nat.zero_add _
  · have hplace := h.flag hset
    refine ⟨⟨fun hone => ?_, h.shown, h.first, h.pos, h.out, h.scratch, h.left⟩, ?_⟩
    · rw [hflag] at hone
      exact absurd hone (by decide)
    · rw [hpress]
      simp only [Dump.account, Dump.woken, hplace, hset, hflag, hprinted, if_true]
      exact Nat.add_comm _ _
  · refine ⟨⟨fun hone => absurd (hflag ▸ hone) hclear, h.shown, h.first, h.pos, h.out,
      h.scratch, h.left⟩, ?_⟩
    rw [hpress]
    simp only [Dump.account, Dump.woken, hflag, hprinted]
    have hone : true.toNat = 1 := rfl
    omega

include hwell

theorem Dump.Good.print (hplace : d.place = .printing) : Dump.Good s n (Dump.advance s { d with
      shown := d.shown ++ [d.scratch], out := d.out ++ dumpLine s.mem d.scratch }) ∧
    d.account = Dump.account (Dump.advance s { d with
      shown := d.shown ++ [d.scratch], out := d.out ++ dumpLine s.mem d.scratch }) := by
  obtain ⟨hscratch, hlt⟩ := h.scratch (Or.inr (Or.inr hplace))
  have hnext : kmemptrNext s.mem d.scratch = block s (d.shown.length + 1) := by
    rw [hscratch]
    exact hwell.walk hlt
  have hadvance : Dump.advance s { d with
      shown := d.shown ++ [d.scratch], out := d.out ++ dumpLine s.mem d.scratch } =
      ⟨d.kbd, if d.shown.length + 1 < n then .entering else .left, block s (d.shown.length + 1),
        d.shown ++ [d.scratch], d.out ++ dumpLine s.mem d.scratch⟩ := by
    rw [Dump.advance]
    simp only [hnext, hwell.more hlt]
  have hlength : (d.shown ++ [d.scratch]).length = d.shown.length + 1 := List.length_append
  have hshown : d.shown ++ [d.scratch] = (List.range (d.shown.length + 1)).map (block s) := by
    rw [List.range_succ, List.map_append, ← h.shown, List.map_singleton, ← hscratch]
  have hplaced : d.place ≠ .starting := by
    intro hstart
    rw [hstart] at hplace
    cases hplace
  have hout : d.out ++ dumpLine s.mem d.scratch = dumpHead s ++
    (d.shown ++ [d.scratch]).flatMap (dumpLine s.mem) := by
    rw [h.out hplaced, List.flatMap_append, List.flatMap_singleton, List.append_assoc]
  have hclear : d.kbd.pauseFlag ≠ 1 := by
    intro hone
    rw [h.flag hone] at hplace
    cases hplace
  have hwoken : d.woken = 1 := by rw [Dump.woken, hplace]
  rw [hadvance, Dump.account, hwoken]
  by_cases hmore : d.shown.length + 1 < n
  · rw [if_pos hmore]
    constructor
    · exact ⟨fun hone => absurd hone hclear, hlength.symm ▸ hshown,
        fun hp => Dump.Place.noConfusion hp, h.pos,
        fun _ => hout, fun _ => ⟨congrArg (block s) hlength.symm, hlength.symm ▸ hmore⟩,
        fun hp => Dump.Place.noConfusion hp⟩
    · rw [Dump.account, hlength]
      rfl
  · rw [if_neg hmore]
    constructor
    · refine ⟨fun hone => absurd hone hclear, hlength.symm ▸ hshown,
        fun hp => Dump.Place.noConfusion hp, h.pos,
        fun _ => hout, ?_, fun _ => ?_⟩
      · rintro (hp | hp | hp) <;> cases hp
      · change (d.shown ++ [d.scratch]).length = n
        omega
    · rw [Dump.account, hlength]
      rfl

theorem Dump.Good.step (hstep : Dump.Step stray stack s d e u) :
    Dump.Good s n u ∧ e.isPress.toNat + d.account = u.account := by
  cases hstep with
  | key scancode => exact h.key scancode
  | start head size hplace hhead hsize =>
    obtain ⟨hshown, hout⟩ := h.first hplace
    rw [prints_unique hhead (head_prints stray stack),
      prints_unique hsize (size_prints stray stack s.totalLength)]
    constructor
    · refine ⟨fun hone => ?_, h.shown, fun hp => Dump.Place.noConfusion hp, h.pos, fun _ => ?_, fun _ => ?_,
        fun hp => Dump.Place.noConfusion hp⟩
      · rw [h.flag hone] at hplace
        cases hplace
      · simp only [hshown, hout, List.flatMap_nil, List.append_nil, List.nil_append, dumpHead]
      · simp only [hshown, List.length_nil]
        exact ⟨rfl, h.pos⟩
    · simp only [Dump.account, Dump.woken, hplace]
      exact Nat.zero_add _
  | pause hplace =>
    have hscratch := h.scratch (Or.inl hplace)
    constructor
    · refine ⟨fun _ => rfl, h.shown, fun hp => Dump.Place.noConfusion hp, h.pos, fun _ => h.out ?_,
        fun _ => hscratch,
        fun hp => Dump.Place.noConfusion hp⟩
      rw [hplace]
      exact fun hp => Dump.Place.noConfusion hp
    · simp only [Dump.account, Dump.woken, hplace, if_true]
      exact Nat.zero_add _
  | spin hplace hflag => exact ⟨h, Nat.zero_add _⟩
  | wake hplace hflag =>
    have hscratch := h.scratch (Or.inr (Or.inl hplace))
    constructor
    · refine ⟨fun hone => absurd hone hflag, h.shown, fun hp => Dump.Place.noConfusion hp, h.pos,
        fun _ => h.out ?_,
        fun _ => hscratch, fun hp => Dump.Place.noConfusion hp⟩
      rw [hplace]
      exact fun hp => Dump.Place.noConfusion hp
    · simp only [Dump.account, Dump.woken, hplace, if_neg hflag]
      exact Nat.zero_add _
  | print text hplace hnull htext =>
    rw [prints_unique htext (line_prints stray stack s.mem d.scratch)]
    obtain ⟨hgood, haccount⟩ := h.print hwell hplace
    exact ⟨hgood, (Nat.zero_add _).trans haccount⟩
  | skip hplace hnull =>
    obtain ⟨hscratch, hlt⟩ := h.scratch (Or.inr (Or.inr hplace))
    exact absurd (hscratch ▸ hnull) (hwell.nonnull hlt.le)

theorem Dump.Good.reached (hrun : Run (Dump.Step stray stack s) d es u) : u.Good s n :=
  hrun.invariant (Dump.Good s n) (fun _ _ _ hgood hstep => (hgood.step hwell hstep).1) h

theorem Dump.Good.counted (hrun : Run (Dump.Step stray stack s) d es u) :
    es.countP Dump.Event.isPress + d.account = u.account := by
  have hbalance := hrun.balance (Dump.Good s n) (fun _ _ _ hgood hstep => (hgood.step hwell hstep).1)
    Dump.Event.isPress (fun _ => false) Dump.account
    (fun _ _ _ hgood hstep => (hgood.step hwell hstep).2.trans (Nat.zero_add _).symm) h
  rw [List.countP_false] at hbalance
  exact hbalance.trans (Nat.zero_add _)

end Good

def Dump.rank (n : ℕ) (d : Dump) : ℕ :=
  5 * (n - d.shown.length) + match d.place with
    | .starting => 5
    | .entering => 4
    | .waiting => if d.kbd.pauseFlag = 1 then 3 else 2
    | .printing => 1
    | .left => 0

section

variable (hwell : WellFormed s n) (h : d.Good s n)
include h

theorem Dump.Good.length_le : d.shown.length ≤ n := by
  have hscratch := h.scratch
  cases hplace : d.place with
  | starting =>
    rw [(h.first hplace).1]
    exact Nat.zero_le n
  | entering => exact (hscratch (Or.inl hplace)).2.le
  | waiting => exact (hscratch (Or.inr (Or.inl hplace))).2.le
  | printing => exact (hscratch (Or.inr (Or.inr hplace))).2.le
  | left => exact (h.left hplace).le

theorem Dump.Good.left_iff : d.place = .left ↔ d.shown.length = n := by
  refine ⟨h.left, fun hall => ?_⟩
  have hscratch := h.scratch
  have hpos := h.pos
  cases hplace : d.place with
  | starting =>
    rw [(h.first hplace).1, List.length_nil] at hall
    omega
  | entering => exact absurd hall (hscratch (Or.inl hplace)).2.ne
  | waiting => exact absurd hall (hscratch (Or.inr (Or.inl hplace))).2.ne
  | printing => exact absurd hall (hscratch (Or.inr (Or.inr hplace))).2.ne
  | left => rfl

omit h in
theorem Dump.rank_left (hrank : d.rank n = 0) : d.place = .left := by
  rw [Dump.rank] at hrank
  cases hplace : d.place with
  | left => rfl
  | waiting =>
    simp only [hplace] at hrank
    split at hrank <;> omega
  | _ =>
    simp only [hplace] at hrank
    omega

include hwell

theorem Dump.Good.closer (stray : Word → Byte) (stack : ℕ → Buffer) (hrank : d.rank n ≠ 0) :
    ∃ e u, Dump.Step stray stack s d e u ∧ u.kbd.printed.length = d.kbd.printed.length ∧
    u.rank n < d.rank n := by
  cases hplace : d.place with
  | starting =>
    refine ⟨.main, _, .start d _ _ hplace (head_prints stray stack) (size_prints stray stack _), rfl, ?_⟩
    simp only [Dump.rank, hplace]
    omega
  | entering =>
    refine ⟨.main, _, .pause d hplace, rfl, ?_⟩
    simp only [Dump.rank, hplace, if_true]
    omega
  | waiting =>
    by_cases hflag : d.kbd.pauseFlag = 1
    · rcases key_cases d.kbd 0x1E with ⟨hpress, -⟩ | ⟨-, -, hclear, hprinted⟩ | ⟨-, hclear, -⟩
      · exact absurd hpress (by decide)
      · refine ⟨.key 0x1E, _, .key d 0x1E, hprinted, ?_⟩
        have hzero : (keyboardHandler d.kbd 0x1E).pauseFlag ≠ 1 := by
          rw [hclear]
          decide
        simp only [Dump.rank, hplace, if_pos hflag, if_neg hzero]
        omega
      · exact absurd hflag hclear
    · refine ⟨.main, _, .wake d hplace hflag, rfl, ?_⟩
      simp only [Dump.rank, hplace, if_neg hflag]
      omega
  | printing =>
    obtain ⟨hscratch, hlt⟩ := h.scratch (Or.inr (Or.inr hplace))
    have hnull : d.scratch ≠ 0 := by
      rw [hscratch]
      exact hwell.nonnull hlt.le
    refine ⟨.main, _, .print d _ hplace hnull (line_prints stray stack s.mem d.scratch), rfl, ?_⟩
    by_cases hmore : (kmemptr s.mem (kmemptrNext s.mem d.scratch)).flags ≠ kmemTail
    · simp only [Dump.advance, Dump.rank, hplace, List.length_append, List.length_singleton, if_pos hmore]
      omega
    · simp only [Dump.advance, Dump.rank, hplace, List.length_append, List.length_singleton, if_neg hmore]
      omega
  | left =>
    rw [Dump.rank, hplace, h.left hplace, Nat.sub_self] at hrank
    exact absurd rfl hrank

theorem Dump.Good.finishes (stray : Word → Byte) (stack : ℕ → Buffer) :
    ∃ es u, Run (Dump.Step stray stack s) d es u ∧ u.place = .left ∧
      es.countP Dump.Event.isPress + d.shown.length + d.woken = n := by
  obtain ⟨es, u, hrun, -, ⟨hu, hprinted⟩, hrank⟩ := reaches
    (fun u : Dump => u.Good s n ∧ u.kbd.printed.length = d.kbd.printed.length) (fun _ => True) (Dump.rank n)
    (fun v hv hrank => by
      obtain ⟨e, u, hstep, hprinted, hless⟩ := hv.1.closer hwell stray stack hrank
      exact ⟨e, u, trivial, hstep, ⟨(hv.1.step hwell hstep).1, hprinted.trans hv.2⟩, hless⟩) ⟨h, rfl⟩
  have hleft := u.rank_left hrank
  have haccount := h.counted hwell hrun
  refine ⟨es, u, hrun, hleft, ?_⟩
  have hwoken : u.woken = 0 := by rw [Dump.woken, hleft]
  rw [Dump.account, Dump.account, hu.left hleft, hprinted, hwoken] at haccount
  omega

end

/-- What `dump_kmem_tables` has printed wherever it is: a block is printed for each press that finds
the program waiting, in the order of the chain and up to the tail, and every other press prints its
own key. -/
theorem dump_paced {P : PageMap} {σ : Session} (h : Reachable P Windowed σ)
    (hclear : k.pauseFlag ≠ 1) (scratch : Word)
    (hrun : Run (Dump.Step stray stack σ.heap) ⟨k, .starting, scratch, [], []⟩ es d) :
    ∃ n, WellFormed σ.heap n ∧ d.shown = (List.range d.shown.length).map (block σ.heap) ∧
    d.shown.length ≤ n ∧
      (d.place = .left ↔ d.shown.length = n) ∧
      (d.place ≠ .starting → d.out = dumpHead σ.heap ++ d.shown.flatMap (dumpLine σ.heap.mem)) ∧
      es.countP Dump.Event.isPress + k.printed.length = d.kbd.printed.length + d.shown.length + d.woken ∧
      ∃ fs u, Run (Dump.Step stray stack σ.heap) d fs u ∧ u.place = .left ∧
        fs.countP Dump.Event.isPress + d.shown.length + d.woken = n := by
  obtain ⟨L, hL⟩ := h.sane.held
  obtain ⟨c, r, hcells⟩ := L.exists_cons
  have hwell := hL.heap.wellFormed
  have hpos : 0 < L.cells.length := by
    rw [hcells]
    exact Nat.succ_pos _
  have hstart : Dump.Good σ.heap L.cells.length ⟨k, .starting, scratch, [], []⟩ := by
    refine ⟨fun hone => absurd hone hclear, rfl, fun _ => ⟨rfl, rfl⟩, hpos, fun hp => absurd rfl hp, ?_,
      fun hp => Dump.Place.noConfusion hp⟩
    rintro (hp | hp | hp) <;> cases hp
  have hgood := hstart.reached hwell hrun
  exact ⟨_, hwell, hgood.shown, hgood.length_le, hgood.left_iff, hgood.out, hstart.counted hwell hrun,
    hgood.finishes hwell stray stack⟩

theorem first_key_wakes : ∃ σ n es d u, Reachable zeroPages Windowed σ ∧ WellFormed σ.heap n ∧
    Run (Dump.Step (fun _ => 0) (fun _ _ => 0) σ.heap) d es u ∧ d.woken = 1 ∧ d.shown = [] ∧
      d.out = dumpHead σ.heap ∧ d.kbd.printed = [] ∧ u.place = .left ∧
      es.countP Dump.Event.isPress + 1 = n := by
  obtain ⟨σ, p, h, -⟩ := alloc_reachable Windowed fun _ => windowed_16
  have hhead := head_prints (fun _ => 0) (fun _ _ => 0)
  have hsize := size_prints (fun _ => 0) (fun _ _ => 0) σ.heap.totalLength
  have hstart := Dump.Step.start ⟨⟨0, 0, []⟩, .starting, 0, [], []⟩ _ _ rfl hhead hsize
  have hflag : (keyboardHandler ⟨0, 1, []⟩ 0x1E).pauseFlag ≠ 1 := by decide
  have hkey := Run.cons hstart (.cons (.pause _ rfl)
    (.cons (.key _ 0x1E) (.cons (.wake _ rfl hflag) (.nil _))))
  obtain ⟨n, hwell, -, -, -, hout, -, es, u, hrun, hleft, hcount⟩ := dump_paced h (by decide) 0 hkey
  exact ⟨σ, n, es, _, u, h, hwell, hrun, rfl, rfl, (hout (fun hp => Dump.Place.noConfusion hp)).trans
    (List.append_nil _), rfl, hleft, hcount⟩

end Rinix.Heap
