import Rinix.Lib.Paper
import Rinix.Terminal.Tty

/-!
The screen is a window on a terminal that never scrolls.
-/

namespace Rinix.Terminal

open ByteMemory WhileLoop Paper

inductive Call where
  | putchar (c : Byte)
  | write (data : List Byte)

def call (t : Term) : Call → Term
  | .putchar c => termPutchar t c
  | .write data => termWrite t data

def session (t : Term) (calls : List Call) : Term := calls.foldl call t

def chars (calls : List Call) : List Byte :=
  calls.flatMap fun
    | .putchar c => [c]
    | .write data => data

def move (c : Byte) : Move Byte :=
  if c = 0x0A then .newline
  else if c = 0x0D then .carriage
  else if blank.sle c then .glyph c
  else .nothing

def Term.charAt (t : Term) (row col : ℕ) : Byte := (t.termBuf (word (row * 80 + col))).setWidth 8

structure Drawn (t s : Term) (f : ℕ → VgaEntry) : Prop where
  x : s.termX = t.termX
  y : s.termY = t.termY
  color : s.termColor = t.termColor
  entry : ∀ j < 2000, s.termBuf (word j) = f j
  stores : ∀ k ∈ s.stores, k ∈ t.stores ∨ k.toNat < 2000

structure Shows (p : Sheet Byte) (t : Term) : Prop where
  x : t.termX = word p.x
  y : t.termY = word (min p.y 24)
  chars : ∀ row < 25, ∀ col < 80, t.charAt row col = (p.cell (p.top 25 + row) col).getD blank
  stores : ∀ k ∈ t.stores, k.toNat < 2000

structure Over (old : ℕ → ℕ → Byte) (p : Sheet Byte) (t : Term) : Prop where
  x : t.termX = word p.x
  y : t.termY = word (min p.y 24)
  chars : ∀ row < 25, ∀ col < 80,
    t.charAt row col = (p.cell (p.top 25 + row) col).getD (old (p.top 25 + row) col)

variable {t s : Term} {p : Sheet Byte} {f g : ℕ → VgaEntry} {c color : Byte} {i n : ℕ}
  {old : ℕ → ℕ → Byte}

theorem entry_char (c color : Byte) : (makeVgaentry c color).setWidth 8 = c := by
  apply BitVec.eq_of_getLsbD_eq
  intro i hi
  simp only [makeVgaentry, BitVec.getLsbD_setWidth, BitVec.getLsbD_or, BitVec.getLsbD_signExtend,
    BitVec.getLsbD_shiftLeft]
  have h16 : i < 16 := by omega
  simp [hi, h16]

theorem Drawn.refl (t : Term) : Drawn t t fun j => t.termBuf (word j) :=
  ⟨rfl, rfl, rfl, fun _ _ => rfl, fun _ hk => Or.inl hk⟩

theorem Drawn.congr (h : Drawn t s f) (hfg : ∀ j < 2000, f j = g j) : Drawn t s g :=
  ⟨h.x, h.y, h.color, fun j hj => (h.entry j hj).trans (hfg j hj), h.stores⟩

theorem Drawn.put (h : Drawn t s f) (hi : i < 2000) (e : VgaEntry) :
    Drawn t (s.put (word i) e) fun j => if j = i then e else f j := by
  refine ⟨h.x, h.y, h.color, fun j hj => ?_, fun k hk => ?_⟩
  · have hij : word j = word i ↔ j = i := word_inj (by omega) (by omega)
    simp only [Term.put, hij, h.entry j hj]
  · rcases List.mem_cons.mp hk with rfl | hk
    · exact Or.inr (by rw [toNat_word (by omega)]; exact hi)
    · exact h.stores k hk

theorem shift_drawn (t : Term) :
    Drawn t (upTo (24 * 80) (fun t i => t.put (word i) (t.termBuf (word i + 80))) t)
      fun j => t.termBuf (word (if j < 24 * 80 then j + 80 else j)) := by
  -- the rows below the one that is copied still hold what they held
  refine upTo_invariant (fun i s => Drawn t s fun j => t.termBuf (word (if j < i then j + 80 else j)))
    (fun i s hi h => ?_) ((Drawn.refl t).congr fun j _ => by simp)
  have hnext : s.termBuf (word i + 80) = t.termBuf (word (i + 80)) := by
    rw [show (80 : Word) = word 80 from rfl, word_add, h.entry _ (by omega), if_neg (by omega)]
  rw [hnext]
  apply (h.put (by omega) _).congr
  intro j hj
  by_cases hji : j = i
  · rw [if_pos hji, if_pos (by omega), hji]
  · rw [if_neg hji]
    congr 2
    exact if_congr (by omega) rfl rfl

theorem clear_drawn (h : Drawn t s f) :
    Drawn t (upTo 80 (fun s i => s.put (word (24 * 80 + i)) (makeVgaentry blank s.termColor)) s)
      fun j => if 24 * 80 ≤ j then makeVgaentry blank t.termColor else f j := by
  refine Drawn.congr (upTo_invariant
    (fun i s => Drawn t s fun j => if 24 * 80 ≤ j ∧ j < 24 * 80 +
      i then makeVgaentry blank t.termColor else f j)
    (fun i s hi h => ?_) (h.congr fun j _ => by rw [if_neg (by omega)])) fun j hj =>
    if_congr (by omega) rfl rfl
  rw [h.color]
  apply (h.put (by omega) _).congr
  intro j hj
  by_cases hji : j = 24 * 80 + i
  · rw [if_pos hji, if_pos (by omega)]
  · rw [if_neg hji]
    exact if_congr (by omega) rfl rfl

theorem fill_drawn (t : Term) : Drawn t (termFill t) fun _ => makeVgaentry blank t.termColor := by
  have hheight : vgaHeight.toNat = 25 := rfl
  have hwidth : vgaWidth.toNat = 80 := rfl
  refine Drawn.congr (upTo_invariant
    (fun y s => Drawn t s fun j => if j < y * 80 then makeVgaentry blank t.termColor else t.termBuf (word j))
    (fun y s hy h => ?_) ((Drawn.refl t).congr fun j _ => by simp)) fun j hj => if_pos (by omega)
  refine Drawn.congr (upTo_invariant
    (fun x s => Drawn t s fun j => if j < y * 80 +
      x then makeVgaentry blank t.termColor else t.termBuf (word j))
    (fun x s hx h => ?_) h) fun j _ => if_congr (by omega) rfl rfl
  rw [h.color, show vgaWidth = word 80 from rfl, word_mul, word_add]
  apply (h.put (by omega) _).congr
  intro j hj
  by_cases hji : j = y * 80 + x
  · rw [if_pos hji, if_pos (by omega)]
  · rw [if_neg hji]
    exact if_congr (by omega) rfl rfl

theorem scroll_small (h : t.termY.toNat < 25) : termScroll t = t := if_neg (Nat.not_le.mpr h)

theorem scroll_full (h : t.termY = 25) : (termScroll t).termX = 0 ∧ (termScroll t).termY = 24 ∧
    (∀ row < 25, ∀ col < 80,
      (termScroll t).charAt row col = if row < 24 then t.charAt (row + 1) col else blank) ∧
    ∀ k ∈ (termScroll t).stores, k ∈ t.stores ∨ k.toNat < 2000 := by
  have hdrawn := clear_drawn (shift_drawn t)
  rw [termScroll, if_pos (by rw [h]; decide)]
  refine ⟨rfl, rfl, fun row hrow col hcol => ?_, hdrawn.stores⟩
  rw [Term.charAt, hdrawn.entry _ (by omega)]
  by_cases hlast : row < 24
  · rw [if_neg (by omega), if_pos (by omega), if_pos hlast, Term.charAt]
    congr 3
    omega
  · rw [if_pos (by omega), if_neg hlast, entry_char]

def Bare (old : ℕ → ℕ → Byte) : Prop := ∀ row col, 25 ≤ row → old row col = blank

theorem Over.nextLine (h : Over old p t) (hp : p.Fresh 80) (hold : Bare old) :
    Over old { p with x := 0, y := p.y + 1 } (termScroll { t with termX := 0, termY := t.termY + 1 }) := by
  have hone : t.termY + 1 = word (min p.y 24 + 1) := by rw [h.y, show (1 : Word) = word 1 from rfl, word_add]
  by_cases hy : p.y < 24
  · have hsmall : ({ t with termX := 0, termY := t.termY + 1 } : Term).termY.toNat < 25 := by
      change (t.termY + 1).toNat < 25
      rw [hone, toNat_word (by omega)]
      omega
    rw [scroll_small hsmall]
    refine ⟨rfl, hone.trans ?_, fun row hrow col hcol => ?_⟩
    · rw [show min p.y 24 + 1 = min (p.y + 1) 24 by omega]
    · have htop : (Sheet.top 25 { p with x := 0, y := p.y + 1 }) = p.top 25 := by
        simp only [Sheet.top]
        omega
      rw [htop]
      exact h.chars row hrow col hcol
  · have hfull : ({ t with termX := 0, termY := t.termY + 1 } : Term).termY = 25 := by
      rw [hone, show min p.y 24 = 24 by omega]
      rfl
    obtain ⟨hx', hy', hchars, -⟩ := scroll_full hfull
    refine ⟨hx', ?_, fun row hrow col hcol => ?_⟩
    · rw [hy', show min (p.y + 1) 24 = 24 by omega]
      rfl
    · have htop : (Sheet.top 25 { p with x := 0, y := p.y + 1 }) = p.top 25 + 1 := by
        simp only [Sheet.top]
        omega
      rw [hchars row hrow col hcol, htop]
      by_cases hlast : row < 24
      · rw [if_pos hlast, show p.top 25 + 1 + row = p.top 25 + (row + 1) by omega]
        exact h.chars (row + 1) (by omega) col hcol
      · have hbelow : p.y < p.top 25 + 1 + row := by
          simp only [Sheet.top]
          omega
        rw [if_neg hlast, hp.below _ _ hbelow, Option.getD_none, hold _ _ (by omega)]

theorem Over.index (h : Over old p t) : t.termY * vgaWidth + t.termX = word (min p.y 24 * 80 + p.x) := by
  rw [h.x, h.y, show vgaWidth = word 80 from rfl, word_mul, word_add]

theorem Over.write (h : Over old p t) (hp : p.Fresh 80) (c color : Byte) :
    Over old (p.write c) (termPutentry t c color t.termX t.termY) := by
  have hx := hp.x_lt
  rw [termPutentry, h.index]
  refine ⟨h.x, h.y, fun row hrow col hcol => ?_⟩
  have hcell := h.chars row hrow col hcol
  simp only [Term.charAt, Term.put, word_inj (show row * 80 + col < 4294967296 by omega)
    (show min p.y 24 * 80 + p.x < 4294967296 by omega)] at hcell ⊢
  simp only [Sheet.write, Sheet.top] at hcell ⊢
  by_cases hhere : row * 80 + col = min p.y 24 * 80 + p.x
  · rw [if_pos hhere, if_pos (by omega), entry_char, Option.getD_some]
  · rw [if_neg hhere, if_neg (by omega), hcell]

theorem Over.small (h : Over old p t) : t.termY.toNat < 25 := by
  rw [h.y, toNat_word (by omega)]
  omega

theorem Over.advance (h : Over old p t) (hp : p.Fresh 80) (hold : Bare old) : Over old (p.advance 80)
    (termScroll (if t.termX + 1 = vgaWidth then { t with termX := 0, termY := t.termY + 1 }
      else { t with termX := t.termX + 1 })) := by
  have hx := hp.x_lt
  have hnext : t.termX + 1 = word (p.x + 1) := by rw [h.x, show (1 : Word) = word 1 from rfl, word_add]
  have hlast : t.termX + 1 = vgaWidth ↔ p.x + 1 = 80 := by
    rw [hnext, show vgaWidth = word 80 from rfl, word_inj (by omega) (by omega)]
  by_cases hend : p.x + 1 = 80
  · rw [if_pos (hlast.mpr hend), advance_last hend]
    exact h.nextLine hp hold
  · have h' : Over old { p with x := p.x + 1 } { t with termX := t.termX + 1 } := ⟨hnext, h.y, h.chars⟩
    rw [if_neg (fun h => hend (hlast.mp h)), advance_next hend, scroll_small h'.small]
    exact h'

theorem Over.cursor (h : Over old p t) : Over old p (updateCursor t) := ⟨h.x, h.y, h.chars⟩

theorem Over.putchar (h : Over old p t) (hp : p.Fresh 80) (hold : Bare old) (c : Byte) :
    Over old (p.feed 80 (move c)) (termPutchar t c) := by
  rw [termPutchar]
  apply Over.cursor
  by_cases hnl : c = 0x0A
  · rw [if_pos hnl, move, if_pos hnl]
    exact h.nextLine hp hold
  by_cases hcr : c = 0x0D
  · rw [if_neg hnl, if_pos hcr, move, if_neg hnl, if_pos hcr]
    have h' : Over old { p with x := 0 } { t with termX := 0 } := ⟨rfl, h.y, h.chars⟩
    rw [scroll_small h'.small]
    exact h'
  by_cases hglyph : blank.sle c = true
  · rw [if_neg hnl, if_neg hcr, if_pos hglyph, move, if_neg hnl, if_neg hcr, if_pos hglyph]
    exact (h.write hp c t.termColor).advance (hp.write c) hold
  · rw [if_neg hnl, if_neg hcr, if_neg hglyph, move, if_neg hnl, if_neg hcr, if_neg hglyph,
      scroll_small h.small]
    exact h

theorem Over.print (h : Over old p t) (hp : p.Fresh 80) (hold : Bare old) (data : List Byte) :
    Over old (p.print 80 (data.map move)) (termWrite t data) ∧ (p.print 80 (data.map move)).Fresh 80 := by
  induction data generalizing p t with
  | nil => exact ⟨h, hp⟩
  | cons c data ih => exact ih (h.putchar hp hold c) (hp.feed (by decide) (move c))

theorem scroll_stores (t : Term) : ∀ k ∈ (termScroll t).stores, k ∈ t.stores ∨ k.toNat < 2000 := by
  rw [termScroll]
  split_ifs
  · exact (clear_drawn (shift_drawn t)).stores
  · exact fun _ hk => Or.inl hk

@[simp] theorem cursor_stores (t : Term) : (updateCursor t).stores = t.stores := rfl

theorem Over.putentry_stores (h : Over old p t) (hp : p.Fresh 80) (c color : Byte) :
    ∀ k ∈ (termPutentry t c color t.termX t.termY).stores, k ∈ t.stores ∨ k.toNat < 2000 := by
  have hx := hp.x_lt
  intro k hk
  rw [termPutentry, h.index] at hk
  rcases List.mem_cons.mp hk with rfl | hk
  · right
    rw [toNat_word (by omega)]
    omega
  · exact Or.inl hk

theorem Over.putchar_stores (h : Over old p t) (hp : p.Fresh 80) (c : Byte) :
    ∀ k ∈ (termPutchar t c).stores, k ∈ t.stores ∨ k.toNat < 2000 := by
  intro k hk
  rw [termPutchar, cursor_stores] at hk
  refine (scroll_stores _ k hk).elim (fun hk => ?_) Or.inr
  by_cases hnl : c = 0x0A
  · rw [if_pos hnl] at hk
    exact Or.inl hk
  by_cases hcr : c = 0x0D
  · rw [if_neg hnl, if_pos hcr] at hk
    exact Or.inl hk
  by_cases hglyph : blank.sle c = true
  · rw [if_neg hnl, if_neg hcr, if_pos hglyph] at hk
    refine h.putentry_stores hp c t.termColor k ?_
    dsimp only at hk
    split_ifs at hk <;> exact hk
  · rw [if_neg hnl, if_neg hcr, if_neg hglyph] at hk
    exact Or.inl hk

theorem bare_blank : Bare fun _ _ => blank := fun _ _ _ => rfl

theorem Shows.over (h : Shows p t) : Over (fun _ _ => blank) p t := ⟨h.x, h.y, h.chars⟩

theorem Shows.putchar (h : Shows p t) (hp : p.Fresh 80) (c : Byte) :
    Shows (p.feed 80 (move c)) (termPutchar t c) := by
  have hover := h.over.putchar hp bare_blank c
  exact ⟨hover.x, hover.y, hover.chars, fun k hk => (h.over.putchar_stores hp c k hk).elim (h.stores k) id⟩

@[simp] theorem setcolor_stores (t : Term) (color : Byte) : (termSetcolor t color).stores = t.stores := rfl

@[simp] theorem home_stores (t : Term) : t.home.stores = t.stores := rfl

@[simp] theorem home_charAt (t : Term) (row col : ℕ) : t.home.charAt row col = t.charAt row col := rfl

theorem fill_stores (h : ∀ k ∈ t.stores, k.toNat < 2000) : ∀ k ∈ (termFill t).stores, k.toNat < 2000 :=
  fun k hk => ((fill_drawn t).stores k hk).elim (h k) id

theorem shows_filled (h : ∀ k ∈ t.stores, k.toNat < 2000) : Shows empty (termFill t).home := by
  refine ⟨rfl, rfl, fun row hrow col hcol => ?_, ?_⟩
  · rw [home_charAt, Term.charAt, (fill_drawn t).entry _ (by omega), entry_char]
    rfl
  · rw [home_stores]
    exact fill_stores h

theorem shows_init (t : Term) : Shows empty (termInit { t with stores := [] }) := by
  apply shows_filled
  rw [setcolor_stores]
  apply fill_stores
  simp

theorem Shows.print (h : Shows p t) (hp : p.Fresh 80) (data : List Byte) :
    Shows (p.print 80 (data.map move)) (termWrite t data) ∧ (p.print 80 (data.map move)).Fresh 80 := by
  induction data generalizing p t with
  | nil => exact ⟨h, hp⟩
  | cons c data ih => exact ih (h.putchar hp c) (hp.feed (by decide) (move c))

theorem session_chars (t : Term) (calls : List Call) : session t calls = termWrite t (chars calls) := by
  induction calls generalizing t with
  | nil => rfl
  | cons c calls ih =>
    rw [show session t (c :: calls) = session (call t c) calls from rfl, ih]
    cases c with
    | putchar c => rfl
    | write data => exact (List.foldl_append ..).symm

/-- Whatever is printed, the screen shows the last 25 rows of a terminal without end, and no store
misses it. -/
theorem terminal_refines (t : Term) (calls : List Call) :
    (session (termInit { t with stores := [] }) calls).termX.toNat =
    (empty.print 80 ((chars calls).map move)).x ∧
    (session (termInit { t with stores := [] }) calls).termY.toNat =
      min (empty.print 80 ((chars calls).map move)).y 24 ∧
    (∀ row < 25, ∀ col < 80, (session (termInit { t with stores := [] }) calls).charAt row col =
      ((empty.print 80 ((chars calls).map move)).cell
        ((empty.print 80 ((chars calls).map move)).y - 24 + row) col).getD blank) ∧
    ∀ k ∈ (session (termInit { t with stores := [] }) calls).stores, k.toNat < 80 * 25 := by
  obtain ⟨h, hp⟩ := (shows_init t).print (fresh_empty (by decide)) (chars calls)
  have hx := hp.x_lt
  rw [session_chars]
  refine ⟨?_, ?_, h.chars, h.stores⟩
  · rw [h.x, toNat_word (by omega)]
  · rw [h.y, toNat_word (by omega)]

end Rinix.Terminal
