import Rinix.Terminal.Scroll

namespace Rinix.Terminal

open ByteMemory WhileLoop Paper

def screenSize : ℕ := vgaHeight.toNat * vgaWidth.toNat

def memcpyEntries (dst src : Word → VgaEntry) (n : ℕ) : Word → VgaEntry :=
  upTo n (fun dst i k => if k = word i then src (word i) else dst k) dst

def paint (t : Term) (color : Byte) : Term :=
  upTo vgaHeight.toNat (fun t y => upTo vgaWidth.toNat (fun t x =>
    termPutentry t blank color (word x) (word y)) t) t

def restore (t : Term) (src : Word → VgaEntry) (n : ℕ) : Term :=
  upTo n (fun t i => t.put (word i) (src (word i))) t

/-- `printed` is what the interrupts put on the terminal while `timer_wait` waits. -/
def flashScreen (tempArea : Word → VgaEntry) (t : Term) (printed : List Byte) : Term :=
  let tempArea := memcpyEntries tempArea t.termBuf screenSize
  let t := paint t (makeColor colorWhite colorWhite)
  let t := termWrite t printed
  restore t tempArea screenSize

structure NothingLost (tempArea : Word → VgaEntry) (t : Term) (printed : List Byte) : Prop where
  text : ∀ row < 25, ∀ col < 80,
    (flashScreen tempArea t printed).charAt row col = (termWrite t printed).charAt row col
  x : (flashScreen tempArea t printed).termX = (termWrite t printed).termX
  y : (flashScreen tempArea t printed).termY = (termWrite t printed).termY
  ports : (flashScreen tempArea t printed).ports = (termWrite t printed).ports

def strip (t : Term) (printed : List Byte) : Sheet Byte :=
  Sheet.print 80 ⟨t.termX.toNat, t.termY.toNat, fun _ _ => none⟩ (printed.map move)

def Term.background (t : Term) (row col : ℕ) : Byte := if row < 25 then t.charAt row col else blank

def Rewrites (t : Term) (printed : List Byte) : Prop :=
  ∀ row < 25, ∀ col < 80, ((strip t printed).cell ((strip t printed).top 25 + row) col).getD
    (t.background ((strip t printed).top 25 + row) col) = t.charAt row col

variable {t s u : Term} {tempArea src : Word → VgaEntry} {printed : List Byte} {f : Term → ℕ → Term} {n : ℕ}

structure Twin (t s : Term) : Prop where
  x : s.termX = t.termX
  y : s.termY = t.termY
  color : s.termColor = t.termColor
  ports : s.ports = t.ports

theorem Twin.refl (t : Term) : Twin t t := ⟨rfl, rfl, rfl, rfl⟩

theorem Twin.trans (h : Twin t s) (h' : Twin s u) : Twin t u :=
  ⟨h'.x.trans h.x, h'.y.trans h.y, h'.color.trans h.color, h'.ports.trans h.ports⟩

theorem Twin.symm (h : Twin t s) : Twin s t := ⟨h.x.symm, h.y.symm, h.color.symm, h.ports.symm⟩

theorem put_twin (t : Term) (i : Word) (e : VgaEntry) : Twin t (t.put i e) := ⟨rfl, rfl, rfl, rfl⟩

theorem upTo_twin (h : ∀ t i, Twin t (f t i)) (n : ℕ) (t : Term) : Twin t (upTo n f t) :=
  upTo_invariant (fun _ s => Twin t s) (fun i s _ hs => hs.trans (h s i)) (Twin.refl t)

theorem home_twin (h : Twin t s) (x y : Word) :
    Twin { t with termX := x, termY := y } { s with termX := x, termY := y } := ⟨rfl, rfl, h.color, h.ports⟩

theorem Twin.scroll (h : Twin t s) : Twin (termScroll t) (termScroll s) := by
  have hscrolled (t : Term) : Twin t
      (upTo 80 (fun t i => t.put (word (24 * 80 + i)) (makeVgaentry blank t.termColor))
        (upTo (24 * 80) (fun t i => t.put (word i) (t.termBuf (word i + 80))) t)) :=
    (upTo_twin (fun _ _ => put_twin _ _ _) _ t).trans (upTo_twin (fun _ _ => put_twin _ _ _) _ _)
  by_cases hfull : 25 ≤ t.termY
  · have hfull' : 25 ≤ s.termY := h.y ▸ hfull
    rw [termScroll, if_pos hfull, termScroll, if_pos hfull']
    exact home_twin ((hscrolled t).symm.trans (h.trans (hscrolled s))) 0 24
  · have hfull' : ¬25 ≤ s.termY := h.y ▸ hfull
    rw [termScroll, if_neg hfull, termScroll, if_neg hfull']
    exact h

theorem Twin.cursor (h : Twin t s) : Twin (updateCursor t) (updateCursor s) := by
  refine ⟨h.x, h.y, h.color, ?_⟩
  simp only [updateCursor, Term.outb, h.x, h.y, h.ports]

theorem Twin.advance (h : Twin t s) : Twin
    (if t.termX + 1 = vgaWidth then { t with termX := 0, termY := t.termY + 1 }
      else { t with termX := t.termX + 1 })
    (if s.termX + 1 = vgaWidth then { s with termX := 0, termY := s.termY + 1 }
      else { s with termX := s.termX + 1 }) := by
  have hx : s.termX + 1 = t.termX + 1 := congrArg (· + 1) h.x
  by_cases hend : t.termX + 1 = vgaWidth
  · rw [if_pos hend, if_pos (hx.trans hend)]
    exact ⟨rfl, congrArg (· + 1) h.y, h.color, h.ports⟩
  · rw [if_neg hend, if_neg (fun h' => hend (hx.symm.trans h'))]
    exact ⟨hx, h.y, h.color, h.ports⟩

theorem Twin.putchar (h : Twin t s) (c : Byte) : Twin (termPutchar t c) (termPutchar s c) := by
  rw [termPutchar, termPutchar]
  apply Twin.cursor
  apply Twin.scroll
  by_cases hnl : c = 0x0A
  · rw [if_pos hnl, if_pos hnl]
    exact ⟨rfl, congrArg (· + 1) h.y, h.color, h.ports⟩
  by_cases hcr : c = 0x0D
  · rw [if_neg hnl, if_pos hcr, if_neg hnl, if_pos hcr]
    exact ⟨rfl, h.y, h.color, h.ports⟩
  by_cases hglyph : blank.sle c = true
  · rw [if_neg hnl, if_neg hcr, if_pos hglyph, if_neg hnl, if_neg hcr, if_pos hglyph]
    have hput : Twin (termPutentry t c t.termColor t.termX t.termY)
      (termPutentry s c s.termColor s.termX s.termY) :=
      (put_twin _ _ _).symm.trans (h.trans (put_twin _ _ _))
    exact hput.advance
  · rw [if_neg hnl, if_neg hcr, if_neg hglyph, if_neg hnl, if_neg hcr, if_neg hglyph]
    exact h

theorem Twin.write (h : Twin t s) (data : List Byte) : Twin (termWrite t data) (termWrite s data) := by
  induction data generalizing t s with
  | nil => exact h
  | cons c data ih => exact ih (h.putchar c)

theorem paint_twin (t : Term) (color : Byte) : Twin t (paint t color) :=
  upTo_twin (fun _ _ => upTo_twin (fun _ _ => put_twin _ _ _) _ _) _ t

theorem restore_twin (t : Term) (src : Word → VgaEntry) (n : ℕ) : Twin t (restore t src n) :=
  upTo_twin (fun _ _ => put_twin _ _ _) n t

theorem flash_twin (tempArea : Word → VgaEntry) (t : Term) (printed : List Byte) :
    Twin (termWrite t printed) (flashScreen tempArea t printed) :=
  ((paint_twin t _).write printed).trans (restore_twin _ _ _)

theorem memcpy_entry (dst src : Word → VgaEntry) {j n : ℕ} (hj : j < n) (hn : n < 4294967296) :
    memcpyEntries dst src n (word j) = src (word j) := by
  refine upTo_invariant (fun i (a : Word → VgaEntry) => ∀ j < i, a (word j) = src (word j))
    (fun i a hi h j hj => ?_) (fun j hj => absurd hj (Nat.not_lt_zero j)) j hj
  by_cases hji : j = i
  · rw [if_pos (by rw [hji]), hji]
  · have hne : word j ≠ word i := fun heq => hji ((word_inj (by omega) (by omega)).mp heq)
    rw [if_neg hne]
    exact h j (by omega)

theorem restore_drawn (t : Term) (src : Word → VgaEntry) :
    Drawn t (restore t src 2000) fun j => src (word j) := by
  refine Drawn.congr (upTo_invariant
    (fun i s => Drawn t s fun j => if j < i then src (word j) else t.termBuf (word j)) (fun i s hi h => ?_)
    ((Drawn.refl t).congr fun j _ => by simp)) fun j hj => if_pos hj
  apply (h.put hi _).congr
  intro j hj
  by_cases hji : j = i
  · rw [if_pos hji, if_pos (by omega), hji]
  · rw [if_neg hji]
    exact if_congr (by omega) rfl rfl

theorem flash_text (tempArea : Word → VgaEntry) (t : Term) (printed : List Byte) {row col : ℕ}
    (hrow : row < 25)
    (hcol : col < 80) : (flashScreen tempArea t printed).charAt row col = t.charAt row col := by
  rw [Term.charAt, flashScreen, show screenSize = 2000 from rfl, (restore_drawn _ _).entry _ (by omega),
    memcpy_entry _ _ (by omega) (by decide), Term.charAt]

theorem bare_background (t : Term) : Bare t.background := fun _ _ hrow => if_neg (Nat.not_lt.mpr hrow)

theorem printed_text (printed : List Byte) (hx : t.termX.toNat < 80) (hy : t.termY.toNat < 25) {row col : ℕ}
    (hrow : row < 25) (hcol : col < 80) : (termWrite t printed).charAt row col =
      ((strip t printed).cell ((strip t printed).top 25 + row) col).getD
        (t.background ((strip t printed).top 25 + row) col) := by
  have hfresh : Sheet.Fresh 80 (⟨t.termX.toNat, t.termY.toNat, fun _ _ => none⟩ : Sheet Byte) :=
    ⟨hx, fun _ _ _ => rfl⟩
  have hover : Over t.background ⟨t.termX.toNat, t.termY.toNat, fun _ _ => none⟩ t := by
    refine ⟨(word_toNat _).symm, ?_, fun row hrow col _ => ?_⟩
    · rw [Nat.min_eq_left (Nat.le_of_lt_succ hy), word_toNat]
    · have htop : Sheet.top 25 (⟨t.termX.toNat, t.termY.toNat, fun _ _ => none⟩ : Sheet Byte) = 0 := by
        change t.termY.toNat - 24 = 0
        omega
      rw [htop, Nat.zero_add, Option.getD_none, Term.background, if_pos hrow]
  exact (hover.print hfresh (bare_background t) printed).1.chars row hrow col hcol

/-- The flash takes back what is printed under it; nothing is lost exactly when that leaves the text
as it was. -/
theorem nothing_lost_iff (tempArea : Word → VgaEntry) (t : Term) (printed : List Byte)
    (hx : t.termX.toNat < 80)
    (hy : t.termY.toNat < 25) : NothingLost tempArea t printed ↔ Rewrites t printed := by
  have htwin := flash_twin tempArea t printed
  constructor
  · intro h row hrow col hcol
    rw [← printed_text printed hx hy hrow hcol, ← h.text row hrow col hcol,
      flash_text tempArea t printed hrow hcol]
  · intro h
    refine ⟨fun row hrow col hcol => ?_, htwin.x, htwin.y, htwin.ports⟩
    rw [flash_text tempArea t printed hrow hcol, printed_text printed hx hy hrow hcol, h row hrow col hcol]

theorem rewrites_iff (h : (strip t printed).y < 25) : Rewrites t printed ↔
    ∀ row < 25, ∀ col < 80, ∀ c, (strip t printed).cell row col = some c → c = t.charAt row col := by
  have htop : (strip t printed).top 25 = 0 := by
    simp only [Sheet.top]
    omega
  refine forall₂_congr fun row hrow => forall₂_congr fun col hcol => ?_
  rw [htop, Nat.zero_add, Term.background, if_pos hrow]
  cases hcell : (strip t printed).cell row col with
  | none => simp
  | some c => simp

def full : Term := ⟨0, 5, 0x0F, fun _ => 0x0F41, [], []⟩

theorem carriage_kept : NothingLost (fun _ => 0) full [0x41, 0x0D] := by
  apply (nothing_lost_iff (fun _ => 0) full [0x41, 0x0D] (by decide) (by decide)).mpr
  rw [rewrites_iff (by decide)]
  intro row _ col _ c hcell
  change (if row = 0 ∧ col = 5 then some (0x41 : Byte) else none) = some c at hcell
  split_ifs at hcell
  have hchar : full.charAt row col = 0x41 := by
    change (0x0F41 : VgaEntry).setWidth 8 = 0x41
    decide
  rw [← Option.some.inj hcell, hchar]

theorem glyph_lost : ¬NothingLost (fun _ => 0) full [0x62] := by
  intro h
  have htext := h.text 0 (by decide) 5 (by decide)
  rw [flash_text _ _ _ (by decide) (by decide),
    printed_text _ (by decide) (by decide) (by decide) (by decide)] at htext
  exact absurd htext (by decide)

end Rinix.Terminal
