import Mathlib.Data.Nat.Notation
import Mathlib.Tactic.Common

namespace Paper

variable {α : Type}

inductive Move (α : Type) where
  | newline
  | carriage
  | glyph (a : α)
  | nothing

structure Sheet (α : Type) where
  x : ℕ
  y : ℕ
  cell : ℕ → ℕ → Option α

def empty : Sheet α := ⟨0, 0, fun _ _ => none⟩

def Sheet.write (p : Sheet α) (a : α) : Sheet α :=
  { p with cell := fun row col => if row = p.y ∧ col = p.x then some a else p.cell row col }

def Sheet.advance (width : ℕ) (p : Sheet α) : Sheet α :=
  if p.x + 1 = width then { p with x := 0, y := p.y + 1 } else { p with x := p.x + 1 }

def Sheet.feed (width : ℕ) (p : Sheet α) : Move α → Sheet α
  | .newline => { p with x := 0, y := p.y + 1 }
  | .carriage => { p with x := 0 }
  | .glyph a => (p.write a).advance width
  | .nothing => p

def Sheet.print (width : ℕ) (p : Sheet α) (moves : List (Move α)) : Sheet α :=
  moves.foldl (Sheet.feed width) p

def Sheet.top (height : ℕ) (p : Sheet α) : ℕ := p.y - (height - 1)

structure Sheet.Fresh (width : ℕ) (p : Sheet α) : Prop where
  x_lt : p.x < width
  below : ∀ row col, p.y < row → p.cell row col = none

def Sheet.Line (p : Sheet α) (row : ℕ) (text : List α) : Prop := ∀ col, p.cell row col = text[col]?

structure Sheet.Clean (p : Sheet α) : Prop where
  x_zero : p.x = 0
  bare : ∀ row col, p.y ≤ row → p.cell row col = none

def line (text : List α) : List (Move α) := text.map .glyph ++ [.newline]

variable {width height : ℕ} {p : Sheet α} {m : Move α} {text : List α}

theorem fresh_empty (hwidth : 0 < width) : (empty : Sheet α).Fresh width := ⟨hwidth, fun _ _ _ => rfl⟩

theorem advance_last (h : p.x + 1 = width) : p.advance width = { p with x := 0, y := p.y + 1 } := if_pos h

theorem advance_next (h : p.x + 1 ≠ width) : p.advance width = { p with x := p.x + 1 } := if_neg h

theorem Sheet.Fresh.write (h : p.Fresh width) (a : α) : (p.write a).Fresh width := by
  refine ⟨h.x_lt, fun row col hrow => ?_⟩
  have hy : p.y < row := hrow
  simp only [Sheet.write]
  rw [if_neg (by omega)]
  exact h.below row col hy

theorem Sheet.Fresh.nextLine (hwidth : 0 < width) (h : p.Fresh width) :
    ({ p with x := 0, y := p.y + 1 } : Sheet α).Fresh width :=
  ⟨hwidth, fun row col hrow => h.below row col (Nat.lt_of_succ_lt hrow)⟩

theorem Sheet.Fresh.advance (hwidth : 0 < width) (h : p.Fresh width) : (p.advance width).Fresh width := by
  by_cases hlast : p.x + 1 = width
  · rw [advance_last hlast]
    exact h.nextLine hwidth
  · rw [advance_next hlast]
    exact ⟨Nat.lt_of_le_of_ne h.x_lt hlast, h.below⟩

theorem Sheet.Fresh.feed (hwidth : 0 < width) (h : p.Fresh width) (m : Move α) :
    (p.feed width m).Fresh width := by
  cases m with
  | newline => exact h.nextLine hwidth
  | carriage => exact ⟨hwidth, h.below⟩
  | glyph a => exact (h.write a).advance hwidth
  | nothing => exact h

theorem Sheet.print_append (p : Sheet α) (width : ℕ) (ms ns : List (Move α)) :
    p.print width (ms ++ ns) = (p.print width ms).print width ns := List.foldl_append

theorem Sheet.Fresh.print (hwidth : 0 < width) (h : p.Fresh width) (ms : List (Move α)) :
    (p.print width ms).Fresh width := by
  induction ms generalizing p with
  | nil => exact h
  | cons m ms ih => exact ih (h.feed hwidth m)

theorem Sheet.Fresh.newline (h : p.Fresh width) : (p.feed width .newline).Clean :=
  ⟨rfl, fun row col hrow => h.below row col hrow⟩

theorem print_glyphs (h : p.x + text.length < width) : p.print width (text.map .glyph) =
    ⟨p.x + text.length, p.y, fun row col =>
      if row = p.y ∧ p.x ≤ col ∧ col < p.x + text.length then text[col - p.x]? else p.cell row col⟩ := by
  induction text generalizing p with
  | nil =>
    have hcell : (fun row col => if row = p.y ∧ p.x ≤ col ∧ col < p.x + ([] : List α).length then
        ([] : List α)[col - p.x]? else p.cell row col) = p.cell := by
      funext row col
      rw [List.length_nil, if_neg (by omega)]
    rw [hcell]
    rfl
  | cons a text ih =>
    rw [List.length_cons] at h ⊢
    have hnext : p.feed width (.glyph a) = ⟨p.x + 1, p.y, (p.write a).cell⟩ := by
      apply advance_next
      change p.x + 1 ≠ width
      omega
    have hrest := ih (p := ⟨p.x + 1, p.y, (p.write a).cell⟩) (by change p.x + 1 + text.length < width; omega)
    rw [Sheet.print] at hrest
    rw [Sheet.print, List.map_cons, List.foldl_cons, hnext, hrest]
    have hx : p.x + 1 + text.length = p.x + (text.length + 1) := by omega
    simp only [hx, Sheet.write]
    congr 1
    funext row col
    by_cases hrow : row = p.y
    · rcases Nat.lt_trichotomy col p.x with hlt | heq | hgt
      · rw [if_neg (by omega), if_neg (by omega), if_neg (by omega)]
      · rw [if_neg (by omega), if_pos ⟨hrow, heq⟩, if_pos (by omega), heq, Nat.sub_self,
          List.getElem?_cons_zero]
      · have hplace : col - p.x = (col - (p.x + 1)) + 1 := by omega
        rw [hplace, List.getElem?_cons_succ, if_neg (show ¬(row = p.y ∧ col = p.x) by omega)]
        exact if_congr (by omega) rfl rfl
    · rw [if_neg fun hin => hrow hin.1, if_neg fun hin => hrow hin.1, if_neg fun hin => hrow hin.1]

theorem Sheet.Clean.line (h : p.Clean) (htext : text.length < width) : (p.print width (line text)).Clean ∧
    (p.print width (line text)).y = p.y + 1 ∧ (p.print width (line text)).Line p.y text ∧
    ∀ row col, row ≠ p.y → (p.print width (line text)).cell row col = p.cell row col := by
  have hx := h.x_zero
  rw [Paper.line, Sheet.print_append, print_glyphs (by omega)]
  refine ⟨⟨rfl, fun row col hrow => ?_⟩, rfl, fun col => ?_, fun row col hrow => if_neg fun hin => hrow hin.1⟩
  · have hlater : p.y < row := hrow
    have hother : ¬(row = p.y ∧ p.x ≤ col ∧ col < p.x + text.length) := fun hin => by omega
    exact (if_neg hother).trans (h.bare row col (Nat.le_of_lt hlater))
  · change (if p.y = p.y ∧ p.x ≤ col ∧ col < p.x +
      text.length then text[col - p.x]? else p.cell p.y col) = text[col]?
    by_cases hcol : col < text.length
    · rw [if_pos (by omega), hx, Nat.sub_zero]
    · rw [if_neg (by omega), h.bare _ _ (Nat.le_refl _), List.getElem?_eq_none (Nat.not_lt.mp hcol)]

theorem Sheet.Clean.lines {texts : List (List α)} (h : p.Clean)
    (htexts : ∀ text ∈ texts, text.length < width) :
    (p.print width (texts.flatMap Paper.line)).Clean ∧
    (p.print width (texts.flatMap Paper.line)).y = p.y + texts.length ∧
    (∀ i text, texts[i]? = some text → (p.print width (texts.flatMap Paper.line)).Line (p.y + i) text) ∧
    ∀ row col, row < p.y → (p.print width (texts.flatMap Paper.line)).cell row col = p.cell row col := by
  induction texts generalizing p with
  | nil => exact ⟨h, rfl, fun i text hi => absurd hi (by simp), fun _ _ _ => rfl⟩
  | cons first texts ih =>
    obtain ⟨hclean, hy, hline, hother⟩ := h.line (htexts first List.mem_cons_self)
    obtain ⟨hclean', hy', hlines, hkept⟩ := ih hclean fun text ht => htexts text (List.mem_cons_of_mem _ ht)
    rw [List.flatMap_cons, Sheet.print_append]
    rw [hy] at hy' hlines hkept
    refine ⟨hclean', ?_, fun i text hi => ?_, fun row col hrow => ?_⟩
    · rw [hy', List.length_cons, Nat.add_right_comm, Nat.add_assoc]
    · cases i with
      | zero =>
        rw [List.getElem?_cons_zero, Option.some.injEq] at hi
        intro col
        rw [Nat.add_zero, hkept _ _ (Nat.lt_succ_self _), hline, hi]
      | succ i =>
        rw [List.getElem?_cons_succ] at hi
        have hrest := hlines i text hi
        rwa [Nat.add_assoc, Nat.add_comm 1 i] at hrest
    · rw [hkept _ _ (Nat.lt_succ_of_lt hrow), hother _ _ (Nat.ne_of_lt hrow)]

end Paper
