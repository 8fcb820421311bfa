import Rinix.Descriptors.Tables
import Rinix.Lib.Pic

namespace Rinix.Interrupts

open Pic Descriptors

def bus (p : Pair) : Pair.Line ⊕ PortWrite → Pair
  | .inl n => p.raise n
  | .inr w => p.outb w.1 w.2

def writes (ws : List PortWrite) (p : Pair) : Pair := ws.foldl (fun q w => q.outb w.1 w.2) p

def settings (c : Chip) : Chip := { c with irr := ∅ }

def masterReady : Chip := ⟨∅, ∅, ∅, 0x20, 0x04, false, true, false, .mask⟩

def slaveReady : Chip := ⟨∅, ∅, ∅, 0x28, 0x02, false, true, false, .mask⟩

structure Idle (p : Pair) : Prop where
  master : settings p.master = masterReady
  slave : settings p.slave = slaveReady
  two : 2 ∉ p.master.irr

variable {c d : Chip} {p q : Pair} {v : BitVec 8}

theorem settings_raise (p : Pair) (n : Pair.Line) :
    settings (p.raise n).master = settings p.master ∧ settings (p.raise n).slave = settings p.slave := by
  rw [Pair.raise]
  split_ifs
  · exact ⟨rfl, rfl⟩
  · exact ⟨rfl, rfl⟩

theorem settings_command (h : settings c = settings d) (v : BitVec 8) :
    settings (c.command v) = settings (d.command v) := by
  obtain ⟨irr, isr, imr, base, cascade, single, needsIcw4, autoEoi, expect⟩ := c
  obtain ⟨irr', isr', imr', base', cascade', single', needsIcw4', autoEoi', expect'⟩ := d
  simp only [settings, Chip.mk.injEq, true_and] at h
  obtain ⟨rfl, rfl, rfl, rfl, rfl, rfl, rfl, rfl⟩ := h
  simp only [Chip.command, Chip.endFirst]
  split_ifs
  · rfl
  · rfl
  · cases first isr <;> rfl
  · rfl
  · rfl

theorem settings_data (h : settings c = settings d) (v : BitVec 8) :
    settings (c.data v) = settings (d.data v) := by
  obtain ⟨irr, isr, imr, base, cascade, single, needsIcw4, autoEoi, expect⟩ := c
  obtain ⟨irr', isr', imr', base', cascade', single', needsIcw4', autoEoi', expect'⟩ := d
  simp only [settings, Chip.mk.injEq, true_and] at h
  obtain ⟨rfl, rfl, rfl, rfl, rfl, rfl, rfl, rfl⟩ := h
  simp only [Chip.data]
  cases expect <;> rfl

theorem settings_outb (hm : settings p.master = settings q.master) (hs : settings p.slave = settings q.slave)
    (w : PortWrite) : settings (p.outb w.1 w.2).master = settings (q.outb w.1 w.2).master ∧
      settings (p.outb w.1 w.2).slave = settings (q.outb w.1 w.2).slave := by
  simp only [Pair.outb]
  split_ifs
  · exact ⟨settings_command hm w.2, hs⟩
  · exact ⟨settings_data hm w.2, hs⟩
  · exact ⟨hm, settings_command hs w.2⟩
  · exact ⟨hm, settings_data hs w.2⟩
  · exact ⟨hm, hs⟩

theorem settings_bus (hm : settings p.master = settings q.master) (hs : settings p.slave = settings q.slave)
    (es : List (Pair.Line ⊕ PortWrite)) :
    settings (es.foldl bus p).master = settings (writes (es.filterMap Sum.getRight?) q).master ∧
      settings (es.foldl bus p).slave = settings (writes (es.filterMap Sum.getRight?) q).slave := by
  induction es generalizing p q with
  | nil => exact ⟨hm, hs⟩
  | cons e es ih =>
    cases e with
    | inl n =>
      obtain ⟨hm', hs'⟩ := settings_raise p n
      exact ih (hm'.trans hm) (hs'.trans hs)
    | inr w =>
      obtain ⟨hm', hs'⟩ := settings_outb hm hs w
      exact ih hm' hs'

theorem remap_settings (p : Pair) :
    settings (writes irqRemap p).master = masterReady ∧
      settings (writes irqRemap p).slave = slaveReady := ⟨rfl, rfl⟩

theorem command_irr (c : Chip) (v : BitVec 8) : (c.command v).irr ⊆ c.irr := by
  simp only [Chip.command, Chip.endFirst]
  split_ifs
  · exact Finset.empty_subset _
  · exact Finset.Subset.refl _
  · cases first c.isr <;> exact Finset.Subset.refl _
  · exact Finset.Subset.refl _
  · exact Finset.Subset.refl _

theorem data_irr (c : Chip) (v : BitVec 8) : (c.data v).irr = c.irr := by
  rw [Chip.data]
  cases c.expect <;> rfl

theorem outb_irr (p : Pair) (w : PortWrite) : (p.outb w.1 w.2).master.irr ⊆ p.master.irr := by
  simp only [Pair.outb]
  split_ifs
  · exact command_irr p.master w.2
  · exact (data_irr p.master w.2).le
  · exact Finset.Subset.refl _
  · exact Finset.Subset.refl _
  · exact Finset.Subset.refl _

theorem raise_two {n : Pair.Line} (hn : n ≠ 2) (h : 2 ∉ p.master.irr) : 2 ∉ (p.raise n).master.irr := by
  rw [Pair.raise]
  split_ifs with hlt
  · rw [Chip.latch, Finset.mem_insert]
    rintro (heq | hmem)
    · have hval : 2 = n.val % 8 := congrArg Fin.val heq
      exact hn (Fin.ext (show n.val = 2 by omega))
    · exact h hmem
  · exact h

theorem bus_two {es : List (Pair.Line ⊕ PortWrite)} (hes : ∀ n, .inl n ∈ es → n ≠ 2)
    (h : 2 ∉ p.master.irr) :
    2 ∉ (es.foldl bus p).master.irr := by
  induction es generalizing p with
  | nil => exact h
  | cons e es ih =>
    refine ih (fun n hn => hes n (List.mem_cons_of_mem e hn)) ?_
    cases e with
    | inl n => exact raise_two (hes n List.mem_cons_self) h
    | inr w => exact fun hmem => h (outb_irr p w hmem)

/-- The controllers are ready after the ten writes, whatever they did before and whatever is raised
in between. The line of the slave's output is no device's. -/
theorem remap_idle (p : Pair) {es : List (Pair.Line ⊕ PortWrite)}
    (hwrites : es.filterMap Sum.getRight? = irqRemap)
    (hlines : ∀ n, .inl n ∈ es → n ≠ 2) : Idle (es.foldl bus p) := by
  obtain ⟨hm, hs⟩ := settings_bus (p := p) rfl rfl es
  rw [hwrites, (remap_settings p).1] at hm
  rw [hwrites, (remap_settings p).2] at hs
  refine ⟨hm, hs, ?_⟩
  -- the first write forgets what was requested
  obtain ⟨before, e, after, rfl, -, hfirst, -⟩ := List.filterMap_eq_cons_iff.mp hwrites
  rw [List.foldl_append, List.foldl_cons]
  refine bus_two (fun n hn => hlines n ?_) ?_
  · exact List.mem_append_right before (List.mem_cons_of_mem e hn)
  · cases e with
    | inl n => cases hfirst
    | inr w =>
      cases hfirst
      exact Finset.notMem_empty 2

end Rinix.Interrupts
