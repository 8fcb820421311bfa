import Rinix.Terminal.Flash

namespace Rinix.Terminal

open ByteMemory WhileLoop Paper

structure Crtc where
  index : Byte
  high : Byte
  low : Byte

def Crtc.write (d : Crtc) (w : BitVec 16 × Byte) : Crtc :=
  if w.1 = 0x3D4 then { d with index := w.2 }
  else if w.1 = 0x3D5 then
    if d.index = 14 then { d with high := w.2 } else if d.index = 15 then { d with low := w.2 } else d
  else d

def Crtc.after (d : Crtc) (ports : List (BitVec 16 × Byte)) : Crtc := ports.foldl Crtc.write d

def Crtc.place (d : Crtc) : ℕ := d.high.toNat * 256 + d.low.toNat

def Term.place (t : Term) : ℕ := t.termY.toNat * 80 + t.termX.toNat

variable {t s : Term} {d : Crtc} {p : Sheet Byte} {c : Byte} {data : List Byte} {calls : List Call}

theorem updated (t : Term) (d : Crtc) : d.after (updateCursor t).ports =
    ⟨15, ((t.termY * vgaWidth + t.termX) >>> 8).setWidth 8, (t.termY * vgaWidth + t.termX).setWidth 8⟩ := by
  unfold Crtc.after
  simp only [updateCursor, Term.outb, List.append_assoc, List.foldl_append, List.foldl_cons, List.foldl_nil]
  rfl

theorem Over.place_lt {old : ℕ → ℕ → Byte} (h : Over old p t) (hp : p.Fresh 80) : t.place < 2000 := by
  have hx := hp.x_lt
  have hy := h.small
  rw [Term.place, h.x, toNat_word (by omega)]
  omega

theorem updated_place (h : t.place < 2000) (hx : t.termX.toNat < 80) (d : Crtc) :
    (d.after (updateCursor t).ports).place = t.place := by
  have hsum : (t.termY * vgaWidth + t.termX).toNat = t.place := by
    have hwidth : vgaWidth.toNat = 80 := rfl
    rw [Term.place] at h ⊢
    rw [BitVec.toNat_add, BitVec.toNat_mul, hwidth]
    omega
  rw [updated]
  simp only [Crtc.place, BitVec.toNat_setWidth, BitVec.toNat_ushiftRight, hsum, Nat.shiftRight_eq_div_pow]
  omega

theorem putchar_updates (t : Term) (c : Byte) : ∃ s, termPutchar t c = updateCursor s := ⟨_, rfl⟩

theorem Shows.cursor (h : Shows p t) (hp : p.Fresh 80) (d : Crtc) (c : Byte) :
    (d.after (termPutchar t c).ports).place = (termPutchar t c).place := by
  have hover := (h.putchar hp c).over
  have hfresh := hp.feed (by decide) (move c)
  have hx := hfresh.x_lt
  obtain ⟨s, hs⟩ := putchar_updates t c
  rw [hs] at hover ⊢
  apply updated_place
  · exact hover.place_lt hfresh
  · have hxs : s.termX = word (p.feed 80 (move c)).x := hover.x
    rw [hxs, toNat_word (by omega)]
    exact hx

theorem Shows.cursor_printed (h : Shows p t) (hp : p.Fresh 80) (d : Crtc) (hdata : data ≠ []) :
    (d.after (termWrite t data).ports).place = (termWrite t data).place := by
  obtain ⟨first, c, rfl⟩ := (List.eq_nil_or_concat data).resolve_left hdata
  obtain ⟨hshows, hfresh⟩ := h.print hp first
  rw [termWrite, List.concat_eq_append, List.foldl_append]
  exact hshows.cursor hfresh d c

theorem fill_twin (t : Term) : Twin t (termFill t) :=
  upTo_twin (fun _ _ => upTo_twin (fun _ _ => put_twin _ _ _) _ _) _ t

theorem init_ports (t : Term) : (termInit t).ports = t.ports := by
  have hfill (u : Term) : (termFill u).ports = u.ports := (fill_twin u).ports
  have hcolor (u : Term) (color : Byte) : (termSetcolor u color).ports = u.ports := rfl
  have hhome (u : Term) : u.home.ports = u.ports := rfl
  rw [termInit, hhome, hfill, hcolor, hfill, hcolor, hhome]

theorem cursor_shown (t : Term) (d : Crtc) (calls : List Call) :
    (d.after (session (termInit { t with stores := [] }) calls).ports).place =
        (if chars calls = [] then (d.after t.ports).place else
          (session (termInit { t with stores := [] }) calls).place) ∧
      (session (termInit { t with stores := [] }) calls).place < 2000 := by
  have hfresh : (empty : Sheet Byte).Fresh 80 := fresh_empty (by decide)
  have hstart := shows_init t
  obtain ⟨hshows, hprinted⟩ := hstart.print hfresh (chars calls)
  rw [session_chars]
  refine ⟨?_, hshows.over.place_lt hprinted⟩
  by_cases hnone : chars calls = []
  · rw [if_pos hnone, hnone, termWrite, List.foldl_nil, init_ports]
  · rw [if_neg hnone]
    exact hstart.cursor_printed hfresh d hnone

end Rinix.Terminal
