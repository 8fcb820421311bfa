import Rinix.Paging.MapPage

namespace Rinix.Paging

open ByteMemory PageTable WhileLoop Frames

def OnlyPage (s : Machine) (virt : Word) : Prop :=
  ∀ w, directorySlot w = directorySlot virt → ((s.walk w).isSome ↔ tableSlot w = tableSlot virt)

/-- No other entry is present in the new table. If the table is the directory itself, the page's
entry has replaced its link, and what counts is the frame of the page. -/
def Clear (s : Machine) (virt link leaf : Word) : Prop :=
  if frameOf link = s.directory then
    directorySlot virt = tableSlot virt ∧ frameOf leaf ≠ s.directory ∧
      ∀ k, entryFormat.present (s.tables (frameOf leaf) k) ↔ k = tableSlot virt
  else ∀ k, k ≠ tableSlot virt → ¬entryFormat.present (s.tables (frameOf link) k)

variable {s t : Machine} {b c : PfBitmap} {virt phys flags link leaf frame page : Word}

theorem onlyPage_iff : OnlyPage s virt ↔
    ∀ k, (PageTable.walk entryFormat s.tables s.directory (directorySlot virt) k).isSome ↔
    k = tableSlot virt := by
  constructor
  · intro h k
    obtain ⟨hd, ht, -⟩ := slotAddress_slots (directorySlot virt ++ k) 0
    rw [BitVec.extractLsb'_append_eq_left] at hd
    rw [BitVec.extractLsb'_append_eq_right] at ht
    have hpage := h _ hd
    rw [Machine.walk, hd, ht] at hpage
    exact hpage
  · intro h w hw
    rw [Machine.walk, hw]
    exact h (tableSlot w)

section Linked

variable (hrec : s.Recursive) (hlast : directorySlot virt ≠ 0x3FF) (hp : ¬s.Present virt)
  (hlink : entryFormat.present link) (hleaf : entryFormat.present leaf)
include hrec hlast hp hlink hleaf

theorem directory_only_iff (hself : frameOf link = s.directory) : OnlyPage (s.enter virt link leaf) virt ↔
    directorySlot virt = tableSlot virt ∧ frameOf leaf ≠ s.directory ∧
      ∀ k, entryFormat.present (s.tables (frameOf leaf) k) ↔ k = tableSlot virt := by
  have htables : (s.enter virt link leaf).tables =
      put (put s.tables s.directory (directorySlot virt) link) s.directory (tableSlot virt) leaf := by
    rw [enter_absent hp, put_tables, put_tables, hself]
  simp only [onlyPage_iff, walk_isSome, enter_directory_frame, htables]
  by_cases hslot : directorySlot virt = tableSlot virt
  · rw [hslot] at hlast ⊢
    simp only [put_same, hleaf, true_and]
    by_cases hback : frameOf leaf = s.directory
    · refine iff_of_false (fun h => ?_) fun h => h.1 hback
      have hentry : entryFormat.present
          (put (put s.tables s.directory (tableSlot virt) link) s.directory (tableSlot virt) leaf
            (entryFormat.frame leaf) 0x3FF) := by
        rw [put_other fun h => hlast h.2.symm, put_other fun h => hlast h.2.symm,
          show entryFormat.frame leaf = s.directory from hback]
        exact hrec.present
      exact hlast ((h 0x3FF).mp hentry).symm
    · rw [and_iff_right hback]
      apply forall_congr'
      intro k
      rw [show entryFormat.frame leaf = frameOf leaf from rfl, put_other fun h => hback h.1,
        put_other fun h => hback h.1]
  · refine iff_of_false (fun h => ?_) fun h => hslot h.1
    have hpde : put (put s.tables s.directory (directorySlot virt) link) s.directory
      (tableSlot virt) leaf s.directory
        (directorySlot virt) = link := by
      rw [put_other fun h => hslot h.2, put_same]
    have hentry := (h (directorySlot virt)).mp
    rw [hpde, show entryFormat.frame link = s.directory from hself, hpde] at hentry
    exact hslot (hentry ⟨hlink, hlink⟩)

theorem enter_only_iff : OnlyPage (s.enter virt link leaf) virt ↔ Clear s virt link leaf := by
  rw [Clear]
  split_ifs with hself
  · exact directory_only_iff hrec hlast hp hlink hleaf hself
  · rw [onlyPage_iff, enter_tables, enter_directory_frame]
    refine walk_enter_slot ?_ hp hlink hleaf
    rw [linked_of_absent hp]
    exact hself

end Linked

def usedFrame : Machine := emptyDirectory.put 8 7 0x7003

end Rinix.Paging
