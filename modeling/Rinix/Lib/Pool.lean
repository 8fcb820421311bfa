import Mathlib.Data.Set.Insert
import Rinix.Lib.Runs

namespace Pool

open Runs

variable {α : Type}

inductive Event (α : Type) where
  | take (a : α)
  | give (a : α) (ok : Bool)

inductive Step : Set α → Event α → Set α → Prop where
  | take {used : Set α} {a : α} : a ∉ used → Step used (.take a) (insert a used)
  | give {used : Set α} {a : α} : a ∈ used → Step used (.give a true) (used \ {a})
  | refuse {used : Set α} {a : α} : a ∉ used → Step used (.give a false) used

def GivesTaken (es : List (Event α)) : Prop :=
  ∀ es₁ a ok es₂, es = es₁ ++ .give a ok :: es₂ → .take a ∈ es₁

variable {used used' : Set α} {a : α} {es es₁ es₂ es₃ : List (Event α)}

theorem mem_of_run (h : Run Step used es used') (ha : a ∈ used) (hes : .give a true ∉ es) : a ∈ used' := by
  have hall : ∀ e ∈ es, e ≠ .give a true := by
    rintro e he rfl
    exact hes he
  refine h.invariant_on (fun U => a ∈ U) (fun e => e ≠ .give a true) ?_ hall ha
  rintro U e V hU he hstep
  cases hstep with
  | take _ => exact Set.mem_insert_of_mem _ hU
  | give hb =>
    refine ⟨hU, fun hab => he ?_⟩
    rw [Set.mem_singleton_iff] at hab
    rw [hab]
  | refuse _ => exact hU

theorem given_between (h : Run Step used (es₁ ++ .take a :: (es₂ ++ .take a :: es₃)) used') :
    .give a true ∈ es₂ := by
  by_contra hno
  obtain ⟨U, -, h⟩ := run_append.mp h
  obtain ⟨V, hV, h⟩ := run_cons.mp h
  obtain ⟨W, hVW, h⟩ := run_append.mp h
  obtain ⟨X, hX, -⟩ := run_cons.mp h
  have haV : a ∈ V := by cases hV; exact Set.mem_insert _ _
  have haW := mem_of_run hVW haV hno
  cases hX with
  | take ha => exact ha haW

theorem never_taken (h : Run Step used es used') (hes : GivesTaken es) (ha : a ∈ used) : .take a ∉ es := by
  intro htake
  obtain ⟨es₁, es₂, rfl, hfirst⟩ := List.eq_append_cons_of_mem htake
  obtain ⟨U, hU, h⟩ := run_append.mp h
  obtain ⟨V, hV, -⟩ := run_cons.mp h
  have hno : .give a true ∉ es₁ := by
    intro hgive
    obtain ⟨l, r, rfl⟩ := List.append_of_mem hgive
    apply hfirst
    have := hes l a true (r ++ .take a :: es₂) (by simp)
    exact List.mem_append_left _ this
  have haU := mem_of_run hU ha hno
  cases hV with
  | take hna => exact hna haU

end Pool
