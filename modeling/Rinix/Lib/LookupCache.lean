import Mathlib.Data.List.Basic

namespace LookupCache

variable {K V : Type}

abbrev Cache (K V : Type) := K → List V

def filled (look : K → Option V) : Cache K V := fun k => (look k).toList

def remember [DecidableEq V] (look : K → Option V) (cache : Cache K V) : Cache K V := fun k =>
  match look k with
  | none => cache k
  | some v => (cache k).insert v

def forget [DecidableEq K] (look : K → Option V) (cache : Cache K V) (key : K) : Cache K V := fun k =>
  if k = key then (look k).toList else cache k

def Stale (look : K → Option V) (cache : Cache K V) (k : K) : Prop := ∃ v ∈ cache k, look k ≠ some v

variable {look look' : K → Option V} {k : K}

theorem filled_current (look : K → Option V) (k : K) : ¬Stale look (filled look) k := by
  rintro ⟨v, hv, hne⟩
  exact hne (Option.mem_toList.mp hv)

theorem forget_filled [DecidableEq K] (look : K → Option V) (k : K) :
    forget look (filled look) k = filled look := by
  funext key
  exact ite_self _

theorem remember_filled [DecidableEq V] (h : ∀ k v, look k = some v → look' k = some v) :
    remember look' (filled look) = filled look' := by
  funext k
  cases hk : look k with
  | none => cases hk' : look' k with
    | none => simp only [remember, filled, hk, hk']
    | some v => simp [remember, filled, hk, hk']
  | some v => simp [remember, filled, hk, h k v hk]

theorem mem_remember [DecidableEq V] {cache : Cache K V} {v : V} (h : v ∈ cache k) :
    v ∈ remember look cache k := by
  rw [remember]
  cases look k with
  | none => exact h
  | some w => exact List.mem_insert_of_mem h

theorem remember_stale_iff [DecidableEq V] :
    Stale look' (remember look' (filled look)) k ↔ ∃ v, look k = some v ∧ look' k ≠ some v := by
  have hmem (v : V) : v ∈ remember look' (filled look) k ↔ look' k = some v ∨ look k = some v := by
    rw [remember, filled]
    cases look' k with
    | none => simp
    | some w => simp [eq_comm]
  constructor
  · rintro ⟨v, hv, hne⟩
    exact ⟨v, ((hmem v).mp hv).resolve_left hne, hne⟩
  · rintro ⟨v, hv, hne⟩
    exact ⟨v, (hmem v).mpr (Or.inr hv), hne⟩

end LookupCache
