import Mathlib.Data.Nat.Notation
import Mathlib.Tactic.Common

namespace Runs

variable {σ α : Type}

inductive Run (step : σ → α → σ → Prop) : σ → List α → σ → Prop where
  | nil (s : σ) : Run step s [] s
  | cons {s t u : σ} {e : α} {es : List α} : step s e t → Run step t es u → Run step s (e :: es) u

variable {step step' : σ → α → σ → Prop} {s t u : σ} {e : α} {es es' : List α}

theorem Run.invariant_on (inv : σ → Prop) (allowed : α → Prop)
    (hstep : ∀ s e t, inv s → allowed e → step s e t → inv t) (hes : ∀ e ∈ es, allowed e)
    (hs : inv s) (h : Run step s es t) : inv t := by
  induction h with
  | nil => exact hs
  | cons hse _ ih =>
    exact ih (fun e he => hes e (List.mem_cons_of_mem _ he)) (hstep _ _ _ hs (hes _ List.mem_cons_self) hse)

theorem Run.invariant (inv : σ → Prop) (hstep : ∀ s e t, inv s → step s e t → inv t) (hs : inv s)
    (h : Run step s es t) : inv t :=
  h.invariant_on inv (fun _ => True) (fun s e t hi _ => hstep s e t hi) (fun _ _ => trivial) hs

theorem Run.snoc (h : Run step s es t) (hstep : step t e u) : Run step s (es ++ [e]) u := by
  induction h with
  | nil => exact .cons hstep (.nil _)
  | cons hse _ ih => exact .cons hse (ih hstep)

theorem Run.history (inv : List α → σ → Prop) (hstep : ∀ es s e t, inv es s → step s e t →
    inv (es ++ [e]) t)
    {before : List α} (hs : inv before s) (h : Run step s es t) : inv (before ++ es) t := by
  induction h generalizing before with
  | nil =>
    rw [List.append_nil]
    exact hs
  | @cons s t u e es hse _ ih =>
    rw [← List.singleton_append, ← List.append_assoc]
    exact ih (hstep _ _ _ _ hs hse)

theorem Run.append (h : Run step s es t) (h' : Run step t es' u) : Run step s (es ++ es') u := by
  induction h with
  | nil => exact h'
  | cons hse _ ih => exact .cons hse (ih h')

theorem run_append : Run step s (es ++ es') u ↔ ∃ t, Run step s es t ∧ Run step t es' u := by
  constructor
  · intro h
    induction es generalizing s with
    | nil => exact ⟨s, .nil s, h⟩
    | cons e es ih =>
      cases h with
      | cons hse hrest =>
        obtain ⟨t, ht, ht'⟩ := ih hrest
        exact ⟨t, .cons hse ht, ht'⟩
  · rintro ⟨t, h, h'⟩
    exact h.append h'

theorem run_cons : Run step s (e :: es) u ↔ ∃ t, step s e t ∧ Run step t es u := by
  constructor
  · rintro (_ | ⟨hse, hrest⟩)
    exact ⟨_, hse, hrest⟩
  · rintro ⟨t, hse, hrest⟩
    exact .cons hse hrest

theorem Run.simulates {τ β : Type} {next : τ → β → τ → Prop} (R : σ → τ → Prop) (f : α → β)
    (hstep : ∀ s e t s', R s s' → step s e t → ∃ t', next s' (f e) t' ∧ R t t') {s' : τ} (hR : R s s')
    (h : Run step s es t) : ∃ t', Run next s' (es.map f) t' ∧ R t t' := by
  induction h generalizing s' with
  | nil => exact ⟨s', .nil s', hR⟩
  | cons hse _ ih =>
    obtain ⟨u', hu, hRu⟩ := hstep _ _ _ _ hR hse
    obtain ⟨t', ht, hRt⟩ := ih hRu
    exact ⟨t', .cons hu ht, hRt⟩

/-- A forward simulation in which some events leave the other system where it is. -/
theorem Run.stutters {τ β : Type} {next : τ → β → τ → Prop} (R : σ → τ → Prop) (f : α → Option β)
    (hstep : ∀ s e t s', R s s' → step s e t → ∃ t', Run next s' (f e).toList t' ∧ R t t') {s' : τ}
    (hR : R s s') (h : Run step s es t) : ∃ t', Run next s' (es.filterMap f) t' ∧ R t t' := by
  induction h generalizing s' with
  | nil => exact ⟨s', .nil s', hR⟩
  | @cons s u t e es hse _ ih =>
    obtain ⟨u', hu, hRu⟩ := hstep _ _ _ _ hR hse
    obtain ⟨t', ht, hRt⟩ := ih hRu
    have hevents : (e :: es).filterMap f = (f e).toList ++ es.filterMap f := by
      rw [List.filterMap_cons]
      cases f e <;> rfl
    rw [hevents]
    exact ⟨t', hu.append ht, hRt⟩

theorem Run.mono (hstep : ∀ s e t, step s e t → step' s e t) (h : Run step s es t) : Run step' s es t := by
  induction h with
  | nil => exact .nil _
  | cons hse _ ih => exact .cons (hstep _ _ _ hse) ih

theorem Run.balance (inv : σ → Prop) (hinv : ∀ s e t, inv s → step s e t → inv t)
    (up down : α → Bool) (f : σ → ℕ)
    (hstep : ∀ s e t, inv s → step s e t → (up e).toNat + f s = (down e).toNat + f t) (hs : inv s)
    (h : Run step s es t) : es.countP up + f s = es.countP down + f t := by
  have hone (p : α → Bool) (e : α) (es : List α) : (e :: es).countP p = (p e).toNat + es.countP p := by
    rw [List.countP_cons, Nat.add_comm]
    cases p e <;> rfl
  induction h with
  | nil => rw [List.countP_nil, List.countP_nil]
  | cons hse _ ih =>
    have hhead := hstep _ _ _ hs hse
    have htail := ih (hinv _ _ _ hs hse)
    rw [hone, hone]
    omega

theorem Run.variant (inv : σ → Prop) (hinv : ∀ s e t, inv s → step s e t → inv t)
    (allowed : α → Prop) (f : σ → ℕ)
    (hstep : ∀ s e t, inv s → allowed e → step s e t → f s = f t + 1) (hes : ∀ e ∈ es, allowed e)
    (hs : inv s) (h : Run step s es t) : f s = es.length + f t := by
  induction h with
  | nil => exact (Nat.zero_add _).symm
  | cons hse _ ih =>
    have hhead := hstep _ _ _ hs (hes _ List.mem_cons_self) hse
    have htail := ih (fun e he => hes e (List.mem_cons_of_mem _ he)) (hinv _ _ _ hs hse)
    rw [List.length_cons]
    omega

/-- The progress rule: as long as the rank is not 0, some allowed step makes it smaller. -/
theorem reaches (inv : σ → Prop) (allowed : α → Prop) (rank : σ → ℕ)
    (hstep : ∀ s, inv s → rank s ≠ 0 → ∃ e t, allowed e ∧ step s e t ∧ inv t ∧ rank t < rank s)
    (hs : inv s) :
    ∃ es t, Run step s es t ∧ (∀ e ∈ es, allowed e) ∧ inv t ∧ rank t = 0 := by
  induction hn : rank s using Nat.strongRecOn generalizing s with
  | ind n ih =>
    by_cases hzero : rank s = 0
    · exact ⟨[], s, .nil s, fun _ he => absurd he List.not_mem_nil, hs, hzero⟩
    · obtain ⟨e, u, he, hstep, hu, hless⟩ := hstep s hs hzero
      obtain ⟨es, t, hrun, hes, ht, hdone⟩ := ih (rank u) (hn ▸ hless) hu rfl
      refine ⟨e :: es, t, .cons hstep hrun, fun e' he' => ?_, ht, hdone⟩
      rcases List.mem_cons.mp he' with rfl | he'
      · exact he
      · exact hes e' he'

end Runs
