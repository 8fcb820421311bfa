import Mathlib.Tactic.Common

namespace Calls

variable {χ ρ : Type}

inductive Prog (χ ρ : Type) where
  | ret (r : ρ)
  | call (c : χ) (next : ρ → Prog χ ρ)

def Prog.trace (answer : χ → ρ) : Prog χ ρ → List χ × ρ
  | .ret r => ([], r)
  | .call c next => (c :: ((next (answer c)).trace answer).1, ((next (answer c)).trace answer).2)

def tail (present : Prop) [Decidable present] (c : χ) (r : ρ) : Prog χ ρ :=
  if present then .call c .ret else .ret r

variable {present present' : Prop} [Decidable present] [Decidable present'] {c c' : χ} {r : ρ}
  {answer : χ → ρ}

theorem trace_tail (answer : χ → ρ) (c : χ) (r : ρ) :
    (tail present c r).trace answer = if present then ([c], answer c) else ([], r) := by
  rw [tail]
  split_ifs <;> rfl

theorem same_trace_iff [Nonempty ρ] :
    (∀ answer : χ → ρ, (tail present c r).trace answer = (tail present' c' r).trace answer) ↔
      (present ↔ present') ∧ (present → c = c') := by
  constructor
  · intro h
    have h' := h fun _ => Classical.arbitrary ρ
    rw [trace_tail, trace_tail] at h'
    split_ifs at h' with hp hp' hp'
    · exact ⟨iff_of_true hp hp', fun _ => (List.cons.inj (Prod.mk.inj h').1).1⟩
    · exact absurd (Prod.mk.inj h').1 (List.cons_ne_nil _ _)
    · exact absurd (Prod.mk.inj h').1.symm (List.cons_ne_nil _ _)
    · exact ⟨iff_of_false hp hp', fun h => absurd h hp⟩
  · rintro ⟨hiff, heq⟩ answer
    rw [trace_tail, trace_tail]
    by_cases hp : present
    · rw [if_pos hp, if_pos (hiff.mp hp), heq hp]
    · rw [if_neg hp, if_neg (fun h => hp (hiff.mpr h))]

end Calls
