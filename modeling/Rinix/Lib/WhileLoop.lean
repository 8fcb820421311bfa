import Mathlib.Data.Nat.Notation
import Mathlib.Logic.Relation

namespace WhileLoop

variable {σ ρ : Type}

inductive Turn (σ ρ : Type) where
  | again (s : σ)
  | exit (r : ρ)

def run (body : σ → Turn σ ρ) : ℕ → σ → Option ρ
  | 0, _ => none
  | fuel + 1, s =>
    match body s with
    | .again t => run body fuel t
    | .exit r => some r

def Exits (body : σ → Turn σ ρ) (s : σ) (r : ρ) : Prop := ∃ fuel, run body fuel s = some r

def Diverges (body : σ → Turn σ ρ) (s : σ) : Prop := ∀ fuel, run body fuel s = none

def Visits (body : σ → Turn σ ρ) : σ → σ → Prop :=
  Relation.ReflTransGen fun s t => body s = .again t

variable {body : σ → Turn σ ρ} {s t : σ} {r r' : ρ}

theorem exits_iff :
    Exits body s r ↔ body s = .exit r ∨ ∃ t, body s = .again t ∧ Exits body t r := by
  constructor
  · rintro ⟨fuel, h⟩
    cases fuel with
    | zero => simp [run] at h
    | succ fuel =>
      cases hb : body s with
      | exit q => simp only [run, hb, Option.some.injEq] at h; exact Or.inl (by rw [h])
      | again t => simp only [run, hb] at h; exact Or.inr ⟨t, rfl, fuel, h⟩
  · rintro (h | ⟨t, h, fuel, ht⟩)
    · exact ⟨1, by simp [run, h]⟩
    · exact ⟨fuel + 1, by simp [run, h, ht]⟩

theorem Exits.of_exit (h : body s = .exit r) : Exits body s r := exits_iff.mpr (Or.inl h)

theorem exits_again (h : body s = .again t) : Exits body s r ↔ Exits body t r := by
  rw [exits_iff, h]
  constructor
  · rintro (h' | ⟨u, hu, he⟩)
    · cases h'
    · cases hu; exact he
  · intro he; exact Or.inr ⟨t, rfl, he⟩

theorem run_some_unique {fuel fuel' : ℕ} (h : run body fuel s = some r)
    (h' : run body fuel' s = some r') : r = r' := by
  induction fuel generalizing s fuel' with
  | zero => simp [run] at h
  | succ fuel ih =>
    cases fuel' with
    | zero => simp [run] at h'
    | succ fuel' =>
      cases hb : body s with
      | exit q => simp only [run, hb, Option.some.injEq] at h h'; rw [← h, h']
      | again t => simp only [run, hb] at h h'; exact ih h h'

theorem Exits.unique (h : Exits body s r) (h' : Exits body s r') : r = r' := by
  obtain ⟨_, h⟩ := h
  obtain ⟨_, h'⟩ := h'
  exact run_some_unique h h'

theorem diverges_iff : Diverges body s ↔ ¬∃ r, Exits body s r := by
  constructor
  · rintro h ⟨r, fuel, hr⟩
    rw [h fuel] at hr
    cases hr
  · intro h fuel
    cases hr : run body fuel s with
    | none => rfl
    | some r => exact absurd ⟨r, fuel, hr⟩ h

theorem Visits.exits_iff (h : Visits body s t) : Exits body s r ↔ Exits body t r := by
  induction h with
  | refl => exact Iff.rfl
  | tail _ hstep ih => exact ih.trans (exits_again hstep)

theorem Visits.of_exit (hb : body s = .exit r) (h : Visits body s t) : t = s := by
  rcases h.cases_head with heq | ⟨u, hu, -⟩
  · exact heq.symm
  · rw [hb] at hu; cases hu

def Turn.Meets (inv : σ → Prop) (out : ρ → Prop) : Turn σ ρ → Prop
  | .again t => inv t
  | .exit r => out r

variable {inv inv' : σ → Prop} {out out' : ρ → Prop}

theorem Turn.Meets.mono {q : Turn σ ρ} (h : q.Meets inv out) (hi : ∀ s, inv s → inv' s)
    (ho : ∀ r, out r → out' r) : q.Meets inv' out' := by
  cases q with
  | again s => exact hi s h
  | exit r => exact ho r h

theorem Turn.Meets.and {q : Turn σ ρ} (h : q.Meets inv out) (h' : q.Meets inv' out') :
    q.Meets (fun s => inv s ∧ inv' s) (fun r => out r ∧ out' r) := by
  cases q with
  | again s => exact ⟨h, h'⟩
  | exit r => exact ⟨h, h'⟩

theorem Exits.result (hstep : ∀ s, inv s → (body s).Meets inv out) (hs : inv s)
    (h : Exits body s r) : out r := by
  obtain ⟨fuel, h⟩ := h
  induction fuel generalizing s with
  | zero => simp [run] at h
  | succ fuel ih =>
    have ht := hstep s hs
    cases hb : body s with
    | exit q =>
      simp only [run, hb, Option.some.injEq] at h
      rw [hb, h] at ht
      exact ht
    | again t =>
      simp only [run, hb] at h
      rw [hb] at ht
      exact ih ht h

theorem Visits.invariant (inv : σ → Prop) (hstep : ∀ s, inv s → (body s).Meets inv out) (hs : inv s)
    (h : Visits body s t) : inv t := by
  induction h with
  | refl => exact hs
  | tail _ hb ih =>
    have ht := hstep _ ih
    rw [hb] at ht
    exact ht

theorem diverges_of_invariant (inv : σ → Prop) (hstep : ∀ s, inv s → ∃ t, body s = .again t ∧ inv t)
    (hs : inv s) : Diverges body s := by
  intro fuel
  induction fuel generalizing s with
  | zero => rfl
  | succ fuel ih =>
    obtain ⟨t, hb, ht⟩ := hstep s hs
    simp only [run, hb]
    exact ih ht

def Turn.map {τ : Type} (f : ρ → τ) : Turn σ ρ → Turn σ τ
  | .again t => .again t
  | .exit r => .exit (f r)

theorem run_unfaulted {faulting : σ → Turn σ (Option ρ)}
    (hturn : ∀ s, faulting s = .exit none ∨ faulting s = (body s).map some) {fuel : ℕ}
    (h : run faulting fuel s = some (some r)) : run body fuel s = some r := by
  induction fuel generalizing s with
  | zero => cases h
  | succ fuel ih =>
    rcases hturn s with hfault | hsame
    · simp only [run, hfault, Option.some.injEq, reduceCtorEq] at h
    · cases hb : body s with
      | exit q =>
        simp only [run, hsame, hb, Turn.map, Option.some.injEq] at h
        simp only [run, hb, h]
      | again t =>
        simp only [run, hsame, hb, Turn.map] at h
        simp only [run, hb]
        exact ih h

theorem run_faulting {faulting : σ → Turn σ (Option ρ)}
    (hturn : ∀ t, Visits body s t → faulting t = (body t).map some) {fuel : ℕ}
    (h : run body fuel s = some r) : run faulting fuel s = some (some r) := by
  induction fuel generalizing s with
  | zero => cases h
  | succ fuel ih =>
    have hsame := hturn s .refl
    cases hb : body s with
    | exit q =>
      simp only [run, hb, Option.some.injEq] at h
      simp only [run, hsame, hb, Turn.map, h]
    | again t =>
      simp only [run, hb] at h
      simp only [run, hsame, hb, Turn.map]
      exact ih (fun u hu => hturn u (.head hb hu)) h

section Counted

variable {w : ℕ} {last step i : BitVec w} {f : σ → BitVec w → σ}

def forTurn (last step : BitVec w) (f : σ → BitVec w → σ) : BitVec w × σ → Turn (BitVec w × σ) σ
  | (i, s) => if i ≤ last then .again (i + step, f s i) else .exit s

theorem run_forTurn_succ (fuel : ℕ) (i : BitVec w) (s : σ) :
    run (forTurn last step f) (fuel + 1) (i, s) =
      if i ≤ last then run (forTurn last step f) fuel (i + step, f s i) else some s := by
  by_cases hi : i ≤ last
  · simp only [run, forTurn, if_pos hi]
  · simp only [run, forTurn, if_neg hi]

theorem for_result (inv : BitVec w → σ → Prop) (hbody : ∀ i s, i ≤ last → inv i s → inv (i + step) (f s i))
    (hs : inv i s) {fuel : ℕ} (h : run (forTurn last step f) fuel (i, s) = some t) :
    ∃ j, ¬j ≤ last ∧ inv j t := by
  induction fuel generalizing i s with
  | zero => cases h
  | succ fuel ih =>
    rw [run_forTurn_succ] at h
    by_cases hi : i ≤ last
    · rw [if_pos hi] at h
      exact ih (hbody i s hi hs) h
    · rw [if_neg hi, Option.some.injEq] at h
      exact ⟨i, hi, h ▸ hs⟩

theorem for_bound {fuel : ℕ} (h : run (forTurn last step f) fuel (i, s) = some t) :
    last < BitVec.allOnes w := by
  obtain ⟨j, hj, -⟩ := for_result (fun _ _ => True) (fun _ _ _ _ => trivial) trivial h
  have hj' : last.toNat < j.toNat := Nat.lt_of_not_le hj
  have hlt := j.isLt
  rw [BitVec.lt_def, BitVec.toNat_allOnes]
  omega

theorem for_ends_on (inv : BitVec w → Prop) (hstep : 0 < step.toNat)
    (hnext : ∀ i, inv i → i ≤ last → inv (i + step) ∧ (i + step).toNat = i.toNat + step.toNat)
    (hi : inv i) {fuel : ℕ} (hfuel : last.toNat + 2 ≤ i.toNat + fuel) (hfuel' : 0 < fuel) :
    ∃ t, run (forTurn last step f) fuel (i, s) = some t := by
  induction fuel generalizing i s with
  | zero => omega
  | succ fuel ih =>
    rw [run_forTurn_succ]
    by_cases hle : i ≤ last
    · have hle' : i.toNat ≤ last.toNat := hle
      obtain ⟨hinv, hsum⟩ := hnext i hi hle
      rw [if_pos hle]
      exact ih hinv (by omega) (by omega)
    · rw [if_neg hle]
      exact ⟨s, rfl⟩

theorem for_ends (hstep : 0 < step.toNat) (hlast : (last + step).toNat = last.toNat + step.toNat) {fuel : ℕ}
    (hfuel : last.toNat + 2 ≤ i.toNat + fuel) (hfuel' : 0 < fuel) :
    ∃ t, run (forTurn last step f) fuel (i, s) = some t := by
  refine for_ends_on (fun _ => True) hstep (fun i _ hle => ⟨trivial, ?_⟩) trivial hfuel hfuel'
  have hle' : i.toNat ≤ last.toNat := hle
  have hbound := (last + step).isLt
  exact BitVec.toNat_add_of_lt (by omega)

theorem forTurn_again (s : σ) (hi : i ≤ last) : forTurn last step f (i, s) =
    .again (i + step, f s i) := if_pos hi

theorem for_visits (hlast : (last + 1).toNat = last.toNat + 1) (i j : BitVec w) (s : σ) :
    (∃ t, Visits (forTurn last 1 f) (i, s) (j, t) ∧ j ≤ last) ↔ i ≤ j ∧ j ≤ last := by
  have hnext (k : BitVec w) (hk : k ≤ last) : (k + 1).toNat = k.toNat + 1 := by
    have hle : k.toNat ≤ last.toNat := hk
    have hlt := (last + 1).isLt
    have hone : (1 : BitVec w).toNat ≤ 1 := Nat.mod_le 1 _
    rw [BitVec.toNat_add] at hlast
    have hsum := Nat.mod_le (last.toNat + (1 : BitVec w).toNat) (2 ^ w)
    rw [BitVec.toNat_add_of_lt (by omega)]
    omega
  constructor
  · rintro ⟨t, hvisits, hj⟩
    have hmeets (u : BitVec w × σ) (hu : i.toNat ≤ u.1.toNat) :
        (forTurn last 1 f u).Meets (fun u => i.toNat ≤ u.1.toNat) fun _ => True := by
      obtain ⟨k, s⟩ := u
      by_cases hk : k ≤ last
      · rw [forTurn_again s hk]
        simp only [Turn.Meets, hnext k hk]
        exact Nat.le_succ_of_le hu
      · rw [forTurn, if_neg hk]
        trivial
    exact ⟨hvisits.invariant (fun u => i.toNat ≤ u.1.toNat) hmeets (Nat.le_refl _), hj⟩
  · rintro ⟨hij, hj⟩
    have hreach (m : ℕ) (hm : i.toNat ≤ m) (hmj : m ≤ j.toNat) :
        ∃ t, Visits (forTurn last 1 f) (i, s) (BitVec.ofNat w m, t) := by
      induction hm with
      | refl => exact ⟨s, by rw [BitVec.ofNat_toNat, BitVec.setWidth_eq]; exact .refl⟩
      | @step m hm ih =>
        obtain ⟨t, ht⟩ := ih (by omega)
        have hjlast : j.toNat ≤ last.toNat := hj
        have hmlast : BitVec.ofNat w m ≤ last := by
          rw [BitVec.le_def, BitVec.toNat_ofNat]
          exact Nat.le_trans (Nat.mod_le _ _) (by omega)
        rw [Nat.succ_eq_add_one, ← BitVec.ofNat_add_ofNat]
        exact ⟨_, ht.tail (forTurn_again t hmlast)⟩
    obtain ⟨t, ht⟩ := hreach j.toNat hij (Nat.le_refl _)
    rw [BitVec.ofNat_toNat, BitVec.setWidth_eq] at ht
    exact ⟨t, ht, hj⟩

end Counted

section Ranged

variable {n : ℕ} {f : σ → ℕ → σ}

def upTo (n : ℕ) (f : σ → ℕ → σ) (s : σ) : σ := (List.range n).foldl f s

theorem upTo_succ (n : ℕ) (f : σ → ℕ → σ) (s : σ) : upTo (n + 1) f s = f (upTo n f s) n := by
  simp only [upTo, List.range_succ, List.foldl_append, List.foldl_cons, List.foldl_nil]

theorem upTo_idempotent {g : σ → σ} (h : ∀ s, g (g s) = g s) (n : ℕ) (s : σ) :
    upTo (n + 1) (fun s _ => g s) s = g s := by
  induction n with
  | zero => rfl
  | succ n ih => rw [upTo_succ, ih, h]

theorem upTo_invariant (inv : ℕ → σ → Prop) (hstep : ∀ i s, i < n → inv i s → inv (i + 1) (f s i))
    (hs : inv 0 s) :
    inv n (upTo n f s) := by
  induction n with
  | zero => exact hs
  | succ n ih =>
    rw [upTo_succ]
    exact hstep n _ (Nat.lt_succ_self n) (ih fun i s hi => hstep i s (Nat.lt_succ_of_lt hi))

end Ranged

section Fuelled

variable {τ : Type} {f f' : ℕ → Option ρ} {g : ρ → ℕ → Option τ} {x : τ}

def Fuelled (f : ℕ → Option ρ) : Prop := ∀ fuel fuel' r, fuel ≤ fuel' → f fuel = some r → f fuel' = some r

def Returns (f : ℕ → Option ρ) (r : ρ) : Prop := ∃ fuel, f fuel = some r

theorem run_fuelled (body : σ → Turn σ ρ) (s : σ) : Fuelled fun fuel => run body fuel s := by
  intro fuel fuel' r hle h
  induction fuel generalizing s fuel' with
  | zero => cases h
  | succ fuel ih =>
    cases fuel' with
    | zero => exact absurd hle (by omega)
    | succ fuel' =>
      cases hb : body s with
      | exit q => simp only [run, hb] at h ⊢; exact h
      | again t => simp only [run, hb] at h ⊢; exact ih t fuel' (Nat.le_of_succ_le_succ hle) h

theorem fuelled_const (o : Option ρ) : Fuelled fun _ => o := fun _ _ _ _ h => h

theorem Fuelled.bind (hf : Fuelled f) (hg : ∀ a, Fuelled (g a)) :
    Fuelled fun n => (f n).bind fun a => g a n := by
  intro fuel fuel' y hle h
  obtain ⟨a, ha, hy⟩ := Option.bind_eq_some_iff.mp h
  exact Option.bind_eq_some_iff.mpr ⟨a, hf fuel fuel' a hle ha, hg a fuel fuel' y hle hy⟩

theorem Fuelled.ite {c : Prop} [Decidable c] (hf : Fuelled f) (hf' : Fuelled f') :
    Fuelled fun n => if c then f n else f' n := by
  by_cases h : c
  · simp only [if_pos h]
    exact hf
  · simp only [if_neg h]
    exact hf'

theorem Fuelled.map (hf : Fuelled f) (h : ρ → τ) : Fuelled fun n => (f n).map h := by
  intro fuel fuel' y hle hy
  obtain ⟨a, ha, rfl⟩ := Option.map_eq_some_iff.mp hy
  exact Option.map_eq_some_iff.mpr ⟨a, hf fuel fuel' a hle ha, rfl⟩

theorem Returns.map (hf : Returns f r) (h : ρ → τ) : Returns (fun n => (f n).map h) (h r) := by
  obtain ⟨fuel, hr⟩ := hf
  exact ⟨fuel, Option.map_eq_some_iff.mpr ⟨r, hr, rfl⟩⟩

theorem Fuelled.unique (hf : Fuelled f) (h : Returns f r) (h' : Returns f r') : r = r' := by
  obtain ⟨n, h⟩ := h
  obtain ⟨n', h'⟩ := h'
  have hmax := hf n (max n n') r (Nat.le_max_left _ _) h
  rw [hf n' (max n n') r' (Nat.le_max_right _ _) h'] at hmax
  exact (Option.some.inj hmax).symm

theorem returns_bind (hf : Fuelled f) (hg : ∀ a, Fuelled (g a)) :
    Returns (fun n => (f n).bind fun a => g a n) x ↔ ∃ a, Returns f a ∧ Returns (g a) x := by
  constructor
  · rintro ⟨n, h⟩
    obtain ⟨a, ha, hx⟩ := Option.bind_eq_some_iff.mp h
    exact ⟨a, ⟨n, ha⟩, n, hx⟩
  · rintro ⟨a, ⟨n, ha⟩, n', hx⟩
    exact ⟨max n n', Option.bind_eq_some_iff.mpr ⟨a, hf n _ a (Nat.le_max_left _ _) ha,
      hg a n' _ x (Nat.le_max_right _ _) hx⟩⟩

theorem returns_const {o : Option ρ} : Returns (fun _ => o) r ↔ o = some r := exists_const ℕ

theorem returns_bind_of (hf : Fuelled f) (hg : ∀ a, Fuelled (g a)) {a : ρ} (ha : Returns f a) :
    Returns (fun n => (f n).bind fun a => g a n) x ↔ Returns (g a) x := by
  rw [returns_bind hf hg]
  constructor
  · rintro ⟨a', ha', hx⟩
    rw [hf.unique ha ha']
    exact hx
  · intro hx
    exact ⟨a, ha, hx⟩

def nested (body : σ → ℕ → Option (Turn σ ρ)) (fuel : ℕ) : ℕ → σ → Option ρ
  | 0, _ => none
  | n + 1, s => (body s fuel).bind fun
    | .again t => nested body fuel n t
    | .exit r => some r

variable {inner : σ → ℕ → Option (Turn σ ρ)}

theorem nested_mono (hinner : ∀ s, Fuelled (inner s)) {fuel fuel' n n' : ℕ} (hfuel : fuel ≤ fuel')
    (hn : n ≤ n') (h : nested inner fuel n s = some r) : nested inner fuel' n' s = some r := by
  induction n generalizing s n' with
  | zero => cases h
  | succ n ih =>
    cases n' with
    | zero => exact absurd hn (by omega)
    | succ n' =>
      obtain ⟨q, hq, hr⟩ := Option.bind_eq_some_iff.mp h
      refine Option.bind_eq_some_iff.mpr ⟨q, hinner s fuel fuel' q hfuel hq, ?_⟩
      cases q with
      | exit r => exact hr
      | again t => exact ih (Nat.le_of_succ_le_succ hn) hr

theorem nested_fuelled (hinner : ∀ s, Fuelled (inner s)) (s : σ) :
    Fuelled fun fuel => nested inner fuel fuel s :=
  fun _ _ _ hle h => nested_mono hinner hle hle h

theorem nested_exit (hinner : ∀ s, Fuelled (inner s)) (h : Returns (inner s) (.exit r)) :
    Returns (fun fuel => nested inner fuel fuel s) r := by
  obtain ⟨n, h⟩ := h
  have h' := hinner s n (n + 1) _ (Nat.le_succ n) h
  exact ⟨n + 1, Option.bind_eq_some_iff.mpr ⟨_, h', rfl⟩⟩

theorem nested_again (hinner : ∀ s, Fuelled (inner s)) (h : Returns (inner s) (.again t))
    (ht : Returns (fun fuel => nested inner fuel fuel t) r) :
    Returns (fun fuel => nested inner fuel fuel s) r := by
  obtain ⟨n, h⟩ := h
  obtain ⟨n', ht⟩ := ht
  have h' := hinner s n (max n n' + 1) _ (by omega) h
  have ht' := nested_mono hinner (show n' ≤ max n n' + 1 by omega) (Nat.le_max_right n n') ht
  exact ⟨max n n' + 1, Option.bind_eq_some_iff.mpr ⟨_, h', ht'⟩⟩

theorem nested_result (hstep : ∀ s fuel q, inv s → inner s fuel = some q → q.Meets inv out) (hs : inv s)
    (h : Returns (fun fuel => nested inner fuel fuel s) r) : out r := by
  obtain ⟨fuel, h⟩ := h
  have hrun (n : ℕ) (s : σ) (hs : inv s) (h : nested inner fuel n s = some r) : out r := by
    induction n generalizing s with
    | zero => cases h
    | succ n ih =>
      obtain ⟨q, hq, hr⟩ := Option.bind_eq_some_iff.mp h
      have ht := hstep s fuel q hs hq
      cases q with
      | exit r' =>
        obtain rfl := Option.some.inj hr
        exact ht
      | again t => exact ih t ht hr
  exact hrun fuel s hs h

end Fuelled

end WhileLoop
