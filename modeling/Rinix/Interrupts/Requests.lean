import Rinix.Interrupts.Service

namespace Rinix.Interrupts

open ByteMemory Pic Descriptors Runs

variable {σ : Type} {k : Kernel σ} {s t : System σ} {e : Event σ} {p : Pair} {r : Regs} {n m : Pair.Line}

def Event.isRaise (n : Pair.Line) : Event σ → Bool
  | .raise m => m = n
  | _ => false

def Event.isAck (n : Pair.Line) : Event σ → Bool
  | .ack m _ => m = n
  | _ => false

-- a spurious interrupt looks like one of line 7
def Event.isSpurious (n : Pair.Line) : Event σ → Bool
  | .spurious _ => n = .spurious
  | _ => false

def Event.isRoutine (n : Pair.Line) : Event σ → Bool
  | .routine v => v = word (32 + n.val)
  | _ => false

/-- The service without the controllers and without the handler's steps: every acknowledge is the
one call of the routine that is in the table then. -/
structure Duties (σ : Type) where
  routines : Word → Option (Regs → σ → σ)
  drivers : σ

def Duties.call (d : Duties σ) (irq : Word) (r : Regs) : Duties σ :=
  match d.routines irq with
  | some handler => { d with drivers := handler r d.drivers }
  | none => d

def Duties.next (d : Duties σ) : Event σ → Duties σ
  | .install irq handler => { d with routines := Function.update d.routines irq (some handler) }
  | .uninstall irq => { d with routines := Function.update d.routines irq none }
  | .ack n r => d.call (word n.val) r
  | .spurious r => d.call (word (Pair.Line.spurious).val) r
  | _ => d

def Kernel.duties (k : Kernel σ) : Duties σ := ⟨k.irqRoutines, k.drivers⟩

def System.duties (s : System σ) : Duties σ :=
  match s.place with
  | .called r => (callRoutine s.kernel r).duties
  | _ => s.kernel.duties

def System.Called (s : System σ) (n : Pair.Line) : Prop :=
  match s.place with
  | .called r => r.intNo = word (32 + n.val)
  | _ => False

instance (s : System σ) (n : Pair.Line) : Decidable (s.Called n) := by
  unfold System.Called
  cases s.place <;> infer_instance

theorem requests_balance (h : Inv s) {es : List (Event σ)} (hrun : Run Step s es t) (n : Pair.Line) :
    es.countP (Event.isRaise n) + (if s.Latched n then 1 else 0) =
      es.countP (Event.isAck n) + if t.Latched n then 1 else 0 := by
  refine hrun.balance Inv (fun _ _ _ => Inv.step) (Event.isRaise n) (Event.isAck n)
    (fun s => if s.Latched n then 1 else 0) (fun s e t hs hstep => ?_) h
  have hlatched := latched_step hs hstep n
  cases hstep with
  | raise k p m hline hnew =>
    by_cases hm : m = n
    · subst hm
      have hbefore : ¬System.Latched ⟨k, p⟩ m := hnew
      rw [if_neg hbefore, if_pos (hlatched.mpr (.inl rfl))]
      simp [Event.isRaise, Event.isAck]
    · have hsame := hlatched.trans (or_iff_right (Ne.symm hm))
      simp only [hsame, Event.isRaise, Event.isAck, hm]
      rfl
  | ack k r m hint hvector hr =>
    by_cases hm : m = n
    · subst hm
      have hbefore : System.Latched ⟨k, .program⟩ m := (hs.ack_line hint hvector).1
      rw [if_pos hbefore, if_neg fun hl => (hlatched.mp hl).1 rfl]
      simp [Event.isRaise, Event.isAck]
    · have hsame := hlatched.trans (and_iff_right (Ne.symm hm))
      simp only [hsame, Event.isRaise, Event.isAck, hm]
      rfl
  | _ => simp only [hlatched, Event.leaves, Event.isRaise, Event.isAck]

theorem word_line_inj : word (32 + n.val) = word (32 + m.val) ↔ n = m := by
  rw [word_inj (by omega) (by omega), Fin.ext_iff]
  omega

theorem word_line_index : word (32 + n.val) - 32 = word n.val := by
  revert n
  decide

theorem Inv.spurious_vector (h : Inv s) (hint : s.kernel.pics.int = none) :
    s.kernel.pics.ack.1.setWidth 32 = word (32 + (7 : Pair.Line).val) := by
  have hm : s.kernel.pics.master.base = 0x20 := congrArg Chip.base h.master
  unfold Pair.ack
  rw [hint]
  show (s.kernel.pics.master.vector 7).setWidth 32 = _
  rw [Chip.vector, hm]
  rfl

theorem routines_balance (h : Inv s) {es : List (Event σ)} (hrun : Run Step s es t) (n : Pair.Line) :
    es.countP (fun e => e.isAck n || e.isSpurious n) + (if s.Called n then 1 else 0) =
      es.countP (Event.isRoutine n) + if t.Called n then 1 else 0 := by
  refine hrun.balance Inv (fun _ _ _ => Inv.step) (fun e => e.isAck n || e.isSpurious n)
    (Event.isRoutine n) (fun s => if s.Called n then 1 else 0) (fun s e t hs hstep => ?_) h
  cases hstep with
  | ack k r m hint hvector hr =>
    have hcalled : System.Called ⟨{ k with pics := k.pics.ack.2 }, .called r⟩ n ↔ m = n := by
      show r.intNo = word (32 + n.val) ↔ m = n
      rw [hr, word_line_inj]
    have hbefore : ¬System.Called ⟨k, .program⟩ n := fun hc => hc
    simp only [hcalled, hbefore, Event.isAck, Event.isSpurious, Event.isRoutine]
    by_cases hm : m = n
    · simp [hm]
    · simp [hm]
  | spurious k r hint hr =>
    have hcalled : System.Called ⟨{ k with pics := k.pics.ack.2 }, .called r⟩ n ↔ n = 7 := by
      show r.intNo = word (32 + n.val) ↔ n = 7
      rw [hr, hs.spurious_vector hint, word_line_inj]
      exact eq_comm
    have hbefore : ¬System.Called ⟨k, .program⟩ n := fun hc => hc
    simp only [hcalled, hbefore, Event.isAck, Event.isSpurious, Event.isRoutine]
    by_cases hn : n = 7
    · simp [hn]
    · simp [hn]
  | routine k r =>
    have hcalled : System.Called ⟨k, .called r⟩ n ↔ r.intNo = word (32 + n.val) := Iff.rfl
    have hafter : ¬System.Called ⟨callRoutine k r, .routineLeft r⟩ n := fun hc => hc
    simp only [hcalled, hafter, Event.isAck, Event.isSpurious, Event.isRoutine]
    by_cases hv : r.intNo = word (32 + n.val)
    · simp [hv]
    · simp [hv]
  | _ => rfl

theorem callRoutine_duties (k : Kernel σ) (r : Regs) :
    (callRoutine k r).duties = k.duties.call (r.intNo - 32) r := by
  rw [callRoutine, Duties.call]
  show _ = match k.irqRoutines (r.intNo - 32) with
    | some handler => _
    | none => _
  cases k.irqRoutines (r.intNo - 32) <;> rfl

theorem duties_step (h : Inv s) (hstep : Step s e t) : t.duties = s.duties.next e := by
  have hcalled (k : Kernel σ) (r : Regs) :
      System.duties ⟨k, .called r⟩ = k.duties.call (r.intNo - 32) r := callRoutine_duties k r
  have hraised (k : Kernel σ) (p : Place) (n : Pair.Line) :
      System.duties ⟨{ k with pics := k.pics.raise n }, p⟩ = System.duties ⟨k, p⟩ := by
    cases p with
    | called r =>
      rw [hcalled, hcalled]
      rfl
    | _ => rfl
  cases hstep with
  | raise k p n hline hnew => exact hraised k p n
  | again k p n hold => exact hraised k p n
  | install k irq handler => rfl
  | uninstall k irq => rfl
  | ack k r n hint hvector hr =>
    rw [hcalled, hr, word_line_index]
    rfl
  | spurious k r hint hr =>
    rw [hcalled, hr, h.spurious_vector hint, word_line_index]
    rfl
  | routine k r => rfl
  | slave k r =>
    obtain ⟨hdrivers, hroutines⟩ := tellSlave_rest k r
    show (⟨_, _⟩ : Duties σ) = ⟨_, _⟩
    rw [hdrivers, hroutines]
  | master k => rfl
  | iret k => rfl

theorem duties_run (h : Inv s) {es : List (Event σ)} (hrun : Run Step s es t) :
    t.duties = es.foldl Duties.next s.duties := by
  have hstart : Inv s ∧ s.duties = ([] : List (Event σ)).foldl Duties.next s.duties := ⟨h, rfl⟩
  have hstep (es : List (Event σ)) (u : System σ) (e : Event σ) (v : System σ)
      (hu : Inv u ∧ u.duties = es.foldl Duties.next s.duties) (hstep : Step u e v) :
      Inv v ∧ v.duties = (es ++ [e]).foldl Duties.next s.duties := by
    refine ⟨hu.1.step hstep, ?_⟩
    rw [List.foldl_append, ← hu.2]
    exact duties_step hu.1 hstep
  exact (hrun.history (fun es t => Inv t ∧ t.duties = es.foldl Duties.next s.duties) hstep hstart).2

theorem again_merged (h : Inv s) {es rest : List (Event σ)} {n : Pair.Line}
    (hrun : Run Step s (es ++ .again n :: rest) t) :
    es.countP (Event.isRaise n) + (if s.Latched n then 1 else 0) = es.countP (Event.isAck n) + 1 := by
  obtain ⟨u, hfirst, hrest⟩ := run_append.mp hrun
  obtain ⟨v, hagain, -⟩ := run_cons.mp hrest
  have hbalance := requests_balance h hfirst n
  have hlatched : u.Latched n := by
    cases hagain with
    | again k p n hold => exact hold
  rwa [if_pos hlatched] at hbalance

def Event.isWork : Event σ → Prop
  | .ack _ _ | .routine _ | .work => True
  | _ => False

def Place.rest : Place → ℕ
  | .program => 0
  | .masterTold => 1
  | .slaveTold => 2
  | .routineLeft _ => 3
  | .called _ => 4

def System.requests (s : System σ) : Finset Pair.Line := Finset.univ.filter fun n => s.Latched n

def System.todo (s : System σ) : ℕ := 5 * s.requests.card + s.place.rest

theorem mem_requests : n ∈ s.requests ↔ s.Latched n := by
  rw [System.requests, Finset.mem_filter]
  exact and_iff_right (Finset.mem_univ n)

theorem requests_congr (h : ∀ n, t.Latched n ↔ s.Latched n) : t.requests = s.requests := by
  ext n
  rw [mem_requests, mem_requests, h n]

theorem todo_step (h : Inv s) (hwork : e.isWork) (hstep : Step s e t) : s.todo = t.todo + 1 := by
  have hlatched := latched_step h hstep
  rw [System.todo, System.todo]
  cases hstep with
  | ack k r n hint hvector hr =>
    have hn : System.Latched ⟨k, .program⟩ n := (h.ack_line hint hvector).1
    have herase : System.requests ⟨{ k with pics := k.pics.ack.2 }, .called r⟩ =
        (System.requests ⟨k, .program⟩).erase n := by
      ext m
      rw [Finset.mem_erase, mem_requests, mem_requests, hlatched m, Event.leaves]
    have hcard := Finset.card_erase_add_one (mem_requests.mpr hn)
    rw [herase]
    simp only [Place.rest]
    omega
  | routine k r =>
    rw [requests_congr hlatched]
    rfl
  | slave k r =>
    rw [requests_congr hlatched]
    rfl
  | master k =>
    rw [requests_congr hlatched]
    rfl
  | iret k => rfl
  | raise => exact hwork.elim
  | again => exact hwork.elim
  | install => exact hwork.elim
  | uninstall => exact hwork.elim
  | spurious => exact hwork.elim

def frameOf (v : Word) : Regs := ⟨0, 0, 0, 0, 0, 0, 0, 0, 0, 0, 0, 0, v, 0, 0, 0, 0, 0, 0⟩

theorem todo_zero : s.todo = 0 ↔ s.place = .program ∧ ∀ n, ¬s.Latched n := by
  have hrequests : s.requests.card = 0 ↔ ∀ n, ¬s.Latched n := by
    rw [Finset.card_eq_zero, Finset.eq_empty_iff_forall_notMem]
    exact forall_congr' fun n => not_congr mem_requests
  have hrest : s.place.rest = 0 ↔ s.place = .program := by
    cases s.place <;> simp [Place.rest]
  rw [System.todo, ← hrequests, ← hrest]
  omega

theorem work_possible (h : Inv s) (htodo : s.todo ≠ 0) : ∃ e t, e.isWork ∧ Step s e t := by
  obtain ⟨k, place⟩ := s
  cases place with
  | program =>
    have hnot : ¬∀ n, ¬System.Latched ⟨k, .program⟩ n := fun hn => htodo (todo_zero.mpr ⟨rfl, hn⟩)
    push Not at hnot
    obtain ⟨n, hn⟩ := hnot
    obtain ⟨i, hi⟩ := (h.open rfl).int_some hn
    have hint : k.pics.int.isSome := Option.isSome_iff_exists.mpr ⟨i, hi⟩
    obtain ⟨m, -, -, hack⟩ := h.ack_eq hint
    have hvector : k.pics.ack.1 = irqNumber m := by rw [hack]
    exact ⟨.ack m _, _, trivial, .ack k (frameOf (word (32 + m.val))) m hint hvector rfl⟩
  | called r => exact ⟨.routine r.intNo, _, trivial, .routine k r⟩
  | routineLeft r => exact ⟨.work, _, trivial, .slave k r⟩
  | slaveTold => exact ⟨.work, _, trivial, .master k⟩
  | masterTold => exact ⟨.work, _, trivial, .iret k⟩

theorem work_bounded (h : Inv s) {es : List (Event σ)} (hes : ∀ e ∈ es, e.isWork)
    (hrun : Run Step s es t) : s.todo = es.length + t.todo :=
  hrun.variant Inv (fun _ _ _ => Inv.step) Event.isWork System.todo (fun _ _ _ => todo_step) hes h

theorem work_finishes (h : Inv s) : ∃ es t, Run Step s es t ∧ (∀ e ∈ es, e.isWork) ∧ t.todo = 0 := by
  obtain ⟨es, t, hrun, hes, -, hdone⟩ := reaches (Inv (σ := σ)) Event.isWork System.todo (fun s hs htodo => by
    obtain ⟨e, u, hwork, hstep⟩ := work_possible hs htodo
    have hless := todo_step hs hwork hstep
    exact ⟨e, u, hwork, hstep, hs.step hstep, by omega⟩) h
  exact ⟨es, t, hrun, hes, hdone⟩

theorem handler_run (k : Kernel σ) (r : Regs) :
    Run Step ⟨k, .called r⟩ [.routine r.intNo, .work, .work, .work] ⟨irqHandler k r, .program⟩ :=
  .cons (.routine k r) (.cons (.slave _ r) (.cons (.master _) (.cons (.iret _) (.nil _))))

def started (routines : Word → Option (Regs → σ → σ)) (drivers : σ) (p : Pair)
    (es : List (Pair.Line ⊕ PortWrite)) : System σ := ⟨⟨routines, drivers, es.foldl bus p⟩, .program⟩

section

variable {before : List (Pair.Line ⊕ PortWrite)} {routines : Word → Option (Regs → σ → σ)} {drivers : σ}
  {es : List (Event σ)}

theorem Inv.reached (hwrites : before.filterMap Sum.getRight? = irqRemap)
    (hlines : ∀ n, .inl n ∈ before → n ≠ 2)
    (hrun : Run Step (started routines drivers p before) es t) : Inv t :=
  hrun.invariant Inv (fun _ _ _ => Inv.step) (Inv.start (remap_idle p hwrites hlines) routines drivers)

/-- Whatever the controllers did before and in whatever order things happen: a request of a line is
acknowledged once or still waits, one raised again is merged with the one that waits, and the
drivers are where one call of the routine in the table for each acknowledge brings them. -/
theorem requests_served_once (p : Pair) (routines : Word → Option (Regs → σ → σ)) (drivers : σ)
    (hwrites : before.filterMap Sum.getRight? = irqRemap) (hlines : ∀ n, .inl n ∈ before → n ≠ 2)
    (hrun : Run Step (started routines drivers p before) es t) :
    t.duties = es.foldl Duties.next ⟨routines, drivers⟩ ∧
      ∀ n : Pair.Line,
        es.countP (Event.isRaise n) + (if (started routines drivers p before).Latched n then 1 else 0) =
            es.countP (Event.isAck n) + (if t.Latched n then 1 else 0) ∧
        (∀ first rest, es = first ++ .again n :: rest →
          first.countP (Event.isRaise n) + (if (started routines drivers p before).Latched n then 1 else 0) =
            first.countP (Event.isAck n) + 1) ∧
        es.countP (fun e => e.isAck n || e.isSpurious n) =
          es.countP (Event.isRoutine n) + if t.Called n then 1 else 0 := by
  have hstart : Inv (started routines drivers p before) :=
    Inv.start (remap_idle p hwrites hlines) routines drivers
  refine ⟨duties_run hstart hrun, fun n => ⟨requests_balance hstart hrun n, ?_, ?_⟩⟩
  · rintro first rest rfl
    exact again_merged hstart hrun
  · have hnone : ¬(started routines drivers p before).Called n := fun hcalled => hcalled
    have hcalls := routines_balance hstart hrun n
    rwa [if_neg hnone] at hcalls

def keyWhileRemapped : List (Pair.Line ⊕ PortWrite) :=
  (irqRemap.take 6).map .inr ++ .inl .keyboard :: (irqRemap.drop 6).map .inr

theorem key_lines : ∀ n, .inl n ∈ keyWhileRemapped → n ≠ 2 := by
  intro n hn
  have hone : n = 1 := by simpa [keyWhileRemapped, irqRemap] using hn
  subst hone
  decide

def anyChip : Chip := ⟨Finset.univ, Finset.univ, Finset.univ, 0x08, 0, true, false, true, .icw3⟩

def countTick (_r : Regs) (ticks : ℕ) : ℕ := ticks + 1

def tickEvents : List (Event ℕ) :=
  [.install 0 countTick, .raise .timer, .ack .timer (frameOf 32), .routine 32, .raise .timer, .work,
    .again .timer, .work, .work, .ack .timer (frameOf 32)]

def tickStart : System ℕ := started (fun _ => none) 0 ⟨anyChip, anyChip⟩ keyWhileRemapped

theorem tick_run : ∃ t, Run Step tickStart tickEvents t :=
  ⟨_, .cons (.install _ 0 countTick) <| .cons (.raise _ _ .timer (by decide) (by decide)) <|
    .cons (.ack _ (frameOf 32) .timer (by decide) (by decide) rfl) <| .cons (.routine _ _) <|
    .cons (.raise _ _ .timer (by decide) (by decide)) <| .cons (.slave _ _) <|
    .cons (.again _ _ .timer (by decide)) <| .cons (.master _) <| .cons (.iret _) <|
    .cons (.ack _ (frameOf 32) .timer (by decide) (by decide) rfl) <| .nil _⟩

theorem ticks_served_once : ∃ t, Run Step tickStart tickEvents t ∧ t.duties.drivers = 2 ∧
    tickEvents.countP (Event.isRaise 0) + (if tickStart.Latched 0 then 1 else 0) =
        tickEvents.countP (Event.isAck 0) + (if t.Latched 0 then 1 else 0) ∧
      tickEvents.countP (fun e => e.isAck 0 || e.isSpurious 0) =
        tickEvents.countP (Event.isRoutine 0) + if t.Called 0 then 1 else 0 := by
  obtain ⟨t, hrun⟩ := tick_run
  obtain ⟨hduties, hcounts⟩ := requests_served_once _ _ _ rfl key_lines hrun
  obtain ⟨hrequests, -, hcalls⟩ := hcounts 0
  refine ⟨t, hrun, ?_, hrequests, hcalls⟩
  rw [hduties]
  rfl

/-- Whenever the devices are quiet, the kernel comes to an end with the requests after exactly
`todo` steps, and it takes them in the order of the lines. -/
theorem requests_drained (p : Pair) (routines : Word → Option (Regs → σ → σ)) (drivers : σ)
    (hwrites : before.filterMap Sum.getRight? = irqRemap) (hlines : ∀ n, .inl n ∈ before → n ≠ 2)
    (hrun : Run Step (started routines drivers p before) es t) :
    (∃ work u, Run Step t work u ∧ (∀ e ∈ work, e.isWork) ∧ u.place = .program ∧ ∀ n, ¬u.Latched n) ∧
      (∀ work u, (∀ e ∈ work, e.isWork) → Run Step t work u →
        t.todo = work.length + u.todo ∧ (u.todo ≠ 0 → ∃ e u', e.isWork ∧ Step u e u')) ∧
      ∀ n r u, Step t (.ack n r) u → t.Latched n ∧ ∀ m, t.Latched m → Pair.rank n ≤ Pair.rank m := by
  have hinv : Inv t := Inv.reached hwrites hlines hrun
  refine ⟨?_, fun work u hwork hwork' => ?_, fun n r u hstep => ?_⟩
  · obtain ⟨work, u, hwork, hall, hdone⟩ := work_finishes hinv
    exact ⟨work, u, hwork, hall, todo_zero.mp hdone⟩
  · have hinv' : Inv u := hwork'.invariant Inv (fun _ _ _ => Inv.step) hinv
    exact ⟨work_bounded hinv hwork hwork', work_possible hinv'⟩
  · cases hstep with
    | ack k r n hint hvector hr =>
      obtain ⟨hlatched, hleast, -⟩ := hinv.ack_line hint hvector
      exact ⟨hlatched, hleast⟩

end

theorem ticks_drained : ∃ t, Run Step tickStart tickEvents t ∧
    ∃ work u, Run Step t work u ∧ (∀ e ∈ work, e.isWork) ∧ u.place = .program ∧ ∀ n, ¬u.Latched n := by
  obtain ⟨t, hrun⟩ := tick_run
  exact ⟨t, hrun, (requests_drained _ _ _ rfl key_lines hrun).1⟩

end Rinix.Interrupts
