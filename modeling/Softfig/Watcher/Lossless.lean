import Softfig.Watcher.Flush

/-!
No accepted change is lost.

A change is settled for an end when the chain that owns the end had a commit that succeeded on a
later snapshot. Until then it waits in the buffer, with something armed that flushes it, or a
running flush holds it.

- `World.Lossless`: every accepted change is settled at each end, or waits;
- `Unbroken`: what a step must meet so that nothing is lost;
- `Kept`: the invariant of unbroken runs, one lemma for each section;
- `no_write_lost`: unbroken runs lose nothing, and clear a deadline only when nothing that failed
  is waiting.
-/

namespace Softfig.Watcher

open Softfig.Lib
open Softfig.Vcs (Chain ChainRegistry Path tipRef)

variable {ι : Type}

namespace World

/-- The owner of this end has landed a snapshot taken after the change. -/
def Settled (w : World ι) (a : Accepted) (path : String) : Prop :=
  ∃ l ∈ w.landed, refOf l.router path = l.refName ∧ a.stamp < l.stamp

instance (w : World ι) (a : Accepted) (path : String) : Decidable (w.Settled a path) :=
  inferInstanceAs (Decidable (∃ l ∈ w.landed, refOf l.router path = l.refName ∧ a.stamp < l.stamp))

/-- A nudge is unconsumed, or a thread is about to nudge or to flush. -/
def Triggered (w : World ι) : Prop :=
  (∃ id, (w.lastNudge id).isSome) ∨ ∃ id, (w.threads id).willFlush

/-- A deadline is armed, or a flush that failed is about to arm it. -/
def Scheduled (w : World ι) : Prop :=
  w.retry.dueAt.isSome ∨ ∃ id, (w.threads id).isArming

/-- **Every accepted change is settled at each of its ends, or waits**: in the buffer, with
something armed that flushes it, or held by a running flush. -/
def Lossless (w : World ι) : Prop :=
  ∀ a ∈ w.accepted, ∀ path ∈ a.change.ends,
    w.Settled a path ∨ (w.buffer.Keeps a.change ∧ (w.Triggered ∨ w.Scheduled)) ∨
      ∃ id, (w.threads id).Holds a

end World

/-- The sources of the archive moves under commit are on chains under commit. -/
def Thread.Routed : Thread ι → Prop
  | captured d router _ =>
    ∀ move ∈ d.renamedToArchive, refOf router move.source ∈ affectedRefs router d
  | _ => True

instance : (t : Thread ι) → Decidable t.Routed
  | .captured d router _ =>
    inferInstanceAs (Decidable (∀ move ∈ d.renamedToArchive,
      refOf router move.source ∈ affectedRefs router d))
  | .idle | .nudging _ | .filing | .polling _ | .flushing | .drained _ | .entered _
  | .refiling _ | .arming | .clearing | .ended => inferInstanceAs (Decidable True)

section
variable [DecidableEq ι] [Fintype ι]

instance (w : World ι) : Decidable w.Triggered :=
  inferInstanceAs (Decidable (_ ∨ _))

instance (w : World ι) : Decidable w.Scheduled :=
  inferInstanceAs (Decidable (_ ∨ _))

instance (w : World ι) : Decidable w.Lossless :=
  inferInstanceAs (Decidable (∀ a ∈ w.accepted, ∀ path ∈ a.change.ends,
    w.Settled a path ∨ (w.buffer.Keeps a.change ∧ (w.Triggered ∨ w.Scheduled)) ∨
      ∃ id, (w.threads id).Holds a))

/-- What a step must meet so that nothing is lost.

A flush that took changes finds the daemon unlocked, with a session and a repository; the sources
of the archive moves it commits are on chains it commits; a flush that clears the deadline finds
nothing in the buffer that another flush put back; and the loop of a sink does not end on the only
trigger of a buffer with changes. -/
def Unbroken (w : World ι) : Event ι → Prop
  | .enter _ => w.daemon.state = .unlocked ∧ w.daemon.session = true
  | .commit id _ => w.daemon.repo = true ∧ (w.threads id).Routed
  | .clear id => ∀ r ∈ w.refiled, r.1 = id
  | .retire id =>
    w.lastNudge id = none ∨ w.buffer.isEmpty = true ∨
      (∃ k, k ≠ id ∧ (w.lastNudge k).isSome) ∨ (∃ k, (w.threads k).willFlush) ∨
      (w.refiled ≠ [] ∧ w.Scheduled)
  | _ => True

instance (w : World ι) : (e : Event ι) → Decidable (Unbroken w e)
  | .enter _ => inferInstanceAs (Decidable (_ ∧ _))
  | .commit _ _ => inferInstanceAs (Decidable (_ ∧ _))
  | .clear _ => inferInstanceAs (Decidable (∀ r ∈ w.refiled, _))
  | .retire _ => inferInstanceAs (Decidable (_ ∨ _))
  | .tick _ | .daemon _ | .push .. | .nudge _ | .pollNudge _ | .pollRetry _ | .endBatch _
  | .take _ | .capture .. | .refile _ | .arm _ => inferInstanceAs (Decidable True)

end

/-! ### The invariant -/

/-- What unbroken runs keep. -/
structure Kept (w : World ι) : Prop where
  accounted : ∀ a ∈ w.accepted, ∀ path ∈ a.change.ends,
    w.Settled a path ∨ w.buffer.Keeps a.change ∨ ∃ id, (w.threads id).Holds a
  earlier : ∀ a ∈ w.accepted, a.stamp < w.stamp
  armed : ∀ c, w.buffer.Keeps c → w.Triggered ∨ (w.refiled ≠ [] ∧ w.Scheduled)
  own : ∀ id, (w.threads id).inFlight = true → ∀ r ∈ w.refiled, r.1 ≠ id

theorem Kept.lossless {w : World ι} (h : Kept w) : w.Lossless := by
  intro a ha path hpath
  rcases h.accounted a ha path hpath with hsettled | hbuffer | hheld
  · exact .inl hsettled
  · refine .inr (.inl ⟨hbuffer, ?_⟩)
    exact (h.armed _ hbuffer).imp_right And.right
  · exact .inr (.inr hheld)

theorem kept_start (now : Nat) (inner : DaemonInner) : Kept (World.start (ι := ι) now inner) where
  accounted _ ha := nomatch ha
  earlier _ ha := nomatch ha
  armed _ hc := (Buffer.not_keeps_empty hc).elim
  own _ h := nomatch h

section
variable [DecidableEq ι] {w w' : World ι} {id : ι} {t : Thread ι}

@[simp] theorem World.set_lastNudge (w : World ι) (id : ι) (t : Thread ι) :
    (w.set id t).lastNudge = w.lastNudge := rfl

@[simp] theorem World.set_threads_self (w : World ι) (id : ι) (t : Thread ι) :
    (w.set id t).threads id = t :=
  Function.update_self ..

theorem World.set_threads_of_ne (w : World ι) (t : Thread ι) {k : ι} (hne : k ≠ id) :
    (w.set id t).threads k = w.threads k :=
  Function.update_of_ne hne ..

/-- A section of one thread keeps the invariant, where what the buffer and the thread held is
settled, buffered or held after it. -/
theorem Kept.pass (h : Kept w) (hthreads : w'.threads = Function.update w.threads id t)
    (haccepted : w'.accepted = w.accepted) (hstamp : w'.stamp = w.stamp)
    (hlanded : w.landed ⊆ w'.landed)
    (hmoves : ∀ a ∈ w.accepted, ∀ path ∈ a.change.ends,
      w.buffer.Keeps a.change ∨ (w.threads id).Holds a →
        w'.Settled a path ∨ w'.buffer.Keeps a.change ∨ t.Holds a)
    (harmed : ∀ c, w'.buffer.Keeps c → w'.Triggered ∨ (w'.refiled ≠ [] ∧ w'.Scheduled))
    (hrefiled : ∀ r ∈ w'.refiled, r ∈ w.refiled ∨ r.1 = id)
    (hown : t.inFlight = true → ∀ r ∈ w'.refiled, r.1 ≠ id) : Kept w' where
  accounted a ha path hpath := by
    rw [haccepted] at ha
    have hself : t.Holds a → ∃ k, (w'.threads k).Holds a := by
      intro ht
      refine ⟨id, ?_⟩
      rwa [hthreads, Function.update_self]
    rcases h.accounted a ha path hpath with ⟨l, hl, hsettled⟩ | hbuffer | ⟨k, hheld⟩
    · exact .inl ⟨l, hlanded hl, hsettled⟩
    · exact (hmoves a ha path hpath (.inl hbuffer)).imp_right (Or.imp_right hself)
    · by_cases hk : k = id
      · subst hk
        exact (hmoves a ha path hpath (.inr hheld)).imp_right (Or.imp_right hself)
      · refine .inr (.inr ⟨k, ?_⟩)
        rwa [hthreads, Function.update_of_ne hk]
  earlier a ha := by
    rw [haccepted] at ha
    exact hstamp ▸ h.earlier a ha
  armed := harmed
  own := by
    rw [hthreads]
    refine (Function.forall_update_iff w.threads
      fun k thread => thread.inFlight = true → ∀ r ∈ w'.refiled, r.1 ≠ k).mpr ⟨hown, ?_⟩
    intro k hk hflight r hr
    rcases hrefiled r hr with hold | hid
    · exact h.own k hflight r hold
    · exact hid ▸ Ne.symm hk

/-- Triggers pass a section of one thread that keeps its own. -/
theorem World.Triggered.pass (h : w.Triggered)
    (hthreads : w'.threads = Function.update w.threads id t)
    (hnudges : ∀ k, (w.lastNudge k).isSome → w'.Triggered ∨ (w'.lastNudge k).isSome)
    (hself : (w.threads id).willFlush = true → w'.Triggered) : w'.Triggered := by
  rcases h with ⟨k, hk⟩ | ⟨k, hk⟩
  · exact (hnudges k hk).elim (fun h => h) fun h => .inl ⟨k, h⟩
  · by_cases hne : k = id
    · subst hne
      exact hself hk
    · refine .inr ⟨k, ?_⟩
      rwa [hthreads, Function.update_of_ne hne]

theorem World.Triggered.of_thread (hthreads : w'.threads = Function.update w.threads id t)
    (ht : t.willFlush = true) : w'.Triggered := by
  refine .inr ⟨id, ?_⟩
  rwa [hthreads, Function.update_self]

/-- Deadlines pass a section of one thread that leaves them alone. -/
theorem World.Scheduled.pass (h : w.Scheduled)
    (hthreads : w'.threads = Function.update w.threads id t) (hretry : w'.retry = w.retry)
    (hself : (w.threads id).isArming = true → w'.Scheduled) : w'.Scheduled := by
  rcases h with hdue | ⟨k, hk⟩
  · exact .inl (hretry ▸ hdue)
  · by_cases hne : k = id
    · subst hne
      exact hself hk
    · refine .inr ⟨k, ?_⟩
      rwa [hthreads, Function.update_of_ne hne]

/-! ### Sections outside a flush -/

/-- A section that moves triggers only. -/
theorem Kept.outside (h : Kept w) {nudges : ι → Option Nat} {retry : RetrySchedule}
    (hheld : ∀ a, ¬ (w.threads id).Holds a) (hflight : t.inFlight = false)
    (hw' : w' = { w with lastNudge := nudges, retry := retry }.set id t)
    (htriggered : w.Triggered → w'.Triggered)
    (hscheduled : w.refiled ≠ [] → w.Scheduled → w'.Triggered ∨ w'.Scheduled) : Kept w' := by
  subst hw'
  refine h.pass rfl rfl rfl (List.Subset.refl _) ?_ ?_ (fun _ hr => .inl hr) ?_
  · intro a _ path _ hbefore
    exact hbefore.elim (fun hbuffer => .inr (.inl hbuffer)) fun hthread => (hheld a hthread).elim
  · intro c hc
    rcases h.armed c hc with hbefore | ⟨hne, hbefore⟩
    · exact .inl (htriggered hbefore)
    · exact (hscheduled hne hbefore).imp_right fun hafter => ⟨hne, hafter⟩
  · intro hafter
    rw [hflight] at hafter
    cases hafter

theorem Kept.nudge (h : Kept w) {k : ι} (hid : w.threads id = .nudging k) :
    Kept ({ w with lastNudge := Function.update w.lastNudge k (some w.now) }.set id .idle) := by
  have htriggered : ({ w with
      lastNudge := Function.update w.lastNudge k (some w.now) }.set id .idle).Triggered :=
    .inl ⟨k, by simp⟩
  refine h.outside (by simp [hid, Thread.Holds]) rfl rfl (fun _ => htriggered) ?_
  exact fun _ _ => .inl htriggered

theorem Kept.pollNudge (h : Kept w) (hid : w.threads id = .idle) {nudges : ι → Option Nat}
    {due : Bool} (hnudges : ∀ k, due = true ∧ k = id ∨ nudges k = w.lastNudge k) :
    Kept ({ w with lastNudge := nudges }.set id (.polling due)) := by
  refine h.outside (by simp [hid, Thread.Holds]) rfl rfl ?_ ?_
  · intro hbefore
    refine hbefore.pass rfl (fun k hk => ?_) (by simp [hid, Thread.willFlush])
    rcases hnudges k with ⟨rfl, -⟩ | hsame
    · exact .inl (.of_thread rfl rfl)
    · exact .inr (by rw [← hsame] at hk; exact hk)
  · intro _ hbefore
    exact .inr (hbefore.pass rfl rfl (by simp [hid, Thread.isArming]))

theorem due_eq_of_not {r : RetrySchedule} {now : Nat} (h : (r.due now).1 = false) :
    (r.due now).2 = r := by
  unfold RetrySchedule.due at h ⊢
  split
  · rename_i deadline hdeadline
    rw [hdeadline] at h
    by_cases hpassed : deadline ≤ now
    · rw [if_pos hpassed]
      dsimp only at h
      rw [if_pos hpassed] at h
      cases h
    · rw [if_neg hpassed]
  · rfl

theorem Kept.pollRetry (h : Kept w) {nudgeDue : Bool} (hid : w.threads id = .polling nudgeDue) :
    Kept ({ w with retry := (w.retry.due w.now).2 }.set id
      (if nudgeDue || (w.retry.due w.now).1 then .flushing else .idle)) := by
  have hnotArming : (w.threads id).isArming = false := by rw [hid]; rfl
  cases hdue : (w.retry.due w.now).1 with
  | true =>
    have htriggered : ({ w with retry := (w.retry.due w.now).2 }.set id .flushing).Triggered :=
      .of_thread rfl rfl
    rw [Bool.or_true, if_pos rfl]
    exact h.outside (by simp [hid, Thread.Holds]) rfl rfl (fun _ => htriggered)
      fun _ _ => .inl htriggered
  | false =>
    rw [due_eq_of_not hdue, Bool.or_false]
    refine h.outside (by simp [hid, Thread.Holds]) (by cases nudgeDue <;> rfl) rfl ?_ ?_
    · intro hbefore
      refine hbefore.pass rfl (fun k hk => .inr hk) fun hwill => ?_
      rw [hid] at hwill
      cases hwill
      exact .of_thread rfl rfl
    · exact fun _ hbefore => .inr (hbefore.pass rfl rfl (by simp [hnotArming]))

theorem Kept.endBatch (h : Kept w) (hid : w.threads id = .idle ∨ w.threads id = .filing) :
    Kept (w.set id .flushing) := by
  have htriggered : (w.set id .flushing).Triggered := .of_thread rfl rfl
  refine h.outside ?_ rfl rfl (fun _ => htriggered) fun _ _ => .inl htriggered
  rcases hid with hid | hid <;> simp [hid, Thread.Holds]

theorem Kept.retire (h : Kept w) (hid : w.threads id = .idle)
    (hguard : w.lastNudge id = none ∨ w.buffer.isEmpty = true ∨
      (∃ k, k ≠ id ∧ (w.lastNudge k).isSome) ∨ (∃ k, (w.threads k).willFlush) ∨
      (w.refiled ≠ [] ∧ w.Scheduled)) :
    Kept ({ w with lastNudge := Function.update w.lastNudge id none }.set id .ended) := by
  have hscheduled : w.Scheduled →
      ({ w with lastNudge := Function.update w.lastNudge id none }.set id .ended).Scheduled :=
    fun hbefore => hbefore.pass rfl rfl (by simp [hid, Thread.isArming])
  have hothers : ∀ k, k ≠ id → (w.lastNudge k).isSome →
      ({ w with lastNudge := Function.update w.lastNudge id none }.set id .ended).Triggered := by
    intro k hne hk
    refine .inl ⟨k, ?_⟩
    simpa [hne] using hk
  have hthreads : (∃ k, (w.threads k).willFlush) →
      ({ w with lastNudge := Function.update w.lastNudge id none }.set id .ended).Triggered := by
    rintro ⟨k, hk⟩
    by_cases hne : k = id
    · subst hne
      rw [hid] at hk
      cases hk
    · refine .inr ⟨k, ?_⟩
      rwa [World.set_threads_of_ne _ _ hne]
  refine h.pass rfl rfl rfl (List.Subset.refl _) ?_ ?_ (fun _ hr => .inl hr) nofun
  · intro a _ path _ hbefore
    refine hbefore.elim (fun hbuffer => .inr (.inl hbuffer)) fun hheld => ?_
    rw [hid] at hheld
    cases hheld
  · intro c hc
    rcases hguard with hnone | hempty | ⟨k, hne, hk⟩ | hwill | ⟨hne, hbefore⟩
    · rcases h.armed c hc with (⟨k, hk⟩ | hwill) | ⟨hne, hbefore⟩
      · exact .inl (hothers k (fun heq => by rw [heq, hnone] at hk; cases hk) hk)
      · exact .inl (hthreads hwill)
      · exact .inr ⟨hne, hscheduled hbefore⟩
    · exact (Buffer.not_keeps_of_isEmpty hempty hc).elim
    · exact .inl (hothers k hne hk)
    · exact .inl (hthreads hwill)
    · exact .inr ⟨hne, hscheduled hbefore⟩

/-! ### Pushes -/

theorem World.push_eq (w : World ι) (accepts : String → Bool) (event : DirtyEvent) :
    w.push accepts event = w ∨ ∃ made, w.push accepts event =
      { w with
        buffer := w.buffer.record made
        stamp := w.stamp + 1
        accepted := made.changes.map (Accepted.mk · w.stamp) ++ w.accepted } := by
  unfold World.push
  cases survivor accepts event with
  | none => exact .inl rfl
  | some made => exact .inr ⟨made, rfl⟩

theorem Kept.push (h : Kept w) (accepts : String → Bool) (event : DirtyEvent)
    (hheld : ∀ a, ¬ (w.threads id).Holds a) (hflight : t.inFlight = false)
    (hwill : t.willFlush = true) : Kept ((w.push accepts event).set id t) := by
  rcases w.push_eq accepts event with hsame | ⟨made, hmade⟩
  · have htriggered : (w.set id t).Triggered := .of_thread rfl hwill
    rw [hsame]
    exact h.outside hheld hflight rfl (fun _ => htriggered) fun _ _ => .inl htriggered
  · rw [hmade]
    refine ⟨?_, ?_, fun _ _ => .inl (.of_thread rfl hwill), ?_⟩
    · intro a ha path hpath
      rcases List.mem_append.mp ha with hnew | hold
      · obtain ⟨c, hc, rfl⟩ := List.mem_map.mp hnew
        exact .inr (.inl (Buffer.keeps_record hc))
      · refine (h.accounted a hold path hpath).imp_right (Or.imp (·.record made) ?_)
        rintro ⟨k, hk⟩
        have hne : k ≠ id := fun heq => hheld a (heq ▸ hk)
        exact ⟨k, by rwa [World.set_threads_of_ne _ _ hne]⟩
    · intro a ha
      rcases List.mem_append.mp ha with hnew | hold
      · obtain ⟨c, -, rfl⟩ := List.mem_map.mp hnew
        exact Nat.lt_succ_self _
      · exact (h.earlier a hold).trans (Nat.lt_succ_self _)
    · refine (Function.forall_update_iff w.threads
        fun k thread => thread.inFlight = true → ∀ r ∈ w.refiled, r.1 ≠ k).mpr
          ⟨?_, fun k _ => h.own k⟩
      intro hafter
      rw [hflight] at hafter
      cases hafter

/-! ### Sections of a flush -/

theorem Kept.take (h : Kept w) (hid : w.threads id = .flushing) :
    Kept ({ w with buffer := .empty, refiled := [] }.set id
      (if w.buffer.intoDirtySet.isEmpty || (classify w.buffer.intoDirtySet).isDropped then
        .clearing else .drained w.buffer.intoDirtySet)) := by
  refine h.pass rfl rfl rfl (List.Subset.refl _) ?_ ?_ nofun fun _ => nofun
  · intro a _ path _ hbefore
    refine .inr (.inr ?_)
    rcases hbefore with hbuffer | hheld
    · have htaken := Buffer.keeps_intoDirtySet hbuffer
      split_ifs with hnothing
      · rcases Bool.or_eq_true_iff.mp hnothing with hempty | hdropped
        · exact (DirtySet.not_keeps_of_isEmpty hempty htaken).elim
        · exact (DirtySet.not_keeps_of_isDropped hdropped htaken).elim
      · exact htaken
    · rw [hid] at hheld
      cases hheld
  · intro c hc
    exact (Buffer.not_keeps_empty hc).elim

/-- A section in the middle of a flush, which leaves the buffer, the deadline and the nudges. -/
theorem Kept.inside (h : Kept w) {landed : List Landing}
    (hw' : w' = { w with landed := landed }.set id t) (hlanded : w.landed ⊆ landed)
    (hflight : (w.threads id).inFlight = true)
    (hmoves : ∀ a ∈ w.accepted, ∀ path ∈ a.change.ends, (w.threads id).Holds a →
      w'.Settled a path ∨ t.Holds a) : Kept w' := by
  subst hw'
  have hquiet : (w.threads id).willFlush = false ∧ (w.threads id).isArming = false := by
    cases hid : w.threads id <;> rw [hid] at hflight <;> first | exact ⟨rfl, rfl⟩ | cases hflight
  refine h.pass rfl rfl rfl hlanded ?_ ?_ (fun _ hr => .inl hr) fun _ => h.own id hflight
  · intro a ha path hpath hbefore
    rcases hbefore with hbuffer | hheld
    · exact .inr (.inl hbuffer)
    · exact (hmoves a ha path hpath hheld).imp_right .inr
  · intro c hc
    refine (h.armed c hc).imp ?_ (And.imp_right ?_)
    · exact fun hbefore => hbefore.pass rfl (fun _ hk => .inr hk) (by simp [hquiet.1])
    · exact fun hbefore => hbefore.pass rfl rfl (by simp [hquiet.2])

theorem Kept.capture (h : Kept w) {d : DirtySet} (hid : w.threads id = .entered d)
    (router : Option ChainRegistry) : Kept (w.set id (.captured d router w.stamp)) := by
  refine h.inside rfl (List.Subset.refl _) (by rw [hid]; rfl) ?_
  intro a ha path _ hheld
  rw [hid] at hheld
  exact .inr ⟨hheld, h.earlier a ha⟩

/-- All of a dirty set is put back. -/
theorem Kept.refileAll (h : Kept w) {d : DirtySet} (hflight : (w.threads id).inFlight = true)
    (hheld : ∀ a, (w.threads id).Holds a → d.Keeps a.change) :
    Kept (w.set id (.refiling (requeueEvents d fun _ => true))) := by
  refine h.inside rfl (List.Subset.refl _) hflight ?_
  intro a _ path _ hbefore
  exact .inr ((hheld a hbefore).requeue_all .empty)

theorem Kept.settle (h : Kept w) {d : DirtySet} {router : Option ChainRegistry} {stamp : Nat}
    (hid : w.threads id = .captured d router stamp)
    (hrouted : ∀ move ∈ d.renamedToArchive, refOf router move.source ∈ affectedRefs router d)
    {o : Outcomes} {classified : Classified} :
    Kept (w.settle id d router stamp (o.commitAll classified (affectedRefs router d))) := by
  have hflight : (w.threads id).inFlight = true := by rw [hid]; rfl
  cases hverdict : o.commitAll classified (affectedRefs router d) with
  | refileAll =>
    refine h.refileAll hflight fun a hheld => ?_
    rw [hid] at hheld
    exact hheld.1
  | finished landed failed =>
    refine h.inside rfl (List.subset_append_right _ _) hflight ?_
    intro a _ path hpath hheld
    rw [hid] at hheld
    obtain ⟨hkeeps, hearlier⟩ := hheld
    have hcommitted : refOf router path ∈ affectedRefs router d := by
      rcases hkeeps.mem_allPaths hpath with htouched | ⟨move, hmove, rfl⟩
      · exact refOf_mem_affectedRefs htouched
      · exact hrouted move hmove
    rcases Outcomes.mem_of_commitAll hverdict hcommitted with hlanded | hfailed
    · refine .inl ⟨⟨router, refOf router path, stamp⟩, ?_, rfl, hearlier⟩
      exact List.mem_append_left _ (List.mem_map_of_mem hlanded)
    · refine .inr ?_
      rw [if_neg (List.ne_nil_of_mem hfailed)]
      exact hkeeps.requeue hpath (by simpa using hfailed) .empty

theorem Kept.refile (h : Kept w) {events : List DirtyEvent}
    (hid : w.threads id = .refiling events) (hne : events ≠ []) :
    Kept ({ w with
      buffer := w.buffer.requeue events
      refiled := events.map (id, ·) ++ w.refiled }.set id .arming) := by
  refine h.pass rfl rfl rfl (List.Subset.refl _) ?_ ?_ ?_ nofun
  · intro a _ path _ hbefore
    refine .inr (.inl ?_)
    rcases hbefore with hbuffer | hheld
    · exact hbuffer.requeue events
    · rw [hid] at hheld
      exact Buffer.Keeps.requeue_of_empty hheld w.buffer
  · intro c _
    refine .inr ⟨?_, .inr ⟨id, ?_⟩⟩
    · simp [World.set, hne]
    · simp [Thread.isArming]
  · intro r hr
    rcases List.mem_append.mp hr with hnew | hold
    · obtain ⟨event, -, rfl⟩ := List.mem_map.mp hnew
      exact .inr rfl
    · exact .inl hold

theorem Kept.refileNothing (h : Kept w) (hid : w.threads id = .refiling []) :
    Kept (w.set id .idle) := by
  refine h.outside ?_ rfl rfl ?_ fun _ hbefore => .inr ?_
  · intro a hheld
    rw [hid] at hheld
    exact Buffer.not_keeps_empty hheld
  · exact fun hbefore => hbefore.pass rfl (fun _ hk => .inr hk) (by simp [hid, Thread.willFlush])
  · exact hbefore.pass rfl rfl (by simp [hid, Thread.isArming])

theorem Kept.arm (h : Kept w) (hid : w.threads id = .arming) :
    Kept ({ w with retry := w.retry.arm w.now }.set id .idle) := by
  refine h.outside (by simp [hid, Thread.Holds]) rfl rfl ?_ fun _ _ => .inr (.inl rfl)
  exact fun hbefore => hbefore.pass rfl (fun _ hk => .inr hk) (by simp [hid, Thread.willFlush])

/-- **A flush that clears the deadline leaves nothing that failed behind.** -/
theorem Kept.refiled_eq_nil (h : Kept w) (hflight : (w.threads id).inFlight = true)
    (hown : ∀ r ∈ w.refiled, r.1 = id) : w.refiled = [] := by
  refine List.eq_nil_iff_forall_not_mem.mpr fun r hr => ?_
  exact h.own id hflight r hr (hown r hr)

theorem Kept.clear (h : Kept w) (hid : w.threads id = .clearing)
    (hown : ∀ r ∈ w.refiled, r.1 = id) : Kept ({ w with retry := .clear }.set id .idle) := by
  refine h.outside (by simp [hid, Thread.Holds]) rfl rfl ?_ fun hne _ => ?_
  · exact fun hbefore => hbefore.pass rfl (fun _ hk => .inr hk) (by simp [hid, Thread.willFlush])
  · exact (hne (h.refiled_eq_nil (by rw [hid]; rfl) hown)).elim

/-- Who holds the lock is no part of the invariant. -/
theorem Kept.free (h : Kept w) (holder : Option ι) : Kept { w with holder := holder } :=
  ⟨h.accounted, h.earlier, h.armed, h.own⟩

end

/-! ### Runs -/

section
variable [DecidableEq ι] [Fintype ι] {w w' : World ι}

/-- **One unbroken section keeps the invariant.** -/
theorem Kept.step (h : Kept w) {e : Event ι} (hguard : Unbroken w e) (hstep : act w e = some w') :
    Kept w' := by
  cases e with
  | tick elapsed =>
    cases hstep
    exact ⟨h.accounted, h.earlier, h.armed, h.own⟩
  | daemon inner =>
    simp only [act] at hstep
    split at hstep
    · cases hstep
      exact ⟨h.accounted, h.earlier, h.armed, h.own⟩
    · cases hstep
  | push id sink accepts event =>
    simp only [act] at hstep
    split at hstep
    · rename_i hid
      split_ifs at hstep
      cases hstep
      exact h.push accepts event (by simp [hid, Thread.Holds]) rfl rfl
    · rename_i hid
      cases hstep
      exact h.push accepts event (by simp [hid, Thread.Holds]) rfl rfl
    · rename_i hid
      cases hstep
      exact h.push accepts event (by simp [hid, Thread.Holds]) rfl rfl
    · cases hstep
  | nudge id =>
    simp only [act] at hstep
    split at hstep
    · rename_i hid
      cases hstep
      exact h.nudge hid
    · cases hstep
  | pollNudge id =>
    simp only [act] at hstep
    split at hstep
    · rename_i hid
      cases hstep
      refine h.pollNudge hid fun k => ?_
      cases hdue : w.nudgeDue id with
      | false => exact .inr rfl
      | true =>
        by_cases hk : k = id
        · exact .inl ⟨rfl, hk⟩
        · exact .inr (Function.update_of_ne hk ..)
    · cases hstep
  | pollRetry id =>
    simp only [act] at hstep
    split at hstep
    · rename_i hid
      cases hstep
      exact h.pollRetry hid
    · cases hstep
  | endBatch id =>
    simp only [act] at hstep
    split at hstep
    · rename_i hid
      cases hstep
      exact h.endBatch (.inl hid)
    · rename_i hid
      cases hstep
      exact h.endBatch (.inr hid)
    · cases hstep
  | take id =>
    simp only [act] at hstep
    split at hstep
    · rename_i hid
      cases hstep
      exact h.take hid
    · cases hstep
  | enter id =>
    simp only [act] at hstep
    split at hstep
    · rename_i d hid hfree
      split_ifs at hstep with hopen
      swap
      · exact (hopen hguard).elim
      cases hstep
      have hentered : Kept (w.set id (.entered d)) := by
        refine h.inside rfl (List.Subset.refl _) (by rw [hid]; rfl) fun a _ path _ hheld => ?_
        rw [hid] at hheld
        exact .inr hheld
      exact hentered.free (some id)
    · cases hstep
  | capture id built =>
    simp only [act] at hstep
    split at hstep
    · rename_i d hid
      split_ifs at hstep
      · cases hstep
        exact h.capture hid _
      · cases hstep
        refine h.refileAll (by rw [hid]; rfl) fun a hheld => ?_
        rw [hid] at hheld
        exact hheld
    · cases hstep
  | commit id o =>
    obtain ⟨hrepo, hrouted⟩ := hguard
    simp only [act] at hstep
    split at hstep
    · rename_i hid
      rw [if_pos hrepo] at hstep
      cases hstep
      rw [hid] at hrouted
      exact h.settle hid hrouted
    · cases hstep
  | refile id =>
    simp only [act] at hstep
    split at hstep
    · rename_i events hid
      cases hstep
      cases events with
      | nil => exact (h.refileNothing hid).free _
      | cons first rest => exact h.refile hid (List.cons_ne_nil _ _)
    · cases hstep
  | arm id =>
    simp only [act] at hstep
    split at hstep
    · rename_i hid
      cases hstep
      exact (h.arm hid).free _
    · cases hstep
  | clear id =>
    simp only [act] at hstep
    split at hstep
    · rename_i hid
      cases hstep
      exact (h.clear hid hguard).free _
    · cases hstep
  | retire id =>
    simp only [act] at hstep
    split at hstep
    · rename_i hid
      split_ifs at hstep
      cases hstep
      exact h.retire hid hguard
    · cases hstep

theorem kept_of_guarded {now : Nat} {inner : DaemonInner} {labels : List (Event ι)}
    (hrun : (watcher now inner).Guarded Unbroken (.start now inner) labels w) : Kept w := by
  induction hrun with
  | refl => exact kept_start now inner
  | snoc _ hguard hstep ih => exact ih.step hguard hstep

/-- **No accepted change is lost in an unbroken run**, for any number of sources and drivers and
every outcome of the commits; and a flush clears the deadline only when nothing that a failed
commit put back is in the buffer. -/
theorem no_write_lost {now : Nat} {inner : DaemonInner} {labels : List (Event ι)} {w : World ι}
    (hrun : (watcher now inner).Guarded Unbroken (.start now inner) labels w) :
    w.Lossless ∧ ∀ id w', Unbroken w (.clear id) → act w (.clear id) = some w' →
      w.refiled = [] := by
  have hkept := kept_of_guarded hrun
  refine ⟨hkept.lossless, fun id w' hguard hstep => ?_⟩
  simp only [act] at hstep
  split at hstep
  · rename_i hid
    exact hkept.refiled_eq_nil (by rw [hid]; rfl) hguard
  · cases hstep

end

/-! ### Runs that lose a change -/

/-- A daemon whose mount has one shared chain, at `team`. -/
def teamDaemon : DaemonInner :=
  ⟨.unlocked, true, true, some ⟨.device, [.shared "team" "shared/team" (.parse "team") true]⟩⟩

/-- Every part of a commit succeeds, but the chains of `failing` fail. -/
def outcomesBut (failing : List String) : Outcomes :=
  ⟨fun _ => true, true, false, true, fun refName => !failing.contains refName⟩

/-- A batch of the watcher with one change, up to the end of the commits. -/
def flushes (id : Bool) (failing : List String) : List (Event Bool) :=
  [.enter id, .capture id true, .commit id (outcomesBut failing)]

def batch (id : Bool) (event : DirtyEvent) : List (Event Bool) :=
  [.push id none (fun _ => true) event, .endBatch id, .take id]

/-- A file leaves a shared chain for the archive: only the archive's chain is committed. -/
def archiveTrace : List (Event Bool) :=
  batch true (.renamed "team/a.md" "journal/archive/a.md") ++ flushes true [] ++ [.clear true]

/-- A commit fails and arms the deadline, and a flush of another change then clears it. -/
def overlapTrace : List (Event Bool) :=
  batch false (.created "team/b.md") ++ batch true (.created "a.md") ++
    flushes false ["shared/team"] ++ [.refile false, .arm false] ++ flushes true [] ++ [.clear true]

/-- The daemon stops before a flush has the lock. -/
def stopTrace : List (Event Bool) :=
  batch true (.created "a.md") ++ [.daemon { teamDaemon with state := .stopping }, .enter true]

/-- The loop of a sink ends before it has polled the nudge. -/
def retireTrace : List (Event Bool) :=
  [.push false (some true) (fun _ => true) (.created "a.md"), .nudge false,
    .daemon { teamDaemon with fuse := none }, .retire true]

def LostIn (trace : List (Event Bool)) : Prop :=
  ∃ w, (watcher 0 teamDaemon).Run (.start 0 teamDaemon) trace w ∧ ¬ w.Lossless

theorem lostIn_of_replay {trace : List (Event Bool)}
    (h : (System.replay act (.start 0 teamDaemon) trace).any fun w => !decide w.Lossless) :
    LostIn trace := by
  cases hreplay : System.replay act (.start 0 teamDaemon) trace with
  | none =>
    rw [hreplay] at h
    cases h
  | some w =>
    rw [hreplay] at h
    exact ⟨w, System.replay_run hreplay, by simpa using h⟩

theorem writes_lost :
    LostIn archiveTrace ∧ LostIn overlapTrace ∧ LostIn stopTrace ∧ LostIn retireTrace := by
  have h : ∀ trace ∈ [archiveTrace, overlapTrace, stopTrace, retireTrace],
      ((System.replay act (.start 0 teamDaemon) trace).any fun w => !decide w.Lossless) = true := by
    decide +kernel
  simp only [List.forall_mem_cons] at h
  obtain ⟨harchive, hoverlap, hstop, hretire, -⟩ := h
  exact ⟨lostIn_of_replay harchive, lostIn_of_replay hoverlap, lostIn_of_replay hstop,
    lostIn_of_replay hretire⟩

/-- A commit fails, and the flush at its deadline lands it. -/
def retriedTrace : List (Event Bool) :=
  batch false (.created "team/b.md") ++ flushes false ["shared/team"] ++
    [.refile false, .arm false, .tick 500, .pollNudge true, .pollRetry true, .take true] ++
    flushes true [] ++ [.clear true]

theorem no_write_lost_retried :
    ∃ w, (watcher 0 teamDaemon).Guarded Unbroken (.start 0 teamDaemon) retriedTrace w ∧
      w.Lossless := by
  have h : (System.replay (fun w e => if Unbroken w e then act w e else none)
      (.start 0 teamDaemon) retriedTrace).isSome := by decide +kernel
  obtain ⟨w, hreplay⟩ := Option.isSome_iff_exists.mp h
  have hrun : (watcher 0 teamDaemon).Guarded Unbroken (.start 0 teamDaemon) retriedTrace w :=
    System.replay_guarded hreplay
  exact ⟨w, hrun, (no_write_lost hrun).1⟩

end Softfig.Watcher
