import Softfig.Share.Pull

/-!
One writer, one reader, and pushes that get lost.

The writer commits and offers its tip; an offer reaches the member or is lost.
The member applies what reaches it and never edits.

- `run_caughtUp_iff`: the member follows quietly exactly while each push that
  reaches it starts from, or ends at, the tree it holds;
- `inStep_iff_noGap`, `member_follows_iff`: where no tree comes back, that is at
  most one commit of the writer between two deliveries.
-/

namespace Softfig.Share

open Softfig.Lib.Jcs (Json)

/-- The writer commits a tree with some local payload, or offers its tip; the
member serves a delivered offer at its own time. -/
inductive WriterStep where
  | commit (now : Int) (tree : SharedTree) (payload : Json)
  | offer (delivered : Bool) (now : Int)

structure World where
  writer : History
  member : History
  outcomes : List PushOutcome

section

variable (share : ShareRow) (writer member : Device)

def writerAfter : History → List WriterStep → History
  | h, [] => h
  | h, .commit now tree payload :: steps =>
    writerAfter (writeCommit writer now h tree (.other payload)) steps
  | h, .offer _ _ :: steps => writerAfter h steps

/-- The pushes that reach the member, in order. -/
def deliveredPushes : History → List WriterStep → List SharedChainPush
  | _, [] => []
  | h, .commit now tree payload :: steps =>
    deliveredPushes (writeCommit writer now h tree (.other payload)) steps
  | h, .offer delivered _ :: steps =>
    (if delivered then (reconcileSharedPush share writer h).toList else []) ++
      deliveredPushes h steps

def World.receive (s : World) (now : Int) (p : SharedChainPush) : World :=
  let (after, outcome) := serveSharedChainPush share member now p s.member
  { s with member := after, outcomes := s.outcomes ++ [outcome] }

def World.step (s : World) : WriterStep → World
  | .commit now tree payload =>
    { s with writer := writeCommit writer now s.writer tree (.other payload) }
  | .offer delivered now =>
    match reconcileSharedPush share writer s.writer with
    | some p => if delivered then s.receive share member now p else s
    | none => s

def World.run (s : World) (steps : List WriterStep) : World :=
  steps.foldl (World.step share writer member) s

end

/-- The member holds the writer's tip, and no push it got named a conflict or
left a sidecar. -/
def World.CaughtUp (s : World) : Prop :=
  s.member.tree = s.writer.tree ∧ ∀ o ∈ s.outcomes, o.quiet = true

/-- Each push starts from, or ends at, the tree the pushes before it left. -/
def InStep : Option SharedTree → List SharedChainPush → Prop
  | _, [] => True
  | held, p :: pushes => Takes held p ∧ InStep (some p.newTree) pushes

def decideInStep : (held : Option SharedTree) → (pushes : List SharedChainPush) →
    Decidable (InStep held pushes)
  | _, [] => .isTrue trivial
  | held, p :: pushes =>
    haveI := decideInStep (some p.newTree) pushes
    inferInstanceAs (Decidable (Takes held p ∧ InStep (some p.newTree) pushes))

instance (held : Option SharedTree) (pushes : List SharedChainPush) :
    Decidable (InStep held pushes) := decideInStep held pushes

section

variable (share : ShareRow) (writer member : Device)

theorem World.step_writer (s : World) (st : WriterStep) :
    (s.step share writer member st).writer = writerAfter writer s.writer [st] := by
  cases st with
  | commit now tree payload => rfl
  | offer delivered now =>
    simp only [World.step, writerAfter]
    split
    · split_ifs <;> rfl
    · rfl

/-- What a run does to the writer is what its commits do. -/
theorem World.run_writer (s : World) (steps : List WriterStep) :
    (s.run share writer member steps).writer = writerAfter writer s.writer steps := by
  induction steps generalizing s with
  | nil => rfl
  | cons st steps ih =>
    rw [World.run, List.foldl_cons]
    refine (ih _).trans ?_
    rw [World.step_writer]
    cases st <;> rfl

theorem World.run_cons (s : World) (st : WriterStep) (steps : List WriterStep) :
    s.run share writer member (st :: steps) =
      (s.step share writer member st).run share writer member steps := rfl

theorem World.run_append (s : World) (steps more : List WriterStep) :
    s.run share writer member (steps ++ more) =
      (s.run share writer member steps).run share writer member more :=
  List.foldl_append

theorem receive_quiet_iff (s : World) (now : Int) (p : SharedChainPush) :
    (∀ o ∈ (s.receive share member now p).outcomes, o.quiet = true) ↔
      (∀ o ∈ s.outcomes, o.quiet = true) ∧ Takes s.member.tree p := by
  rw [← serve_quiet_iff share member now]
  simp only [World.receive, List.mem_append, List.mem_singleton]
  constructor
  · exact fun h => ⟨fun o ho => h o (.inl ho), h _ (.inr rfl)⟩
  · rintro ⟨hold, hlast⟩ o (ho | rfl)
    · exact hold o ho
    · exact hlast

/-- **A run is quiet exactly while the pushes are in step.** -/
theorem run_quiet_iff (s : World) (steps : List WriterStep) :
    (∀ o ∈ (s.run share writer member steps).outcomes, o.quiet = true) ↔
      (∀ o ∈ s.outcomes, o.quiet = true) ∧
        InStep s.member.tree (deliveredPushes share writer s.writer steps) := by
  induction steps generalizing s with
  | nil => simp [World.run, deliveredPushes, InStep]
  | cons st steps ih =>
    rw [World.run_cons, ih]
    cases st with
    | commit now tree payload => rfl
    | offer delivered now =>
      simp only [World.step, deliveredPushes]
      cases hp : reconcileSharedPush share writer s.writer with
      | none => simp
      | some p =>
        cases delivered with
        | false => simp
        | true =>
          simp only [if_true, Option.toList_some, List.singleton_append, InStep,
            receive_quiet_iff, and_assoc, and_congr_right_iff]
          intro _ htakes
          rw [show (s.receive share member now p).member.tree = some p.newTree from
            (serve_of_takes share member _ htakes).1]
          rfl

/-- Following the writer, in terms of the pushes that got through. -/
theorem run_caughtUp_iff (s : World) (hquiet : ∀ o ∈ s.outcomes, o.quiet = true)
    (steps : List WriterStep) (now : Int) {p : SharedChainPush}
    (hlast : reconcileSharedPush share writer (writerAfter writer s.writer steps) = some p) :
    (s.run share writer member (steps ++ [.offer true now])).CaughtUp ↔
      InStep s.member.tree
        (deliveredPushes share writer s.writer (steps ++ [.offer true now])) := by
  have hfinal := run_quiet_iff share writer member s
    (steps ++ [.offer true now])
  constructor
  · exact fun h => (hfinal.mp h.2).2
  · intro hstep
    have hall := hfinal.mpr ⟨hquiet, hstep⟩
    refine ⟨?_, hall⟩
    rw [← World.run_writer share writer member] at hlast
    rw [World.run_append] at hall ⊢
    have hone : (s.run share writer member steps).run share writer member [.offer true now] =
        (s.run share writer member steps).receive share member now p := by
      simp only [World.run_cons, World.step, hlast]
      rfl
    rw [hone] at hall ⊢
    -- the last push was taken, and it carries the writer's tip
    have htakes := ((receive_quiet_iff share member _ now p).mp hall).2
    exact (serve_of_takes share member _ htakes).1.trans (reconcileSharedPush_newTree hlast).symm

/-! ### Gaps -/

/-- Counting the writer's commits the member has not seen: at most one of them
when an offer is delivered. -/
def NoGap (writer : Device) : Nat → History → List WriterStep → Prop
  | _, _, [] => True
  | behind, h, .commit now tree payload :: steps =>
    let h' := writeCommit writer now h tree (.other payload)
    NoGap writer (behind + (h'.length - h.length)) h' steps
  | behind, h, .offer delivered _ :: steps =>
    if delivered = true ∧ 2 ≤ h.length then behind ≤ 1 ∧ NoGap writer 0 h steps
    else NoGap writer behind h steps

theorem writerAfter_suffix (h : History) (steps : List WriterStep) :
    h <:+ writerAfter writer h steps := by
  induction steps generalizing h with
  | nil => exact List.suffix_rfl
  | cons st steps ih =>
    cases st with
    | offer delivered now => exact ih h
    | commit now tree payload =>
      refine List.IsSuffix.trans ?_ (ih _)
      unfold writeCommit
      split_ifs
      · exact List.suffix_rfl
      · exact List.suffix_cons _ _

theorem writerAfter_offer (h : History) (steps : List WriterStep) (delivered : Bool) (now : Int) :
    writerAfter writer h (steps ++ [.offer delivered now]) = writerAfter writer h steps := by
  induction steps generalizing h with
  | nil => rfl
  | cons st steps ih =>
    cases st with
    | commit now' tree payload => exact ih _
    | offer offered now' => exact ih h

theorem tree_drop {h : History} {k : Nat} (hk : k < h.length) :
    History.tree (h.drop k) = some ((h.map Commit.rootTree).get ⟨k, by simpa using hk⟩) := by
  rw [History.tree, List.head?_drop, List.getElem?_eq_getElem hk, Option.map_some,
    List.get_eq_getElem, List.getElem_map]

/-- With no tree twice in the history, the tip's push is taken by the tip itself
and by its parent only. -/
theorem takes_drop_iff {tip parent : Commit} {older : History} {k : Nat} {p : SharedChainPush}
    (hp : reconcileSharedPush share writer (tip :: parent :: older) = some p)
    (hnodup : ((tip :: parent :: older).map Commit.rootTree).Nodup)
    (hk : k < (tip :: parent :: older).length) :
    Takes (History.tree ((tip :: parent :: older).drop k)) p ↔ k ≤ 1 := by
  cases hp
  rw [tree_drop hk, Takes]
  have hat (j : Fin ((tip :: parent :: older).map Commit.rootTree).length) :=
    hnodup.get_inj_iff (i := ⟨k, by simpa using hk⟩) (j := j)
  have htip := hat ⟨0, by simp⟩
  have hparent := hat ⟨1, by simp⟩
  simp only [Fin.mk.injEq] at htip hparent
  simp only [reduceCtorEq, Option.some.injEq, false_or]
  refine (or_congr htip hparent).trans ?_
  omega

/-- **No gap, no conflict.** Where no tree of the writer comes back, the pushes
are in step exactly when at most one commit lies between two deliveries. -/
theorem inStep_iff_noGap {h : History} {steps : List WriterStep} {behind : Nat}
    (hnodup : ((writerAfter writer h steps).map Commit.rootTree).Nodup)
    (hbehind : behind < h.length) :
    InStep (History.tree (h.drop behind)) (deliveredPushes share writer h steps) ↔
      NoGap writer behind h steps := by
  induction steps generalizing h behind with
  | nil => simp [deliveredPushes, InStep, NoGap]
  | cons st steps ih =>
    cases st with
    | commit now tree payload =>
      simp only [deliveredPushes, NoGap]
      simp only [writerAfter] at hnodup
      unfold writeCommit at hnodup ⊢
      split_ifs at hnodup ⊢ with hsame
      · simpa using ih hnodup hbehind
      · have := ih hnodup (show behind + 1 < _ by simpa using hbehind)
        simpa using this
    | offer delivered now =>
      simp only [deliveredPushes, NoGap]
      simp only [writerAfter] at hnodup
      match h, hnodup, hbehind with
      | [], _, hbehind => exact absurd hbehind (Nat.not_lt_zero _)
      | [only], hnodup, hbehind =>
        simpa [reconcileSharedPush] using ih hnodup hbehind
      | tip :: parent :: older, hnodup, hbehind =>
        cases delivered with
        | false => simpa using ih hnodup hbehind
        | true =>
          have htrees := List.Nodup.sublist
            ((writerAfter_suffix writer _ steps).sublist.map _) hnodup
          have hrest := ih hnodup (show 0 < _ by simp)
          have htakes := takes_drop_iff share writer rfl htrees hbehind
          have htwo : 2 ≤ (tip :: parent :: older).length := by simp
          simp only [if_true, true_and, if_pos htwo]
          show Takes _ _ ∧ InStep _ _ ↔ _
          rw [htakes, ← hrest]
          rfl

/-- **How far behind a member may fall.** Where no tree of the writer comes back, a member that
starts at an earlier tree of the chain ends at the writer's tip, with no conflict named and no
sidecar left, if and only if at most one commit lay between any two offers that reached it. -/
theorem member_follows_iff (writing held : History) (steps : List WriterStep) (now : Int)
    (p : SharedChainPush) (behind : Nat) (hbehind : behind < writing.length)
    (hheld : held.tree = History.tree (writing.drop behind))
    (hnodup : ((writerAfter writer writing steps).map Commit.rootTree).Nodup)
    (hlast : reconcileSharedPush share writer (writerAfter writer writing steps) = some p) :
    (World.run share writer member ⟨writing, held, []⟩ (steps ++ [.offer true now])).CaughtUp ↔
      NoGap writer behind writing (steps ++ [.offer true now]) := by
  rw [← writerAfter_offer writer writing steps true now] at hnodup
  rw [← inStep_iff_noGap share writer hnodup hbehind, ← hheld]
  exact run_caughtUp_iff share writer member ⟨writing, held, []⟩ nofun steps now hlast

/-- **A member that missed pushes follows the writer exactly while the pushes it
gets are in step.** After the last push, delivered, it holds the writer's tip with
no conflict named and no sidecar left, if and only if each push that reached it
started from, or ended at, the tree it held. -/
theorem member_catches_up_iff (share : ShareRow) (writer member : Device)
    (writing held : History) (steps : List WriterStep) (now : Int) (p : SharedChainPush)
    (hlast : reconcileSharedPush share writer (writerAfter writer writing steps) = some p) :
    (World.run share writer member ⟨writing, held, []⟩ (steps ++ [.offer true now])).CaughtUp ↔
      InStep held.tree
        (deliveredPushes share writer writing (steps ++ [.offer true now])) :=
  run_caughtUp_iff share writer member ⟨writing, held, []⟩ nofun steps now hlast

end

/-! ### A lost push -/

def demoShare : ShareRow := ⟨"share-1", "chain/work"⟩

/-- A chain both members share, at its first tree. -/
def demoBase : History := [⟨demoTree [("a.md", [1])], 10, "ann", .other .null⟩]

/-- Two edits, the first offered to nobody. -/
def demoGap (offered : Bool) : List WriterStep :=
  [.commit 20 (demoTree [("a.md", [2])]) .null, .offer offered 21,
    .commit 30 (demoTree [("a.md", [3])]) .null]

/-- The first push is lost and the second one finds a tree it does not start
from: the member names a conflict, resolves nothing, and keeps its old tree. -/
theorem member_catches_up_fails :
    (World.run demoShare (demoDevice "ann") (demoDevice "bob") ⟨demoBase, demoBase, []⟩
      (demoGap false ++ [.offer true 31])).outcomes = [.unresolved ""] ∧
    ¬(World.run demoShare (demoDevice "ann") (demoDevice "bob") ⟨demoBase, demoBase, []⟩
      (demoGap false ++ [.offer true 31])).CaughtUp := by
  have hrun : (World.run demoShare (demoDevice "ann") (demoDevice "bob") ⟨demoBase, demoBase, []⟩
      (demoGap false ++ [.offer true 31])).outcomes = [.unresolved ""] ∧
    (World.run demoShare (demoDevice "ann") (demoDevice "bob") ⟨demoBase, demoBase, []⟩
      (demoGap false ++ [.offer true 31])).member.tree ≠
    (World.run demoShare (demoDevice "ann") (demoDevice "bob") ⟨demoBase, demoBase, []⟩
      (demoGap false ++ [.offer true 31])).writer.tree := by
    decide +kernel
  exact ⟨hrun.1, fun hcaught => hrun.2 hcaught.1⟩

/-- With both pushes delivered the member holds the writer's tip. -/
theorem member_catches_up_demo :
    (World.run demoShare (demoDevice "ann") (demoDevice "bob") ⟨demoBase, demoBase, []⟩
      (demoGap true ++ [.offer true 31])).CaughtUp := by
  obtain ⟨hoffer, hstep⟩ : (reconcileSharedPush demoShare (demoDevice "ann")
      (writerAfter (demoDevice "ann") demoBase (demoGap true))).isSome = true ∧
      InStep demoBase.tree (deliveredPushes demoShare (demoDevice "ann") demoBase
        (demoGap true ++ [.offer true 31])) := by
    decide +kernel
  obtain ⟨p, hp⟩ := Option.isSome_iff_exists.mp hoffer
  exact (member_catches_up_iff demoShare (demoDevice "ann") (demoDevice "bob") demoBase demoBase
    (demoGap true) 31 p hp).mpr hstep

/-- One commit between two offers is no gap. -/
theorem member_follows_demo :
    (World.run demoShare (demoDevice "ann") (demoDevice "bob") ⟨demoBase, demoBase, []⟩
      (demoGap true ++ [.offer true 31])).CaughtUp := by
  obtain ⟨hoffer, hnodup, hfirst, hsecond⟩ : (reconcileSharedPush demoShare (demoDevice "ann")
      (writerAfter (demoDevice "ann") demoBase (demoGap true))).isSome = true ∧
      ((writerAfter (demoDevice "ann") demoBase (demoGap true)).map Commit.rootTree).Nodup ∧
      (writerAfter (demoDevice "ann") demoBase ((demoGap true).take 1)).length = 2 ∧
      (writerAfter (demoDevice "ann") demoBase (demoGap true)).length = 3 := by
    decide +kernel
  obtain ⟨p, hp⟩ := Option.isSome_iff_exists.mp hoffer
  refine (member_follows_iff demoShare (demoDevice "ann") (demoDevice "bob") demoBase demoBase
    (demoGap true) 31 p 0 (by decide) rfl hnodup hp).mpr ?_
  simp only [demoGap, List.take, writerAfter] at hfirst hsecond
  simp [demoGap, NoGap, show demoBase.length = 1 from rfl, hfirst, hsecond]

end Softfig.Share
