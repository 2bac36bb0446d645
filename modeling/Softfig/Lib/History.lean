import Mathlib.Data.List.Chain
import Mathlib.Data.List.Nodup

/-!
The recent part of a growing history: what a window keeps, what a cap keeps, and the run at the end
of a list in which neighbours differ.

- `capped_windowed_snoc`: a history that was pruned and capped before holds what one that never was
  would hold now;
- `isChain_lastRun`, `suffix_lastRun`: walking back from the end finds the longest run;
- `lastRun_concat`: with one entry more the run goes on, or begins anew;
- `pingPong_or_third`: a run is between two values, or a third value stands before its part that is.
-/

namespace Softfig.Lib

/-! ### Windows and caps -/

section window

variable {α : Type} (time : α → Int)

/-- The entries from a time on. -/
def windowed (cutoff : Int) (l : List α) : List α := l.filter fun a => cutoff ≤ time a

/-- The last `n` entries. -/
def capped (n : Nat) (l : List α) : List α := l.drop (l.length - n)

/-- Each entry is no later than those after it. -/
def InOrder (l : List α) : Prop := l.Pairwise fun a b => time a ≤ time b

variable {time} {cutoff cutoff' : Int} {l : List α} {a : α} {n : Nat}

theorem InOrder.sublist {l' : List α} (h : InOrder time l) (hsub : l'.Sublist l) :
    InOrder time l' := List.Pairwise.sublist hsub h

theorem windowed_sublist (cutoff : Int) (l : List α) : (windowed time cutoff l).Sublist l :=
  List.filter_sublist

theorem windowed_windowed (h : cutoff ≤ cutoff') (l : List α) :
    windowed time cutoff' (windowed time cutoff l) = windowed time cutoff' l := by
  rw [windowed, windowed, List.filter_filter]
  refine List.filter_congr fun a _ => ?_
  rw [Bool.eq_iff_iff, Bool.and_eq_true, decide_eq_true_eq, decide_eq_true_eq]
  exact ⟨fun hboth => hboth.1, fun hlate => ⟨hlate, Int.le_trans h hlate⟩⟩

theorem windowed_append (l l' : List α) : windowed time cutoff (l ++ l') =
    windowed time cutoff l ++ windowed time cutoff l' := List.filter_append ..

theorem capped_append {l' : List α} (h : n ≤ l'.length) : capped n (l ++ l') = capped n l' := by
  rw [capped, List.length_append, List.drop_append, List.drop_eq_nil_of_le (by omega),
    List.nil_append, capped]
  congr 1
  omega

theorem capped_of_le (h : l.length ≤ n) : capped n l = l := by
  rw [capped, Nat.sub_eq_zero_of_le h, List.drop_zero]

/-- What a window and a cap keep does not depend on what an earlier cap dropped. -/
theorem capped_windowed_snoc (h : InOrder time (l ++ [a])) :
    capped n (windowed time cutoff (capped n l ++ [a])) = capped n (windowed time cutoff (l ++ [a])) := by
  rcases Nat.le_total l.length n with hshort | hlong
  · rw [capped_of_le hshort]
  · have hlength : (capped n l).length = n := by
      rw [capped, List.length_drop]
      omega
    have hsplit : l ++ [a] = l.take (l.length - n) ++ (capped n l ++ [a]) := by
      rw [capped, ← List.append_assoc, List.take_append_drop]
    have horder : InOrder time (l.take (l.length - n) ++ (capped n l ++ [a])) := hsplit ▸ h
    rw [hsplit, windowed_append (l.take _)]
    by_cases hdropped : windowed time cutoff (l.take (l.length - n)) = []
    · rw [hdropped, List.nil_append]
    · obtain ⟨b, hb⟩ := List.exists_mem_of_ne_nil _ hdropped
      obtain ⟨hmem, hlate⟩ := List.mem_filter.mp hb
      have hkept : windowed time cutoff (capped n l ++ [a]) = capped n l ++ [a] := by
        refine List.filter_eq_self.mpr fun c hc => decide_eq_true ?_
        exact Int.le_trans (of_decide_eq_true hlate)
          ((List.pairwise_append.mp horder).2.2 b hmem c hc)
      rw [hkept]
      refine (capped_append ?_).symm
      rw [List.length_append, hlength]
      exact Nat.le_add_right _ _

theorem suffix_capped {l' : List α} (hl' : l' <:+ l) (h : l'.length ≤ n) : l' <:+ capped n l := by
  refine List.suffix_of_suffix_length_le hl' (List.drop_suffix _ _) ?_
  have hle := hl'.length_le
  rw [capped, List.length_drop]
  omega

end window

/-! ### The run at the end -/

section runs

variable {α : Type} (r : α → α → Bool)

/-- Walk back from a place while each entry is related to the one after it. -/
def walkBack (l : List α) : Nat → Nat
  | 0 => 0
  | start + 1 =>
    match l[start]?, l[start + 1]? with
    | some a, some b => if r a b then walkBack l start else start + 1
    | _, _ => start + 1

variable {r} {l : List α} {start : Nat}

theorem walkBack_le : walkBack r l start ≤ start := by
  induction start with
  | zero => exact Nat.le_refl 0
  | succ start ih =>
    unfold walkBack
    split
    · split
      · exact ih.trans (Nat.le_succ _)
      · exact Nat.le_refl _
    · exact Nat.le_refl _

/-- What is walked over is a run, if what lay behind the place was. -/
theorem isChain_drop_of_start (h : (l.drop start).IsChain (r · ·)) :
    (l.drop (walkBack r l start)).IsChain (r · ·) := by
  induction start with
  | zero => exact h
  | succ start ih =>
    unfold walkBack
    split
    · rename_i a b ha hb
      split
      · rename_i hrelated
        refine ih ?_
        obtain ⟨hlt, rfl⟩ := List.getElem?_eq_some_iff.mp ha
        obtain ⟨hlt', rfl⟩ := List.getElem?_eq_some_iff.mp hb
        rw [List.drop_eq_getElem_cons hlt]
        refine h.cons fun c hc => ?_
        rw [List.drop_eq_getElem_cons hlt', List.head?_cons, Option.mem_some_iff] at hc
        rwa [← hc]
      · exact h
    · exact h

/-- No run begins before the place the walk ends at. -/
theorem walkBack_le_of_isChain {j : Nat} (hlt : start < l.length) (hle : j ≤ start)
    (h : (l.drop j).IsChain (r · ·)) : walkBack r l start ≤ j := by
  induction start with
  | zero => exact Nat.zero_le _
  | succ start ih =>
    rcases Nat.lt_or_eq_of_le hle with hj | rfl
    · have hprev : start < l.length := Nat.lt_of_succ_lt hlt
      have hrelated : r l[start] l[start + 1] = true := by
        have hchain := h.getElem (start - j) (by rw [List.length_drop]; omega)
        simp only [List.getElem_drop] at hchain
        have hindex : j + (start - j) = start := by omega
        have hnext : j + (start - j + 1) = start + 1 := by omega
        simpa only [hindex, hnext] using hchain
      unfold walkBack
      rw [List.getElem?_eq_getElem hprev, List.getElem?_eq_getElem hlt]
      simp only [hrelated, if_true]
      exact ih hprev (Nat.le_of_lt_succ hj)
    · exact walkBack_le

/-- The run found by walking back from the end. -/
def lastRun (r : α → α → Bool) (l : List α) : List α := l.drop (walkBack r l (l.length - 1))

theorem isChain_lastRun (r : α → α → Bool) (l : List α) : (lastRun r l).IsChain (r · ·) := by
  refine isChain_drop_of_start ?_
  have hle : (l.drop (l.length - 1)).length ≤ 1 := by
    rw [List.length_drop]
    omega
  match l.drop (l.length - 1), hle with
  | [], _ => exact .nil
  | [a], _ => exact .singleton a

theorem lastRun_suffix (r : α → α → Bool) (l : List α) : lastRun r l <:+ l := List.drop_suffix _ _

/-- **The run found is the longest** at the end of the list. -/
theorem suffix_lastRun {run : List α} (hrun : run <:+ l) (h : run.IsChain (r · ·)) :
    run <:+ lastRun r l := by
  obtain ⟨front, rfl⟩ := hrun
  cases run with
  | nil => exact List.nil_suffix
  | cons a run =>
    have hdrop : (front ++ a :: run).drop front.length = a :: run := List.drop_left
    have hle := @walkBack_le_of_isChain _ r (front ++ a :: run) ((front ++ a :: run).length - 1)
      front.length (by simp) (by simp) (by rwa [hdrop])
    have hmore : (front ++ a :: run).drop front.length <:+ lastRun r (front ++ a :: run) := by
      obtain ⟨k, hk⟩ := Nat.exists_eq_add_of_le hle
      rw [lastRun, hk, ← List.drop_drop]
      exact List.drop_suffix _ _
    rwa [hdrop] at hmore

/-- The run at the end goes on, or begins anew. -/
theorem lastRun_concat (r : α → α → Bool) (l : List α) (a : α) :
    lastRun r (l ++ [a]) =
      if l.getLast?.any fun b => r b a then lastRun r l ++ [a] else [a] := by
  obtain ⟨run, hrun⟩ := suffix_lastRun (List.suffix_append l [a]) (.singleton (R := (r · ·)) a)
  have hchain := isChain_lastRun r (l ++ [a])
  have hsuffix := lastRun_suffix r (l ++ [a])
  rw [← hrun] at hchain hsuffix
  rw [List.suffix_append_self_iff] at hsuffix
  rw [← hrun]
  rcases List.eq_nil_or_concat l with rfl | ⟨front, b, rfl⟩
  · rw [List.suffix_nil.mp hsuffix]
    rfl
  · rw [List.concat_eq_append] at hsuffix hrun ⊢
    rw [List.getLast?_concat, Option.any_some]
    split
    · rename_i hrelated
      have hold := suffix_lastRun hsuffix hchain.left_of_append
      obtain ⟨before, hbefore⟩ := suffix_lastRun (List.suffix_append front [b])
        (.singleton (R := (r · ·)) b)
      have hgoes : (lastRun r (front ++ [b]) ++ [a]).IsChain (r · ·) := by
        refine (isChain_lastRun r _).append (.singleton a) ?_
        rw [← hbefore, List.getLast?_concat]
        rintro _ ⟨⟩ _ ⟨⟩
        exact hrelated
      have hnew := suffix_lastRun (List.suffix_append_self_iff.mpr (lastRun_suffix r (front ++ [b])))
        hgoes
      rw [← hrun, List.suffix_append_self_iff] at hnew
      rw [hold.eq_of_length_le hnew.length_le]
    · rename_i hunrelated
      rcases List.suffix_concat_iff.mp hsuffix with rfl | ⟨before, rfl, -⟩
      · rfl
      · have hrelated := hchain.rel_getLast_head_of_append (by simp) (by simp)
        exact absurd hrelated (by simpa using hunrelated)

end runs

/-! ### Two values in turn -/

section turns

variable {α β : Type} (f : α → β)

/-- Neighbours differ, and there are no more than two values. -/
structure PingPong (run : List α) : Prop where
  turns : run.IsChain fun a b => f a ≠ f b
  two : ∃ x y, ∀ a ∈ run, f a = x ∨ f a = y

variable {f} {run run' : List α}

theorem PingPong.suffix (h : PingPong f run) (hrun : run' <:+ run) : PingPong f run' := by
  obtain ⟨x, y, htwo⟩ := h.two
  exact ⟨h.turns.suffix hrun, x, y, fun a ha => htwo a (hrun.subset ha)⟩

/-- Neighbours that differ are the two values. -/
theorem PingPong.mem_iff {a b : α} {rest : List α} (h : PingPong f (a :: b :: rest)) :
    f a ≠ f b ∧ ∀ c ∈ a :: b :: rest, f c = f a ∨ f c = f b := by
  have hne : f a ≠ f b := h.turns.rel
  obtain ⟨x, y, htwo⟩ := h.two
  refine ⟨hne, fun c hc => ?_⟩
  have ha := htwo a List.mem_cons_self
  have hb := htwo b (List.mem_cons_of_mem _ List.mem_cons_self)
  have hc := htwo c hc
  rcases ha with ha | ha <;> rcases hb with hb | hb <;> rcases hc with hc | hc <;> simp_all

/-- A third value stands before the part of a run that is between two. -/
theorem pingPong_or_third (hchain : run.IsChain fun a b => f a ≠ f b) (hrun : run' <:+ run)
    (h : PingPong f run') (hlong : 2 ≤ run'.length) :
    PingPong f run ∨ ∃ third rest, third :: rest <:+ run ∧ run' <:+ rest ∧ PingPong f rest ∧
      ∀ a ∈ rest, f third ≠ f a := by
  induction run with
  | nil =>
    rw [List.suffix_nil.mp hrun, List.length_nil] at hlong
    exact absurd hlong (by simp)
  | cons a run ih =>
    rcases List.suffix_cons_iff.mp hrun with rfl | hrun
    · exact .inl h
    · rcases ih hchain.tail hrun with hpair | ⟨third, rest, hthird, hrest⟩
      · by_cases hold : ∃ b ∈ run, f a = f b
        · obtain ⟨b, hb, hab⟩ := hold
          obtain ⟨x, y, htwo⟩ := hpair.two
          refine .inl ⟨hchain, x, y, fun c hc => ?_⟩
          rcases List.mem_cons.mp hc with rfl | hc
          · rw [hab]
            exact htwo b hb
          · exact htwo c hc
        · exact .inr ⟨a, run, List.suffix_refl _, hrun, hpair, fun b hb hab => hold ⟨b, hb, hab⟩⟩
      · exact .inr ⟨third, rest, hthird.trans (List.suffix_cons ..), hrest⟩

variable [DecidableEq β]

/-- The values of a list in the order they are first seen. -/
def firstSeen (f : α → β) (l : List α) : List β :=
  l.foldl (fun order a => if f a ∈ order then order else order ++ [f a]) []

theorem mem_firstSeen_iff {y : β} : y ∈ firstSeen f run ↔ ∃ a ∈ run, f a = y := by
  induction run using List.reverseRecOn with
  | nil => simp [firstSeen]
  | append_singleton run a ih =>
    have hfold : firstSeen f (run ++ [a]) =
        if f a ∈ firstSeen f run then firstSeen f run else firstSeen f run ++ [f a] :=
      List.foldl_append
    rw [hfold]
    split
    · rename_i hold
      rw [ih]
      constructor
      · rintro ⟨b, hb, hby⟩
        exact ⟨b, List.mem_append_left _ hb, hby⟩
      · rintro ⟨b, hb, hby⟩
        rcases List.mem_append.mp hb with hb | hb
        · exact ⟨b, hb, hby⟩
        · obtain rfl := List.mem_singleton.mp hb
          exact ih.mp (hby ▸ hold)
    · rw [List.mem_append, ih, List.mem_singleton]
      simp only [List.mem_append, List.mem_singleton, or_and_right, exists_or, exists_eq_left]
      exact or_congr_right ⟨Eq.symm, Eq.symm⟩

theorem nodup_firstSeen : (firstSeen f run).Nodup := by
  induction run using List.reverseRecOn with
  | nil => exact .nil
  | append_singleton run a ih =>
    have hfold : firstSeen f (run ++ [a]) =
        if f a ∈ firstSeen f run then firstSeen f run else firstSeen f run ++ [f a] :=
      List.foldl_append
    rw [hfold]
    split
    · exact ih
    · rename_i hnew
      rw [← List.concat_eq_append]
      exact ih.concat hnew

/-- A run sees two values exactly if it is between two. -/
theorem length_firstSeen_iff (hchain : run.IsChain fun a b => f a ≠ f b) (hlong : 2 ≤ run.length) :
    (firstSeen f run).length = 2 ↔ PingPong f run := by
  constructor
  · intro htwo
    obtain ⟨x, y, hxy⟩ := List.length_eq_two.mp htwo
    refine ⟨hchain, x, y, fun a ha => ?_⟩
    have hmem : f a ∈ firstSeen f run := mem_firstSeen_iff.mpr ⟨a, ha, rfl⟩
    simpa [hxy] using hmem
  · intro h
    match run, hlong, h with
    | a :: b :: rest, _, h =>
      obtain ⟨hne, htwo⟩ := h.mem_iff
      have hperm : (firstSeen f (a :: b :: rest)).Perm [f a, f b] := by
        refine (List.perm_ext_iff_of_nodup nodup_firstSeen (by simpa using hne)).mpr fun y => ?_
        rw [mem_firstSeen_iff]
        constructor
        · rintro ⟨c, hc, rfl⟩
          simpa using htwo c hc
        · intro hy
          rcases List.mem_pair.mp hy with rfl | rfl
          · exact ⟨a, List.mem_cons_self, rfl⟩
          · exact ⟨b, List.mem_cons_of_mem _ List.mem_cons_self, rfl⟩
      exact hperm.length_eq

end turns

end Softfig.Lib
