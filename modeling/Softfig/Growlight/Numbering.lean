import Softfig.Growlight.Bus

/-!
The numbers of a folder of numbered documents.

A folder has a `.seq` file with the last number handed out, and documents
`NNN-<slug>.md`. The next number is one past the larger of the two, in 32 bits;
the names are read by a parser that knows three digits only. Between two adds
anyone may remove or rename documents and lose or edit the `.seq` file.

- `fresh_of_sound`: where the counter has room and covers the numbers the parser
  does not read, the next number is no document's and exceeds the counter;
- `upheld_of_allSound`: so it is along every run whose adds find the folder so;
- `exists_adds_not_upheld`: from any other folder some adds break it.
-/

namespace Softfig.Growlight.Numbering

open Doc (Text)
open Queue (noteFilename parseNoteNumber)

/-- A folder: the text of its `.seq` file, and the names in it. -/
structure Folder where
  seq : Option Text
  files : List String

/-- A document of a number. -/
def HasNumber (name : String) (number : Nat) : Prop := ∃ slug, name = noteFilename number slug

namespace Folder

variable (f : Folder)

/-- The number in the `.seq` file. -/
def readSeq : Nat := readCounter f.seq

/-- The highest number of a name the parser reads. -/
def highestLiveNumber : Nat := (f.files.filterMap parseNoteNumber).foldl max 0

/-- The larger of the two. -/
def mark : Nat := max f.readSeq f.highestLiveNumber

/-- One past the mark, in 32 bits. -/
def nextNumber : Nat := (f.mark + 1) % 2 ^ 32

/-- Bump the counter and write the document. A name that exists and a write the guard refuses
leave the folder as it is. -/
def writeNumbered (number : Nat) (name : String) (allowed : Bool) : Option Folder :=
  if name ∈ f.files then none
  else if !allowed then none
  else some ⟨some (counterText number), f.files ++ [name]⟩

end Folder

/-- What happens in a folder. -/
inductive Call where
  /-- a document is added under the next number -/
  | add (slug : String) (allowed : Bool)
  | remove (name : String)
  | rename (src dst : String)
  /-- the `.seq` file is lost, or written by hand -/
  | setSeq (text : Option Text)

namespace Folder

/-- The folder an add leaves, where it is not refused. -/
def add (f : Folder) (slug : String) (allowed : Bool) : Option Folder :=
  f.writeNumbered f.nextNumber (noteFilename f.nextNumber slug) allowed

def apply (f : Folder) : Call → Folder
  | .add slug allowed => (f.add slug allowed).getD f
  | .remove name => { f with files := f.files.filter (· ≠ name) }
  | .rename src dst =>
    if src ∈ f.files then
      { f with files := (f.files.filter fun name => name ≠ src ∧ name ≠ dst) ++ [dst] }
    else f
  | .setSeq text => { f with seq := text }

/-- The number a call hands out. -/
def handed (f : Folder) : Call → Option Nat
  | .add slug allowed => (f.add slug allowed).map fun _ => f.nextNumber
  | _ => none

def run (f : Folder) (calls : List Call) : Folder := calls.foldl apply f

/-! ### What the numbers are for -/

/-- The next number is no document's, and it exceeds the counter. -/
structure Fresh (f : Folder) : Prop where
  unused : ∀ name ∈ f.files, ¬ HasNumber name f.nextNumber
  above : f.readSeq < f.nextNumber

/-- The call leaves the `.seq` file to the adds. -/
def KeepsSeq : Call → Prop
  | .setSeq _ => False
  | _ => True

/-- Every add of a run finds a fresh number, and between two adds that leave the counter alone the
numbers grow. -/
structure Upheld (f : Folder) (calls : List Call) : Prop where
  fresh : ∀ before slug allowed after, calls = before ++ .add slug allowed :: after →
    (f.run before).Fresh
  increasing : ∀ before first between second after,
    calls = before ++ first :: between ++ second :: after → (∀ c ∈ between, KeepsSeq c) →
    ∀ n m, (f.run before).handed first = some n →
      (f.run (before ++ first :: between)).handed second = some m → n < m

/-- The counter has room, and once numbers of four digits come it covers the documents that have
one. -/
structure Sound (f : Folder) : Prop where
  room : f.mark + 1 < 2 ^ 32
  covered : 999 ≤ f.mark → ∀ name ∈ f.files, ∀ number, HasNumber name number →
    1000 ≤ number → number < 2 ^ 32 → number ≤ f.readSeq

/-- Every add of a run finds the folder sound. -/
def AllSound : Folder → List Call → Prop
  | _, [] => True
  | f, .add slug allowed :: calls => f.Sound ∧ AllSound (f.apply (.add slug allowed)) calls
  | f, call :: calls => AllSound (f.apply call) calls

end Folder

/-! ### The two sources of a number -/

theorem readCounter_lt (content : Option Text) : readCounter content < 2 ^ 32 := by
  rw [readCounter]
  cases hread : content.bind fun text => parseU32 (Queue.trim text) with
  | none => exact Nat.two_pow_pos 32
  | some number =>
    obtain ⟨text, -, hparse⟩ := Option.bind_eq_some_iff.mp hread
    unfold parseU32 at hparse
    dsimp only at hparse
    split at hparse
    · rename_i h
      rw [← Option.some.inj hparse]
      exact h.2.2
    · cases hparse

theorem digit_le {c : Char} (h : c.isDigit = true) : c.toNat - '0'.toNat ≤ 9 := by
  rw [Char.isDigit, Bool.and_eq_true, decide_eq_true_eq, decide_eq_true_eq] at h
  have h9 : c.toNat ≤ '9'.toNat := h.2
  have : '9'.toNat = 57 := rfl
  have : '0'.toNat = 48 := rfl
  omega

/-- The parser reads three digits. -/
theorem parseNoteNumber_lt {name : String} {number : Nat}
    (h : parseNoteNumber name = some number) : number < 1000 := by
  unfold parseNoteNumber at h
  split at h
  · rename_i a b c rest hname
    split at h
    · rename_i hdigits
      simp only [Bool.and_eq_true] at hdigits
      obtain ⟨⟨⟨ha, hb⟩, hc⟩, -⟩ := hdigits
      have ha := digit_le ha
      have hb := digit_le hb
      have hc := digit_le hc
      rw [← Option.some.inj h]
      simp only [Nat.ofDigitChars_cons, Nat.ofDigitChars_nil]
      omega
    · cases h
  · cases h

theorem first_le_foldl_max (numbers : List Nat) (first : Nat) :
    first ≤ numbers.foldl max first := by
  induction numbers generalizing first with
  | nil => exact Nat.le_refl first
  | cons number numbers ih => exact (le_max_left first number).trans (ih _)

theorem le_foldl_max {numbers : List Nat} {first number : Nat} (h : number ∈ numbers) :
    number ≤ numbers.foldl max first := by
  induction numbers generalizing first with
  | nil => cases h
  | cons other numbers ih =>
    rcases List.mem_cons.mp h with rfl | h
    · exact (le_max_right first number).trans (first_le_foldl_max numbers _)
    · exact ih h

namespace Folder

variable {f : Folder}

theorem highestLiveNumber_le (f : Folder) : f.highestLiveNumber ≤ 999 := by
  refine foldl_max_le (Nat.zero_le _) fun number hnumber => ?_
  obtain ⟨name, -, hname⟩ := List.mem_filterMap.mp hnumber
  exact Nat.le_of_lt_succ (parseNoteNumber_lt hname)

/-- A document of three digits is not above the mark. -/
theorem le_mark {name : String} (hname : name ∈ f.files) {number : Nat}
    (h : HasNumber name number) (hsmall : number < 1000) : number ≤ f.mark := by
  obtain ⟨slug, rfl⟩ := h
  have hmem : number ∈ f.files.filterMap parseNoteNumber :=
    List.mem_filterMap.mpr ⟨_, hname, parseNoteNumber_noteFilename hsmall slug⟩
  exact (le_foldl_max hmem).trans (le_max_right _ _)

theorem nextNumber_eq (h : f.mark + 1 < 2 ^ 32) : f.nextNumber = f.mark + 1 :=
  Nat.mod_eq_of_lt h

/-- **A sound folder hands out a fresh number.** -/
theorem Sound.fresh (h : f.Sound) : f.Fresh := by
  constructor
  · intro name hname hnumber
    rw [nextNumber_eq h.room] at hnumber
    by_cases hsmall : f.mark + 1 < 1000
    · have := le_mark hname hnumber hsmall
      omega
    · have hle := h.covered (by omega) name hname _ hnumber (by omega) h.room
      have : f.readSeq ≤ f.mark := le_max_left _ _
      omega
  · rw [nextNumber_eq h.room]
    exact Nat.lt_succ_of_le (le_max_left _ _)

/-! ### A run of sound adds -/

theorem add_eq_some {slug : String} {allowed : Bool} {g : Folder} (h : f.add slug allowed = some g) :
    g = ⟨some (counterText f.nextNumber), f.files ++ [noteFilename f.nextNumber slug]⟩ := by
  unfold add writeNumbered at h
  split at h
  · cases h
  · split at h
    · cases h
    · exact (Option.some.inj h).symm

theorem nextNumber_lt (f : Folder) : f.nextNumber < 2 ^ 32 := Nat.mod_lt _ (Nat.two_pow_pos 32)

theorem readSeq_add {slug : String} {allowed : Bool} {g : Folder}
    (h : f.add slug allowed = some g) : g.readSeq = f.nextNumber := by
  rw [add_eq_some h]
  exact readCounter_counterText f.nextNumber_lt

theorem handed_eq_some {call : Call} {n : Nat} (h : f.handed call = some n) :
    n = f.nextNumber ∧ (f.apply call).readSeq = n ∧ ∃ slug allowed, call = .add slug allowed := by
  cases call with
  | add slug allowed =>
    obtain ⟨g, hg, rfl⟩ := Option.map_eq_some_iff.mp h
    refine ⟨rfl, ?_, slug, allowed, rfl⟩
    rw [apply, hg]
    exact readSeq_add hg
  | remove name => cases h
  | rename src dst => cases h
  | setSeq text => cases h

/-- Where the counter is left to the adds, it does not fall. -/
theorem readSeq_le_apply {call : Call} (hkeeps : KeepsSeq call)
    (hfresh : ∀ slug allowed, call = .add slug allowed → f.Fresh) :
    f.readSeq ≤ (f.apply call).readSeq := by
  cases call with
  | add slug allowed =>
    cases hadd : f.add slug allowed with
    | none =>
      rw [apply, hadd]
      exact Nat.le_refl _
    | some g =>
      rw [apply, hadd, Option.getD_some, readSeq_add hadd]
      exact (hfresh slug allowed rfl).above.le
  | remove name => exact Nat.le_refl _
  | rename src dst =>
    rw [apply]
    split
    · exact Nat.le_refl _
    · exact Nat.le_refl _
  | setSeq text => exact hkeeps.elim

theorem run_append (f : Folder) (first second : List Call) :
    f.run (first ++ second) = (f.run first).run second := List.foldl_append

/-- Every add of the run finds a fresh number. -/
def AllFresh (f : Folder) (calls : List Call) : Prop :=
  ∀ before slug allowed after, calls = before ++ .add slug allowed :: after →
    (f.run before).Fresh

theorem AllSound.allFresh {calls : List Call} (h : f.AllSound calls) : f.AllFresh calls := by
  induction calls generalizing f with
  | nil =>
    intro before slug allowed after heq
    simp at heq
  | cons call calls ih =>
    have hrest : (f.apply call).AllSound calls := by
      cases call with
      | add slug allowed => exact h.2
      | remove name => exact h
      | rename src dst => exact h
      | setSeq text => exact h
    intro before slug allowed after heq
    cases before with
    | nil =>
      obtain ⟨rfl, rfl⟩ := List.cons.inj heq
      exact h.1.fresh
    | cons first before =>
      obtain ⟨rfl, rfl⟩ := List.cons.inj heq
      exact ih hrest before slug allowed after rfl

/-- **Run lemma.** The counter does not fall along a run whose numbers are fresh. -/
theorem readSeq_le_run {calls : List Call} (h : f.AllFresh calls)
    (hkeeps : ∀ c ∈ calls, KeepsSeq c) : f.readSeq ≤ (f.run calls).readSeq := by
  induction calls generalizing f with
  | nil => exact Nat.le_refl _
  | cons call calls ih =>
    rw [List.forall_mem_cons] at hkeeps
    have hstep : f.readSeq ≤ (f.apply call).readSeq := by
      refine readSeq_le_apply hkeeps.1 ?_
      rintro slug allowed rfl
      exact h [] slug allowed calls rfl
    have hrest : (f.apply call).AllFresh calls := by
      rintro before slug allowed after rfl
      exact h (call :: before) slug allowed after rfl
    exact hstep.trans (ih hrest hkeeps.2)

/-- **A run whose adds find the folder sound** gives fresh numbers, in growing order. -/
theorem upheld_of_allSound {calls : List Call} (h : f.AllSound calls) : f.Upheld calls := by
  have hfresh := h.allFresh
  refine ⟨hfresh, ?_⟩
  rintro before first between second after rfl hkeeps n m hn hm
  obtain ⟨-, hseq, -⟩ := handed_eq_some hn
  obtain ⟨rfl, -, slug, allowed, rfl⟩ := handed_eq_some hm
  have hlater : (((f.run before).apply first).run between).Fresh := by
    have := hfresh (before ++ first :: between) slug allowed after rfl
    rwa [run_append] at this
  have hbetween : ((f.run before).apply first).AllFresh between := by
    rintro early slug' allowed' late rfl
    have := hfresh (before ++ first :: early) slug' allowed'
      (late ++ .add slug allowed :: after) (by simp)
    rwa [run_append] at this
  rw [run_append]
  calc n = ((f.run before).apply first).readSeq := hseq.symm
    _ ≤ (((f.run before).apply first).run between).readSeq := readSeq_le_run hbetween hkeeps
    _ < (((f.run before).apply first).run between).nextNumber := hlater.above

/-! ### From a folder that is not sound -/

theorem Upheld.tail {call : Call} {calls : List Call} (h : f.Upheld (call :: calls)) :
    (f.apply call).Upheld calls := by
  refine ⟨?_, ?_⟩
  · rintro before slug allowed after rfl
    exact h.fresh (call :: before) slug allowed after rfl
  · rintro before first between second after rfl hkeeps n m hn hm
    exact h.increasing (call :: before) first between second after (by simp) hkeeps n m hn hm

/-- The add of a document with a fixed slug. -/
def plainAdd : Call := .add "note" true

theorem not_upheld_of_not_fresh (h : ¬ f.Fresh) : ¬ f.Upheld (List.replicate 1 plainAdd) := by
  intro hupheld
  exact h (hupheld.fresh [] "note" true [] rfl)

/-- A fresh number is accepted. -/
theorem apply_plainAdd (h : f.Fresh) : f.apply plainAdd =
    ⟨some (counterText f.nextNumber), f.files ++ [noteFilename f.nextNumber "note"]⟩ := by
  have hnew : noteFilename f.nextNumber "note" ∉ f.files :=
    fun hmem => h.unused _ hmem ⟨"note", rfl⟩
  simp only [plainAdd, apply, add, writeNumbered, hnew, if_false, Bool.not_true, Bool.false_eq_true,
    Option.getD_some]

/-- Adds reach a number of four digits that the counter does not cover. -/
theorem exists_adds_reach {name : String} {number : Nat} (hname : name ∈ f.files)
    (hnumber : HasNumber name number) (hlt : number < 2 ^ 32) (hmark : 999 ≤ f.mark)
    (habove : f.mark < number) : ∃ k, ¬ f.Upheld (List.replicate k plainAdd) := by
  induction hdistance : number - f.mark generalizing f with
  | zero => omega
  | succ distance ih =>
    by_cases hfresh : f.Fresh
    · have hnext : f.nextNumber = f.mark + 1 := nextNumber_eq (by omega)
      have hne : number ≠ f.mark + 1 := by
        rintro rfl
        exact hfresh.unused name hname (hnext ▸ hnumber)
      have happly := apply_plainAdd hfresh
      have hseq : (f.apply plainAdd).readSeq = f.mark + 1 := by
        rw [happly, ← hnext]
        exact readCounter_counterText f.nextNumber_lt
      have hmark' : (f.apply plainAdd).mark = f.mark + 1 := by
        rw [mark, hseq]
        have := (f.apply plainAdd).highestLiveNumber_le
        omega
      have hmem : name ∈ (f.apply plainAdd).files := by
        rw [happly]
        exact List.mem_append_left _ hname
      obtain ⟨k, hk⟩ := ih hmem (by omega) (by omega) (by omega)
      exact ⟨k + 1, fun hupheld => hk hupheld.tail⟩
    · exact ⟨1, not_upheld_of_not_fresh hfresh⟩

/-- **From a folder that is not sound some adds hand out a number that is not fresh.** -/
theorem exists_adds_not_upheld (h : ¬ f.Sound) : ∃ k, ¬ f.Upheld (List.replicate k plainAdd) := by
  have hseq : f.readSeq < 2 ^ 32 := readCounter_lt f.seq
  have hlive := f.highestLiveNumber_le
  by_cases hroom : f.mark + 1 < 2 ^ 32
  · have hcovered : ¬ (999 ≤ f.mark → ∀ name ∈ f.files, ∀ number, HasNumber name number →
        1000 ≤ number → number < 2 ^ 32 → number ≤ f.readSeq) := fun hcovered => h ⟨hroom, hcovered⟩
    simp only [not_forall, not_le] at hcovered
    obtain ⟨hmark, name, hname, number, hnumber, hbig, hlt, habove⟩ := hcovered
    refine exists_adds_reach hname hnumber hlt hmark ?_
    rw [mark]
    omega
  · refine ⟨1, not_upheld_of_not_fresh fun hfresh => ?_⟩
    have hfull : f.mark + 1 = 2 ^ 32 := by
      rw [mark] at hroom ⊢
      omega
    have hzero : f.nextNumber = 0 := by rw [nextNumber, hfull, Nat.mod_self]
    have := hfresh.above
    omega

end Folder

/-- **The numbers of a folder** are fresh and grow along every run whose adds find it sound, and
from a folder that is not sound some run of adds breaks this. -/
theorem numbers_upheld (f : Folder) :
    (∀ calls, f.AllSound calls → f.Upheld calls) ∧
      (¬ f.Sound → ∃ k, ¬ f.Upheld (List.replicate k Folder.plainAdd)) := by
  constructor
  · intro calls h
    exact Folder.upheld_of_allSound h
  · intro h
    exact Folder.exists_adds_not_upheld h

/-- The first two documents of a folder, and a third after the counter is lost. -/
theorem numbers_upheld_sample :
    Folder.Upheld ⟨none, []⟩ [.add "a" true, .add "b" true, .setSeq none, .add "c" true] := by
  have hsmall (f : Folder) (h : f.mark < 999) : f.Sound :=
    ⟨by omega, fun hmark => absurd h (Nat.not_lt.mpr hmark)⟩
  refine (numbers_upheld _).1 _ ⟨hsmall _ ?_, hsmall _ ?_, hsmall _ ?_, trivial⟩
  · decide +kernel
  · decide +kernel
  · decide +kernel

/-- The counter is lost after the thousandth document: its number is handed out again. -/
theorem number_reused : ¬ ∀ (f : Folder) calls, f.Upheld calls := by
  intro h
  have hfresh := (h ⟨none, []⟩ [.setSeq (some "998".toList), .add "a" true, .add "b" true,
    .setSeq none, .add "c" true]).fresh
      [.setSeq (some "998".toList), .add "a" true, .add "b" true, .setSeq none] "c" true [] rfl
  refine hfresh.unused "1000-b.md" (by decide +kernel) ⟨"b", ?_⟩
  decide +kernel

end Softfig.Growlight.Numbering
