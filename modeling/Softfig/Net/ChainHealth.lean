import Mathlib.Data.List.AList
import Softfig.Lib.History
import Softfig.Net.Turn
import Softfig.Store.Hash

/-!
The health of a shared chain with each peer: a latched class for each direction, chain and peer,
the journal lines it gives, and the pushes it holds back.

A row speaks when its class changes, and then at most once in a repeat window; a row that is not
there yet counts as healthy. Times are 64-bit seconds and their differences saturate.

- `row_after`: a row holds the run of one class at the end of what was observed;
- `lines_le`: the lines a row gives are bounded by its changes and its repeat windows;
- `pushesSuppressed_iff`: when a push is held back;
- `row_step_ne`: another chain changes nothing;
- `chain_health_run`: all of it, for every run.
-/

namespace Softfig.Net

open Lib

/-! ### Data -/

/-- Subtraction of seconds that stops at the ends of the range. -/
def saturatingSub (a b : Int64) : Int64 := .ofIntClamp (a.toInt - b.toInt)

/-- Saturation does not change which side of a bound a difference is on. -/
theorem saturatingSub_lt_iff {a b bound : Int64} (hlow : Int64.minValue.toInt < bound.toInt) :
    saturatingSub a b < bound ↔ a.toInt - b.toInt < bound.toInt := by
  have hhigh := bound.toInt_le
  have hmax : Int64.maxValue.toInt = 2 ^ 63 - 1 := rfl
  rw [Int64.lt_iff_toInt_lt, saturatingSub, toInt_ofIntClamp]
  omega

def summaryIntervalSecs : Int64 := 3600

def reprobeIntervalSecs : Int64 := 3600

def countMax : Nat := 2 ^ 64 - 1

/-- Which side of a disagreement a row describes. -/
inductive Role where
  | inbound
  | outbound
  deriving DecidableEq

def Role.verb : Role → String
  | .inbound => "rejecting pushes from"
  | .outbound => "being rejected by"

inductive ChainRejectReason where
  | notAMember
  | unknownChain
  | notReady
  | other (value : UInt32)
  deriving DecidableEq

namespace ChainRejectReason

def isTerminalForSender : ChainRejectReason → Bool
  | notAMember | unknownChain => true
  | notReady | other _ => false

def slug : ChainRejectReason → String
  | notAMember => "not-a-member"
  | unknownChain => "unknown-chain"
  | notReady => "not-ready"
  | other v => "unknown-reason-" ++ toString v

/-- The reason as a journal line words it. -/
def display : ChainRejectReason → String
  | notAMember => "not an S-member of that chain there"
  | unknownChain => "that chain is unknown there"
  | notReady => "peer could not decide (locked / unreadable)"
  | other _ => "refused for a reason this build does not know"

end ChainRejectReason

/-- The health class of a row. -/
inductive Class where
  | ok
  | rejected (reason : ChainRejectReason)
  deriving DecidableEq

def Class.slug : Class → String
  | .ok => "ok"
  | .rejected reason => reason.slug

def Class.isTerminal : Class → Bool
  | .ok => false
  | .rejected reason => reason.isTerminalForSender

abbrev PeerId := Vector UInt8 32

abbrev RowKey := Role × String × PeerId

/-- One latched row, with the beginning of its class, its last observation, how often the class was
observed, and when it last spoke. -/
structure HealthRow where
  cls : Class
  since : Int64
  lastSeen : Int64
  count : Nat
  lastSpoke : Int64
  deriving DecidableEq

structure Divergence where
  role : Role
  chain : String
  peer : PeerId
  cls : Class
  since : Int64
  ageSecs : Int64
  count : Nat
  deriving DecidableEq

/-- Chain, then role, then peer. -/
def Divergence.le (a b : Divergence) : Bool :=
  match compare a.chain b.chain, compare a.role.verb b.role.verb with
  | .lt, _ => true
  | .gt, _ => false
  | .eq, .lt => true
  | .eq, .gt => false
  | .eq, .eq => decide (a.peer.toList ≤ b.peer.toList)

/-- The latch: at most one row for each key. -/
structure ChainHealth where
  rows : AList fun _ : RowKey => HealthRow

/-! ### Journal lines -/

/-- The first four bytes of a device in hexadecimal. -/
def short (peer : PeerId) : String := Store.hexEncode (peer.toList.take 4)

def humanAgeSecs (secs : Nat) : String :=
  if secs < 60 then toString secs ++ "s"
  else if secs < 3600 then toString (secs / 60) ++ "m"
  else if secs < 86400 then toString (secs / 3600) ++ "h"
  else if secs < 604800 then toString (secs / 86400) ++ "d"
  else toString (secs / 604800) ++ "w"

def humanSecs (secs : Int64) : String := humanAgeSecs secs.toInt.toNat

def transitionLine (role : Role) (chain : String) (peer : PeerId) : Class → String
  | .ok => "keeperd: net: shared-chain " ++ chain ++ ": " ++ role.verb ++ " " ++ short peer ++
      " is healthy"
  | .rejected reason =>
    match role with
    | .inbound => "keeperd: net: shared-chain-push for " ++ chain ++ " from " ++ short peer ++
        " refused: " ++ reason.display ++ ". Membership disagreement — the peer believes this " ++
        "device is a member. Further identical rejections are summarized hourly, not logged per " ++
        "push."
    | .outbound => "keeperd: net: shared-chain " ++ chain ++ ": " ++ short peer ++
        " refused our push: " ++ reason.display ++ ". Pausing pushes of this chain to that peer " ++
        "(re-probing hourly) — membership here is NOT changed; resolve with " ++
        "`softfig shared-subtree list`."

def recoveredLine (role : Role) (chain : String) (peer : PeerId) (previous : Class) : String :=
  "keeperd: net: shared-chain " ++ chain ++ ": " ++ role.verb ++ " " ++ short peer ++
    " RECOVERED (was " ++ previous.slug ++ ")"

def summaryLine (role : Role) (chain : String) (peer : PeerId) (reason : ChainRejectReason)
    (count : Nat) (age : Int64) : String :=
  "keeperd: net: shared-chain " ++ chain ++ ": still " ++ role.verb ++ " " ++ short peer ++ " (" ++
    reason.display ++ ") — " ++ toString count ++ " occurrences over " ++ humanSecs age ++
    ", unresolved; run `softfig shared-subtree list`"

/-! ### Operations -/

namespace ChainHealth

def new : ChainHealth := ⟨∅⟩

/-- What an observation makes of a row that is there. -/
def observeRow (role : Role) (chain : String) (peer : PeerId) (cls : Class) (now : Int64)
    (row : HealthRow) : Option String × HealthRow :=
  if row.cls ≠ cls then
    (some (match row.cls, cls with
      | .rejected _, .ok => recoveredLine role chain peer row.cls
      | _, _ => transitionLine role chain peer cls), ⟨cls, now, now, 1, now⟩)
  else
    let row := { row with lastSeen := now, count := min (row.count + 1) countMax }
    if saturatingSub now row.lastSpoke < summaryIntervalSecs then (none, row)
    else
      let row := { row with lastSpoke := now }
      match cls with
      | .ok => (none, row)
      | .rejected reason =>
        (some (summaryLine role chain peer reason row.count (saturatingSub now row.since)), row)

/-- Record one observation, with the journal line to print. -/
def observe (h : ChainHealth) (role : Role) (chain : String) (peer : PeerId) (cls : Class)
    (now : Int64) : Option String × ChainHealth :=
  match h.rows.lookup (role, chain, peer) with
  | none =>
    (match cls with
      | .ok => none
      | .rejected _ => some (transitionLine role chain peer cls),
      ⟨h.rows.insert (role, chain, peer) ⟨cls, now, now, 1, now⟩⟩)
  | some row =>
    let (line, row) := observeRow role chain peer cls now row
    (line, ⟨h.rows.insert (role, chain, peer) row⟩)

/-- Whether the outbound fan-out skips a chain and a peer. -/
def pushesSuppressed (h : ChainHealth) (chain : String) (peer : PeerId) (now : Int64) : Bool :=
  match h.rows.lookup (.outbound, chain, peer) with
  | none => false
  | some row => row.cls.isTerminal && saturatingSub now row.lastSeen < reprobeIntervalSecs

/-- Every disagreement that is latched now. -/
def divergences (h : ChainHealth) (now : Int64) : List Divergence :=
  ((h.rows.entries.filter fun entry => entry.2.cls ≠ .ok).map fun entry =>
    ({ role := entry.1.1, chain := entry.1.2.1, peer := entry.1.2.2, cls := entry.2.cls,
       since := entry.2.since, ageSecs := saturatingSub now entry.2.since,
       count := entry.2.count } : Divergence)).mergeSort Divergence.le

/-- Drop every row of a chain. -/
def forgetChain (h : ChainHealth) (chain : String) : ChainHealth :=
  ⟨⟨h.rows.entries.filter fun entry => entry.1.2.1 ≠ chain,
    h.rows.nodupKeys.sublist List.filter_sublist⟩⟩

def clear (_ : ChainHealth) : ChainHealth := new

/-- The row of a key. -/
def row (h : ChainHealth) (key : RowKey) : Option HealthRow := h.rows.lookup key

end ChainHealth

/-! ### Runs -/

inductive HealthOp where
  | observe (role : Role) (chain : String) (peer : PeerId) (cls : Class) (now : Int64)
  | forgetChain (chain : String)
  | clear

namespace HealthOp

/-- The time of an observation of a key. -/
def time? (key : RowKey) : HealthOp → Option Int64
  | observe role chain peer _ now => if (role, chain, peer) = key then some now else none
  | forgetChain _ | clear => none

/-- The time of an observation. -/
def now? : HealthOp → Option Int64
  | observe _ _ _ _ now => some now
  | forgetChain _ | clear => none

/-- The operation is about another chain. -/
def Elsewhere (chain : String) : HealthOp → Prop
  | observe _ other _ _ _ | forgetChain other => other ≠ chain
  | clear => False

/-- What has been observed of a key since its chain was last forgotten, with this operation. -/
def seenStep (key : RowKey) (seen : List (Class × Int64)) : HealthOp → List (Class × Int64)
  | observe role chain peer cls now =>
    if (role, chain, peer) = key then seen ++ [(cls, now)] else seen
  | forgetChain chain => if key.2.1 = chain then [] else seen
  | clear => []

/-- The observation changes the class of the key, which counts as healthy before the first. -/
def changes (key : RowKey) (seen : List (Class × Int64)) : HealthOp → Bool
  | observe role chain peer cls _ =>
    (role, chain, peer) = key && ((seen.getLast?.map Prod.fst).getD .ok) ≠ cls
  | forgetChain _ | clear => false

end HealthOp

def ChainHealth.step (h : ChainHealth) : HealthOp → Option String × ChainHealth
  | .observe role chain peer cls now => h.observe role chain peer cls now
  | .forgetChain chain => (none, h.forgetChain chain)
  | .clear => (none, h.clear)

def ChainHealth.after (h : ChainHealth) (ops : List HealthOp) : ChainHealth :=
  ops.foldl (fun h op => (h.step op).2) h

/-- What has been observed of a key since its chain was last forgotten. -/
def seen (key : RowKey) (ops : List HealthOp) : List (Class × Int64) :=
  ops.foldl (HealthOp.seenStep key) []

/-- The observations of one class at the end. -/
def streak (observed : List (Class × Int64)) : List (Class × Int64) :=
  lastRun (fun a b => decide (a.1 = b.1)) observed

/-- How often the class of a key changed. -/
def changeCount (key : RowKey) : List (Class × Int64) → List HealthOp → Nat
  | _, [] => 0
  | observed, op :: ops =>
    (if op.changes key observed then 1 else 0) + changeCount key (op.seenStep key observed) ops

/-- How many lines a key was given. -/
def lineCount (key : RowKey) : ChainHealth → List HealthOp → Nat
  | _, [] => 0
  | h, op :: ops =>
    (if (op.time? key).isSome && (h.step op).1.isSome then 1 else 0) +
      lineCount key (h.step op).2 ops

/-- The full repeat windows between the first and the last observation of a key. -/
def windowsElapsed (times : List Int64) : Nat :=
  match times.head?, times.getLast? with
  | some first, some last => ((last.toInt - first.toInt) / summaryIntervalSecs.toInt).toNat
  | _, _ => 0

/-- The times of the observations do not decrease. -/
def Chronological (ops : List HealthOp) : Prop := (ops.filterMap HealthOp.now?).Pairwise (· ≤ ·)

/-- A row that holds what was observed: the class and time of the last observation, the time of the
first of its class, and how many those are. -/
structure RowOf (observed : List (Class × Int64)) (row : HealthRow) : Prop where
  latest : observed.getLast? = some (row.cls, row.lastSeen)
  since : (streak observed).head?.map Prod.snd = some row.since
  count : row.count = min (streak observed).length countMax

/-! ### One step -/

namespace ChainHealth

variable {h : ChainHealth} {role : Role} {chain : String} {peer : PeerId} {cls : Class} {now : Int64}
  {key : RowKey} {op : HealthOp}

theorem row_observe_self : (h.observe role chain peer cls now).2.row (role, chain, peer) =
    some (match h.row (role, chain, peer) with
      | none => ⟨cls, now, now, 1, now⟩
      | some row => (observeRow role chain peer cls now row).2) := by
  unfold observe row
  cases h.rows.lookup (role, chain, peer) with
  | none => exact AList.lookup_insert _
  | some row => exact AList.lookup_insert _

theorem row_observe_ne (hne : key ≠ (role, chain, peer)) :
    (h.observe role chain peer cls now).2.row key = h.row key := by
  unfold observe row
  cases h.rows.lookup (role, chain, peer) with
  | none => exact AList.lookup_insert_ne hne
  | some row => exact AList.lookup_insert_ne hne

theorem line_observe : (h.observe role chain peer cls now).1 =
    match h.row (role, chain, peer) with
    | none => (match cls with
      | .ok => none
      | .rejected _ => some (transitionLine role chain peer cls))
    | some row => (observeRow role chain peer cls now row).1 := by
  unfold observe row
  cases h.rows.lookup (role, chain, peer) with
  | none => rfl
  | some row => rfl

theorem row_forgetChain : (h.forgetChain chain).row key =
    if key.2.1 = chain then none else h.row key := by
  have hmem (row : HealthRow) : (h.forgetChain chain).row key = some row ↔
      key.2.1 ≠ chain ∧ h.row key = some row := by
    have hold : h.row key = some row ↔ (⟨key, row⟩ : Sigma _) ∈ h.rows.entries :=
      AList.mem_lookup_iff
    have hnew : (h.forgetChain chain).row key = some row ↔
        (⟨key, row⟩ : Sigma _) ∈ (h.forgetChain chain).rows.entries := AList.mem_lookup_iff
    rw [hnew, hold, forgetChain, List.mem_filter, decide_eq_true_eq, and_comm]
  split
  · rename_i heq
    refine Option.eq_none_iff_forall_ne_some.mpr fun row hrow => ?_
    exact ((hmem row).mp hrow).1 heq
  · rename_i hne
    refine Option.ext fun row => ?_
    rw [hmem row]
    exact ⟨fun h => h.2, fun h => ⟨hne, h⟩⟩

/-- **Another chain changes nothing.** -/
theorem row_step_ne (h : ChainHealth) (hop : op.Elsewhere key.2.1) :
    (h.step op).2.row key = h.row key := by
  cases op with
  | observe role chain peer cls now =>
    refine row_observe_ne ?_
    rintro rfl
    exact hop rfl
  | forgetChain chain => exact row_forgetChain.trans (if_neg fun heq => hop heq.symm)
  | clear => exact hop.elim

/-- What an observation makes of a row: a new class speaks, and so does one that is due, unless it
is healthy. -/
theorem observeRow_cases (role : Role) (chain : String) (peer : PeerId) (cls : Class) (now : Int64)
    (row : HealthRow) :
    (row.cls ≠ cls ∧ (observeRow role chain peer cls now row).2 = ⟨cls, now, now, 1, now⟩) ∨
    (row.cls = cls ∧ ∃ spoke, (observeRow role chain peer cls now row).2 =
        { row with lastSeen := now, count := min (row.count + 1) countMax, lastSpoke := spoke } ∧
      ((saturatingSub now row.lastSpoke < summaryIntervalSecs ∧ spoke = row.lastSpoke ∧
          (observeRow role chain peer cls now row).1 = none) ∨
        (¬saturatingSub now row.lastSpoke < summaryIntervalSecs ∧ spoke = now))) := by
  unfold observeRow
  split
  · rename_i hne
    exact .inl ⟨hne, rfl⟩
  · rename_i heq
    refine .inr ⟨not_not.mp heq, ?_⟩
    dsimp only
    split
    · rename_i hquiet
      exact ⟨row.lastSpoke, rfl, .inl ⟨hquiet, rfl, rfl⟩⟩
    · rename_i hdue
      refine ⟨now, ?_, .inr ⟨hdue, rfl⟩⟩
      cases cls with
      | ok => rfl
      | rejected reason => rfl

end ChainHealth

/-! ### What a row holds -/

/-- No row where nothing was observed, and else one that holds it. -/
def Holds (observed : List (Class × Int64)) : Option HealthRow → Prop
  | none => observed = []
  | some row => RowOf observed row

theorem streak_concat (observed : List (Class × Int64)) (cls : Class) (now : Int64) :
    streak (observed ++ [(cls, now)]) =
      if observed.getLast?.any fun last => last.1 = cls then streak observed ++ [(cls, now)]
      else [(cls, now)] := lastRun_concat ..

theorem RowOf.first (cls : Class) (now : Int64) {observed : List (Class × Int64)}
    (h : (observed.getLast?.any fun last => last.1 = cls) = false) :
    RowOf (observed ++ [(cls, now)]) ⟨cls, now, now, 1, now⟩ := by
  have hstreak := streak_concat observed cls now
  rw [h, if_neg Bool.false_ne_true] at hstreak
  refine ⟨List.getLast?_concat, ?_, ?_⟩
  · rw [hstreak]
    rfl
  · rw [hstreak]
    rfl

/-- A row goes on holding what is observed. -/
theorem RowOf.observeRow {observed : List (Class × Int64)} {row : HealthRow}
    (h : RowOf observed row) (role : Role) (chain : String) (peer : PeerId) (cls : Class)
    (now : Int64) :
    RowOf (observed ++ [(cls, now)]) (ChainHealth.observeRow role chain peer cls now row).2 := by
  rcases ChainHealth.observeRow_cases role chain peer cls now row with
    ⟨hne, hrow⟩ | ⟨heq, spoke, hrow, -⟩
  · rw [hrow]
    refine RowOf.first cls now ?_
    rw [h.latest, Option.any_some]
    exact decide_eq_false hne
  · have hstreak := streak_concat observed cls now
    rw [h.latest, Option.any_some, decide_eq_true heq, if_pos rfl] at hstreak
    have hsince := h.since
    have hcount := h.count
    rw [hrow]
    cases hold : streak observed with
    | nil =>
      rw [hold] at hsince
      cases hsince
    | cons first more =>
      rw [hold] at hsince hcount hstreak
      constructor
      · rw [List.getLast?_concat, ← heq]
      · rw [hstreak]
        exact hsince
      · rw [hstreak, List.length_append]
        simp only [hcount, List.length_cons, List.length_nil]
        omega

/-- **What one operation leaves held.** -/
theorem Holds.step {h : ChainHealth} {key : RowKey} {observed : List (Class × Int64)}
    (hholds : Holds observed (h.row key)) (op : HealthOp) :
    Holds (op.seenStep key observed) ((h.step op).2.row key) := by
  cases op with
  | observe role chain peer cls now =>
    by_cases heq : (role, chain, peer) = key
    · subst heq
      show Holds (if _ then _ else _) ((h.observe role chain peer cls now).2.row _)
      rw [if_pos rfl, ChainHealth.row_observe_self]
      cases hrow : h.row (role, chain, peer) with
      | none =>
        rw [hrow] at hholds
        obtain rfl : observed = [] := hholds
        exact RowOf.first cls now rfl
      | some row =>
        rw [hrow] at hholds
        exact RowOf.observeRow hholds role chain peer cls now
    · show Holds (if _ then _ else _) ((h.observe role chain peer cls now).2.row _)
      rw [if_neg heq, ChainHealth.row_observe_ne fun h => heq h.symm]
      exact hholds
  | forgetChain chain =>
    show Holds (if _ then _ else _) ((h.forgetChain chain).row _)
    rw [ChainHealth.row_forgetChain]
    split
    · rfl
    · exact hholds
  | clear => exact rfl

/-- **What a row holds** after any run. -/
theorem holds_after (ops : List HealthOp) (key : RowKey) :
    Holds (seen key ops) ((ChainHealth.new.after ops).row key) := by
  induction ops using List.reverseRecOn with
  | nil => rfl
  | append_singleton ops op ih =>
    rw [seen, ChainHealth.after, List.foldl_append, List.foldl_append]
    exact ih.step op

/-- **When a push is held back**: while the latest outbound observation of the pair is terminal and
inside its window. -/
theorem pushesSuppressed_iff (ops : List HealthOp) (chain : String) (peer : PeerId) (now : Int64) :
    (ChainHealth.new.after ops).pushesSuppressed chain peer now = true ↔
      ∃ cls last, (seen (.outbound, chain, peer) ops).getLast? = some (cls, last) ∧
        cls.isTerminal = true ∧ now.toInt - last.toInt < reprobeIntervalSecs.toInt := by
  have hholds := holds_after ops (.outbound, chain, peer)
  have hlow : Int64.minValue.toInt < reprobeIntervalSecs.toInt := by decide
  unfold ChainHealth.pushesSuppressed
  change (match (ChainHealth.new.after ops).row (.outbound, chain, peer) with
    | none => false
    | some row => row.cls.isTerminal && saturatingSub now row.lastSeen < reprobeIntervalSecs) = true ↔ _
  cases hrow : (ChainHealth.new.after ops).row (.outbound, chain, peer) with
  | none =>
    rw [hrow] at hholds
    have hnil : seen (.outbound, chain, peer) ops = [] := hholds
    simp [hnil]
  | some row =>
    rw [hrow] at hholds
    have hlatest := RowOf.latest hholds
    rw [Bool.and_eq_true, decide_eq_true_eq, saturatingSub_lt_iff hlow, hlatest]
    constructor
    · rintro ⟨hterminal, hinside⟩
      exact ⟨row.cls, row.lastSeen, rfl, hterminal, hinside⟩
    · rintro ⟨cls, last, heq, hterminal, hinside⟩
      obtain ⟨rfl, rfl⟩ := Prod.mk.inj (Option.some.inj heq)
      exact ⟨hterminal, hinside⟩

/-- A row as the health surface lists it. -/
def HealthRow.divergence (row : HealthRow) (key : RowKey) (now : Int64) : Divergence :=
  ⟨key.1, key.2.1, key.2.2, row.cls, row.since, saturatingSub now row.since, row.count⟩

/-- Every row that is not healthy is listed, and nothing else. -/
theorem mem_divergences {h : ChainHealth} {now : Int64} {d : Divergence} :
    d ∈ h.divergences now ↔ ∃ row, h.row (d.role, d.chain, d.peer) = some row ∧ row.cls ≠ .ok ∧
      d = row.divergence (d.role, d.chain, d.peer) now := by
  have hentry (key : RowKey) (row : HealthRow) :
      h.row key = some row ↔ (⟨key, row⟩ : Sigma _) ∈ h.rows.entries := AList.mem_lookup_iff
  unfold ChainHealth.divergences
  rw [List.mem_mergeSort, List.mem_map]
  constructor
  · rintro ⟨⟨key, row⟩, hmem, rfl⟩
    obtain ⟨hmem, hcls⟩ := List.mem_filter.mp hmem
    exact ⟨row, (hentry _ _).mpr hmem, of_decide_eq_true hcls, rfl⟩
  · rintro ⟨row, hrow, hcls, hd⟩
    refine ⟨⟨(d.role, d.chain, d.peer), row⟩, List.mem_filter.mpr ⟨(hentry _ _).mp hrow, ?_⟩, ?_⟩
    · exact decide_eq_true hcls
    · exact hd.symm

/-! ### The lines of a row -/

section lines

variable {key : RowKey} {ops : List HealthOp} {op : HealthOp} {h : ChainHealth}

theorem lineCount_concat (h : ChainHealth) : lineCount key h (ops ++ [op]) =
    lineCount key h ops +
      if (op.time? key).isSome && ((h.after ops).step op).1.isSome then 1 else 0 := by
  induction ops generalizing h with
  | nil => exact Nat.add_comm _ _
  | cons first ops ih =>
    rw [List.cons_append, lineCount, lineCount, ih, Nat.add_assoc]
    rfl

theorem changeCount_concat (observed : List (Class × Int64)) :
    changeCount key observed (ops ++ [op]) = changeCount key observed ops +
      if op.changes key (ops.foldl (HealthOp.seenStep key) observed) then 1 else 0 := by
  induction ops generalizing observed with
  | nil => exact Nat.add_comm _ _
  | cons first ops ih =>
    rw [List.cons_append, changeCount, changeCount, ih, Nat.add_assoc]
    rfl

/-- The lines given so far are bounded by the changes and the windows up to when the row last
spoke. -/
structure Spoken (first last : Int64) (lines changes : Nat) (row? : Option HealthRow)
    (spoke : Int64) : Prop where
  after : first.toInt ≤ spoke.toInt
  before : spoke.toInt ≤ last.toInt
  bound : (lines : Int) ≤ changes + (spoke.toInt - first.toInt) / 3600
  row : ∀ row, row? = some row → row.lastSpoke = spoke

/-- An observation of the key, whether it speaks or not. -/
theorem Spoken.observe {first last spoke now : Int64} {lines changes : Nat} {role : Role}
    {chain : String} {peer : PeerId} {cls : Class} {observed : List (Class × Int64)}
    (hspoken : Spoken first last lines changes (h.row (role, chain, peer)) spoke)
    (hholds : Holds observed (h.row (role, chain, peer))) (hlast : last.toInt ≤ now.toInt) :
    ∃ spoke', Spoken first now
      (lines + if (h.observe role chain peer cls now).1.isSome then 1 else 0)
      (changes + if (observed.getLast?.map Prod.fst).getD .ok ≠ cls then 1 else 0)
      ((h.observe role chain peer cls now).2.row (role, chain, peer)) spoke' := by
  obtain ⟨hafter, hbefore, hbound, hspoke⟩ := hspoken
  rw [ChainHealth.row_observe_self, ChainHealth.line_observe]
  cases hrow : h.row (role, chain, peer) with
  | none =>
    rw [hrow] at hholds
    obtain rfl : observed = [] := hholds
    refine ⟨now, by omega, le_refl _, ?_, fun row heq => by rw [← Option.some.inj heq]⟩
    cases cls with
    | ok => simp; omega
    | rejected reason => simp; omega
  | some row =>
    rw [hrow] at hholds
    have hlatest := RowOf.latest hholds
    have hold := hspoke row hrow
    simp only [hlatest, Option.map_some, Option.getD_some]
    rcases ChainHealth.observeRow_cases role chain peer cls now row with
      ⟨hne, hnext⟩ | ⟨heq, spoke', hnext, hcase⟩
    · refine ⟨now, by omega, le_refl _, ?_, fun row heq => ?_⟩
      · rw [if_pos hne]
        split
        · push_cast
          omega
        · push_cast
          omega
      · rw [← Option.some.inj heq, hnext]
    · rw [if_neg (not_not.mpr heq)]
      rcases hcase with ⟨-, hsame, hquiet⟩ | ⟨hdue, hnow⟩
      · refine ⟨spoke, hafter, by omega, ?_, fun row heq => ?_⟩
        · simpa [hquiet] using hbound
        · rw [← Option.some.inj heq, hnext, hsame]
          exact hold
      · have hlow : Int64.minValue.toInt < summaryIntervalSecs.toInt := by decide
        have hinterval : summaryIntervalSecs.toInt = 3600 := rfl
        rw [saturatingSub_lt_iff hlow, hold, hinterval] at hdue
        refine ⟨now, by omega, le_refl _, ?_, fun row heq => ?_⟩
        · split
          · push_cast
            omega
          · push_cast
            omega
        · rw [← Option.some.inj heq, hnext, hnow]

/-- What is true of the lines of a key after any run: none before the first observation, and then
the bound. -/
def Bounded (key : RowKey) (ops : List HealthOp) : Prop :=
  match (ops.filterMap (HealthOp.time? key)).head?, (ops.filterMap (HealthOp.time? key)).getLast? with
  | some first, some last => ∃ spoke, Spoken first last (lineCount key ChainHealth.new ops)
      (changeCount key [] ops) ((ChainHealth.new.after ops).row key) spoke
  | _, _ => lineCount key ChainHealth.new ops = 0 ∧ (ChainHealth.new.after ops).row key = none

/-- An operation that does not observe the key changes no class of it, and leaves its row or drops
it. -/
theorem unobserved_step (htime : op.time? key = none) (h : ChainHealth)
    (observed : List (Class × Int64)) : op.changes key observed = false ∧
      ((h.step op).2.row key = h.row key ∨ (h.step op).2.row key = none) := by
  cases op with
  | observe role chain peer cls now =>
    have hne : (role, chain, peer) ≠ key := fun heq => by
      rw [HealthOp.time?, if_pos heq] at htime
      cases htime
    refine ⟨?_, .inl (ChainHealth.row_observe_ne hne.symm)⟩
    rw [HealthOp.changes, decide_eq_false hne, Bool.false_and]
  | forgetChain chain =>
    refine ⟨rfl, ?_⟩
    show (h.forgetChain chain).row key = _ ∨ (h.forgetChain chain).row key = none
    rw [ChainHealth.row_forgetChain]
    split
    · exact .inr rfl
    · exact .inl rfl
  | clear => exact ⟨rfl, .inr rfl⟩

theorem Bounded.of_unobserved (htime : op.time? key = none) (h : Bounded key ops) :
    Bounded key (ops ++ [op]) := by
  obtain ⟨hchanges, hrow⟩ := unobserved_step htime (ChainHealth.new.after ops)
    (ops.foldl (HealthOp.seenStep key) [])
  have hafter : ChainHealth.new.after (ops ++ [op]) = ((ChainHealth.new.after ops).step op).2 :=
    List.foldl_append
  have htimes : (ops ++ [op]).filterMap (HealthOp.time? key) = ops.filterMap (HealthOp.time? key) := by
    rw [List.filterMap_append, List.filterMap_cons_none htime, List.filterMap_nil, List.append_nil]
  unfold Bounded at h ⊢
  rw [htimes, lineCount_concat, changeCount_concat, hafter, htime, hchanges]
  simp only [Option.isSome_none, Bool.false_and, Bool.false_eq_true, if_false, Nat.add_zero]
  split
  · rename_i first last hfirst hlast
    rw [hfirst, hlast] at h
    obtain ⟨spoke, hspoken⟩ := h
    refine ⟨spoke, hspoken.after, hspoken.before, hspoken.bound, fun row heq => ?_⟩
    rcases hrow with hrow | hrow
    · exact hspoken.row row (hrow ▸ heq)
    · rw [hrow] at heq
      cases heq
  · rename_i hnone
    split at h
    · rename_i first last hfirst hlast
      exact absurd hlast (hnone first last hfirst)
    · refine ⟨h.1, ?_⟩
      rcases hrow with hrow | hrow
      · rw [hrow, h.2]
      · exact hrow

theorem Bounded.of_observed {role : Role} {chain : String} {peer : PeerId} {now : Int64}
    (cls : Class)
    (hlast : ∀ time ∈ ops.filterMap (HealthOp.time? (role, chain, peer)), time ≤ now)
    (h : Bounded (role, chain, peer) ops) :
    Bounded (role, chain, peer) (ops ++ [.observe role chain peer cls now]) := by
  have hholds := holds_after ops (role, chain, peer)
  have hafter : ChainHealth.new.after (ops ++ [.observe role chain peer cls now]) =
      ((ChainHealth.new.after ops).observe role chain peer cls now).2 := List.foldl_append
  have htime : (HealthOp.observe role chain peer cls now).time? (role, chain, peer) = some now :=
    if_pos rfl
  have htimes : (ops ++ [HealthOp.observe role chain peer cls now]).filterMap
      (HealthOp.time? (role, chain, peer)) =
        ops.filterMap (HealthOp.time? (role, chain, peer)) ++ [now] := by
    rw [List.filterMap_append, List.filterMap_cons_some htime, List.filterMap_nil]
  have hlines : lineCount (role, chain, peer) ChainHealth.new
      (ops ++ [.observe role chain peer cls now]) = lineCount (role, chain, peer) ChainHealth.new ops +
        if ((ChainHealth.new.after ops).observe role chain peer cls now).1.isSome then 1 else 0 := by
    rw [lineCount_concat, htime, Option.isSome_some, Bool.true_and]
    rfl
  have hchanges : changeCount (role, chain, peer) []
      (ops ++ [.observe role chain peer cls now]) = changeCount (role, chain, peer) [] ops +
        if ((seen (role, chain, peer) ops).getLast?.map Prod.fst).getD .ok ≠ cls then 1 else 0 := by
    rw [changeCount_concat, HealthOp.changes, decide_eq_true rfl, Bool.true_and]
    simp only [decide_eq_true_eq]
    rfl
  unfold Bounded at h ⊢
  rw [htimes, hafter, hlines, hchanges, List.getLast?_concat]
  cases hold : ops.filterMap (HealthOp.time? (role, chain, peer)) with
  | nil =>
    rw [hold] at h
    obtain ⟨hzero, hnone⟩ := h
    have hstart : Spoken now now (lineCount (role, chain, peer) ChainHealth.new ops)
        (changeCount (role, chain, peer) [] ops)
        ((ChainHealth.new.after ops).row (role, chain, peer)) now := by
      refine ⟨le_refl _, le_refl _, ?_, fun row heq => ?_⟩
      · rw [hzero]
        omega
      · rw [hnone] at heq
        cases heq
    exact hstart.observe hholds (le_refl _)
  | cons first times =>
    obtain ⟨last, hlast?⟩ : ∃ last, (first :: times).getLast? = some last :=
      ⟨_, List.getLast?_eq_some_getLast (by simp)⟩
    rw [hold] at h hlast
    simp only [List.head?_cons, hlast?] at h
    obtain ⟨spoke, hspoken⟩ := h
    have hle := hlast last (List.mem_of_getLast? hlast?)
    exact hspoken.observe hholds (Int64.le_iff_toInt_le.mp hle)

/-- The bound holds after every chronological run. -/
theorem bounded_after (h : Chronological ops) : Bounded key ops := by
  induction ops using List.reverseRecOn with
  | nil => exact ⟨rfl, rfl⟩
  | append_singleton ops op ih =>
    unfold Chronological at h
    rw [List.filterMap_append, List.pairwise_append] at h
    have hbefore := ih h.1
    cases htime : op.time? key with
    | none => exact hbefore.of_unobserved htime
    | some now =>
      cases op with
      | forgetChain chain => cases htime
      | clear => cases htime
      | observe role chain peer cls now =>
        have hkey : (role, chain, peer) = key := by
          by_contra hne
          rw [HealthOp.time?, if_neg hne] at htime
          cases htime
        subst hkey
        refine hbefore.of_observed cls fun time hmem => ?_
        refine h.2.2 time ?_ now (by simp [HealthOp.now?])
        obtain ⟨op, hop, htime⟩ := List.mem_filterMap.mp hmem
        refine List.mem_filterMap.mpr ⟨op, hop, ?_⟩
        cases op with
        | forgetChain chain => cases htime
        | clear => cases htime
        | observe role' chain' peer' cls' now' =>
          rw [HealthOp.time?] at htime
          split at htime
          · exact htime
          · cases htime

/-- **The lines of a row**: at most one for each change of its class, and one for each full repeat
window. -/
theorem lines_le (h : Chronological ops) (key : RowKey) :
    lineCount key ChainHealth.new ops ≤
      changeCount key [] ops + windowsElapsed (ops.filterMap (HealthOp.time? key)) := by
  have hbounded := @bounded_after key ops h
  have hinterval : summaryIntervalSecs.toInt = 3600 := rfl
  unfold Bounded at hbounded
  unfold windowsElapsed
  rw [hinterval]
  split at hbounded
  · obtain ⟨spoke, hafter, hbefore, hbound, -⟩ := hbounded
    omega
  · rw [hbounded.1]
    exact Nat.zero_le _

end lines

/-! ### Every run -/

/-- What is true of one key after a run. -/
structure HealthLaws (ops : List HealthOp) (key : RowKey) : Prop where
  row : Holds (seen key ops) ((ChainHealth.new.after ops).row key)
  listed : ∀ now d, (d ∈ (ChainHealth.new.after ops).divergences now ∧
      (d.role, d.chain, d.peer) = key) ↔
    ∃ row, (ChainHealth.new.after ops).row key = some row ∧ row.cls ≠ .ok ∧
      d = row.divergence key now
  lines : lineCount key ChainHealth.new ops ≤
    changeCount key [] ops + windowsElapsed (ops.filterMap (HealthOp.time? key))
  suppressed : key.1 = .outbound → ∀ now,
    ((ChainHealth.new.after ops).pushesSuppressed key.2.1 key.2.2 now = true ↔
      ∃ cls last, (seen key ops).getLast? = some (cls, last) ∧ cls.isTerminal = true ∧
        now.toInt - last.toInt < reprobeIntervalSecs.toInt)
  elsewhere : ∀ op : HealthOp, op.Elsewhere key.2.1 →
    ((ChainHealth.new.after ops).step op).2.row key = (ChainHealth.new.after ops).row key

/-- **Chain health in every run** of observations, forgotten chains and clears, with times that do
not decrease. -/
theorem chain_health_run (ops : List HealthOp) (h : Chronological ops) (key : RowKey) :
    HealthLaws ops key where
  row := holds_after ops key
  listed now d := by
    rw [mem_divergences]
    constructor
    · rintro ⟨hrow, rfl⟩
      exact hrow
    · rintro ⟨row, hrow, hcls, rfl⟩
      exact ⟨⟨row, hrow, hcls, rfl⟩, rfl⟩
  lines := lines_le h key
  suppressed houtbound now := by
    obtain ⟨role, chain, peer⟩ := key
    obtain rfl : role = .outbound := houtbound
    exact pushesSuppressed_iff ops chain peer now
  elsewhere _ hop := ChainHealth.row_step_ne _ hop

/-- A refusal that is repeated after an hour, in two directions. -/
theorem chain_health_run_demo : HealthLaws
    [.observe .inbound "chain/a" (Vector.replicate 32 1) (.rejected .unknownChain) 0,
      .observe .outbound "chain/a" (Vector.replicate 32 1) (.rejected .notAMember) 50,
      .observe .inbound "chain/a" (Vector.replicate 32 1) (.rejected .unknownChain) 3600]
    (.inbound, "chain/a", Vector.replicate 32 1) :=
  chain_health_run _ (by unfold Chronological; decide) _

end Softfig.Net
