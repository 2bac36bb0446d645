import Mathlib.Logic.Function.Basic
import Softfig.Lib.Transition
import Softfig.Vcs.Repo

/-!
Commit calls of any number of handles, interleaved.

A call reads the tip of its ref in one step and writes in a later one; between
the two any other call may begin or write. What such a world is for is a
ledger: one append-only list of commits per ref. Every world simulates a
ledger, so no update is lost or written twice.

- `ledger_fresh`: in a ledger every commit stands once, in one list;
- `world_simulates_ledger`: reported commits are the ledger, and the ledger is
  the parent chain of the ref;
- `commit_calls_linearize`: what every call leaves behind.
-/

namespace Softfig.Vcs

open Softfig.Lib (System)
open Softfig.Store

/-! ### The ledger -/

/-- One list of commits per ref, newest first. -/
abbrev Ledger := String → List Hash

/-- Append a commit that stands nowhere yet to one ref. -/
def ledgerSystem : System Ledger (String × Hash) where
  init l := l = fun _ => []
  step l label l' :=
    (∀ r, label.2 ∉ l r) ∧ l' = Function.update l label.1 (label.2 :: l label.1)

/-- Every commit stands in one list, once. -/
def Ledger.Fresh (l : Ledger) : Prop :=
  (∀ r, (l r).Nodup) ∧ ∀ r r' h, h ∈ l r → h ∈ l r' → r = r'

theorem ledger_fresh {l : Ledger} (h : ledgerSystem.Reachable l) : l.Fresh := by
  refine System.Reachable.invariant (P := Ledger.Fresh) ?_ ?_ h
  · rintro l rfl
    exact ⟨fun _ => List.nodup_nil, fun _ _ _ h => by cases h⟩
  · rintro l ⟨ref, hash⟩ l' - ⟨hnodup, hone⟩ ⟨hnew, rfl⟩
    refine ⟨fun r => ?_, fun r r' h hr hr' => ?_⟩
    · by_cases hr : r = ref
      · subst hr
        simpa using ⟨hnew r, hnodup r⟩
      · simpa [hr] using hnodup r
    · by_cases hr₁ : r = ref <;> by_cases hr₂ : r' = ref
      · rw [hr₁, hr₂]
      · subst hr₁
        simp only [Function.update_self, List.mem_cons, Function.update_of_ne hr₂] at hr hr'
        rcases hr with rfl | hr
        · exact absurd hr' (hnew r')
        · exact hone r r' h hr hr'
      · subst hr₂
        simp only [Function.update_self, List.mem_cons, Function.update_of_ne hr₁] at hr hr'
        rcases hr' with rfl | hr'
        · exact absurd hr (hnew r)
        · exact hone r r' h hr hr'
      · simp only [Function.update_of_ne hr₁, Function.update_of_ne hr₂] at hr hr'
        exact hone r r' h hr hr'

/-! ### Histories -/

/-- The parent chain from a tip, newest first, with every commit of it stored. -/
inductive History (db : Db) : Option Hash → List Hash → Prop where
  | genesis : History db none []
  | commit {hash : Hash} {body : CommitBody} {older : List Hash} :
      db.commits.lookup hash = some body → History db body.parent older →
        History db (some hash) (hash :: older)

theorem History.stored {db : Db} {tip : Option Hash} {hs : List Hash} (h : History db tip hs) :
    ∀ a ∈ hs, a ∈ db.commits := by
  induction h with
  | genesis => exact fun _ ha => by cases ha
  | commit hbody _ ih =>
    intro a ha
    rcases List.mem_cons.mp ha with rfl | ha
    · exact AList.lookup_isSome.mp (by rw [hbody]; rfl)
    · exact ih a ha

/-- A history only reads the commits it lists. -/
theorem History.mono {db db' : Db} {tip : Option Hash} {hs : List Hash} (h : History db tip hs)
    (hsub : ∀ a body, db.commits.lookup a = some body → db'.commits.lookup a = some body) :
    History db' tip hs := by
  induction h with
  | genesis => exact .genesis
  | commit hbody _ ih => exact .commit (hsub _ _ hbody) ih

/-! ### Worlds -/

/-- A call that has read its tip and not written yet. -/
structure Pending where
  call : Call
  tip : Option Hash

/-- What a call returned to its caller and told its subscriber. -/
structure Report where
  call : Call
  tip : Option Hash
  result : Except CoreError CommitOutcome
  notified : Option (String × Hash × Option Nat)

structure World where
  store : Store
  pending : List Pending
  /-- Newest report first. -/
  log : List Report

def World.start : World := ⟨.empty, [], []⟩

inductive Event where
  /-- Some handle enters a call and reads the tip. -/
  | begin (call : Call)
  /-- A pending call builds and writes; `fault` is a database error that rolls
  its transaction back. -/
  | finish (index : Nat) (now : Int) (fault : Option StoreError)

section

variable (prims : Primitives)

/-- The write step of a pending call, with the database fault it runs into. -/
def Pending.write (p : Pending) (now : Int) (fault : Option StoreError) (store : Store) :
    Store × Except CoreError CommitOutcome :=
  let written := p.call.write prims p.tip now store
  match fault with
  | none => written
  | some e => ({ written.1 with db := store.db }, .error (.store e))

def World.step (w : World) : Event → Option World
  | .begin call => some { w with pending := w.pending ++ [⟨call, call.readTip w.store⟩] }
  | .finish index now fault =>
    match w.pending[index]? with
    | none => none
    | some p =>
      let written := p.write prims now fault w.store
      some
        { store := written.1
          pending := w.pending.eraseIdx index
          log := ⟨p.call, p.tip, written.2, p.call.notified written.2⟩ :: w.log }

def commitSystem : System World Event := System.ofFun World.start (World.step prims)

end

/-- The commit a report says was written on `ref`. -/
def Report.committedOn (ref : String) (report : Report) : Option Hash :=
  match report.result with
  | .ok ⟨hash, true⟩ => if report.call.refName = ref then some hash else none
  | _ => none

/-- The commits reported on a ref, newest first. -/
def World.reported (w : World) (ref : String) : List Hash := w.log.filterMap (·.committedOn ref)

/-! ### One write step -/

/-- What a report says about the database before and after it. -/
inductive Report.Honest (before after : Db) (report : Report) : Prop where
  | written (hash : Hash) (body : CommitBody)
      (hresult : report.result = .ok ⟨hash, true⟩)
      (hnew : hash ∉ before.commits)
      (hparent : body.parent = before.refs.lookup report.call.refName)
      (htip : report.tip = before.refs.lookup report.call.refName)
      (hcommits : after.commits = before.commits.insert hash body)
      (hrefs : after.refs = before.refs.insert report.call.refName hash)
  | noOp (hash : Hash) (hresult : report.result = .ok ⟨hash, false⟩)
      (htip : report.tip = some hash) (hdb : after = before)
  | failed (e : CoreError) (hresult : report.result = .error e) (hdb : after = before)

variable {prims : Primitives}

theorem write_honest (p : Pending) (now : Int) (fault : Option StoreError) (store : Store)
    (notified : Option (String × Hash × Option Nat)) :
    Report.Honest store.db (p.write prims now fault store).1.db
      ⟨p.call, p.tip, (p.write prims now fault store).2, notified⟩ := by
  cases fault with
  | some e => exact .failed _ rfl rfl
  | none =>
    rcases Call.write_cases prims p.call p.tip now store with
      ⟨e, hresult, hdb⟩ | ⟨trees, rootTree, -, hcase⟩
    · exact .failed e hresult hdb
    · simp only [Pending.write]
      generalize hwritten : p.call.write prims p.tip now store = written at hcase ⊢
      obtain ⟨⟨db, objects⟩, result⟩ := written
      cases hcase with
      | failed e => exact .failed e rfl rfl
      | noOp tip hskip =>
        obtain ⟨-, htip, -⟩ := skippedTip_some hskip
        exact .noOp tip rfl htip rfl
      | written row hrow hskip hnew hparent htip =>
        obtain ⟨-, -, -, hpar, -⟩ := authorCommitRow_ok hrow
        exact .written row.hash row.toCommitBody rfl hnew (hpar.trans htip.symm) htip.symm rfl rfl

/-- Every step of a world: a call begins and nothing moves, or a report is
added that is honest about the step. -/
theorem step_cases {w w' : World} {ev : Event} (h : (commitSystem prims).step w ev w') :
    (∃ call, ev = .begin call ∧ w'.store = w.store ∧ w'.log = w.log) ∨
    ∃ index now fault p report, ev = .finish index now fault ∧ w.pending[index]? = some p ∧
      report.call = p.call ∧ report.tip = p.tip ∧ w'.log = report :: w.log ∧
      report.Honest w.store.db w'.store.db := by
  cases ev with
  | begin call =>
    cases (show some _ = some w' from h)
    exact .inl ⟨call, rfl, rfl, rfl⟩
  | finish index now fault =>
    simp only [commitSystem, System.ofFun, World.step] at h
    cases hp : w.pending[index]? with
    | none => simp [hp] at h
    | some p =>
      simp only [hp, Option.some.injEq] at h
      subst h
      exact .inr ⟨index, now, fault, p, _, rfl, hp, rfl, rfl, rfl, write_honest p now fault _ _⟩

/-! ### Worlds simulate ledgers -/

/-- The reported commits of every ref are its ledger, and its parent chain. -/
def Matches (w : World) (l : Ledger) : Prop :=
  ∀ r, w.reported r = l r ∧ History w.store.db (w.store.db.refs.lookup r) (l r)

theorem reported_cons {w w' : World} {report : Report} (hlog : w'.log = report :: w.log)
    (r : String) :
    w'.reported r = (report.committedOn r).toList ++ w.reported r := by
  simp only [World.reported, hlog, List.filterMap_cons]
  cases report.committedOn r <;> rfl

/-- A report that wrote nothing leaves the ledger as it is. -/
theorem matches_unchanged {w w' : World} {l : Ledger} {report : Report} (hm : Matches w l)
    (hlog : w'.log = report :: w.log) (hdb : w'.store.db = w.store.db)
    (hnone : ∀ r, report.committedOn r = none) : Matches w' l := fun r => by
  rw [reported_cons hlog, hnone r, hdb]
  exact hm r

theorem world_simulates_ledger : System.Simulation (commitSystem prims) ledgerSystem Matches where
  start := by
    rintro w rfl
    exact ⟨_, rfl, fun r => ⟨rfl, .genesis⟩⟩
  forward := by
    intro w ev w' l hm hstep
    rcases step_cases hstep with
      ⟨call, rfl, hstore, hlog⟩ | ⟨index, now, fault, p, report, rfl, -, -, -, hlog, hhonest⟩
    · refine ⟨[], l, .refl l, fun r => ?_⟩
      rw [World.reported, hlog, hstore]
      exact hm r
    · cases hhonest with
      | failed e hresult hdb =>
        exact ⟨[], l, .refl l, matches_unchanged hm hlog hdb fun r => by
          simp [Report.committedOn, hresult]⟩
      | noOp hash hresult htip hdb =>
        exact ⟨[], l, .refl l, matches_unchanged hm hlog hdb fun r => by
          simp [Report.committedOn, hresult]⟩
      | written hash body hresult hnew hparent htip hcommits hrefs =>
        -- the ledger appends the commit, which stands in no list yet
        refine ⟨[(report.call.refName, hash)], _, .single ⟨fun r hmem => ?_, rfl⟩, fun r => ?_⟩
        · exact hnew ((hm r).2.stored hash hmem)
        · have hkeep (tip : Option Hash) (hs : List Hash) (hh : History w.store.db tip hs) :
              History w'.store.db tip hs :=
            hh.mono fun a old ha => hcommits ▸ lookup_insert_of_notMem hnew body ha
          rw [reported_cons hlog, (hm r).1, hrefs]
          by_cases hr : r = report.call.refName
          · subst hr
            rw [Function.update_self, AList.lookup_insert]
            have hlookup : w'.store.db.commits.lookup hash = some body := by
              rw [hcommits, AList.lookup_insert]
            refine ⟨by simp [Report.committedOn, hresult], .commit hlookup ?_⟩
            rw [hparent]
            exact hkeep _ _ (hm _).2
          · rw [Function.update_of_ne hr, AList.lookup_insert_ne hr]
            refine ⟨?_, hkeep _ _ (hm r).2⟩
            simp [Report.committedOn, hresult, Ne.symm hr]

/-- In every reachable world a ref's history is what was reported on it. -/
theorem reachable_history {w : World} (hw : (commitSystem prims).Reachable w) (r : String) :
    History w.store.db (w.store.db.refs.lookup r) (w.reported r) ∧ (w.reported r).Nodup := by
  obtain ⟨l, hl, hm⟩ := world_simulates_ledger.reachable hw
  rw [(hm r).1]
  exact ⟨(hm r).2, (ledger_fresh hl).1 r⟩

/-- **No lost update.** In every world any interleaving of commit calls reaches
from an empty store:

- the parent chain of each ref is finite, stored, and holds exactly the commits
  reported on that ref, each once;
- a finishing call that reports a commit left it over the tip its ref had just
  before, which is also the tip it read, and moved no other ref;
- a finishing call that fails or reports no commit left refs, commits and trees
  as they were, and the hash it reports is the tip it read. -/
theorem commit_calls_linearize (prims : Primitives) {w : World}
    (hw : (commitSystem prims).Reachable w) :
    (∀ r, History w.store.db (w.store.db.refs.lookup r) (w.reported r) ∧ (w.reported r).Nodup ∧
      ∀ h ∈ w.reported r, h ∈ w.store.db.commits) ∧
    (∀ call w', (commitSystem prims).step w (.begin call) w' → w'.store = w.store) ∧
    ∀ index now fault w', (commitSystem prims).step w (.finish index now fault) w' →
      ∃ p report, w.pending[index]? = some p ∧ w'.log = report :: w.log ∧
        report.call = p.call ∧ report.tip = p.tip ∧
        (∀ r, r ≠ p.call.refName →
          w'.store.db.refs.lookup r = w.store.db.refs.lookup r) ∧
        (∀ hash, report.result = .ok ⟨hash, true⟩ →
          (∃ body, w'.store.db.commits.lookup hash = some body ∧
            body.parent = w.store.db.refs.lookup p.call.refName) ∧
          p.tip = w.store.db.refs.lookup p.call.refName ∧
          hash ∉ w.store.db.commits ∧
          w'.store.db.refs.lookup p.call.refName = some hash) ∧
        (∀ hash, report.result = .ok ⟨hash, false⟩ →
          w'.store.db = w.store.db ∧ p.tip = some hash) ∧
        (∀ e, report.result = .error e → w'.store.db = w.store.db) := by
  refine ⟨fun r => ?_, fun call w' hstep => ?_, fun index now fault w' hstep => ?_⟩
  · obtain ⟨hhistory, hnodup⟩ := reachable_history hw r
    exact ⟨hhistory, hnodup, hhistory.stored⟩
  · rcases step_cases hstep with ⟨_, -, hstore, -⟩ | ⟨_, _, _, _, _, hev, -⟩
    · exact hstore
    · cases hev
  · rcases step_cases hstep with ⟨_, hev, -⟩ |
      ⟨_, _, _, p, report, hev, hp, hcall, htip, hlog, hhonest⟩
    · cases hev
    · cases hev
      refine ⟨p, report, hp, hlog, hcall, htip, ?_⟩
      rw [← hcall, ← htip]
      cases hhonest with
      | failed e hresult hdb => simp [hresult, hdb]
      | noOp hash hresult htip' hdb => simp [hresult, hdb, htip']
      | written hash body hresult hnew hparent htip' hcommits hrefs =>
        refine ⟨fun r hr => by rw [hrefs, AList.lookup_insert_ne hr], ?_, by simp [hresult],
          by simp [hresult]⟩
        intro hash' hhash'
        obtain rfl : hash = hash' := by simpa [hresult] using hhash'
        exact ⟨⟨body, by rw [hcommits, AList.lookup_insert], hparent⟩, htip', hnew,
          by rw [hrefs, AList.lookup_insert]⟩

/-! ### A race on one ref -/

def emptyCommit (device : String) : Call where
  session := demoSession device
  refName := tipRef
  intent := .init ""
  request := .snapshot .empty .record

/-- Two handles read the unset tip; the second to write loses the race. -/
def race : List Event :=
  [.begin (emptyCommit "a"), .begin (emptyCommit "b"), .finish 0 0 none, .finish 0 0 none]

def raceWorld : World :=
  (System.replay (World.step identityPrims) World.start race).getD World.start

theorem commit_calls_linearize_race :
    History raceWorld.store.db (raceWorld.store.db.refs.lookup "tip") (raceWorld.reported "tip") ∧
      (raceWorld.reported "tip").length = 1 ∧ raceWorld.log.length = 2 := by
  have hreach : (commitSystem identityPrims).Reachable raceWorld :=
    System.replay_reachable (by decide)
  exact ⟨((commit_calls_linearize identityPrims hreach).1 "tip").1, by decide +kernel, by decide +kernel⟩

end Softfig.Vcs
