import Mathlib.Data.List.AList
import Mathlib.Data.List.Sort
import Softfig.Store.Hash

/-!
The metadata database (refs, commits, trees, tree entries) and the loose
object directory.

A table is a finite map from its primary key. A tree keeps its entries in the
order `get_tree` returns them, by name. Writes that can be refused return the
error SQLite or the compare-and-swap reports; `withTx` drops every write of a
refused transaction.

- `setRefCas_ok_iff`: the compare-and-swap lands exactly on the tip it expects;
- `putCommit_ok_iff`: a commit row is inserted once, over a stored parent;
- `lookup_putTree`: a tree row gains the entries it is given.
-/

namespace Softfig.Store

/-! ### Rows -/

inductive TreeEntryKind where
  | blob
  | tree
  deriving DecidableEq

def TreeEntryKind.asStr : TreeEntryKind → String
  | .blob => "blob"
  | .tree => "tree"

theorem TreeEntryKind.asStr_injective {a b : TreeEntryKind} (h : a.asStr = b.asStr) : a = b := by
  cases a <;> cases b <;> first | rfl | exact absurd h (by decide)

structure TreeEntryRow where
  name : String
  kind : TreeEntryKind
  mode : UInt32
  target : Hash
  deriving DecidableEq

/-- The columns of a commit beside its key. -/
structure CommitBody where
  parent : Option Hash
  rootTree : Hash
  authorDevice : String
  authorPubkey : Bytes
  timestamp : Int
  intent : String
  /-- Canonical text of the payload object. -/
  payload : String
  masterKeyId : UInt32
  signature : Bytes
  deriving DecidableEq

structure CommitRow extends CommitBody where
  hash : Hash
  deriving DecidableEq

structure Db where
  refs : AList fun _ : String => Hash
  commits : AList fun _ : Hash => CommitBody
  trees : AList fun _ : Hash => List TreeEntryRow

def Db.empty : Db := ⟨∅, ∅, ∅⟩

/-- Bytes on disk under the address in the file name. -/
abbrev ObjectStore := AList fun _ : Hash => Bytes

inductive StoreError where
  | objectNotFound (hash : Hash)
  | objectCorrupt (expected actual : Hash)
  | commitNotFound (hash : Hash)
  | treeNotFound (hash : Hash)
  | refCasMismatch (name : String) (expected actual : Option Hash)
  | uniqueConstraint (hash : Hash)
  | foreignKeyConstraint (hash : Hash)
  | sqlite (message : String)
  | io (message : String)
  deriving DecidableEq

/-! ### Reading -/

namespace Db

def tryGetRef (db : Db) (name : String) : Option Hash := db.refs.lookup name

/-- Every ref with its tip, by name. -/
def listRefs (db : Db) : List (String × Hash) :=
  (db.refs.entries.map fun r => (r.1, r.2)).insertionSort fun a b => a.1 ≤ b.1

def getCommit (db : Db) (hash : Hash) : Except StoreError CommitRow :=
  match db.commits.lookup hash with
  | some body => .ok { body with hash }
  | none => .error (.commitNotFound hash)

/-- Every commit row, oldest insertion first. -/
def listCommits (db : Db) : List CommitRow :=
  (db.commits.entries.map fun r => { r.2 with hash := r.1 }).reverse

def treeExists (db : Db) (hash : Hash) : Bool := (db.trees.lookup hash).isSome

def getTree (db : Db) (hash : Hash) : Except StoreError (List TreeEntryRow) :=
  match db.trees.lookup hash with
  | some entries => .ok entries
  | none => .error (.treeNotFound hash)

def listTreeHashes (db : Db) : List Hash := db.trees.keys.reverse

end Db

/-! ### Writing -/

/-- Insert or replace the entry of this name, keeping the names in order. -/
def upsertEntry (e : TreeEntryRow) : List TreeEntryRow → List TreeEntryRow
  | [] => [e]
  | x :: xs =>
    if e.name = x.name then e :: xs
    else if e.name < x.name then e :: x :: xs
    else x :: upsertEntry e xs

def upsertEntries (rows entries : List TreeEntryRow) : List TreeEntryRow :=
  entries.foldl (fun rows e => upsertEntry e rows) rows

def putTree (db : Db) (hash : Hash) (entries : List TreeEntryRow) : Db :=
  { db with
    trees := db.trees.insert hash (upsertEntries ((db.trees.lookup hash).getD []) entries) }

def putTrees (db : Db) (trees : List (Hash × List TreeEntryRow)) : Db :=
  trees.foldl (fun db t => putTree db t.1 t.2) db

/-- Insert a commit row: its hash is the primary key, its parent a foreign key. -/
def putCommit (db : Db) (c : CommitRow) : Except StoreError Db :=
  if c.hash ∈ db.commits then .error (.uniqueConstraint c.hash)
  else
    match c.parent with
    | none => .ok { db with commits := db.commits.insert c.hash c.toCommitBody }
    | some p =>
      if p ∈ db.commits ∨ p = c.hash then
        .ok { db with commits := db.commits.insert c.hash c.toCommitBody }
      else .error (.foreignKeyConstraint p)

/-- Advance `name` to `hash` only while its stored tip is `expected`. -/
def setRefCas (db : Db) (name : String) (expected : Option Hash) (hash : Hash) :
    Except StoreError Db :=
  let actual := db.refs.lookup name
  match expected with
  | some prior =>
    if actual = some prior then .ok { db with refs := db.refs.insert name hash }
    else .error (.refCasMismatch name expected actual)
  | none =>
    if actual = none then .ok { db with refs := db.refs.insert name hash }
    else .error (.refCasMismatch name expected actual)

/-- Run `f` in a transaction: its writes land together, or none does. -/
def Db.withTx {α : Type} (db : Db) (f : Db → Except StoreError (Db × α)) :
    Db × Except StoreError α :=
  match f db with
  | .ok (db', a) => (db', .ok a)
  | .error e => (db, .error e)

/-! ### What a write does -/

theorem setRefCas_ok_iff {db db' : Db} {name : String} {expected : Option Hash} {hash : Hash} :
    setRefCas db name expected hash = .ok db' ↔
      db.refs.lookup name = expected ∧ db' = { db with refs := db.refs.insert name hash } := by
  cases expected with
  | none =>
    simp only [setRefCas]
    split_ifs with h <;> simp [h, eq_comm]
  | some prior =>
    simp only [setRefCas]
    split_ifs with h <;> simp [h, eq_comm]

theorem putCommit_ok_iff {db db' : Db} {c : CommitRow} :
    putCommit db c = .ok db' ↔
      c.hash ∉ db.commits ∧ (∀ p ∈ c.parent, p ∈ db.commits ∨ p = c.hash) ∧
        db' = { db with commits := db.commits.insert c.hash c.toCommitBody } := by
  unfold putCommit
  by_cases hmem : c.hash ∈ db.commits
  · simp [hmem]
  · cases hp : c.parent with
    | none => simp [hmem, eq_comm]
    | some p =>
      by_cases hpar : p ∈ db.commits ∨ p = c.hash
      · simp [hmem, hpar, eq_comm]
      · simp [hmem, hpar]

@[simp]
theorem putTree_refs (db : Db) (hash : Hash) (entries : List TreeEntryRow) :
    (putTree db hash entries).refs = db.refs := rfl

@[simp]
theorem putTree_commits (db : Db) (hash : Hash) (entries : List TreeEntryRow) :
    (putTree db hash entries).commits = db.commits := rfl

@[simp]
theorem putTrees_refs (db : Db) (trees : List (Hash × List TreeEntryRow)) :
    (putTrees db trees).refs = db.refs := by
  induction trees generalizing db with
  | nil => rfl
  | cons t ts ih => exact (ih (putTree db t.1 t.2)).trans (putTree_refs db t.1 t.2)

@[simp]
theorem putTrees_commits (db : Db) (trees : List (Hash × List TreeEntryRow)) :
    (putTrees db trees).commits = db.commits := by
  induction trees generalizing db with
  | nil => rfl
  | cons t ts ih => exact (ih (putTree db t.1 t.2)).trans (putTree_commits db t.1 t.2)

theorem lookup_putTree (db : Db) (hash other : Hash) (entries : List TreeEntryRow) :
    (putTree db hash entries).trees.lookup other =
      if other = hash then some (upsertEntries ((db.trees.lookup hash).getD []) entries)
      else db.trees.lookup other := by
  by_cases h : other = hash
  · subst h
    simp [putTree, AList.lookup_insert]
  · simp [putTree, h, AList.lookup_insert_ne h]

/-- Inserting under a new key keeps every row. -/
theorem lookup_insert_of_notMem {κ ν : Type} [DecidableEq κ] {t : AList fun _ : κ => ν} {k : κ}
    (hnew : k ∉ t) (v : ν) {k' : κ} {w : ν} (h : t.lookup k' = some w) :
    (t.insert k v).lookup k' = some w := by
  have hne : k' ≠ k := by
    rintro rfl
    exact hnew (AList.lookup_isSome.mp (by rw [h]; rfl))
  rw [AList.lookup_insert_ne hne, h]

/-! ### Listing -/

theorem Db.mem_listRefs {db : Db} {name : String} {hash : Hash} :
    (name, hash) ∈ db.listRefs ↔ db.refs.lookup name = some hash := by
  unfold Db.listRefs
  rw [List.mem_insertionSort, List.mem_map, ← Option.mem_def, AList.mem_lookup_iff]
  constructor
  · rintro ⟨⟨n, g⟩, hmem, heq⟩
    obtain ⟨rfl, rfl⟩ := Prod.mk.inj heq
    exact hmem
  · exact fun hmem => ⟨⟨name, hash⟩, hmem, rfl⟩

theorem Db.mem_listCommits {db : Db} {c : CommitRow} :
    c ∈ db.listCommits ↔ db.commits.lookup c.hash = some c.toCommitBody := by
  unfold Db.listCommits
  rw [List.mem_reverse, List.mem_map, ← Option.mem_def, AList.mem_lookup_iff]
  constructor
  · rintro ⟨⟨g, body⟩, hmem, rfl⟩
    exact hmem
  · exact fun hmem => ⟨⟨c.hash, c.toCommitBody⟩, hmem, rfl⟩

theorem Db.getCommit_ok_iff {db : Db} {hash : Hash} {row : CommitRow} :
    db.getCommit hash = .ok row ↔
      row.hash = hash ∧ db.commits.lookup hash = some row.toCommitBody := by
  unfold Db.getCommit
  cases h : db.commits.lookup hash with
  | none => simp
  | some body =>
    simp only [Except.ok.injEq, Option.some.injEq]
    constructor
    · rintro rfl
      exact ⟨rfl, rfl⟩
    · rintro ⟨rfl, rfl⟩
      rfl

theorem Db.getTree_ok_iff {db : Db} {hash : Hash} {entries : List TreeEntryRow} :
    db.getTree hash = .ok entries ↔ db.trees.lookup hash = some entries := by
  unfold Db.getTree
  cases db.trees.lookup hash <;> simp

/-! ### Entries of one tree -/

/-- Names in strictly increasing order: how `getTree` returns every tree. -/
def SortedByName (rows : List TreeEntryRow) : Prop :=
  rows.Pairwise fun a b => a.name < b.name

theorem mem_upsertEntry {e x : TreeEntryRow} {rows : List TreeEntryRow}
    (h : x ∈ upsertEntry e rows) : x = e ∨ x ∈ rows := by
  induction rows with
  | nil => exact .inl (List.mem_singleton.mp h)
  | cons y ys ih =>
    simp only [upsertEntry] at h
    split_ifs at h with heq hlt
    · rcases List.mem_cons.mp h with rfl | h
      · exact .inl rfl
      · exact .inr (List.mem_cons_of_mem _ h)
    · exact List.mem_cons.mp h
    · rcases List.mem_cons.mp h with rfl | h
      · exact .inr List.mem_cons_self
      · exact (ih h).imp_right (List.mem_cons_of_mem _)

/-- An entry that sorts after every row is appended. -/
theorem upsertEntry_append {e : TreeEntryRow} {rows : List TreeEntryRow}
    (h : ∀ x ∈ rows, x.name < e.name) : upsertEntry e rows = rows ++ [e] := by
  induction rows with
  | nil => rfl
  | cons y ys ih =>
    have hy := h y List.mem_cons_self
    rw [upsertEntry, if_neg hy.ne', if_neg hy.not_gt,
      ih fun x hx => h x (List.mem_cons_of_mem _ hx), List.cons_append]

/-- An entry already there is replaced by itself. -/
theorem upsertEntry_of_mem {e : TreeEntryRow} {rows : List TreeEntryRow}
    (hsorted : SortedByName rows) (h : e ∈ rows) : upsertEntry e rows = rows := by
  induction rows with
  | nil => cases h
  | cons y ys ih =>
    obtain ⟨hy, hys⟩ := List.pairwise_cons.mp hsorted
    rcases List.mem_cons.mp h with rfl | h
    · simp [upsertEntry]
    · have hlt := hy e h
      rw [upsertEntry, if_neg hlt.ne', if_neg hlt.not_gt, ih hys h]

theorem upsertEntries_append {rows entries : List TreeEntryRow}
    (h : SortedByName (rows ++ entries)) : upsertEntries rows entries = rows ++ entries := by
  induction entries generalizing rows with
  | nil => simp [upsertEntries]
  | cons e es ih =>
    have hlast : ∀ x ∈ rows, x.name < e.name := fun x hx =>
      (List.pairwise_append.mp h).2.2 x hx e List.mem_cons_self
    rw [upsertEntries, List.foldl_cons, upsertEntry_append hlast]
    refine (ih (by simpa using h)).trans ?_
    simp

/-- Writing a sorted tree into an absent row stores it as it is. -/
theorem upsertEntries_nil {entries : List TreeEntryRow} (h : SortedByName entries) :
    upsertEntries [] entries = entries :=
  upsertEntries_append h

/-- Writing a tree over itself changes nothing. -/
theorem upsertEntries_self {rows entries : List TreeEntryRow} (hsorted : SortedByName rows)
    (h : ∀ e ∈ entries, e ∈ rows) : upsertEntries rows entries = rows := by
  induction entries with
  | nil => rfl
  | cons e es ih =>
    rw [upsertEntries, List.foldl_cons,
      upsertEntry_of_mem hsorted (h e List.mem_cons_self)]
    exact ih fun x hx => h x (List.mem_cons_of_mem _ hx)

end Softfig.Store
