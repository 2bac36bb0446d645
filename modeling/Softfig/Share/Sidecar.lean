import Softfig.Share.Pull

/-!
What a sync-conflict resolution keeps.

The resolution keeps the winner's tree and puts one file of the loser, the one
the push names first, into a sidecar beside it.

- `resolved_contentAt`: what every path of the resolved tree holds;
- `resolution_keeps_work_iff`: when no work of either side is lost;
- `sidecarOf_sidecarPath`: the sidecar of a plainly spelled file lies beside it.
-/

namespace Softfig.Share

open Softfig.Lib Softfig.Lib.PathTree
open Softfig.Store (Bytes)
open Softfig.Vcs

/-! ### The sidecar's path -/

theorem safeChar_ne_slash (ch : Char) : safeChar ch ≠ '/' := by
  unfold safeChar
  split_ifs with hkeep
  · rintro rfl
    revert hkeep
    decide
  · decide

theorem noSlash_sanitizeChars (prevDot : Bool) (cs : List Char) :
    '/' ∉ sanitizeChars prevDot cs := by
  induction cs generalizing prevDot with
  | nil => nofun
  | cons ch rest ih =>
    have hhead := Ne.symm (safeChar_ne_slash ch)
    simp only [sanitizeChars]
    split_ifs
    · exact ih true
    · simpa [hhead] using ih true
    · simpa [hhead] using ih false

theorem noSlash_sanitizeNameComponent (name : String) :
    '/' ∉ (sanitizeNameComponent name).toList := by
  unfold sanitizeNameComponent
  split
  · decide
  · rw [String.toList_ofList]
    exact noSlash_sanitizeChars false name.toList

theorem noSlash_sidecarSuffix (device : String) (ts : Int) :
    '/' ∉ (sidecarSuffix device ts).toList := by
  have hts : '/' ∉ (Lib.Jcs.Numeral.ofInt ts).chars := fun hmem =>
    absurd ((Lib.Jcs.Numeral.ofInt ts).wellFormed '/' hmem) (by decide)
  simp [sidecarSuffix, noSlash_sanitizeNameComponent, hts]

/-- A last segment grows with what is put behind the text. -/
theorem splitSlash_append_noSlash (s : List Char) {x : List Char} (hx : '/' ∉ x) :
    ∃ init u, splitSlash (s ++ x) = init ++ [u ++ x] ∧ '/' ∉ u ∧
      splitSlash s = init ++ [u] := by
  induction s with
  | nil => exact ⟨[], [], splitSlash_noSlash hx, nofun, rfl⟩
  | cons c s ih =>
    obtain ⟨init, u, hsplit, hu, hold⟩ := ih
    simp only [List.cons_append, splitSlash]
    by_cases hc : c = '/'
    · exact ⟨[] :: init, u, by simp [hc, hsplit], hu, by simp [hc, hold]⟩
    · rw [if_neg hc, if_neg hc, hsplit, hold]
      cases init with
      | nil => exact ⟨[], c :: u, rfl, by simp [Ne.symm hc, hu], rfl⟩
      | cons first init => exact ⟨(c :: first) :: init, u, rfl, hu, rfl⟩

theorem sidecarSuffix_length (device : String) (ts : Int) :
    2 < (sidecarSuffix device ts).toList.length := by
  simp [sidecarSuffix]

/-- The sidecar's path always ends in a file name. -/
theorem names_sidecarPath_ne_nil (treePath device : String) (ts : Int) :
    (Path.parse (sidecarPath treePath device ts)).names ≠ [] := by
  have hslash := noSlash_sidecarSuffix device ts
  have hlong := sidecarSuffix_length device ts
  obtain ⟨init, u, hsplit, hu, -⟩ := splitSlash_append_noSlash treePath.toList hslash
  have hne : ∀ l : List Char, l.length ≤ 2 → u ++ (sidecarSuffix device ts).toList ≠ l := by
    rintro l hl rfl
    rw [List.length_append] at hl
    omega
  have hfile :
      isFileName (String.ofList (u ++ (sidecarSuffix device ts).toList)).toList = true := by
    rw [String.toList_ofList]
    simp [isFileName, hu, hslash, hne]
  have hseg : segment? (u ++ (sidecarSuffix device ts).toList) = some (.normal ⟨_, hfile⟩) := by
    rw [segment?, if_neg (hne _ (by simp)), dif_pos hfile]
  rw [Path.names, ne_eq, List.map_eq_nil_iff]
  show parseComponents (sidecarPath treePath device ts).toList ≠ []
  rw [sidecarPath, String.toList_append, parseComponents, hsplit]
  cases init with
  | nil =>
    show (firstSegment? _ _).toList ++ _ ≠ []
    rw [firstSegment?, if_neg (hne _ (by simp)), if_neg (hne _ (by simp)), hseg]
    exact List.cons_ne_nil _ _
  | cons first init =>
    simp [List.filterMap_append, hseg]

/-! ### One resolution -/

section

variable {d : Device} {now : Int} {sides : ConflictSides} {history : History}

theorem readFirst_some {tree : SharedTree} {paths : List String} {treePath : String}
    {bytes : Bytes} (h : readFirst d tree paths = .ok (some (treePath, bytes))) :
    tree.contentAt (pathComponents treePath) = some bytes := by
  induction paths with
  | nil => cases h
  | cons candidate rest ih =>
    rw [readFirst] at h
    split at h
    · exact ih h
    · rename_i blob hblob
      split at h
      · cases h
      · rename_i plaintext hopen
        cases h
        rw [resolvePathInTree_eq_some hblob, Device.decryptTrackedBlob_content hopen]

/-- What a reported success is made of. -/
theorem resolveSyncConflict_resolved {after : History} {kept sidecar : String}
    (h : resolveSyncConflict d now sides history = .ok (after, .resolved kept sidecar)) :
    ∃ treePath bytes snapshot tree,
      readFileFromTree d sides.path sides.subtree sides.loser.tree =
        .ok (some (treePath, bytes)) ∧
      sidecar = sidecarPath treePath sides.loser.device sides.loser.ts ∧
      materializeTree d sides.winner.tree = .ok snapshot ∧
      buildTree d (snapshot.insertFile (.parse sidecar) sidecarMode bytes) = .ok tree ∧
      after.tree = some tree := by
  obtain ⟨located, hread, h⟩ := bind_ok_iff.mp h
  cases located with
  | none => cases h
  | some found =>
    obtain ⟨snapshot, hsnapshot, h⟩ := bind_ok_iff.mp h
    obtain ⟨tree, htree, h⟩ := bind_ok_iff.mp h
    cases h
    exact ⟨found.1, found.2, snapshot, tree, hread, rfl, hsnapshot, htree,
      tree_writeCommit _ _ _ _ _⟩

/-- A path the sidecar goes to: it has a name, and no file of the winner is on
the way. -/
def Reaches (winner : SharedTree) (s : List String) : Prop :=
  s ≠ [] ∧ ¬∃ q c, winner.contentAt q = some c ∧ q <+: s ∧ q ≠ s

/-- Every path after the sidecar is inserted into the winner's tree. -/
theorem resolved_contentAt {winner tree : SharedTree} {snapshot : WalkSnapshot} {path : Path}
    {mode : UInt32} {bytes : Bytes} (hwinner : materializeTree d winner = .ok snapshot)
    (htree : buildTree d (snapshot.insertFile path mode bytes) = .ok tree) (q : List String) :
    (¬Reaches winner path.names → tree.contentAt q = winner.contentAt q) ∧
      (Reaches winner path.names → tree.contentAt q =
        if q = path.names then some bytes
        else if path.names <+: q then none else winner.contentAt q) := by
  have hcontent := materialize_ok hwinner
  have hblocked : snapshot.root.Blocked path.names ↔
      ∃ q c, winner.contentAt q = some c ∧ q <+: path.names ∧ q ≠ path.names := by
    simp only [Forest.Blocked, ← hcontent, Option.map_eq_some_iff]
    constructor
    · rintro ⟨q, file, hfile, hway⟩
      exact ⟨q, _, ⟨file, hfile, rfl⟩, hway⟩
    · rintro ⟨q, _, ⟨file, hfile, rfl⟩, hway⟩
      exact ⟨q, file, hfile, hway⟩
  rw [buildTree_ok htree, ← hcontent, Reaches, ← hblocked]
  show ((_ → ((snapshot.root.insertLeaf path.names _).fileAt q).map _ = _) ∧
    (_ → ((snapshot.root.insertLeaf path.names _).fileAt q).map _ = _))
  by_cases hnil : path.names = []
  · simp [hnil, Forest.insertLeaf]
  · obtain ⟨hstop, hgo⟩ := Forest.fileAt_insertLeaf_cases (f := snapshot.root) hnil
      ⟨mode &&& modeMask, bytes⟩ q
    constructor
    · intro hreach
      rw [hstop (by tauto)]
    · intro hreach
      rw [hgo hreach.2]
      split_ifs <;> rfl

end

/-! ### What is kept -/

/-- A file beside `p`, named after it with a conflict mark. -/
def SidecarOf (p q : List String) : Prop :=
  ∃ dir name mark, p = dir ++ [name] ∧ q = dir ++ [name ++ ".conflict-" ++ mark]

/-- The content of `p` is in the tree, at its own path or in a sidecar of it. -/
def SharedTree.Keeps (tree : SharedTree) (p : List String) (c : Bytes) : Prop :=
  tree.contentAt p = some c ∨ ∃ q, SidecarOf p q ∧ tree.contentAt q = some c

/-- No work of either side is lost: what the loser changed is kept, the winner's
files stay as they are, and the sidecar takes no file's place. -/
structure WorkKept (base winner loser resolved : SharedTree) (sidecar : List String) : Prop where
  loserKept : ∀ p c, loser.contentAt p = some c → base.contentAt p ≠ some c → resolved.Keeps p c
  winnerKept : ∀ p c, winner.contentAt p = some c → resolved.contentAt p = some c
  fresh : winner.contentAt sidecar = none

/-- The winner has nothing at or below the sidecar's place, and whatever else the
loser changed is in the winner's tree already: what the sidecar saves is one file's
bytes, if no file of the winner is on its way. -/
structure OneFileConflict (base winner loser : SharedTree) (sidecar : List String)
    (bytes : Bytes) : Prop where
  place : ∀ q c, winner.contentAt q = some c → ¬sidecar <+: q
  changes : ∀ p c, loser.contentAt p = some c → base.contentAt p ≠ some c →
    winner.Keeps p c ∨
      Reaches winner sidecar ∧ c = bytes ∧ (p = sidecar ∨ SidecarOf p sidecar)

section

variable {d : Device} {base winner loser tree : SharedTree} {snapshot : WalkSnapshot}
  {path : Path} {mode : UInt32} {bytes : Bytes}

/-- Without a winner's file at or below the sidecar, the winner's files stay. -/
theorem contentAt_of_place (hwinner : materializeTree d winner = .ok snapshot)
    (htree : buildTree d (snapshot.insertFile path mode bytes) = .ok tree)
    (hplace : ∀ q c, winner.contentAt q = some c → ¬path.names <+: q) {q : List String}
    {c : Bytes} (hq : winner.contentAt q = some c) : tree.contentAt q = some c := by
  obtain ⟨hstop, hgo⟩ := resolved_contentAt hwinner htree q
  by_cases hreach : Reaches winner path.names
  · have hne : q ≠ path.names := by
      rintro rfl
      exact hplace _ c hq List.prefix_rfl
    rw [hgo hreach, if_neg hne, if_neg (hplace q c hq), hq]
  · rw [hstop hreach, hq]

/-- What the resolved tree has at a path the winner had there, or it is the sidecar. -/
theorem contentAt_or_sidecar (hwinner : materializeTree d winner = .ok snapshot)
    (htree : buildTree d (snapshot.insertFile path mode bytes) = .ok tree) {q : List String}
    {c : Bytes} (hq : tree.contentAt q = some c) :
    winner.contentAt q = some c ∨ Reaches winner path.names ∧ c = bytes ∧ q = path.names := by
  obtain ⟨hstop, hgo⟩ := resolved_contentAt hwinner htree q
  by_cases hreach : Reaches winner path.names
  · rw [hgo hreach] at hq
    split_ifs at hq with hsidecar
    · exact .inr ⟨hreach, (Option.some.inj hq).symm, hsidecar⟩
    · exact .inl hq
  · rw [hstop hreach] at hq
    exact .inl hq

theorem workKept_iff (hwinner : materializeTree d winner = .ok snapshot)
    (htree : buildTree d (snapshot.insertFile path mode bytes) = .ok tree)
    (hnames : path.names ≠ []) :
    WorkKept base winner loser tree path.names ↔
      OneFileConflict base winner loser path.names bytes := by
  have hgo := fun q => (resolved_contentAt hwinner htree q).2
  constructor
  · intro h
    refine ⟨fun q c hq hbelow => ?_, fun p c hp hbase => ?_⟩
    · by_cases hreach : Reaches winner path.names
      · -- the winner's file would be gone
        have hkept := h.winnerKept q c hq
        by_cases hat : q = path.names
        · subst hat
          cases hq.symm.trans h.fresh
        · rw [hgo q hreach, if_neg hat, if_pos hbelow] at hkept
          cases hkept
      · -- a file on the way to the sidecar leaves no room for one below it
        obtain ⟨r, b, hr, hway, hne⟩ := not_not.mp fun hnot => hreach ⟨hnames, hnot⟩
        simp only [SharedTree.contentAt, Option.map_eq_some_iff] at hq hr
        obtain ⟨file, hfile, -⟩ := hq
        obtain ⟨above, habove, -⟩ := hr
        have heq := Forest.fileAt_prefix_eq habove hfile (hway.trans hbelow)
        subst heq
        exact hne (hway.eq_of_length (le_antisymm hway.length_le hbelow.length_le))
    · rcases h.loserKept p c hp hbase with hown | ⟨q, hq, hside⟩
      · rcases contentAt_or_sidecar hwinner htree hown with hold | ⟨hreach, hc, hat⟩
        · exact .inl (.inl hold)
        · exact .inr ⟨hreach, hc, .inl hat⟩
      · rcases contentAt_or_sidecar hwinner htree hside with hold | ⟨hreach, hc, rfl⟩
        · exact .inl (.inr ⟨q, hq, hold⟩)
        · exact .inr ⟨hreach, hc, .inr hq⟩
  · intro h
    have hkept {q : List String} {c : Bytes} := contentAt_of_place (q := q) (c := c) hwinner htree
      h.place
    refine ⟨fun p c hp hbase => ?_, fun p c hp => hkept hp, ?_⟩
    · rcases h.changes p c hp hbase with hold | ⟨hreach, rfl, hat⟩
      · rcases hold with hown | ⟨q, hq, hside⟩
        · exact .inl (hkept hown)
        · exact .inr ⟨q, hq, hkept hside⟩
      · have hside : tree.contentAt path.names = some c := by rw [hgo _ hreach, if_pos rfl]
        rcases hat with rfl | hat
        · exact .inl hside
        · exact .inr ⟨_, hat, hside⟩
    · cases hsidecar : winner.contentAt path.names with
      | none => rfl
      | some c => exact absurd List.prefix_rfl (h.place _ c hsidecar)

end

/-! ### The named file -/

theorem namesOk_append_of {dir : List String} {old new : String}
    (h : NamesOk true (dir ++ [old])) (hnew : NameOk false new) :
    NamesOk true (dir ++ [new]) := by
  have general : ∀ (top : Bool) (dir : List String), NamesOk top (dir ++ [old]) →
      NamesOk top (dir ++ [new]) := by
    intro top dir
    induction dir generalizing top with
    | nil =>
      obtain ⟨c, hc, hinterior⟩ := hnew
      exact fun _ => ⟨⟨c, hc, .inr (hinterior.resolve_left Bool.false_ne_true)⟩, trivial⟩
    | cons n dir ih => exact fun h => ⟨h.1, ih false h.2⟩
  exact general true dir h

theorem nameOk_append_sidecarSuffix {name : String} (hname : '/' ∉ name.toList)
    (device : String) (ts : Int) : NameOk false (name ++ sidecarSuffix device ts) := by
  have hslash := noSlash_sidecarSuffix device ts
  have hlong := sidecarSuffix_length device ts
  have hne : ∀ l : List Char, l.length ≤ 2 →
      name.toList ++ (sidecarSuffix device ts).toList ≠ l := by
    rintro l hl rfl
    rw [List.length_append] at hl
    omega
  have hfile : isFileName (name ++ sidecarSuffix device ts).toList = true := by
    rw [String.toList_append]
    simp [isFileName, hname, hslash, hne]
  exact ⟨.normal ⟨_, hfile⟩, rfl, .inr rfl⟩

/-- **The sidecar of a plainly spelled file lies beside it.** -/
theorem sidecarOf_sidecarPath {dir : List String} {name : String}
    (h : NamesOk true (dir ++ [name])) (hname : '/' ∉ name.toList) (device : String) (ts : Int) :
    SidecarOf (dir ++ [name])
      (Path.parse (sidecarPath (pathString (dir ++ [name])) device ts)).names := by
  have htext : sidecarPath (pathString (dir ++ [name])) device ts =
      pathString (dir ++ [name ++ sidecarSuffix device ts]) := by
    rw [sidecarPath, pathString_append, pathString_append]
    unfold childPath
    split_ifs
    · rfl
    · rw [String.append_assoc]
  rw [htext, parse_pathString
    (namesOk_append_of h (nameOk_append_sidecarSuffix hname device ts))]
  refine ⟨dir, name, sanitizeNameComponent device ++ "-" ++
    String.ofList (Lib.Jcs.Numeral.ofInt ts).chars ++ ".md", rfl, ?_⟩
  simp only [sidecarSuffix, String.append_assoc]

/-- **No work is lost exactly in a one-file conflict.** When the resolution reports
success, both sides' work is in the resolved tree if and only if the winner has
nothing at or below the sidecar's place and all the loser changed, but the file
read for the sidecar, is in the winner's tree already. -/
theorem resolution_keeps_work_iff (d : Device) (now : Int) (base : SharedTree)
    (sides : ConflictSides) (history after : History) (kept sidecar treePath : String)
    (bytes : Bytes) (resolved : SharedTree)
    (hread : readFileFromTree d sides.path sides.subtree sides.loser.tree =
      .ok (some (treePath, bytes)))
    (h : resolveSyncConflict d now sides history = .ok (after, .resolved kept sidecar))
    (hafter : after.tree = some resolved) :
    WorkKept base sides.winner.tree sides.loser.tree resolved (Path.parse sidecar).names ↔
      OneFileConflict base sides.winner.tree sides.loser.tree
        (Path.parse (sidecarPath treePath sides.loser.device sides.loser.ts)).names bytes := by
  obtain ⟨path, found, snapshot, tree, hread', rfl, hsnapshot, htree, hcommitted⟩ :=
    resolveSyncConflict_resolved h
  obtain ⟨rfl, rfl⟩ : path = treePath ∧ found = bytes := by
    simpa using hread'.symm.trans hread
  obtain rfl : tree = resolved := Option.some.inj (hcommitted.symm.trans hafter)
  exact workKept_iff hsnapshot htree (names_sidecarPath_ne_nil _ _ _)

/-! ### Two files in one conflict -/

/-- The tree, winner and sidecar of a reported success. -/
def reported : Except Refusal (History × ConflictResolution) → Option (SharedTree × String × String)
  | .ok (after, .resolved kept sidecar) => after.tree.map fun tree => (tree, kept, sidecar)
  | _ => none

theorem reported_eq_some {r : Except Refusal (History × ConflictResolution)} {tree : SharedTree}
    {kept sidecar : String} (h : reported r = some (tree, kept, sidecar)) :
    ∃ after, r = .ok (after, .resolved kept sidecar) ∧ after.tree = some tree := by
  match r, h with
  | .ok (after, .resolved kept' sidecar'), h =>
    obtain ⟨t, ht, heq⟩ := Option.map_eq_some_iff.mp h
    cases heq
    exact ⟨after, rfl, ht⟩

theorem leaf_of_contentAt {tree : SharedTree} {p : List String} {c : Bytes}
    (h : tree.contentAt p = some c) : ∃ l ∈ tree.root.leaves, l.1 = p ∧ l.2.blob.content = c := by
  obtain ⟨file, hfile, rfl⟩ := Option.map_eq_some_iff.mp h
  exact ⟨(p, file), (Forest.mem_leaves tree.sorted).mpr hfile, rfl, rfl⟩

def demoTwoFiles (a b : UInt8) : SharedTree := demoTree [("a.md", [a]), ("b.md", [b])]

/-- Both members edited `a.md`; the receiver, who is older, also edited `b.md` to
`ours`. -/
def demoSides (ours : UInt8) : ConflictSides where
  chainRef := "chain/work"
  subtree := "share-1"
  path := "a.md"
  baseHash := demoTwoFiles 1 1
  incomingTree := demoTwoFiles 3 1
  incomingDevice := "ann"
  incomingTs := 30
  localTree := demoTwoFiles 2 ours
  localDevice := "bob"
  localTs := 20

def demoHistory (ours : UInt8) : History := [⟨demoTwoFiles 2 ours, 20, "bob", .other .null⟩]

/-- The second file's edit is nowhere in the resolved tree. -/
theorem resolution_keeps_work_fails :
    ∃ after resolved sidecar,
      resolveSyncConflict (demoDevice "bob") 40 (demoSides 7) (demoHistory 7) =
        .ok (after, .resolved "ann" sidecar) ∧ after.tree = some resolved ∧
      ¬WorkKept (demoTwoFiles 1 1) (demoSides 7).winner.tree (demoSides 7).loser.tree resolved
        (Path.parse sidecar).names := by
  have hrun : (reported (resolveSyncConflict (demoDevice "bob") 40 (demoSides 7)
        (demoHistory 7))).any (fun r => r.2.1 == "ann" &&
          r.1.root.leaves.all fun l => l.2.blob.content != [7]) = true ∧
      (demoSides 7).loser.tree.contentAt ["b.md"] = some [7] ∧
      (demoTwoFiles 1 1).contentAt ["b.md"] ≠ some [7] := by
    decide +kernel
  obtain ⟨hreport, hours, hbase⟩ := hrun
  rw [Option.any_eq_true] at hreport
  obtain ⟨⟨resolved, kept, sidecar⟩, hr, hleaves⟩ := hreport
  simp only [Bool.and_eq_true, beq_iff_eq, List.all_eq_true, bne_iff_ne] at hleaves
  obtain ⟨after, hafter, htree⟩ := reported_eq_some hr
  rw [hleaves.1] at hafter
  refine ⟨after, resolved, sidecar, hafter, htree, fun hkept => ?_⟩
  have hnone (q : List String) : resolved.contentAt q ≠ some [7] := fun hq => by
    obtain ⟨l, hl, -, hc⟩ := leaf_of_contentAt hq
    exact hleaves.2 l hl hc
  rcases hkept.loserKept ["b.md"] [7] hours hbase with hown | ⟨q, -, hside⟩
  · exact hnone _ hown
  · exact hnone _ hside

/-- A one-file conflict, checked over the files of the trees. -/
theorem oneFileConflict_of_leaves {base winner loser : SharedTree} {s : List String}
    {bytes : Bytes} (hs : s ≠ [])
    (hwinner : ∀ l ∈ winner.root.leaves, ¬s <+: l.1 ∧ ¬l.1 <+: s)
    (hloser : ∀ l ∈ loser.root.leaves, base.contentAt l.1 = some l.2.blob.content ∨
      l.2.blob.content = bytes ∧ SidecarOf l.1 s) :
    OneFileConflict base winner loser s bytes := by
  refine ⟨fun q c hq => ?_, fun p c hp hbase => ?_⟩
  · obtain ⟨l, hl, rfl, -⟩ := leaf_of_contentAt hq
    exact (hwinner l hl).1
  · obtain ⟨l, hl, rfl, rfl⟩ := leaf_of_contentAt hp
    obtain ⟨hbytes, hside⟩ := (hloser l hl).resolve_left hbase
    refine .inr ⟨⟨hs, ?_⟩, hbytes, .inr hside⟩
    rintro ⟨q, b, hq, hway, -⟩
    obtain ⟨k, hk, rfl, -⟩ := leaf_of_contentAt hq
    exact (hwinner k hk).2 hway

/-- With only `a.md` in conflict both edits are kept. -/
theorem resolution_keeps_work_demo :
    ∃ after resolved sidecar,
      resolveSyncConflict (demoDevice "bob") 40 (demoSides 1) (demoHistory 1) =
        .ok (after, .resolved "ann" sidecar) ∧ after.tree = some resolved ∧
      WorkKept (demoTwoFiles 1 1) (demoSides 1).winner.tree (demoSides 1).loser.tree resolved
        (Path.parse sidecar).names := by
  have hrun : (reported (resolveSyncConflict (demoDevice "bob") 40 (demoSides 1)
        (demoHistory 1))).any (fun r => r.2.1 == "ann") = true ∧
      (readFileFromTree (demoDevice "bob") "a.md" "share-1" (demoSides 1).loser.tree).toOption =
        some (some ("a.md", [2])) ∧
      (Path.parse (sidecarPath "a.md" (demoSides 1).loser.device (demoSides 1).loser.ts)).names =
        ["a.md.conflict-bob-20.md"] ∧
      (∀ l ∈ (demoSides 1).winner.tree.root.leaves,
        ¬["a.md.conflict-bob-20.md"] <+: l.1 ∧ ¬l.1 <+: ["a.md.conflict-bob-20.md"]) ∧
      ∀ l ∈ (demoSides 1).loser.tree.root.leaves,
        (demoTwoFiles 1 1).contentAt l.1 = some l.2.blob.content ∨
          l.2.blob.content = [2] ∧ l.1 = ["a.md"] := by
    decide +kernel
  obtain ⟨hreport, hread, hnames, hwinner, hloser⟩ := hrun
  rw [Option.any_eq_true] at hreport
  obtain ⟨⟨resolved, kept, sidecar⟩, hr, hkept⟩ := hreport
  obtain ⟨after, hafter, htree⟩ := reported_eq_some hr
  rw [show kept = "ann" from beq_iff_eq.mp hkept] at hafter
  have hlocated : readFileFromTree (demoDevice "bob") "a.md" "share-1" (demoSides 1).loser.tree =
      .ok (some ("a.md", [2])) := by
    cases hcase : readFileFromTree (demoDevice "bob") "a.md" "share-1"
        (demoSides 1).loser.tree with
    | error refusal => simp [hcase, Except.toOption] at hread
    | ok located =>
      rw [hcase] at hread
      exact congrArg Except.ok (Option.some.inj hread)
  have hbeside : SidecarOf ["a.md"] ["a.md.conflict-bob-20.md"] :=
    ⟨[], "a.md", "bob-20.md", rfl, rfl⟩
  refine ⟨after, resolved, sidecar, hafter, htree, ?_⟩
  refine (resolution_keeps_work_iff (demoDevice "bob") 40 (demoTwoFiles 1 1) (demoSides 1)
    (demoHistory 1) after "ann" sidecar "a.md" [2] resolved hlocated hafter htree).mpr ?_
  rw [hnames]
  refine oneFileConflict_of_leaves (by simp) hwinner fun l hl => ?_
  rcases hloser l hl with hold | ⟨hbytes, hname⟩
  · exact .inl hold
  · rw [hname]
    exact .inr ⟨hbytes, hbeside⟩

end Softfig.Share
