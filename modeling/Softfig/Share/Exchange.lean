import Softfig.Share.CatchUp
import Softfig.Share.Sidecar

/-!
Two members that diverged, and go on exchanging pushes.

Each member resolves the other's push by itself; nothing but the tips is compared
afterwards.

- `mirror_winner`, `mirror_loser`: both members judge the same two sides alike;
- `members_converge`: when both end with one tree and mint nothing more;
- `exchange_stuck`: two resolutions that differ are never reconciled.
-/

namespace Softfig.Share

open Softfig.Lib Softfig.Lib.PathTree
open Softfig.Store (Bytes)
open Softfig.Vcs

/-- The two members' histories of the chain. -/
structure Pair where
  a : History
  b : History

inductive Party where
  | a
  | b

section

variable (share : ShareRow) (da db : Device)

/-- One member offers its tip, and the other serves the push at its own time. -/
def Pair.exchange (s : Pair) : Party × Int → Pair
  | (.a, now) =>
    match reconcileSharedPush share da s.a with
    | some p => { s with b := (serveSharedChainPush share db now p s.b).1 }
    | none => s
  | (.b, now) =>
    match reconcileSharedPush share db s.b with
    | some p => { s with a := (serveSharedChainPush share da now p s.a).1 }
    | none => s

def Pair.exchanges (s : Pair) (events : List (Party × Int)) : Pair :=
  events.foldl (Pair.exchange share da db) s

end

section

variable {share : ShareRow} {da db : Device}

theorem Pair.exchanges_eq_self {s : Pair} (h : ∀ e, s.exchange share da db e = s)
    (events : List (Party × Int)) : s.exchanges share da db events = s := by
  induction events with
  | nil => rfl
  | cons e events ih =>
    rw [Pair.exchanges, List.foldl_cons, h e]
    exact ih

/-! ### Settled members -/

/-- A push of the tree the receiver has changes nothing. -/
theorem serve_present {d : Device} {now : Int} {p : SharedChainPush} {history : History}
    (h : history.tree = some p.newTree) :
    (serveSharedChainPush share d now p history).1 = history := by
  unfold serveSharedChainPush
  rcases applySharedPull_cases d now (pullInput share p) history with
    ⟨-, heq⟩ | ⟨hne, -⟩ | ⟨hne, -⟩
  · rw [heq]
  · exact absurd h hne
  · exact absurd h hne

/-- **Members with one tree are settled**: no exchange changes either. -/
theorem Pair.exchange_settled {s : Pair} (h : s.a.tree = s.b.tree) (e : Party × Int) :
    s.exchange share da db e = s := by
  obtain ⟨party, now⟩ := e
  cases party with
  | a =>
    simp only [Pair.exchange]
    split
    · rename_i p hp
      rw [serve_present (h.symm.trans (reconcileSharedPush_newTree hp))]
    · rfl
  | b =>
    simp only [Pair.exchange]
    split
    · rename_i p hp
      rw [serve_present (h.trans (reconcileSharedPush_newTree hp))]
    · rfl

/-! ### Stuck members -/

theorem readFileFromTree_no_path (d : Device) (subtree : String) (tree : SharedTree) :
    readFileFromTree d "" subtree tree = .ok none := by
  have hcandidates : candidates "" subtree = [""] := by
    unfold candidates
    by_cases hempty : subtree = ""
    · simp [hempty]
    · have hstrip : stripPrefix? (subtree ++ "/") "" = none := by
        simp [stripPrefix?]
      simp [hempty, hstrip]
  have hnone : resolvePathInTree tree "" = none := by
    rw [resolvePathInTree, show pathComponents "" = [] by decide]
    rfl
  rw [readFileFromTree, hcandidates, readFirst, hnone]
  rfl

/-- A conflicting push that names no file is left alone. -/
theorem serve_no_files {d : Device} {now : Int} {p : SharedChainPush} {history : History}
    (hfiles : p.files = []) (h : ¬Takes history.tree p) :
    (serveSharedChainPush share d now p history).1 = history := by
  cases history with
  | nil => exact absurd (.inl rfl) h
  | cons tip older =>
    have hresolve : resolveSyncConflict d now (conflictSides share p tip) (tip :: older) =
        .ok (tip :: older, .loserUnresolvable "") := by
      have hpath : (conflictSides share p tip).path = "" := by simp [conflictSides, hfiles]
      unfold resolveSyncConflict
      rw [hpath, readFileFromTree_no_path]
      rfl
    rw [serve_of_not_takes share d now h, hresolve]

/-- **Two tips that name no file and do not take each other's push stay apart.** -/
theorem exchange_stuck {s : Pair} {pa pb : SharedChainPush}
    (hpa : reconcileSharedPush share da s.a = some pa) (hfa : pa.files = [])
    (ha : ¬Takes s.b.tree pa) (hpb : reconcileSharedPush share db s.b = some pb)
    (hfb : pb.files = []) (hb : ¬Takes s.a.tree pb) (events : List (Party × Int)) :
    s.exchanges share da db events = s := by
  refine Pair.exchanges_eq_self (fun e => ?_) events
  obtain ⟨party, now⟩ := e
  cases party with
  | a =>
    simp only [Pair.exchange, hpa]
    rw [serve_no_files hfa ha]
  | b =>
    simp only [Pair.exchange, hpb]
    rw [serve_no_files hfb hb]

/-! ### Two resolutions of one conflict -/

/-- The two members know each other's edits by the same names and times, and the
two edits by different ones. -/
structure SameKeys (pa pb : SharedChainPush) (tipA tipB : Commit) : Prop where
  writerA : pa.writerDevice = tipA.authorDevice
  writerB : pb.writerDevice = tipB.authorDevice
  apart : (tipA.timestamp, tipA.authorDevice) ≠ (tipB.timestamp, tipB.authorDevice)

theorem reconcileSharedPush_tip {d : Device} {tip : Commit} {older : History}
    {p : SharedChainPush} (h : reconcileSharedPush share d (tip :: older) = some p) :
    p.newTree = tip.rootTree ∧ p.timestamp = tip.timestamp ∧ p.subtree = share.id := by
  cases older with
  | nil => cases h
  | cons parent older =>
    cases h
    exact ⟨rfl, rfl, rfl⟩

section

variable {pa pb : SharedChainPush} {tipA tipB : Commit} {olderA olderB : History}

/-- What wins at one member loses at the other. -/
theorem mirror_incomingWins (hpa : reconcileSharedPush share da (tipA :: olderA) = some pa)
    (hpb : reconcileSharedPush share db (tipB :: olderB) = some pb)
    (hkeys : SameKeys pa pb tipA tipB) :
    (conflictSides share pb tipA).incomingWins ↔ ¬(conflictSides share pa tipB).incomingWins := by
  obtain ⟨-, htsA, -⟩ := reconcileSharedPush_tip hpa
  obtain ⟨-, htsB, -⟩ := reconcileSharedPush_tip hpb
  simp only [ConflictSides.incomingWins, conflictSides, hkeys.writerA, hkeys.writerB, htsA, htsB]
  have hapart := hkeys.apart
  rw [Ne, Prod.mk.injEq, not_and] at hapart
  rcases lt_trichotomy tipA.timestamp tipB.timestamp with hlt | heq | hgt
  · simp [hlt, hlt.not_gt, hlt.ne']
  · rcases lt_trichotomy tipA.authorDevice tipB.authorDevice with hdlt | hdeq | hdgt
    · simp [heq, hdlt, hdlt.not_gt]
    · exact absurd hdeq (hapart heq)
    · simp [heq, hdgt, hdgt.not_gt]
  · simp [hgt, hgt.not_gt, hgt.ne']

/-- Both members keep the same side. -/
theorem mirror_winner (hpa : reconcileSharedPush share da (tipA :: olderA) = some pa)
    (hpb : reconcileSharedPush share db (tipB :: olderB) = some pb)
    (hkeys : SameKeys pa pb tipA tipB) :
    (conflictSides share pb tipA).winner = (conflictSides share pa tipB).winner ∧
      (conflictSides share pb tipA).loser = (conflictSides share pa tipB).loser := by
  obtain ⟨hnewA, htsA, -⟩ := reconcileSharedPush_tip hpa
  obtain ⟨hnewB, htsB, -⟩ := reconcileSharedPush_tip hpb
  have hsideA :
      (conflictSides share pb tipA).localSide = (conflictSides share pa tipB).incoming := by
    simp [ConflictSides.localSide, ConflictSides.incoming, conflictSides, hnewA, htsA,
      hkeys.writerA]
  have hsideB :
      (conflictSides share pb tipA).incoming = (conflictSides share pa tipB).localSide := by
    simp [ConflictSides.localSide, ConflictSides.incoming, conflictSides, hnewB, htsB,
      hkeys.writerB]
  have hwins := mirror_incomingWins hpa hpb hkeys
  unfold ConflictSides.winner ConflictSides.loser
  by_cases h : (conflictSides share pa tipB).incomingWins
  · have h' := mt hwins.mp (not_not.mpr h)
    exact ⟨by rw [if_pos h, if_neg h', hsideA], by rw [if_pos h, if_neg h', hsideB]⟩
  · have h' := hwins.mpr h
    exact ⟨by rw [if_neg h, if_pos h', hsideB], by rw [if_neg h, if_pos h', hsideA]⟩

end

/-! ### Two members that seal alike -/

/-- The two members seal this file to the same blob, where both can. -/
def SealAlike (a b : Device) (p : List String) (c : Bytes) : Prop :=
  ∀ x y, a.encryptForRef (pathString p) c = .ok x → b.encryptForRef (pathString p) c = .ok y →
    x = y

theorem readFirst_unique {tree : SharedTree} {paths : List String} {x y : String × Bytes}
    (ha : readFirst da tree paths = .ok (some x)) (hb : readFirst db tree paths = .ok (some y)) :
    x = y := by
  induction paths with
  | nil => cases ha
  | cons candidate rest ih =>
    simp only [readFirst] at ha hb
    cases hblob : resolvePathInTree tree candidate with
    | none =>
      simp only [hblob] at ha hb
      exact ih ha hb
    | some blob =>
      simp only [hblob] at ha hb
      cases hopenA : da.decryptTrackedBlob candidate blob with
      | none => simp [hopenA] at ha
      | some ca =>
        cases hopenB : db.decryptTrackedBlob candidate blob with
        | none => simp [hopenB] at hb
        | some cb =>
          simp only [hopenA, hopenB] at ha hb
          cases ha
          cases hb
          rw [← Device.decryptTrackedBlob_content hopenA,
            ← Device.decryptTrackedBlob_content hopenB]

/-- Members that can open a tree open it to the same snapshot. -/
theorem materializeTree_unique {tree : SharedTree} {s t : WalkSnapshot}
    (ha : materializeTree da tree = .ok s) (hb : materializeTree db tree = .ok t) : s = t := by
  obtain ⟨openedA, hA, rfl⟩ := materializeInto_ok_iff.mp ha
  obtain ⟨openedB, hB, rfl⟩ := materializeInto_ok_iff.mp hb
  rw [Forest.traverse_unique hA hB fun l _ x y hx hy => ?_]
  obtain ⟨hcx, hmx⟩ := openFile_eq_ok_iff.mp hx
  obtain ⟨hcy, hmy⟩ := openFile_eq_ok_iff.mp hy
  have hcontent := (Device.decryptTrackedBlob_content hcx).symm.trans
    (Device.decryptTrackedBlob_content hcy)
  cases x
  cases y
  simp_all

theorem buildTree_unique {snapshot : WalkSnapshot} {s t : SharedTree}
    (ha : buildTree da snapshot = .ok s) (hb : buildTree db snapshot = .ok t)
    (halike : ∀ p file, snapshot.root.fileAt p = some file → SealAlike da db p file.content) :
    s = t := by
  refine SharedTree.ext (Forest.traverse_unique (buildTree_ok_iff.mp ha) (buildTree_ok_iff.mp hb)
    fun l hl x y hx hy => ?_)
  obtain ⟨blobA, hblobA, hxe⟩ := bind_ok_iff.mp hx
  obtain ⟨blobB, hblobB, hye⟩ := bind_ok_iff.mp hy
  have hfile := (Forest.mem_leaves snapshot.sorted).mp hl
  have hsame := halike l.1 l.2 hfile blobA blobB hblobA hblobB
  rw [← Except.ok.inj hxe, ← Except.ok.inj hye, hsame]

/-- When two members resolve one conflict alike: each knows the other's edit by
the name and time the other has for it, the two edits differ in one of these, both
pushes name the same file first, and both members seal alike what the resolution
puts together. -/
structure Agreeing (share : ShareRow) (da db : Device) (pa pb : SharedChainPush)
    (tipA tipB : Commit) : Prop where
  keys : SameKeys pa pb tipA tipB
  file : pa.files.head? = pb.files.head?
  winnerAlike : ∀ p c, (conflictSides share pb tipA).winner.tree.contentAt p = some c →
    SealAlike da db p c
  sidecarAlike : ∀ t c,
    (conflictSides share pb tipA).loser.tree.contentAt (pathComponents t) = some c →
    SealAlike da db (Path.parse (sidecarPath t (conflictSides share pb tipA).loser.device
      (conflictSides share pb tipA).loser.ts)).names c

variable {pa pb : SharedChainPush} {tipA tipB : Commit} {olderA olderB : History}

/-- **Two resolutions of one conflict agree**: they end with the same tree. -/
theorem resolutions_agree (hpa : reconcileSharedPush share da (tipA :: olderA) = some pa)
    (hpb : reconcileSharedPush share db (tipB :: olderB) = some pb)
    (hagree : Agreeing share da db pa pb tipA tipB) {nowA nowB : Int}
    {hA hB afterA afterB : History} {keptA keptB sidecarA sidecarB : String}
    (ha : resolveSyncConflict da nowA (conflictSides share pb tipA) hA =
      .ok (afterA, .resolved keptA sidecarA))
    (hb : resolveSyncConflict db nowB (conflictSides share pa tipB) hB =
      .ok (afterB, .resolved keptB sidecarB)) :
    afterA.tree = afterB.tree := by
  obtain ⟨hwinner, hloser⟩ := mirror_winner hpa hpb hagree.keys
  have hpath : (conflictSides share pa tipB).path = (conflictSides share pb tipA).path := by
    simp [conflictSides, hagree.file]
  have hsubtree :
      (conflictSides share pa tipB).subtree = (conflictSides share pb tipA).subtree := by
    simp [conflictSides, (reconcileSharedPush_tip hpa).2.2, (reconcileSharedPush_tip hpb).2.2]
  obtain ⟨tA, bytesA, snapA, treeA, hreadA, rfl, hmatA, hbuildA, htreeA⟩ :=
    resolveSyncConflict_resolved ha
  obtain ⟨tB, bytesB, snapB, treeB, hreadB, rfl, hmatB, hbuildB, htreeB⟩ :=
    resolveSyncConflict_resolved hb
  rw [hpath, hsubtree, ← hloser] at hreadB
  rw [← hwinner] at hmatB
  rw [← hloser] at hbuildB
  -- both read the same file, and open the same winner
  obtain ⟨rfl, rfl⟩ : tA = tB ∧ bytesA = bytesB := by
    simpa using readFirst_unique hreadA hreadB
  obtain rfl := materializeTree_unique hmatA hmatB
  rw [htreeA, htreeB]
  refine congrArg some (buildTree_unique hbuildA hbuildB fun p file hfile => ?_)
  have hcontent := buildTree_ok hbuildA p
  rw [hfile, Option.map_some] at hcontent
  rcases contentAt_or_sidecar hmatA hbuildA hcontent with hold | ⟨-, hbytes, rfl⟩
  · exact hagree.winnerAlike p _ hold
  · rw [hbytes]
    exact hagree.sidecarAlike _ _ (readFirst_some hreadA)

/-- A push reported as resolved went through the resolution. -/
theorem serve_resolved {d : Device} {now : Int} {p : SharedChainPush} {tip : Commit}
    {older : History} {kept sidecar : String}
    (h : (serveSharedChainPush share d now p (tip :: older)).2 = .resolved kept sidecar) :
    resolveSyncConflict d now (conflictSides share p tip) (tip :: older) =
      .ok ((serveSharedChainPush share d now p (tip :: older)).1, .resolved kept sidecar) := by
  have hnot : ¬Takes (History.tree (tip :: older)) p := by
    intro htakes
    have hquiet := (serve_of_takes share d now htakes).2
    rw [h] at hquiet
    cases hquiet
  rw [serve_of_not_takes share d now hnot] at h ⊢
  split at h <;> cases h
  rename_i hresolve
  rw [hresolve]

/-- The pair after each member served the push the other had offered. -/
def Pair.cross (share : ShareRow) (da db : Device) (nowA nowB : Int) (pa pb : SharedChainPush)
    (s : Pair) : Pair :=
  ⟨(serveSharedChainPush share da nowA pb s.a).1, (serveSharedChainPush share db nowB pa s.b).1⟩

/-- **Two members that resolve alike converge at once**: after one resolution each
they hold one tree, and no exchange that follows, in any order and at any time,
mints another commit. -/
theorem members_converge (share : ShareRow) (da db : Device) (tipA tipB : Commit)
    (olderA olderB : History) (pa pb : SharedChainPush)
    (hpa : reconcileSharedPush share da (tipA :: olderA) = some pa)
    (hpb : reconcileSharedPush share db (tipB :: olderB) = some pb)
    (hagree : Agreeing share da db pa pb tipA tipB) (nowA nowB : Int)
    (keptA keptB sidecarA sidecarB : String)
    (ha : (serveSharedChainPush share da nowA pb (tipA :: olderA)).2 = .resolved keptA sidecarA)
    (hb : (serveSharedChainPush share db nowB pa (tipB :: olderB)).2 = .resolved keptB sidecarB)
    (events : List (Party × Int)) :
    let crossed := Pair.cross share da db nowA nowB pa pb ⟨tipA :: olderA, tipB :: olderB⟩
    crossed.a.tree = crossed.b.tree ∧ crossed.exchanges share da db events = crossed := by
  have htree := resolutions_agree hpa hpb hagree (serve_resolved ha) (serve_resolved hb)
  exact ⟨htree, Pair.exchanges_eq_self (Pair.exchange_settled htree) events⟩

end

/-! ### Two edits that name different files first -/

def demoCommit (tree : SharedTree) (ts : Int) (device : String) (files : List String) : Commit :=
  ⟨tree, ts, device, .other (.object [("files", .array (files.map .str))])⟩

def demoStart : History := [⟨demoTwoFiles 1 1, 10, "ann", .other .null⟩]

/-- Ann edited `b.md`, and `a.md` with it or not; Bob edited `b.md`. -/
def demoAnn (files : List String) (a : UInt8) : History :=
  demoCommit (demoTwoFiles a 2) 30 "ann" files :: demoStart

def demoBob : History := demoCommit (demoTwoFiles 1 3) 20 "bob" ["work/b.md"] :: demoStart

def demoPushAnn (files : List String) (a : UInt8) : SharedChainPush :=
  ⟨"share-1", demoTwoFiles a 2, demoTwoFiles 1 1, "ann", files, 30⟩

def demoPushBob : SharedChainPush :=
  ⟨"share-1", demoTwoFiles 1 3, demoTwoFiles 1 1, "bob", ["b.md"], 20⟩

/-- The tip offers a push that names no file and that `held` does not take. -/
def refused (d : Device) (h : History) (held : Option SharedTree) : Bool :=
  (reconcileSharedPush demoShare d h).any fun p => p.files.isEmpty && !decide (Takes held p)

theorem refused_eq_true {d : Device} {h : History} {held : Option SharedTree}
    (hr : refused d h held = true) :
    ∃ p, reconcileSharedPush demoShare d h = some p ∧ p.files = [] ∧ ¬Takes held p := by
  rw [refused, Option.any_eq_true] at hr
  obtain ⟨p, hp, hcheck⟩ := hr
  simp only [Bool.and_eq_true, List.isEmpty_iff, Bool.not_eq_true', decide_eq_false_iff_not]
    at hcheck
  exact ⟨p, hp, hcheck.1, hcheck.2⟩

/-- Both members resolve, each with the file the other's push names first; the two
results differ, and no further exchange brings them together. -/
theorem members_converge_fails :
    let pa := demoPushAnn ["a.md", "b.md"] 2
    let annHistory := demoAnn ["work/a.md", "work/b.md"] 2
    let crossed := Pair.cross demoShare (demoDevice "ann") (demoDevice "bob") 40 41 pa demoPushBob
      ⟨annHistory, demoBob⟩
    reconcileSharedPush demoShare (demoDevice "ann") annHistory = some pa ∧
    reconcileSharedPush demoShare (demoDevice "bob") demoBob = some demoPushBob ∧
    (serveSharedChainPush demoShare (demoDevice "ann") 40 demoPushBob annHistory).2 =
      .resolved "ann" "b.md.conflict-bob-20.md" ∧
    (serveSharedChainPush demoShare (demoDevice "bob") 41 pa demoBob).2 =
      .resolved "ann" "a.md.conflict-bob-20.md" ∧
    ∀ events, (crossed.exchanges demoShare (demoDevice "ann") (demoDevice "bob") events).a.tree ≠
      (crossed.exchanges demoShare (demoDevice "ann") (demoDevice "bob") events).b.tree := by
  intro pa annHistory crossed
  obtain ⟨hpa, hpb, ha, hb, hne, hrefA, hrefB⟩ :
      reconcileSharedPush demoShare (demoDevice "ann") annHistory = some pa ∧
      reconcileSharedPush demoShare (demoDevice "bob") demoBob = some demoPushBob ∧
      (serveSharedChainPush demoShare (demoDevice "ann") 40 demoPushBob annHistory).2 =
        .resolved "ann" "b.md.conflict-bob-20.md" ∧
      (serveSharedChainPush demoShare (demoDevice "bob") 41 pa demoBob).2 =
        .resolved "ann" "a.md.conflict-bob-20.md" ∧
      crossed.a.tree ≠ crossed.b.tree ∧
      refused (demoDevice "ann") crossed.a crossed.b.tree = true ∧
      refused (demoDevice "bob") crossed.b crossed.a.tree = true := by
    decide +kernel
  refine ⟨hpa, hpb, ha, hb, fun events => ?_⟩
  obtain ⟨qa, hqa, hfa, hta⟩ := refused_eq_true hrefA
  obtain ⟨qb, hqb, hfb, htb⟩ := refused_eq_true hrefB
  rw [exchange_stuck hqa hfa hta hqb hfb htb events]
  exact hne

theorem sealAlike_demo (a b : String) (p : List String) (c : Bytes) :
    SealAlike (demoDevice a) (demoDevice b) p c := by
  intro x y hx hy
  have hsame : (demoDevice a).encryptForRef (pathString p) c =
      (demoDevice b).encryptForRef (pathString p) c := rfl
  exact Except.ok.inj ((hx.symm.trans hsame).trans hy)

/-- With `b.md` alone in conflict the two members hold one tree from then on. -/
theorem members_converge_demo :
    let pa := demoPushAnn ["b.md"] 1
    let annHistory := demoAnn ["work/b.md"] 1
    let crossed := Pair.cross demoShare (demoDevice "ann") (demoDevice "bob") 40 41 pa demoPushBob
      ⟨annHistory, demoBob⟩
    crossed.a.tree = crossed.b.tree ∧
      crossed.exchanges demoShare (demoDevice "ann") (demoDevice "bob") [(.a, 50), (.b, 51)] =
        crossed := by
  obtain ⟨hpa, hpb, ha, hb⟩ :
      reconcileSharedPush demoShare (demoDevice "ann") (demoAnn ["work/b.md"] 1) =
        some (demoPushAnn ["b.md"] 1) ∧
      reconcileSharedPush demoShare (demoDevice "bob") demoBob = some demoPushBob ∧
      (serveSharedChainPush demoShare (demoDevice "ann") 40 demoPushBob
        (demoAnn ["work/b.md"] 1)).2 = .resolved "ann" "b.md.conflict-bob-20.md" ∧
      (serveSharedChainPush demoShare (demoDevice "bob") 41 (demoPushAnn ["b.md"] 1)
        demoBob).2 = .resolved "ann" "b.md.conflict-bob-20.md" := by
    decide +kernel
  refine members_converge demoShare (demoDevice "ann") (demoDevice "bob")
    (demoCommit (demoTwoFiles 1 2) 30 "ann" ["work/b.md"])
    (demoCommit (demoTwoFiles 1 3) 20 "bob" ["work/b.md"]) demoStart demoStart _ _ hpa hpb ?_
    40 41 _ _ _ _ ha hb _
  exact {
    keys := ⟨rfl, rfl, by simp [demoCommit]⟩
    file := rfl
    winnerAlike := fun p c _ => sealAlike_demo _ _ p c
    sidecarAlike := fun t c _ => sealAlike_demo _ _ _ c }

end Softfig.Share
