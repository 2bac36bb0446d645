import Softfig.Vault.Escrow

/-!
The export of a vault directory to an escrow bundle, and the way back.

The directory holds whatever it holds: files under any names, not all of them Unicode, directories
where a file is expected, links to nothing. An export lists the names of its allowlist, carries the
files among them, and writes the document after a banner that a TOML parser skips.

- `manifest_eq_ok`: what a bundle carries;
- `parse_document`: the document is read back as the bundle it was written from;
- `restore_manifest`: the members written back are the files they were.
-/

namespace Softfig.Vault

open Softfig.Lib Softfig.Lib.Slicing
open Softfig.Doc (Text)
open Softfig.Fleet (stripSuffix stripSuffix_eq_some)
open Softfig.Growlight (parseU32 parseU32_toDigits)

namespace Escrow

/-! ### The vault directory -/

/-- A file name: text, or bytes that are not UTF-8. -/
inductive OsName where
  | text (name : Text)
  | other (bytes : Bytes)
  deriving DecidableEq

/-- What a path leads to. -/
inductive Node where
  /-- A regular file and its permission bits; its content cannot always be read. -/
  | file (mode : UInt32) (content : Except String Bytes)
  | directory
  /-- A link to nothing. -/
  | dangling
  /-- A link that cannot be followed. -/
  | broken (reason : String)

def Node.isFile : Node → Bool
  | .file _ _ => true
  | _ => false

/-- `Path::exists`. -/
def Node.found : Node → Bool
  | .file _ _ | .directory => true
  | _ => false

/-- The entries of a directory; no name holds a separator. -/
structure Folder where
  entries : AList fun _ : OsName => Node
  flat : ∀ name, OsName.text name ∈ entries → '/' ∉ name

/-- The files next to `params.toml`, and the three directories, none where it is missing or is no
directory. -/
structure VaultTree where
  root : AList fun _ : Text => Node
  master : Option Folder
  sharedKeys : Option Folder
  peerKeks : Option Folder

namespace VaultTree

variable (tree : VaultTree)

def folder (dir : Text) : Option Folder :=
  if dir = masterDir then tree.master
  else if dir = sharedKeysDir then tree.sharedKeys
  else if dir = peerKeksDir then tree.peerKeks
  else none

def node? (name : Text) : Option Node :=
  match splitOnce '/' name with
  | none => tree.root.lookup name
  | some (dir, file) => (tree.folder dir).bind fun folder => folder.entries.lookup (.text file)

def pathExists (name : Text) : Bool := ((tree.node? name).map Node.found).getD false

/-- The permission bits and the content of a file that can be read. -/
def file? (name : Text) : Option (UInt32 × Bytes) :=
  match tree.node? name with
  | some (.file mode (.ok bytes)) => some (mode, bytes)
  | _ => none

def bytes? (name : Text) : Option Bytes := (tree.file? name).map Prod.snd

end VaultTree

/-- What the bundle takes from other crates and from the standard library. -/
structure Codecs where
  /-- `to_string_lossy` of a name that is not UTF-8. -/
  lossy : Bytes → Text
  decodeError : Bytes → String
  /-- `toml::to_string_pretty`. -/
  render : EscrowBundle → Except String Text
  /-- `toml::from_str`. -/
  fromStr : Text → Except String EscrowBundle

def OsName.toStringLossy (lossy : Bytes → Text) : OsName → Text
  | .text name => name
  | .other bytes => lossy bytes

/-! ### What is listed -/

section

variable (lossy : Bytes → Text) (tree : VaultTree)

def listMasterIds : List Nat :=
  match tree.master with
  | none => []
  | some folder =>
    (folder.entries.keys.filterMap fun name =>
      generationOf (name.toStringLossy lossy)).insertionSort (· ≤ ·)

/-- The peers with an entry, whatever it is. -/
def listPeerKekIds : List String :=
  match tree.peerKeks with
  | none => []
  | some folder =>
    (folder.entries.keys.filterMap fun name =>
      (stripSuffix keyExtension (name.toStringLossy lossy)).bind fun stem =>
        if stem = [] then none else some (String.ofList stem)).insertionSort (· ≤ ·)

/-- The `*.key` files of a directory. -/
def sortedKeyFiles (folder : Option Folder) : List Text :=
  match folder with
  | none => []
  | some folder =>
    (folder.entries.entries.filterMap fun entry =>
      if keyExtension <:+ entry.1.toStringLossy lossy ∧ entry.2.isFile = true then
        some (entry.1.toStringLossy lossy)
      else none).insertionSort (· ≤ ·)

/-- The allowlist, in the order of the bundle. -/
def memberNames : List Text :=
  fixedNames ++ ((listMasterIds lossy tree).map masterMemberName ++
    ((sortedKeyFiles lossy tree.sharedKeys).map (within sharedKeysDir) ++
      (sortedKeyFiles lossy tree.peerKeks).map (within peerKeksDir)))

end

/-! ### Recovery policy -/

section

variable (f : Formats) (lossy : Bytes → Text) (tree : VaultTree)

def declaredPolicy : DeclaredPolicy :=
  match tree.node? recoveryPolicyFile with
  | none | some .dangling | some (.broken _) => .undeclared
  | some .directory => .unreadable "could not read: Is a directory (os error 21)"
  | some (.file _ (.error reason)) => .unreadable ("could not read: " ++ reason)
  | some (.file _ (.ok raw)) => loadDeclaredPolicy f (AList.singleton .recoveryPolicy raw)

def wrappings : Wrappings where
  passphrase := tree.pathExists kekSelfFile
  phrase := tree.pathExists kekRecoveryFile
  peers := listPeerKekIds lossy tree

/-- The shape these wrappings imply. -/
def asPolicy (w : Wrappings) : RecoveryPolicy := (RecoveryPath.all.filter w.contains).toFinset

/-- The declaration if there is one, otherwise what the wrappings imply. -/
def effective : RecoveryPolicy :=
  match declaredPolicy f tree with
  | .declared policy => policy
  | _ => asPolicy (wrappings lossy tree)

def sourceDeclared : String := "declared"

def sourceInferred : String := "inferred"

def policySource : DeclaredPolicy → String
  | .declared _ => sourceDeclared
  | _ => sourceInferred

def policyNote : DeclaredPolicy → String
  | .declared _ => ""
  | .undeclared =>
    "no recovery.toml on disk: the policy above was read off the wrappings present, " ++
      "not stated by anyone"
  | .unreadable reason =>
    "recovery.toml is present but could not be read (" ++ reason ++
      "): the policy above was read off the wrappings present"

end

/-! ### Export -/

def escrowFormatVersion : UInt32 := 1

/-- The plaintext header, line by line. -/
def banner : List String := [
  "# ============================================================================",
  "# soft-fig vault escrow bundle",
  "# ============================================================================",
  "#",
  "# WHAT THIS IS",
  "#   Every key file of one soft-fig vault, base64-inlined into this single TOML",
  "#   document, with a manifest naming each file, its permissions, its length,",
  "#   and its BLAKE3 hash.",
  "#",
  "# IS IT SECRET?",
  "#   Every `data` value below is either sealed ciphertext or non-secret",
  "#   parameters. None of it opens without that vault's master passphrase. The",
  "#   passphrase is NOT in this file and cannot be derived from it, and no",
  "#   server anywhere holds a copy of it. This bundle is INERT WITHOUT THE",
  "#   PASSPHRASE. That is what makes it safe to copy to excess -- and copying it",
  "#   to excess is exactly what it is for.",
  "#",
  "# WHAT IS IT FOR?",
  "#   Recovering this vault needs BOTH the master passphrase AND these bytes:",
  "#   the passphrase opens `k.self`, and `k.self` is what holds the key. A",
  "#   passphrase with no copy of these bytes opens nothing. This file is about a",
  "#   kilobyte. Put it on every backup target you have. Print it.",
  "#",
  "# HOW TO RESTORE IT",
  "#   Recreate each `[[member]]` under `<state-root>/.softfig/vault/` at the",
  "#   path in `name`, with its bytes base64-decoded and its permissions set to",
  "#   `mode` (octal). Then unlock with the master passphrase as usual.",
  "#",
  "# HOW TO CHECK A COPY",
  "#   Each member carries the BLAKE3 hash of its decoded bytes. The export also",
  "#   printed the BLAKE3 of this whole file: two exports of an unchanged vault",
  "#   are byte-identical, so copies can be compared by hash alone.",
  "#",
  "# WHY THERE IS NO DATE IN HERE",
  "#   On purpose -- an in-band timestamp would make every export differ from",
  "#   every other one, and comparing copies is worth more than a date. The",
  "#   file's own modification time is when this copy was written.",
  "# ============================================================================"]

/-- Lines, each with its newline. -/
def withNewlines (lines : List Text) : Text := lines.flatMap fun line => line ++ ['\n']

/-- A bundle's document: the banner, an empty line and the rendered bundle. -/
def document (body : Text) : Text :=
  withNewlines (banner.map String.toList) ++ '\n' :: body

/-- The low nine permission bits. -/
def octalMode (mode : UInt32) : Text := (Nat.toDigits 8 (mode.toNat % 512)).leftpad 3 '0'

structure ExportSummary where
  gardenId : String
  policy : String
  policySource : String
  policyNote : String
  members : List Text
  /-- Names of the allowlist that were not on disk. -/
  absent : List Text
  bytes : Nat
  bundleBlake3 : String

section

variable (c : Crates) (f : Formats) (e : Codecs) (tree : VaultTree)

def memberOf (name : Text) (mode : UInt32) (bytes : Bytes) : Member where
  name := name
  mode := octalMode mode
  size := bytes.length
  blake3 := (c.blake3 bytes).toHex
  data := Base64.encode bytes

/-- One member, or none when that file is not present. -/
def readMember (name : Text) : Except VaultError (Option Member) :=
  match tree.node? name with
  | none | some .dangling | some .directory => .ok none
  | some (.broken reason) | some (.file _ (.error reason)) => .error (.io reason)
  | some (.file mode (.ok bytes)) => .ok (some (memberOf c name mode bytes))

/-- The members found and the names not found. -/
def collect : List Text → Except VaultError (List Member × List Text)
  | [] => .ok ([], [])
  | name :: rest => do
    let found ← readMember c tree name
    let (members, absent) ← collect rest
    match found with
    | some m => .ok (m :: members, absent)
    | none => .ok (members, name :: absent)

/-- The bundle of a vault, and the names that were not on disk. -/
def manifest (gardenId : Option String) : Except VaultError (EscrowBundle × List Text) := do
  refuseIf (tree.pathExists paramsFile = false) .notInitialized
  let (members, absent) ← collect c tree (memberNames e.lossy tree)
  .ok ({
    formatVersion := escrowFormatVersion
    gardenId := gardenId.getD ""
    policy := (effective f e.lossy tree).display
    policySource := policySource (declaredPolicy f tree)
    policyNote := policyNote (declaredPolicy f tree)
    memberCount := members.length
    members := members }, absent)

/-- The document of a bundle. -/
def written (bundle : EscrowBundle) : Except VaultError Text :=
  ((e.render bundle).mapError .tomlSer).map document

/-- `export`: what is written in the place of `dest`, the content that is there now. A different
bundle is replaced only with `force`. -/
def exportTo (gardenId : Option String) (dest : Option Bytes) (force : Bool) :
    Except VaultError (ExportSummary × Text) := do
  let (bundle, absent) ← manifest c f e tree gardenId
  let text ← written e bundle
  let bytes := Store.utf8 (String.ofList text)
  refuseIf ((dest.map fun existing => existing ≠ bytes && !force).getD false = true)
    .escrowTargetExists
  .ok ({
    gardenId := bundle.gardenId
    policy := bundle.policy
    policySource := bundle.policySource
    policyNote := bundle.policyNote
    members := bundle.names
    absent := absent
    bytes := bytes.length
    bundleBlake3 := (c.blake3 bytes).toHex }, text)

/-- Read a bundle back. -/
def parse (text : Text) : Except VaultError EscrowBundle := do
  let bundle ← (e.fromStr text).mapError .tomlDe
  refuseIf (bundle.formatVersion ≠ escrowFormatVersion)
    (.escrowMalformed ("escrow format version " ++ toString bundle.formatVersion.toNat ++
      " is not the version this soft-fig writes (" ++ toString escrowFormatVersion.toNat ++ ")"))
  .ok bundle

end

/-- What the banner asks for: each member at its name with its bytes. -/
def restoreFrom (files : AList fun _ : Text => Bytes) :
    List Member → Option (AList fun _ : Text => Bytes)
  | [] => some files
  | m :: rest =>
    (Base64.decode m.data).bind fun bytes => restoreFrom (files.insert m.name bytes) rest

def restore (bundle : EscrowBundle) : Option (AList fun _ : Text => Bytes) :=
  restoreFrom ∅ bundle.members

/-! ### What is listed, and what is there -/

/-- A header line: empty, or a comment without control characters. -/
def IsComment (line : Text) : Prop :=
  line = [] ∨ line.head? = some '#' ∧ line.all (fun ch => 32 ≤ ch.toNat && ch.toNat != 127) = true

/-- What is rendered is parsed back, also from under a header of comments and empty lines. -/
structure Codecs.Lawful (e : Codecs) : Prop where
  fromStr_render : ∀ header bundle body, (∀ line ∈ header, IsComment line) →
    e.render bundle = .ok body → e.fromStr (withNewlines header ++ body) = .ok bundle

/-- The names an export is about: the fixed ones, a generation, a key file of a directory. -/
def Escrowed (name : Text) : Prop :=
  name ∈ fixedNames ∨ (∃ id < 2 ^ 32, name = masterMemberName id) ∨
    ∃ file, keyExtension <:+ file ∧
      (name = within sharedKeysDir file ∨ name = within peerKeksDir file)

section

variable {c : Crates} {f : Formats} {e : Codecs} {lossy : Bytes → Text} {tree : VaultTree}

theorem slash_notMem_dirs : ∀ dir ∈ [masterDir, sharedKeysDir, peerKeksDir], '/' ∉ dir := by
  decide +kernel

theorem VaultTree.node?_within {dir file : Text} (hdir : '/' ∉ dir) :
    tree.node? (within dir file) =
      (tree.folder dir).bind fun folder => folder.entries.lookup (.text file) := by
  rw [node?, within, splitOnce_eq_some.mpr ⟨rfl, hdir⟩]

theorem VaultTree.file?_eq_some {name : Text} {mode : UInt32} {bytes : Bytes} :
    tree.file? name = some (mode, bytes) ↔ tree.node? name = some (.file mode (.ok bytes)) := by
  unfold file?
  split
  · rename_i mode' bytes' hnode
    simp [hnode]
  · rename_i hnode
    constructor
    · intro h
      cases h
    · intro h
      exact absurd h (hnode mode bytes)

/-- A file in one of the directories. -/
theorem VaultTree.entry_of_file {dir file : Text}
    (hdir : dir ∈ [masterDir, sharedKeysDir, peerKeksDir])
    (h : (tree.file? (within dir file)).isSome = true) :
    ∃ folder node, tree.folder dir = some folder ∧
      folder.entries.lookup (.text file) = some node ∧ node.isFile = true := by
  obtain ⟨⟨mode, bytes⟩, hfile⟩ := Option.isSome_iff_exists.mp h
  have hnode := file?_eq_some.mp hfile
  rw [node?_within (slash_notMem_dirs dir hdir)] at hnode
  obtain ⟨folder, hfolder, hlookup⟩ := Option.bind_eq_some_iff.mp hnode
  exact ⟨folder, _, hfolder, hlookup, rfl⟩

theorem mem_listMasterIds {id : Nat} :
    id ∈ listMasterIds lossy tree ↔ ∃ folder, tree.master = some folder ∧
      ∃ name ∈ folder.entries, generationOf (name.toStringLossy lossy) = some id := by
  unfold listMasterIds
  cases tree.master with
  | none => simp
  | some folder =>
    simp only [List.mem_insertionSort, List.mem_filterMap, Option.some.injEq, exists_eq_left']
    rfl

theorem mem_sortedKeyFiles {folder : Folder} {file : Text} :
    file ∈ sortedKeyFiles lossy (some folder) ↔ ∃ name node,
      folder.entries.lookup name = some node ∧ node.isFile = true ∧
        keyExtension <:+ file ∧ name.toStringLossy lossy = file := by
  simp only [sortedKeyFiles, List.mem_insertionSort, List.mem_filterMap]
  constructor
  · rintro ⟨⟨name, node⟩, hentry, hfile⟩
    split_ifs at hfile with hkey
    cases hfile
    exact ⟨name, node, AList.mem_lookup_iff.mpr hentry, hkey.2, hkey.1, rfl⟩
  · rintro ⟨name, node, hlookup, hisFile, hkey, rfl⟩
    exact ⟨⟨name, node⟩, AList.mem_lookup_iff.mp hlookup, if_pos ⟨hkey, hisFile⟩⟩

theorem generationOf_masterFile {id : Nat} (h : id < 2 ^ 32) :
    generationOf (masterFile id) = some id := by
  rw [generationOf, masterFile, stripSuffix_eq_some.mpr rfl, Option.bind_some, parseU32_toDigits h]

/-- **Every escrowed name that is a file is listed.** -/
theorem mem_memberNames {name : Text} (h : Escrowed name)
    (hfile : (tree.file? name).isSome = true) : name ∈ memberNames lossy tree := by
  simp only [memberNames, List.mem_append]
  rcases h with hfixed | ⟨id, hid, rfl⟩ | ⟨file, hkey, rfl | rfl⟩
  · exact Or.inl hfixed
  · obtain ⟨folder, node, hfolder, hlookup, -⟩ :=
      VaultTree.entry_of_file (by simp) hfile
    refine Or.inr (Or.inl (List.mem_map.mpr ⟨id, mem_listMasterIds.mpr ⟨folder, ?_, ?_⟩, rfl⟩))
    · rw [← hfolder, VaultTree.folder, if_pos rfl]
    · exact ⟨.text (masterFile id), AList.lookup_isSome.mp (hlookup ▸ rfl),
        generationOf_masterFile hid⟩
  · obtain ⟨folder, node, hfolder, hlookup, hnode⟩ :=
      VaultTree.entry_of_file (by simp) hfile
    have hshared : tree.sharedKeys = some folder := by
      rw [← hfolder, VaultTree.folder, if_neg (by decide +kernel), if_pos rfl]
    apply Or.inr (Or.inr (Or.inl (List.mem_map.mpr ⟨file, ?_, rfl⟩)))
    rw [hshared]
    exact mem_sortedKeyFiles.mpr ⟨.text file, node, hlookup, hnode, hkey, rfl⟩
  · obtain ⟨folder, node, hfolder, hlookup, hnode⟩ :=
      VaultTree.entry_of_file (by simp) hfile
    have hpeers : tree.peerKeks = some folder := by
      rw [← hfolder, VaultTree.folder, if_neg (by decide +kernel), if_neg (by decide +kernel),
        if_pos rfl]
    apply Or.inr (Or.inr (Or.inr (List.mem_map.mpr ⟨file, ?_, rfl⟩)))
    rw [hpeers]
    exact mem_sortedKeyFiles.mpr ⟨.text file, node, hlookup, hnode, hkey, rfl⟩

end

/-! ### What is carried -/

/-- The member of a name, where that is a file. -/
def member? (c : Crates) (tree : VaultTree) (name : Text) : Option Member :=
  (tree.file? name).map fun file => memberOf c name file.1 file.2

/-- The names of the files a bundle carries. -/
def carried (lossy : Bytes → Text) (tree : VaultTree) : List Text :=
  (memberNames lossy tree).filter fun name => (tree.file? name).isSome

section

variable {c : Crates} {f : Formats} {e : Codecs} {tree : VaultTree} {gardenId : Option String}
  {bundle : EscrowBundle} {absent : List Text}

theorem readMember_eq_ok {name : Text} {found : Option Member}
    (h : readMember c tree name = .ok found) : member? c tree name = found := by
  unfold readMember at h
  unfold member? VaultTree.file?
  split at h
  · cases h
    simp [*]
  · cases h
    simp [*]
  · cases h
    simp [*]
  · cases h
  · cases h
  · cases h
    simp [*]

theorem collect_eq_ok {names : List Text} {members : List Member}
    (h : collect c tree names = .ok (members, absent)) :
    members = names.filterMap (member? c tree) := by
  induction names generalizing members absent with
  | nil =>
    cases h
    rfl
  | cons name rest ih =>
    obtain ⟨found, hfound, h⟩ := bind_ok_iff.mp h
    obtain ⟨⟨members', absent'⟩, hrest, h⟩ := bind_ok_iff.mp h
    rw [List.filterMap_cons, readMember_eq_ok hfound, ← ih hrest]
    cases found <;> cases h <;> rfl

/-- **What a manifest says**: the files of the allowlist, and how many. -/
theorem manifest_eq_ok (h : manifest c f e tree gardenId = .ok (bundle, absent)) :
    bundle.members = (memberNames e.lossy tree).filterMap (member? c tree) ∧
      bundle.memberCount = bundle.members.length ∧
      bundle.policy = (effective f e.lossy tree).display ∧
      bundle.formatVersion = escrowFormatVersion := by
  obtain ⟨-, h⟩ := refuseIf_bind_ok_iff.mp h
  obtain ⟨⟨members, absent'⟩, hcollect, h⟩ := bind_ok_iff.mp h
  cases h
  exact ⟨collect_eq_ok hcollect, rfl, rfl, rfl⟩

theorem names_manifest (h : manifest c f e tree gardenId = .ok (bundle, absent)) :
    bundle.names = carried e.lossy tree := by
  have hname (name : Text) : (member? c tree name).map Member.name =
      Option.guard (fun name => (tree.file? name).isSome) name := by
    unfold member? Option.guard
    cases hfile : tree.file? name <;> simp [hfile, memberOf]
  rw [EscrowBundle.names, (manifest_eq_ok h).1, List.map_filterMap, carried]
  simp only [hname]
  exact congrFun List.filterMap_eq_filter _

theorem mem_manifest (h : manifest c f e tree gardenId = .ok (bundle, absent)) {m : Member} :
    m ∈ bundle.members ↔ ∃ name mode bytes, name ∈ memberNames e.lossy tree ∧
      tree.file? name = some (mode, bytes) ∧ memberOf c name mode bytes = m := by
  simp only [(manifest_eq_ok h).1, List.mem_filterMap, member?, Option.map_eq_some_iff,
    Prod.exists, exists_and_left]

/-! ### The document -/

theorem isComment_ofList {text : List Char} (h : text.head? = some '#')
    (hplain : text.all (fun ch => 32 ≤ ch.toNat && ch.toNat != 127) = true) :
    IsComment (String.ofList text).toList := by
  rw [String.toList_ofList]
  exact Or.inr ⟨h, hplain⟩

theorem isComment_banner : ∀ line ∈ banner, IsComment line.toList := by
  unfold banner
  -- line by line, so that each literal is read as its characters at once
  repeat
    refine List.forall_mem_cons.mpr ⟨isComment_ofList rfl (by decide +kernel), ?_⟩
  exact nofun

theorem isComment_header : ∀ line ∈ banner.map String.toList ++ [[]], IsComment line := by
  intro line hline
  rcases List.mem_append.mp hline with hline | hline
  · obtain ⟨text, htext, rfl⟩ := List.mem_map.mp hline
    exact isComment_banner text htext
  · exact Or.inl (List.mem_singleton.mp hline)

/-- **A bundle's document is read back as the bundle.** -/
theorem parse_document (he : e.Lawful) {body : Text} (hrender : e.render bundle = .ok body)
    (hversion : bundle.formatVersion = escrowFormatVersion) :
    parse e (document body) = .ok bundle := by
  have hdocument : document body = withNewlines (banner.map String.toList ++ [[]]) ++ body := by
    simp only [document, withNewlines, List.flatMap_append, List.flatMap_cons, List.flatMap_nil,
      List.nil_append, List.append_nil, List.append_assoc, List.cons_append]
  rw [parse, hdocument, he.fromStr_render _ bundle body isComment_header hrender]
  exact refuseIf_bind_ok_iff.mpr ⟨not_not.mpr hversion, rfl⟩

/-- What an export writes is the document of its manifest. -/
theorem exportTo_eq_ok {dest : Option Bytes} {force : Bool} {summary : ExportSummary} {text : Text}
    (h : exportTo c f e tree gardenId dest force = .ok (summary, text)) :
    ∃ bundle absent body, manifest c f e tree gardenId = .ok (bundle, absent) ∧
      e.render bundle = .ok body ∧ text = document body := by
  obtain ⟨⟨bundle, absent⟩, hmanifest, h⟩ := bind_ok_iff.mp h
  obtain ⟨document, hwritten, h⟩ := bind_ok_iff.mp h
  obtain ⟨-, h⟩ := refuseIf_bind_ok_iff.mp h
  cases h
  unfold written at hwritten
  cases hrender : e.render bundle with
  | error reason =>
    rw [hrender] at hwritten
    cases hwritten
  | ok body =>
    rw [hrender] at hwritten
    cases hwritten
    exact ⟨bundle, absent, body, hmanifest, hrender, rfl⟩

/-- Where nothing is, an export writes what is rendered. -/
theorem exportTo_none (h : manifest c f e tree gardenId = .ok (bundle, absent)) {body : Text}
    (hrender : e.render bundle = .ok body) (force : Bool) :
    ∃ summary, exportTo c f e tree gardenId none force = .ok (summary, document body) := by
  have hwritten : written e bundle = .ok (document body) := by
    rw [written, hrender]
    rfl
  unfold exportTo
  simp only [h, bind, Except.bind, hwritten]
  exact ⟨_, rfl⟩

/-! ### The way back -/

/-- Rows that hold what a directory has are written back as it has them. -/
theorem restoreFrom_eq_some {members : List Member} {files : AList fun _ : Text => Bytes}
    (h : ∀ m ∈ members, ∃ mode bytes, tree.file? m.name = some (mode, bytes) ∧
      Base64.decode m.data = some bytes) :
    ∃ files', restoreFrom files members = some files' ∧ ∀ name,
      files'.lookup name =
        if name ∈ members.map Member.name then tree.bytes? name else files.lookup name := by
  induction members generalizing files with
  | nil => exact ⟨files, rfl, fun name => by simp⟩
  | cons m rest ih =>
    obtain ⟨mode, bytes, hfile, hdecode⟩ := h m List.mem_cons_self
    obtain ⟨files', hrestore, hlookup⟩ :=
      @ih (files.insert m.name bytes) fun m' hm' => h m' (List.mem_cons_of_mem _ hm')
    refine ⟨files', ?_, fun name => ?_⟩
    · rw [restoreFrom, hdecode, Option.bind_some, hrestore]
    · rw [hlookup]
      simp only [List.map_cons, List.mem_cons]
      by_cases hrest : name ∈ rest.map Member.name
      · rw [if_pos hrest, if_pos (Or.inr hrest)]
      · rw [if_neg hrest]
        by_cases hname : name = m.name
        · rw [if_pos (Or.inl hname), hname, AList.lookup_insert, VaultTree.bytes?, hfile]
          rfl
        · rw [if_neg (not_or.mpr ⟨hname, hrest⟩), AList.lookup_insert_ne hname]

/-- **The members of an export, written back, are the escrowed files byte for byte.** -/
theorem restore_manifest (h : manifest c f e tree gardenId = .ok (bundle, absent)) :
    ∃ files, restore bundle = some files ∧
      ∀ name, Escrowed name → files.lookup name = tree.bytes? name := by
  have hrows : ∀ m ∈ bundle.members, ∃ mode bytes, tree.file? m.name = some (mode, bytes) ∧
      Base64.decode m.data = some bytes := by
    intro m hm
    obtain ⟨name, mode, bytes, -, hfile, rfl⟩ := (mem_manifest h).mp hm
    exact ⟨mode, bytes, hfile, Base64.decode_encode bytes⟩
  obtain ⟨files, hrestore, hlookup⟩ := @restoreFrom_eq_some tree bundle.members ∅ hrows
  refine ⟨files, hrestore, fun name hname => ?_⟩
  have hcarried : bundle.members.map Member.name = carried e.lossy tree := names_manifest h
  rw [hlookup, hcarried]
  split
  · rfl
  · rename_i hmissing
    have hnone : tree.file? name = none := by
      by_contra hfile
      have hsome := Option.isSome_iff_ne_none.mpr hfile
      exact hmissing (List.mem_filter.mpr ⟨mem_memberNames hname hsome, hsome⟩)
    rw [VaultTree.bytes?, hnone]
    rfl

end

end Escrow

end Softfig.Vault
