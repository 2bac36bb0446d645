import Softfig.Vault.EscrowEdits
import Softfig.Vault.EscrowExport

/-!
What an escrow bundle promises, between the exporter's allowlist and the checker's.

The two agree on every name but the oddly spelled ones: a key file without a stem is exported and
not known, and two spellings of one generation list its file twice. A directory without them is
`Orderly`, and then no name of a bundle is written twice or unknown.

- `Orderly.unambiguous`: the exporter and the checker agree on an orderly directory;
- `intact_manifest`: the export of a directory that has what is needed is intact;
- `escrow_bundle`: export, restore and check together, and what of one edit is noticed.
-/

namespace Softfig.Vault.Escrow

open Softfig.Lib Softfig.Lib.Slicing
open Softfig.Doc (Text)
open Softfig.Fleet (stripSuffix stripSuffix_eq_some)

/-- A file of a door is in the directory. -/
def DoorPresent (tree : VaultTree) : RecoveryPath → Prop
  | .passphrase => (tree.file? kekSelfFile).isSome = true
  | .phrase => (tree.file? kekRecoveryFile).isSome = true
  | .peers => ∃ file, keyExtension <:+ file ∧ (tree.file? (within peerKeksDir file)).isSome = true

/-- The parameters, the pointer, the generation it names and the doors of the effective policy are
there. -/
structure Present (f : Formats) (lossy : Bytes → Text) (tree : VaultTree) : Prop where
  params : (tree.file? paramsFile).isSome = true
  active : ∃ bytes key, tree.bytes? activeFile = some bytes ∧ f.active.parse bytes = .ok key ∧
    (tree.file? (masterMemberName key.masterKeyId.toNat)).isSome = true
  doors : ∀ path ∈ effective f lossy tree, DoorPresent tree path

/-- Nothing is carried twice, and nothing under a name the checker does not know. -/
structure Unambiguous (lossy : Bytes → Text) (tree : VaultTree) : Prop where
  distinct : (carried lossy tree).Nodup
  known : ∀ name ∈ carried lossy tree, memberNameIsKnown name = true

/-- What reads as a generation is the file of that generation, and what reads as a key file is one
with a stem. -/
structure Orderly (lossy : Bytes → Text) (tree : VaultTree) : Prop where
  master : ∀ folder, tree.master = some folder → ∀ name ∈ folder.entries, ∀ id,
    generationOf (name.toStringLossy lossy) = some id → name = .text (masterFile id)
  keys : ∀ folder, tree.sharedKeys = some folder ∨ tree.peerKeks = some folder →
    ∀ name ∈ folder.entries, keyExtension <:+ name.toStringLossy lossy →
      ∃ file, name = .text file ∧ isKeyFile file = true

/-! ### Orderly directories -/

section

variable {lossy : Bytes → Text} {tree : VaultTree}

theorem memberDir_within {dir file : Text} (hdir : '/' ∉ dir) (hfile : '/' ∉ file) :
    memberDir (within dir file) = some dir := by
  rw [memberDir, within, splitOnce_eq_some.mpr ⟨rfl, hdir⟩]
  exact if_neg hfile

theorem memberDir_fixed : ∀ name ∈ fixedNames, memberDir name = none := by
  decide +kernel

theorem lastPart_within {dir file : Text} (hfile : '/' ∉ file) :
    lastPart (within dir file) = some file := by
  have hreverse : (within dir file).reverse = file.reverse ++ '/' :: dir.reverse := by
    simp [within]
  rw [lastPart, hreverse, splitOnce_eq_some.mpr ⟨rfl, by simpa using hfile⟩, Option.map_some,
    List.reverse_reverse]

theorem within_injective {dir file file' : Text} (h : within dir file = within dir file') :
    file = file' :=
  List.cons_injective (List.append_cancel_left h)

theorem slash_notMem_masterFile (id : Nat) : '/' ∉ masterFile id := by
  intro hmem
  rcases List.mem_append.mp hmem with hdigit | hkey
  · have hslash := Nat.isDigit_of_mem_toDigits (by decide) (by decide) hdigit
    cases hslash
  · revert hkey
    decide +kernel

/-- The generations of an orderly directory are its files, each once. -/
theorem nodup_listMasterIds (h : Orderly lossy tree) : (listMasterIds lossy tree).Nodup := by
  unfold listMasterIds
  cases hmaster : tree.master with
  | none => exact List.nodup_nil
  | some folder =>
    rw [(List.perm_insertionSort _ _).nodup_iff, List.Nodup, List.pairwise_filterMap]
    refine List.Pairwise.imp_of_mem ?_ folder.entries.keys_nodup
    intro name name' hname hname' hne id hid id' hid' hsame
    subst hsame
    apply hne
    rw [h.master folder hmaster name hname id hid, h.master folder hmaster name' hname' id hid']

/-- A listed key file of an orderly directory is an entry with a stem. -/
theorem Orderly.keyFile (h : Orderly lossy tree) {folder : Folder}
    (hfolder : tree.sharedKeys = some folder ∨ tree.peerKeks = some folder) {file : Text}
    (hfile : file ∈ sortedKeyFiles lossy (some folder)) : isKeyFile file = true ∧ '/' ∉ file := by
  obtain ⟨name, node, hlookup, -, hkey, hname⟩ := mem_sortedKeyFiles.mp hfile
  have hentry : name ∈ folder.entries := AList.lookup_isSome.mp (hlookup ▸ rfl)
  obtain ⟨file', rfl, hstem⟩ := h.keys folder hfolder name hentry (hname ▸ hkey)
  obtain rfl : file' = file := hname
  exact ⟨hstem, folder.flat file' hentry⟩

theorem Orderly.nodup_sortedKeyFiles (h : Orderly lossy tree) {folder : Option Folder}
    (hfolder : tree.sharedKeys = folder ∨ tree.peerKeks = folder) :
    (sortedKeyFiles lossy folder).Nodup := by
  cases folder with
  | none => exact List.nodup_nil
  | some folder =>
    rw [sortedKeyFiles, (List.perm_insertionSort _ _).nodup_iff, List.Nodup,
      List.pairwise_filterMap]
    refine List.Pairwise.imp_of_mem ?_ (List.pairwise_map.mp folder.entries.keys_nodup)
    intro entry entry' hentry hentry' hne file hfile file' hfile' hsame
    subst hsame
    split_ifs at hfile with hkey
    split_ifs at hfile' with hkey'
    cases hfile
    obtain ⟨name, htext, -⟩ :=
      h.keys folder hfolder entry.1 (List.mem_map_of_mem hentry) hkey.1
    obtain ⟨name', htext', -⟩ :=
      h.keys folder hfolder entry'.1 (List.mem_map_of_mem hentry') hkey'.1
    apply hne
    rw [htext, htext'] at hfile' ⊢
    exact congrArg OsName.text (Option.some.inj hfile').symm

theorem known_master {id : Nat} (h : generationOf (masterFile id) = some id) :
    memberNameIsKnown (masterMemberName id) = true := by
  have hdir : '/' ∉ masterDir := slash_notMem_dirs _ (by simp)
  unfold memberNameIsKnown
  split
  · rfl
  · rw [masterMemberName, memberDir_within hdir (slash_notMem_masterFile id)]
    simp only [if_true]
    rw [masterGeneration, within, splitOnce_eq_some.mpr ⟨rfl, hdir⟩]
    simp only [ne_eq, not_true_eq_false, slash_notMem_masterFile id, or_self, ↓reduceIte, h,
      Option.isSome_some]

theorem known_keyFile {dir file : Text} (hdir : dir = sharedKeysDir ∨ dir = peerKeksDir)
    (hkey : isKeyFile file = true) (hfile : '/' ∉ file) :
    memberNameIsKnown (within dir file) = true := by
  have hslash : '/' ∉ dir := by
    apply slash_notMem_dirs
    rcases hdir with rfl | rfl <;> simp
  have hmaster : dir ≠ masterDir := by
    rcases hdir with rfl | rfl <;> decide +kernel
  unfold memberNameIsKnown
  split
  · rfl
  · rw [memberDir_within hslash hfile]
    simp only [if_neg hmaster, if_pos hdir, lastPart_within hfile, Option.map_some, hkey,
      Option.getD_some]

/-- **The exporter and the checker agree on an orderly directory.** -/
theorem Orderly.unambiguous (h : Orderly lossy tree) : Unambiguous lossy tree := by
  have hmasters : ∀ name ∈ (listMasterIds lossy tree).map masterMemberName,
      memberDir name = some masterDir ∧ memberNameIsKnown name = true := by
    intro name hname
    obtain ⟨id, hid, rfl⟩ := List.mem_map.mp hname
    obtain ⟨folder, hfolder, entry, hentry, hgeneration⟩ := mem_listMasterIds.mp hid
    obtain rfl := h.master folder hfolder entry hentry id hgeneration
    exact ⟨memberDir_within (slash_notMem_dirs _ (by simp)) (slash_notMem_masterFile id),
      known_master hgeneration⟩
  have hkeys (dir : Text) (hdir : dir = sharedKeysDir ∨ dir = peerKeksDir) (folder : Option Folder)
      (hfolder : tree.sharedKeys = folder ∨ tree.peerKeks = folder) :
      ∀ name ∈ (sortedKeyFiles lossy folder).map (within dir),
        memberDir name = some dir ∧ memberNameIsKnown name = true := by
    intro name hname
    obtain ⟨file, hfile, rfl⟩ := List.mem_map.mp hname
    cases folder with
    | none => cases hfile
    | some folder =>
      obtain ⟨hkey, hslash⟩ := h.keyFile hfolder hfile
      refine ⟨memberDir_within ?_ hslash, known_keyFile hdir hkey hslash⟩
      apply slash_notMem_dirs
      rcases hdir with rfl | rfl <;> simp
  have hshared := hkeys sharedKeysDir (Or.inl rfl) tree.sharedKeys (Or.inl rfl)
  have hpeers := hkeys peerKeksDir (Or.inr rfl) tree.peerKeks (Or.inr rfl)
  have hdistinct : (memberNames lossy tree).Nodup := by
    rw [memberNames, List.nodup_append, List.nodup_append, List.nodup_append]
    refine ⟨by decide +kernel, ⟨?_, ⟨?_, ?_, ?_⟩, ?_⟩, ?_⟩
    · apply (nodup_listMasterIds h).map_on
      intro id hid id' hid' hsame
      obtain ⟨folder, hfolder, entry, hentry, hgeneration⟩ := mem_listMasterIds.mp hid
      obtain ⟨folder', hfolder', entry', hentry', hgeneration'⟩ := mem_listMasterIds.mp hid'
      obtain rfl := h.master folder hfolder entry hentry id hgeneration
      obtain rfl := h.master folder' hfolder' entry' hentry' id' hgeneration'
      have hfile : masterFile id = masterFile id' := within_injective hsame
      simp only [OsName.toStringLossy] at hgeneration hgeneration'
      rw [hfile, hgeneration'] at hgeneration
      exact (Option.some.inj hgeneration).symm
    · exact (h.nodup_sortedKeyFiles (Or.inl rfl)).map fun file file' => within_injective
    · exact (h.nodup_sortedKeyFiles (Or.inr rfl)).map fun file file' => within_injective
    · rintro name hname _ hname' rfl
      have hdir := (hshared name hname).1.symm.trans (hpeers name hname').1
      revert hdir
      decide +kernel
    · rintro name hname _ hname' rfl
      have hdir := (hmasters name hname).1
      rcases List.mem_append.mp hname' with hname' | hname'
      · rw [(hshared name hname').1] at hdir
        revert hdir
        decide +kernel
      · rw [(hpeers name hname').1] at hdir
        revert hdir
        decide +kernel
    · rintro name hname _ hname' rfl
      have hnone := memberDir_fixed name hname
      rcases List.mem_append.mp hname' with hname' | hname'
      · rw [(hmasters name hname').1] at hnone
        cases hnone
      · rcases List.mem_append.mp hname' with hname' | hname'
        · rw [(hshared name hname').1] at hnone
          cases hnone
        · rw [(hpeers name hname').1] at hnone
          cases hnone
  refine ⟨hdistinct.filter _, fun name hname => ?_⟩
  have hlisted := (List.mem_filter.mp hname).1
  simp only [memberNames, List.mem_append] at hlisted
  rcases hlisted with hfixed | hmaster | hfile | hfile
  · rw [memberNameIsKnown, if_pos hfixed]
  · exact (hmasters name hmaster).2
  · exact (hshared name hfile).2
  · exact (hpeers name hfile).2

end

/-! ### Intact exports -/

section

variable {c : Crates} {f : Formats} {e : Codecs} {tree : VaultTree} {gardenId : Option String}
  {bundle : EscrowBundle} {absent : List Text}

theorem mem_names_manifest (h : manifest c f e tree gardenId = .ok (bundle, absent)) {name : Text}
    (hname : Escrowed name) (hfile : (tree.file? name).isSome = true) : name ∈ bundle.names := by
  rw [names_manifest h]
  exact List.mem_filter.mpr ⟨mem_memberNames hname hfile, hfile⟩

/-- A door that is in the directory is carried. -/
theorem doorIsCarried_manifest (h : manifest c f e tree gardenId = .ok (bundle, absent))
    {path : RecoveryPath} (hdoor : DoorPresent tree path) :
    doorIsCarried bundle.names path = true := by
  cases path with
  | passphrase =>
    have hmem := mem_names_manifest h (Or.inl (by decide +kernel)) hdoor
    exact decide_eq_true hmem
  | phrase =>
    have hmem := mem_names_manifest h (Or.inl (by decide +kernel)) hdoor
    exact decide_eq_true hmem
  | peers =>
    obtain ⟨file, hkey, hfile⟩ := hdoor
    have hmem := mem_names_manifest h (Or.inr (Or.inr ⟨file, hkey, Or.inr rfl⟩)) hfile
    obtain ⟨folder, node, -, hlookup, -⟩ := VaultTree.entry_of_file (by simp) hfile
    have hslash : '/' ∉ file := folder.flat file (AList.lookup_isSome.mp (hlookup ▸ rfl))
    refine List.any_eq_true.mpr ⟨_, hmem, decide_eq_true ?_⟩
    exact memberDir_within (slash_notMem_dirs _ (by simp)) hslash

/-- **The export of a directory that has what is needed is intact**, where nothing is carried twice
or under a name the checker does not know. -/
theorem intact_manifest (h : manifest c f e tree gardenId = .ok (bundle, absent))
    (hnames : Unambiguous e.lossy tree) (hpresent : Present f e.lossy tree) :
    Intact c f bundle := by
  obtain ⟨hmembers, hcount, hpolicy, -⟩ := manifest_eq_ok h
  refine ⟨names_manifest h ▸ hnames.distinct, ?_, hcount, ?_, ?_, ?_⟩
  · intro m hm
    have hname : m.name ∈ carried e.lossy tree := names_manifest h ▸ List.mem_map_of_mem hm
    obtain ⟨name, mode, bytes, -, hfile, rfl⟩ := (mem_manifest h).mp hm
    exact ⟨hnames.known _ hname, bytes, Base64.decode_encode bytes, rfl, rfl⟩
  · exact mem_names_manifest h (Or.inl (by decide +kernel)) hpresent.params
  · obtain ⟨bytes, key, hbytes, hkey, hmaster⟩ := hpresent.active
    obtain ⟨⟨mode, bytes'⟩, hfile, hsame⟩ := Option.map_eq_some_iff.mp hbytes
    obtain rfl : bytes' = bytes := hsame
    have hlisted : activeFile ∈ memberNames e.lossy tree :=
      mem_memberNames (Or.inl (by decide +kernel)) (hfile ▸ rfl)
    refine ⟨memberOf c activeFile mode bytes', ?_, rfl, bytes', key, ?_, hkey, ?_⟩
    · exact (mem_manifest h).mpr ⟨activeFile, mode, bytes', hlisted, hfile, rfl⟩
    · exact Base64.decode_encode bytes'
    · exact mem_names_manifest h (Or.inr (Or.inl ⟨_, key.masterKeyId.toNat_lt, rfl⟩)) hmaster
  · refine ⟨effective f e.lossy tree, hpolicy ▸ RecoveryPolicy.parse_display _, ?_⟩
    intro path hpath
    exact doorIsCarried_manifest h (hpresent.doors path hpath)

end

/-! ### The whole -/

/-- What an export of a directory promises of the bundle and of the text it wrote. -/
structure Faithful (c : Crates) (f : Formats) (e : Codecs) (tree : VaultTree)
    (bundle : EscrowBundle) (text : Text) : Prop where
  parsed : parse e text = .ok bundle
  restored : ∃ files, restore bundle = some files ∧
    ∀ name, Escrowed name → files.lookup name = tree.bytes? name
  intact : Unambiguous e.lossy tree → Present f e.lossy tree →
    (checkIntegrity c f e.decodeError bundle).findings = []

/-- What the check notices of one edit of the `i`-th member `m`. A new name goes unnoticed only
where it is one an export writes, no other member has it, and nothing is then missing. -/
structure Noticed (c : Crates) (f : Formats) (decodeError : Bytes → String) (b : EscrowBundle)
    (i : Nat) (m : Member) : Prop where
  data : ∀ data, data ≠ m.data →
    (∀ bytes bytes', Base64.decode m.data = some bytes → Base64.decode data = some bytes' →
      c.blake3 bytes' = c.blake3 bytes → bytes' = bytes) →
    (checkIntegrity c f decodeError (b.replace i { m with data := data })).findings ≠ []
  size : ∀ size, size ≠ m.size →
    (checkIntegrity c f decodeError (b.replace i { m with size := size })).findings ≠ []
  blake3 : ∀ blake3, blake3 ≠ m.blake3 →
    (checkIntegrity c f decodeError (b.replace i { m with blake3 := blake3 })).findings ≠ []
  name : ∀ name,
    (checkIntegrity c f decodeError (b.replace i { m with name := name })).findings ≠ [] ↔
      memberNameIsKnown name = false ∨ name ∈ (b.drop i).names ∨
        ¬Complete f (b.replace i { m with name := name })
  drop : (checkIntegrity c f decodeError (b.drop i)).findings ≠ []

/-- **An export is read back, restores the files it is about and passes the check, and the check
notices an edit of a member that was sound.** -/
theorem escrow_bundle (c : Crates) (f : Formats) {e : Codecs} (he : e.Lawful) :
    (∀ tree gardenId dest force summary text,
      exportTo c f e tree gardenId dest force = .ok (summary, text) →
        ∃ bundle absent, manifest c f e tree gardenId = .ok (bundle, absent) ∧
          Faithful c f e tree bundle text) ∧
      (∀ (b : EscrowBundle) (i : Nat) (m : Member),
        (checkIntegrity c f e.decodeError b).findings = [] → b.members[i]? = some m →
          Noticed c f e.decodeError b i m) ∧
      ∀ (b : EscrowBundle) (i : Nat) (m : Member), m ∈ b.members → i ≤ b.members.length →
        (checkIntegrity c f e.decodeError (b.insert i m)).findings ≠ [] := by
  have hnoticed {b : EscrowBundle} (h : ¬Intact c f b) :
      (checkIntegrity c f e.decodeError b).findings ≠ [] := fun hnone =>
    h (findings_eq_nil_iff.mp hnone)
  refine ⟨?_, ?_, ?_⟩
  · intro tree gardenId dest force summary text hexport
    obtain ⟨bundle, absent, body, hmanifest, hrender, rfl⟩ := exportTo_eq_ok hexport
    refine ⟨bundle, absent, hmanifest, ?_, restore_manifest hmanifest, ?_⟩
    · exact parse_document he hrender (manifest_eq_ok hmanifest).2.2.2
    · intro hnames hpresent
      exact findings_eq_nil_iff.mpr (intact_manifest hmanifest hnames hpresent)
  · intro b i m hb hm
    have h := findings_eq_nil_iff.mp hb
    constructor
    · intro data hdata hdigest
      exact hnoticed (not_intact_data h hm hdata hdigest)
    · intro size hsize
      exact hnoticed (not_intact_size h hm hsize)
    · intro blake3 hblake3
      exact hnoticed (not_intact_digest h hm hblake3)
    · intro name
      rw [Ne, findings_eq_nil_iff, intact_rename_iff h hm, not_and_or, not_and_or, not_not,
        Bool.not_eq_true]
    · exact hnoticed (not_intact_drop h hm)
  · intro b i m hm hi
    exact hnoticed (not_intact_insert hm hi)

/-! ### A vault -/

def sampleActive : Bytes := Store.utf8 "master_key_id = 1\n"

/-- The digests of five short files. -/
def sampleDigests : List (Bytes × Bytes) := [
  ([1], [72, 252, 114, 31, 187, 193, 114, 224, 146, 95, 162, 122, 241, 103, 29, 226, 37, 186,
    146, 113, 52, 128, 41, 152, 177, 10, 21, 104, 161, 136, 101, 43]),
  (sampleActive, [145, 230, 25, 189, 90, 79, 229, 148, 238, 33, 35, 238, 255, 121, 90, 238, 0,
    208, 10, 188, 48, 168, 50, 44, 150, 226, 55, 63, 43, 47, 40, 74]),
  ([2], [171, 19, 190, 223, 66, 232, 75, 174, 15, 124, 98, 199, 221, 106, 138, 218, 87, 30, 136,
    41, 190, 214, 234, 85, 130, 23, 240, 54, 27, 94, 37, 208]),
  ([3], [225, 224, 232, 29, 110, 163, 155, 12, 248, 184, 111, 253, 68, 9, 33, 1, 31, 87, 64, 12,
    188, 63, 118, 168, 161, 113, 144, 106, 155, 141, 117, 5]),
  ([4], [12, 56, 154, 116, 62, 52, 253, 164, 53, 251, 213, 117, 187, 136, 157, 188, 13, 62, 102,
    185, 249, 216, 30, 0, 190, 51, 183, 24, 133, 9, 231, 235])]

def sampleCrates : Crates :=
  { checksumCrates with blake3 := fun bytes => ⟨(sampleDigests.lookup bytes).getD bytes⟩ }

def sampleFormats : Formats :=
  { unaryFormats with
    active := {
      render := fun key => Store.utf8 ("master_key_id = " ++ toString key.masterKeyId.toNat ++ "\n")
      parse := fun bytes => if bytes = sampleActive then .ok ⟨1⟩ else .error "invalid TOML" } }

def sampleFolder (name : Text) (node : Node) (h : '/' ∉ name) : Folder where
  entries := AList.singleton (.text name) node
  flat := by
    intro name' hmem
    obtain rfl : name' = name := OsName.text.inj (List.mem_singleton.mp hmem)
    exact h

/-- A vault with one door and one generation; nobody declared a policy. -/
def sampleTree : VaultTree where
  root :=
    (((AList.singleton paramsFile (.file 0o600 (.ok [1]))).insert activeFile
      (.file 0o600 (.ok sampleActive))).insert kekSelfFile (.file 0o600 (.ok [2]))).insert
        identityFile (.file 0o600 (.ok [3]))
  master := some (sampleFolder "1.key".toList (.file 0o600 (.ok [4])) (by decide +kernel))
  sharedKeys := none
  peerKeks := none

def sampleBundle : EscrowBundle where
  formatVersion := 1
  gardenId := "g1"
  policy := "passphrase-only"
  policySource := "inferred"
  policyNote := policyNote .undeclared
  memberCount := 5
  members := [
    memberOf sampleCrates paramsFile 0o600 [1],
    memberOf sampleCrates activeFile 0o600 sampleActive,
    memberOf sampleCrates kekSelfFile 0o600 [2],
    memberOf sampleCrates identityFile 0o600 [3],
    memberOf sampleCrates (masterMemberName 1) 0o600 [4]]

def tomlString (key value : String) : String := key ++ " = \"" ++ value ++ "\""

def tomlNumber (key : String) (value : Nat) : String :=
  key ++ " = " ++ String.ofList (Nat.toDigits 10 value)

/-- The lines of a bundle whose texts need no escapes. -/
def tomlLines (b : EscrowBundle) : List String :=
  [tomlNumber "format_version" b.formatVersion.toNat, tomlString "garden_id" b.gardenId,
    tomlString "policy" b.policy, tomlString "policy_source" b.policySource,
    tomlString "policy_note" b.policyNote, tomlNumber "member_count" b.memberCount] ++
  b.members.flatMap fun m =>
    ["", "[[member]]", tomlString "name" (String.ofList m.name),
      tomlString "mode" (String.ofList m.mode), tomlNumber "size" m.size,
      tomlString "blake3" m.blake3,
      tomlString "data" (String.ofList (m.data.map fun byte => Char.ofNat byte.toNat))]

def sampleText : Text := withNewlines ((tomlLines sampleBundle).map String.toList)

/-- A document from its first line that is no comment and not empty. -/
def skipHeader : Bool → Text → Text
  | _, [] => []
  | inComment, ch :: rest =>
    if ch = '\n' then skipHeader false rest
    else if inComment = true ∨ ch = '#' then skipHeader true rest
    else ch :: rest

/-- The codec of that one document. -/
def sampleCodecs : Codecs where
  lossy _ := ['\uFFFD']
  decodeError _ := "Invalid padding"
  render b := if b = sampleBundle then .ok sampleText else .error "unsupported value"
  fromStr text :=
    if skipHeader false text = sampleText then .ok sampleBundle else .error "invalid TOML"

theorem unambiguous_sample : Unambiguous sampleCodecs.lossy sampleTree := by
  refine Orderly.unambiguous ⟨fun folder hfolder name hname id hid => ?_,
    fun folder hfolder => ?_⟩
  · cases hfolder
    obtain rfl := List.mem_singleton.mp hname
    have hone : generationOf "1.key".toList = some 1 := by decide +kernel
    cases hone.symm.trans hid
    rfl
  · rcases hfolder with h | h <;> cases h

theorem skipHeader_comment {line : Text} (h : ∀ ch ∈ line, ch ≠ '\n') (rest : Text) :
    skipHeader true (line ++ '\n' :: rest) = skipHeader false rest := by
  induction line with
  | nil => simp [skipHeader]
  | cons ch line ih =>
    obtain ⟨hch, hline⟩ := List.forall_mem_cons.mp h
    rw [List.cons_append, skipHeader, if_neg hch, if_pos (Or.inl rfl), ih hline]

theorem skipHeader_line {line : Text} (h : IsComment line) (rest : Text) :
    skipHeader false (line ++ '\n' :: rest) = skipHeader false rest := by
  rcases h with rfl | ⟨hhead, hplain⟩
  · simp [skipHeader]
  · obtain ⟨more, rfl⟩ := List.head?_eq_some_iff.mp hhead
    have hline : ∀ ch ∈ more, ch ≠ '\n' := by
      rintro ch hch rfl
      have hprintable := List.all_eq_true.mp hplain '\n' (List.mem_cons_of_mem _ hch)
      cases hprintable
    rw [List.cons_append, skipHeader, if_neg (by decide), if_pos (Or.inr rfl),
      skipHeader_comment hline]

theorem skipHeader_withNewlines {header : List Text} (h : ∀ line ∈ header, IsComment line)
    (body : Text) : skipHeader false (withNewlines header ++ body) = skipHeader false body := by
  induction header with
  | nil => rfl
  | cons line header ih =>
    obtain ⟨hline, hheader⟩ := List.forall_mem_cons.mp h
    have hsplit : withNewlines (line :: header) ++ body =
        line ++ '\n' :: (withNewlines header ++ body) := by
      simp [withNewlines]
    rw [hsplit, skipHeader_line hline, ih hheader]

theorem sampleCodecs_lawful : sampleCodecs.Lawful where
  fromStr_render header bundle body hheader hrender := by
    have hbody : bundle = sampleBundle ∧ body = sampleText := by
      simp only [sampleCodecs] at hrender
      split_ifs at hrender with hbundle
      cases hrender
      exact ⟨hbundle, rfl⟩
    obtain ⟨rfl, rfl⟩ := hbody
    have hfirst : sampleText.head? = some 'f' := by decide +kernel
    obtain ⟨rest, hrest⟩ := List.head?_eq_some_iff.mp hfirst
    have hskip : skipHeader false sampleText = sampleText := by
      rw [hrest]
      exact (if_neg (by decide)).trans (if_neg (by decide))
    have htext := (skipHeader_withNewlines hheader sampleText).trans hskip
    exact if_pos htext

theorem manifest_sample :
    manifest sampleCrates sampleFormats sampleCodecs sampleTree (some "g1") =
      .ok (sampleBundle, [recoveryPolicyFile, kekRecoveryFile, transportFile]) := by
  decide +kernel

/-- The vault is exported, read back and sound, and the bundle is not without any of its members,
or with one of them twice. -/
theorem escrow_bundle_sample :
    parse sampleCodecs (document sampleText) = .ok sampleBundle ∧
      (checkIntegrity sampleCrates sampleFormats sampleCodecs.decodeError sampleBundle).findings =
        [] ∧
      (checkIntegrity sampleCrates sampleFormats sampleCodecs.decodeError
        (sampleBundle.drop 0)).findings ≠ [] ∧
      (checkIntegrity sampleCrates sampleFormats sampleCodecs.decodeError
        (sampleBundle.insert 0 (memberOf sampleCrates paramsFile 0o600 [1]))).findings ≠ [] := by
  obtain ⟨hexport, hedits, hrepeat⟩ :=
    escrow_bundle sampleCrates sampleFormats sampleCodecs_lawful
  have hrender : sampleCodecs.render sampleBundle = .ok sampleText := by
    simp only [sampleCodecs, ↓reduceIte]
  obtain ⟨summary, hsummary⟩ := exportTo_none manifest_sample hrender false
  obtain ⟨bundle, absent, hmanifest, hfaithful⟩ := hexport _ _ _ _ _ _ hsummary
  rw [manifest_sample] at hmanifest
  cases hmanifest
  have hnames : Unambiguous sampleCodecs.lossy sampleTree := ⟨by decide +kernel, by decide +kernel⟩
  have hpresent : Present sampleFormats sampleCodecs.lossy sampleTree := by
    refine ⟨by decide +kernel, ⟨sampleActive, ⟨1⟩, ?_, ?_, ?_⟩, ?_⟩
    · decide +kernel
    · simp only [sampleFormats, ↓reduceIte]
    · decide +kernel
    · have heffective : effective sampleFormats sampleCodecs.lossy sampleTree = {.passphrase} := by
        decide +kernel
      intro path hpath
      rw [heffective, Finset.mem_singleton] at hpath
      subst hpath
      show (sampleTree.file? kekSelfFile).isSome = true
      decide +kernel
  have hintact := hfaithful.intact hnames hpresent
  exact ⟨hfaithful.parsed, hintact, (hedits sampleBundle 0 _ hintact rfl).drop,
    hrepeat sampleBundle 0 _ List.mem_cons_self (Nat.zero_le _)⟩

/-- A sound bundle of a vault whose identity key goes by the name of a transport key. -/
theorem rename_unnoticed :
    manifest sampleCrates sampleFormats sampleCodecs sampleTree (some "g1") =
        .ok (sampleBundle, [recoveryPolicyFile, kekRecoveryFile, transportFile]) ∧
      sampleBundle.members[3]? = some (memberOf sampleCrates identityFile 0o600 [3]) ∧
      transportFile ≠ identityFile ∧
      (checkIntegrity sampleCrates sampleFormats sampleCodecs.decodeError
        (sampleBundle.replace 3
          { memberOf sampleCrates identityFile 0o600 [3] with name := transportFile })).findings =
        [] :=
  ⟨manifest_sample, rfl, by decide +kernel, by decide +kernel⟩

end Softfig.Vault.Escrow
