import Softfig.LayerB.Routing
import Softfig.Mount.Rotation
import Softfig.Vcs.Snapshot

/-!
A rename, the commit after it, and what can then be revealed.

A rename stages the bytes that a file has, its sealed regions as ciphertext of the old path. The
commit seals a file by the globs that match its new path, and takes a region that does not open at
the new path for plaintext.

- `parse_text`: the text of a path is read back as the path;
- `RenamedBy.stored`: what the commit after a rename stores at a new place;
- `commits_of_snapshot`: what the parts of a snapshot commit;
- `kept_of_harmless`: a harmless rename keeps every secret, and so does the rename back;
- `harmless_of_kept`: no other rename does.
-/

namespace Softfig.Mount

open Softfig.Lib
open Softfig.LayerB
open Softfig.Store (Bytes Hash)
open Softfig.Vcs (FileName Path Component Chain ChainRegistry WalkSnapshot FileNode tipRef)

/-! ### The text of a path -/

namespace RepoPath

theorem pathString_eq {names : List String} (h : Vcs.NamesOk true names) :
    Vcs.pathString names = "/".intercalate names := by
  induction names using List.reverseRecOn with
  | nil => rfl
  | append_singleton names name ih =>
    have hnames := (Vcs.namesOk_append h).1
    rw [Vcs.pathString_append, Vcs.childPath]
    by_cases hnil : names = []
    · subst hnil
      simp [Vcs.pathString]
    · rw [if_neg (Vcs.pathString_ne_empty hnames hnil), ih hnames,
        String.intercalate_append_of_ne_nil hnil (List.cons_ne_nil _ _),
        String.intercalate_singleton]

/-- **The text of a path is read back as the path.** -/
theorem parse_text (path : RepoPath) : Path.parse path.text = path.toPath := by
  have hnames : Vcs.NamesOk true path.names := names_toPath path ▸ path.toPath.namesOk
  refine Path.names_injective ?_
  rw [text, ← pathString_eq hnames, Vcs.parse_pathString hnames, names_toPath]

theorem eq_of_text {path other : RepoPath} (h : path.text = other.text) : path = other := by
  refine names_injective ?_
  rw [← names_toPath, ← names_toPath, ← parse_text, ← parse_text, h]

end RepoPath

/-! ### A garden and its commits -/

/-- The blob that each path has in the tip of the chain that owns it. -/
abbrev Garden := RepoPath → Option Bytes

section

variable (session : VaultSession) (hook : LayerBHook) (registry : ChainRegistry)

def onDevice (path : RepoPath) : Bool := decide ((ownerOf registry path).refName = tipRef)

/-- The path that the globs are matched with, and a file is sealed by. -/
def commitPath (path : RepoPath) : String :=
  let owner := ownerOf registry path
  match hook.sharedKeyFor owner.refName with
  | some (_, mount) =>
    if onDevice registry path then path.text else gardenPath mount (within owner path).text
  | none => path.text

def sealedAt (path : RepoPath) : Bool := hook.isSealed (commitPath hook registry path)

/-- What is read of a committed file. -/
def contentAt (garden : Garden) (path : RepoPath) : Option Bytes :=
  (garden path).bind (session.decryptTrackedBlob path.text)

/-- The blob a file is committed as, none where its commit is refused. -/
def encryptAt (garden : Garden) (path : RepoPath) (content : Bytes) : Option Bytes :=
  hook.encryptForRef session (ownerOf registry path).refName
    (within (ownerOf registry path) path).text (contentAt session garden path) content

/-- `vault_reveal`, which reads the tip of the device chain only. -/
def revealAt (garden : Garden) (path : RepoPath) (id : Option Bytes) : Option Bytes :=
  if onDevice registry path then
    (garden path).bind fun blob => hook.reveal session path.text blob id
  else none

/-- A mount with nothing staged shows a garden. -/
structure Serves (io : MountIo) (inner : Inner) (garden : Garden) : Prop where
  clean : ∀ path, inner.overlay.get path = none
  rooted : Rooted inner.live
  decrypts : io.decryptTrackedBlob = session.decryptTrackedBlob
  blobs : ∀ path, (blobAt inner.view path).map (fun entry => io.objects entry.target) =
    (garden path).map some

/-- A commit of a working tree, all but the files its snapshot passes over. -/
structure Commits (skipped : RepoPath → Bool) (io : MountIo) (inner : Inner)
    (garden garden' : Garden) : Prop where
  kept : ∀ path content, readWorkfile io inner path = some (some content) →
    skipped path = false → ∃ blob, encryptAt session hook registry garden path content = some blob ∧
      garden' path = some blob
  passed : ∀ path, skipped path = true → garden' path = none
  absent : ∀ path, (∀ content, readWorkfile io inner path ≠ some (some content)) →
    garden' path = none

/-- A rename in a garden, and the next commit. -/
structure RenamedBy (src dst : RepoPath) (skipped : RepoPath → Bool) (io : MountIo) (inner : Inner)
    (garden garden' : Garden) : Prop where
  serves : Serves session io inner garden
  commits : ∃ inner', inner.stageRename io src dst = some inner' ∧
    Commits session hook registry skipped io inner' garden garden'

/-! ### Secrets -/

/-- A file that a sealed glob matches, or a sealed region of another file of the device chain. -/
def SecretAt (garden : Garden) (path : RepoPath) (id : Option Bytes) : Prop :=
  ∃ content, contentAt session garden path = some content ∧
    match id with
    | none => sealedAt hook registry path = true
    | some id => onDevice registry path = true ∧ id ∈ hook.regionIds session path.text content

/-- What a rename must not do to what is secret below the old place: it is revealed at the new place
and, once renamed back, at the old one as it was, and it is never stored in clear. -/
structure SecretsKept (src dst : RepoPath) (garden garden₁ garden₂ : Garden) : Prop where
  revealed : ∀ rest id plain, SecretAt session hook registry garden (src ++ rest) id →
    revealAt session hook registry garden (src ++ rest) id = some plain →
      revealAt session hook registry garden₁ (dst ++ rest) id = some plain
  restored : ∀ rest id plain, SecretAt session hook registry garden (src ++ rest) id →
    revealAt session hook registry garden (src ++ rest) id = some plain →
      revealAt session hook registry garden₂ (src ++ rest) id = some plain
  concealed : ∀ rest id blob, SecretAt session hook registry garden (src ++ rest) id →
    garden₁ (dst ++ rest) = some blob →
      session.isLayerB blob = true ∨
        ∃ i, id = some i ∧ SecretAt session hook registry garden₁ (dst ++ rest) id

/-- A rename of these files harms no secret: a sealed file stays below the globs, one of the device
chain stays in it and in the commits, and no other file of the device chain has a sealed region. -/
structure RenameHarmless (src dst : RepoPath) (skipped skipped' : RepoPath → Bool)
    (garden : Garden) : Prop where
  matched : ∀ rest content, contentAt session garden (src ++ rest) = some content →
    sealedAt hook registry (src ++ rest) = true → skipped (dst ++ rest) = false →
      sealedAt hook registry (dst ++ rest) = true
  stays : ∀ rest content, contentAt session garden (src ++ rest) = some content →
    sealedAt hook registry (src ++ rest) = true → onDevice registry (src ++ rest) = true →
      onDevice registry (dst ++ rest) = true ∧ skipped (dst ++ rest) = false ∧
        skipped' (src ++ rest) = false
  regions : ∀ rest content, contentAt session garden (src ++ rest) = some content →
    onDevice registry (src ++ rest) = true → hook.regionIds session (src ++ rest).text content = []

/-- The files that have sealed regions have no other regions, and keep their format. -/
def AllSealed (src dst : RepoPath) (garden : Garden) : Prop :=
  ∀ rest content spans, contentAt session garden (src ++ rest) = some content →
    hook.regionIds session (src ++ rest).text content ≠ [] →
    parse session.region (src ++ rest).text (parserFor (src ++ rest).text) content = .ok spans →
      parserFor (dst ++ rest).text = parserFor (src ++ rest).text ∧
        ∀ r ∈ bodies content spans,
          (decryptBody session.region (src ++ rest).text r.1 r.2).isSome

end

/-! ### What a commit stores -/

section

variable {session : VaultSession} {hook : LayerBHook} {registry : ChainRegistry}
  {io : MountIo} {inner : Inner} {garden garden' : Garden}

theorem within_of_onDevice (hdevice : registry.device = .device)
    (hrefs : (registry.enabledChains.map Chain.refName).Nodup) {path : RepoPath}
    (h : onDevice registry path = true) : within (ownerOf registry path) path = path := by
  have hmem : ownerOf registry path ∈ registry.enabledChains := registry.owningChain_mem _
  have hself : registry.device ∈ registry.enabledChains := List.mem_cons_self
  have howner : ownerOf registry path = registry.device := by
    refine List.inj_on_of_nodup_map hrefs hmem hself ?_
    rw [of_decide_eq_true h, hdevice]
    rfl
  rw [within, howner, hdevice]
  rfl

/-- A file of the device chain is committed by `encrypt`, at its own path. -/
theorem encryptAt_device (hdevice : registry.device = .device)
    (hrefs : (registry.enabledChains.map Chain.refName).Nodup) {path : RepoPath}
    (h : onDevice registry path = true) (content : Bytes) :
    encryptAt session hook registry garden path content =
      hook.encrypt session path.text (contentAt session garden path) content := by
  rw [encryptAt, within_of_onDevice hdevice hrefs h, LayerBHook.encryptForRef,
    if_pos (of_decide_eq_true h)]

theorem commitPath_device {path : RepoPath} (h : onDevice registry path = true) :
    commitPath hook registry path = path.text := by
  unfold commitPath
  dsimp only
  split
  · rw [if_pos h]
  · rfl

/-- **A file is stored as a whole-file seal** exactly where a sealed glob matches it. -/
theorem isLayerB_encryptAt (hdevice : registry.device = .device)
    (hrefs : (registry.enabledChains.map Chain.refName).Nodup) {path : RepoPath}
    {content blob : Bytes} (h : encryptAt session hook registry garden path content = some blob) :
    session.isLayerB blob = sealedAt hook registry path := by
  cases hown : onDevice registry path with
  | true =>
    rw [encryptAt_device hdevice hrefs hown, LayerBHook.encrypt] at h
    rw [sealedAt, commitPath_device hown]
    split_ifs at h with hsealed
    · cases h
      rw [(session.layerB _ _).2, hsealed]
    · obtain ⟨out, -, rfl⟩ := Option.map_eq_some_iff.mp h
      rw [(session.blob path.text out).2, Bool.eq_false_iff.mpr hsealed]
  | false =>
    rw [encryptAt, LayerBHook.encryptForRef, if_neg (of_decide_eq_false hown)] at h
    rw [sealedAt, commitPath]
    cases hkey : hook.sharedKeyFor (ownerOf registry path).refName with
    | none => rw [hkey] at h; cases h
    | some key =>
      obtain ⟨keyId, mount⟩ := key
      rw [hkey] at h
      dsimp only at h ⊢
      rw [hown, if_neg Bool.false_ne_true]
      split_ifs at h with hsealed
      · rw [(session.sharedLayerB _ _ _ _ h).2, hsealed]
      · split at h
        · rw [(session.sharedBlob _ path.text _ _ h).2, Bool.eq_false_iff.mpr hsealed]
        · cases h

theorem Serves.live (h : Serves session io inner garden) (path : RepoPath) :
    inner.live path = (inner.view.lookup path).map Entry.live := live_of_get_none (h.clean path)

/-- **What is read of a garden** is what its blobs hold. -/
theorem Serves.reads (h : Serves session io inner garden) {path : RepoPath} {content : Bytes} :
    readWorkfile io inner path = some (some content) ↔
      contentAt session garden path = some content := by
  have hblobs := h.blobs path
  rw [readWorkfile, h.live, contentAt]
  rw [blobAt] at hblobs
  cases hentry : inner.view.lookup path with
  | none =>
    rw [hentry] at hblobs
    have hnone : garden path = none := by simpa using hblobs.symm
    simp [hnone]
  | some entry =>
    obtain ⟨kind, mode, target⟩ := entry
    rw [hentry] at hblobs
    cases kind with
    | dir =>
      have hnone : garden path = none := by simpa [Option.filter] using hblobs.symm
      simp [hnone, Entry.live]
    | blob =>
      have hsome : some (io.objects target) = (garden path).map some := by
        simpa [Option.filter] using hblobs
      cases hgarden : garden path with
      | none => rw [hgarden] at hsome; cases hsome
      | some blob =>
        rw [hgarden] at hsome
        have hobject : io.objects target = some blob := by simpa using hsome
        simp [Entry.live, MountIo.content, hobject, h.decrypts]

theorem Serves.parentsFree (h : Serves session io inner garden) (path : RepoPath) :
    ParentsFree inner path := by
  intro dir _ entry hentry
  rw [h.clean dir] at hentry
  cases hentry

/-- **A moved file is read at its new place as it was at the old one.** -/
theorem readWorkfile_renamed (registry : ChainRegistry) {src dst : RepoPath} {inner' : Inner}
    (h : inner.stageRename io src dst = some inner') (hrooted : Rooted inner.live)
    (hapart : Apart src dst) {rest : RepoPath} {content : Bytes}
    (hread : readWorkfile io inner (src ++ rest) = some (some content)) :
    readWorkfile io inner' (dst ++ rest) = some (some content) := by
  have hsrc : src ≠ [] := by
    rintro rfl
    exact hapart.1 List.nil_prefix
  obtain ⟨source, hfile, -⟩ := @live_of_readWorkfile io ⟨inner, registry⟩ _ _ hread
  obtain ⟨entries, rfl, honly, -, hfiles, -, hcontents⟩ := stageRename_eq h hrooted hsrc
  obtain ⟨⟨moved, mode, hmem⟩, -⟩ := hfiles rest source hfile
  have hlive : ∃ mode, (inner.stageAll entries).live (dst ++ rest) =
      some (.file (mode, .overlay content)) := by
    refine live_stageAll (P := fun node => ∃ mode, node = some (.file (mode, .overlay content))) ?_
      (Or.inr ⟨_, hmem, rfl⟩)
    intro e he heq
    cases honly e he with
    | source hpre => exact (hapart.not_both hpre ⟨_, heq.symm⟩).elim
    | @file rest' _ found mode _ =>
      obtain ⟨rest'', hrest, hfound⟩ := hcontents _ found mode he
      rw [← List.append_cancel_left hrest, List.append_cancel_left heq, hread] at hfound
      cases hfound
      exact ⟨mode, rfl⟩
    | @above rest' dir source' mode hfile' hdir =>
      obtain rfl : dir = dst ++ rest := heq
      rw [dir_of_parents hrooted hsrc hfile' hdir] at hfile
      cases hfile
    | dir mode hdir =>
      rw [List.append_cancel_left heq, hfile] at hdir
      cases hdir
  obtain ⟨mode, hlive⟩ := hlive
  rw [readWorkfile, hlive]
  rfl

/-- The trees of a commit store the parts of a snapshot. -/
def StoresParts (session : VaultSession) (hook : LayerBHook) (registry : ChainRegistry)
    (snap : WalkSnapshot) (garden garden' : Garden) : Prop :=
  ∀ path, match (registry.part snap (ownerOf registry path)).root.fileAt
      (within (ownerOf registry path) path).names with
    | some file => ∃ blob, encryptAt session hook registry garden path file.content = some blob ∧
        garden' path = some blob
    | none => garden' path = none

/-- **The parts of a snapshot commit the working tree**, all but what is ignored. -/
theorem commits_of_snapshot {ignore : Ignore} {snap : WalkSnapshot}
    (htidy : Tidy ⟨inner, registry⟩) (hignore : inmemIgnore io inner = some ignore)
    (hsnap : unifiedSnapshot io inner (enabledMountRoots registry) = some snap)
    (hdevice : registry.device.mountPath = none)
    (hroots : ∀ f ∈ snap.files, registry.isEnabledMountRoot f.1 = false)
    (hstored : StoresParts session hook registry snap garden garden') :
    Commits session hook registry ignore.isIgnored io inner garden garden' := by
  have hfiles := htidy.exact.files ignore snap hignore hsnap
  have hnone : ∀ path, (∀ content, readWorkfile io inner path = some (some content) →
      ignore.isIgnored path = true) → garden' path = none := by
    intro path hpath
    have hstored := hstored path
    rw [fileAt_part hdevice hroots] at hstored
    cases hfile : snap.root.fileAt path.names with
    | none =>
      rw [hfile] at hstored
      exact hstored
    | some file =>
      obtain ⟨found, hnames, hkept, mode, content, hread, -⟩ := (hfiles _ _).mp hfile
      rw [RepoPath.names_injective hnames] at hkept hread
      rw [hpath content hread] at hkept
      cases hkept
  refine ⟨?_, ?_, ?_⟩
  · intro path content hread hkept
    obtain ⟨source, hlive, -⟩ := @live_of_readWorkfile io ⟨inner, registry⟩ _ _ hread
    have hfile := (hfiles path.names ⟨_, content⟩).mpr
      ⟨path, rfl, hkept, source.1, content, hread, currentMode_of_live hlive, rfl⟩
    have hstored := hstored path
    rw [fileAt_part hdevice hroots, hfile] at hstored
    exact hstored
  · intro path hignored
    exact hnone path fun _ _ => hignored
  · intro path hpath
    exact hnone path fun content hread => absurd hread (hpath content)

/-- **What the commit after a rename stores at a new place.** -/
theorem RenamedBy.stored {src dst : RepoPath} {skipped : RepoPath → Bool}
    (h : RenamedBy session hook registry src dst skipped io inner garden garden')
    (hapart : Apart src dst) {rest : RepoPath} {content : Bytes}
    (hcontent : contentAt session garden (src ++ rest) = some content) :
    (skipped (dst ++ rest) = true ∧ garden' (dst ++ rest) = none) ∨
      skipped (dst ++ rest) = false ∧ ∃ blob,
        encryptAt session hook registry garden (dst ++ rest) content = some blob ∧
          garden' (dst ++ rest) = some blob := by
  obtain ⟨inner', hrename, hcommits⟩ := h.commits
  have hread :=
    readWorkfile_renamed registry hrename h.serves.rooted hapart (h.serves.reads.mpr hcontent)
  cases hskipped : skipped (dst ++ rest) with
  | true => exact Or.inl ⟨rfl, hcommits.passed _ hskipped⟩
  | false => exact Or.inr ⟨rfl, hcommits.kept _ content hread hskipped⟩

end

/-! ### Which renames keep every secret -/

section

variable {session : VaultSession} {hook : LayerBHook} {registry : ChainRegistry}
  {src dst : RepoPath} {skipped skipped' : RepoPath → Bool} {io io' : MountIo}
  {inner inner' : Inner} {garden garden₁ garden₂ : Garden}

/-- A sealed file of the device chain is revealed as its content. -/
theorem revealAt_sealed {path : RepoPath} {content : Bytes}
    (hown : onDevice registry path = true) (hsealed : sealedAt hook registry path = true)
    (hcontent : contentAt session garden path = some content) :
    revealAt session hook registry garden path none = some content := by
  obtain ⟨blob, hblob, hopen⟩ := Option.bind_eq_some_iff.mp hcontent
  rw [sealedAt, commitPath_device hown] at hsealed
  rw [revealAt, if_pos hown, hblob, Option.bind_some, LayerBHook.reveal, hopen, Option.bind_some]
  dsimp only
  rw [if_pos hsealed]

/-- What is committed of a sealed file of the device chain is read back. -/
theorem contentAt_sealed (hdevice : registry.device = .device)
    (hrefs : (registry.enabledChains.map Chain.refName).Nodup) {path : RepoPath}
    {content blob : Bytes}
    (hown : onDevice registry path = true) (hsealed : sealedAt hook registry path = true)
    (hblob : encryptAt session hook registry garden path content = some blob)
    (hstored : garden₁ path = some blob) : contentAt session garden₁ path = some content := by
  rw [sealedAt, commitPath_device hown] at hsealed
  rw [encryptAt_device hdevice hrefs hown, LayerBHook.encrypt, if_pos hsealed] at hblob
  cases hblob
  rw [contentAt, hstored, Option.bind_some, (session.layerB _ _).1]

/-- **A harmless rename keeps every secret**, and so does the rename back. -/
theorem kept_of_harmless (hdevice : registry.device = .device)
    (hrefs : (registry.enabledChains.map Chain.refName).Nodup) (hapart : Apart src dst)
    (hrename : RenamedBy session hook registry src dst skipped io inner garden garden₁)
    (hback : RenamedBy session hook registry dst src skipped' io' inner' garden₁ garden₂)
    (h : RenameHarmless session hook registry src dst skipped skipped' garden) :
    SecretsKept session hook registry src dst garden garden₁ garden₂ := by
  -- a secret is a sealed file, and its device keeps it
  have hfile : ∀ rest id plain, SecretAt session hook registry garden (src ++ rest) id →
      revealAt session hook registry garden (src ++ rest) id = some plain →
      id = none ∧ onDevice registry (src ++ rest) = true ∧
        sealedAt hook registry (src ++ rest) = true ∧
        contentAt session garden (src ++ rest) = some plain := by
    rintro rest id plain ⟨content, hcontent, hsecret⟩ hreveal
    have hown : onDevice registry (src ++ rest) = true := by
      by_contra hnot
      rw [revealAt, if_neg hnot] at hreveal
      cases hreveal
    cases id with
    | some id =>
      obtain ⟨-, hmem⟩ := hsecret
      rw [h.regions rest content hcontent hown] at hmem
      cases hmem
    | none =>
      rw [revealAt_sealed hown hsecret hcontent] at hreveal
      cases hreveal
      exact ⟨rfl, hown, hsecret, hcontent⟩
  have hmoved : ∀ rest content, contentAt session garden (src ++ rest) = some content →
      onDevice registry (src ++ rest) = true → sealedAt hook registry (src ++ rest) = true →
      onDevice registry (dst ++ rest) = true ∧ sealedAt hook registry (dst ++ rest) = true ∧
        contentAt session garden₁ (dst ++ rest) = some content := by
    intro rest content hcontent hown hsealed
    obtain ⟨hstays, hkept, -⟩ := h.stays rest content hcontent hsealed hown
    have hsealed' := h.matched rest content hcontent hsealed hkept
    obtain ⟨hskipped, -⟩ | ⟨-, blob, hblob, hstored⟩ := hrename.stored hapart hcontent
    · rw [hskipped] at hkept
      cases hkept
    · exact ⟨hstays, hsealed', contentAt_sealed hdevice hrefs hstays hsealed' hblob hstored⟩
  refine ⟨?_, ?_, ?_⟩
  · intro rest id plain hsecret hreveal
    obtain ⟨rfl, hown, hsealed, hcontent⟩ := hfile rest id plain hsecret hreveal
    obtain ⟨hown', hsealed', hcontent'⟩ := hmoved rest plain hcontent hown hsealed
    exact revealAt_sealed hown' hsealed' hcontent'
  · intro rest id plain hsecret hreveal
    obtain ⟨rfl, hown, hsealed, hcontent⟩ := hfile rest id plain hsecret hreveal
    obtain ⟨-, -, hcontent'⟩ := hmoved rest plain hcontent hown hsealed
    obtain ⟨-, -, hkept⟩ := h.stays rest plain hcontent hsealed hown
    obtain ⟨hskipped, -⟩ | ⟨-, blob, hblob, hstored⟩ :=
      hback.stored ⟨hapart.2, hapart.1⟩ hcontent'
    · rw [hskipped] at hkept
      cases hkept
    · exact revealAt_sealed hown hsealed (contentAt_sealed hdevice hrefs hown hsealed hblob hstored)
  · rintro rest id blob ⟨content, hcontent, hsecret⟩ hblob
    obtain ⟨hskipped, hnone⟩ | ⟨hkept, blob', hencrypt, hstored⟩ := hrename.stored hapart hcontent
    · rw [hnone] at hblob
      cases hblob
    · rw [hstored] at hblob
      cases hblob
      cases id with
      | some id =>
        rw [h.regions rest content hcontent hsecret.1] at hsecret
        cases hsecret.2
      | none =>
        refine Or.inl ?_
        rw [isLayerB_encryptAt hdevice hrefs hencrypt]
        exact h.matched rest content hcontent hsecret hkept

theorem text_ne (hapart : Apart src dst) (rest : RepoPath) :
    (src ++ rest).text ≠ (dst ++ rest).text := by
  intro htext
  have heq := RepoPath.eq_of_text htext
  exact hapart.not_both (List.prefix_append src rest) ⟨rest, heq.symm⟩

/-- A sealed region is revealed as its plaintext, which is shorter than its body. -/
theorem revealAt_region {path : RepoPath} {content id : Bytes}
    (hown : onDevice registry path = true) (hcontent : contentAt session garden path = some content)
    (hid : id ∈ hook.regionIds session path.text content) :
    ∃ spans body plain, parse session.region path.text (parserFor path.text) content = .ok spans ∧
      (id, body) ∈ bodies content spans ∧
      decryptBody session.region path.text id body = some plain ∧
      revealAt session hook registry garden path (some id) = some plain := by
  obtain ⟨blob, hblob, hopen⟩ := Option.bind_eq_some_iff.mp hcontent
  obtain ⟨-, spans, hparse, body, hbody, hopens⟩ := mem_regionIds.mp hid
  obtain ⟨plain, hplain⟩ := Option.isSome_iff_exists.mp hopens
  refine ⟨spans, body, plain, hparse, hbody, hplain, ?_⟩
  rw [revealAt, if_pos hown, hblob, Option.bind_some, LayerBHook.reveal, hopen, Option.bind_some]
  dsimp only
  have hnodup : ((bodies content spans).map Prod.fst).Nodup := bodies_nodup hparse
  rw [revealRegion_eq hparse, find_of_nodup hnodup hbody, Option.map_some, held, hplain,
    Option.getD_some]

/-- **A region that was sealed at the old place** is revealed as its ciphertext at the new one. -/
theorem revealAt_moved (hideal : session.region.Ideal) (hdevice : registry.device = .device)
    (hrefs : (registry.enabledChains.map Chain.refName).Nodup) (hapart : Apart src dst)
    {rest : RepoPath} {content id body blob : Bytes} {spans : List RegionSpan}
    (hown : onDevice registry (dst ++ rest) = true)
    (hparser : parserFor (dst ++ rest).text = parserFor (src ++ rest).text)
    (hparse : parse session.region (src ++ rest).text (parserFor (src ++ rest).text) content =
      .ok spans)
    (hopens : ∀ r ∈ bodies content spans,
      (decryptBody session.region (src ++ rest).text r.1 r.2).isSome)
    (hbody : (id, body) ∈ bodies content spans)
    (hencrypt : encryptAt session hook registry garden (dst ++ rest) content = some blob)
    (hstored : garden₁ (dst ++ rest) = some blob) :
    revealAt session hook registry garden₁ (dst ++ rest) (some id) = some body := by
  have hne := text_ne hapart rest
  rw [encryptAt_device hdevice hrefs hown, LayerBHook.encrypt] at hencrypt
  rw [revealAt, if_pos hown, hstored, Option.bind_some, LayerBHook.reveal]
  split_ifs at hencrypt with hsealed
  · cases hencrypt
    rw [(session.layerB _ _).1, Option.bind_some]
    exact revealRegion_moved hideal hne hparser hparse hbody (hopens _ hbody)
  · obtain ⟨out, hout, rfl⟩ := Option.map_eq_some_iff.mp hencrypt
    have hseal : sealFile session.region (dst ++ rest).text (parserFor (dst ++ rest).text)
        (contentAt session garden (dst ++ rest)) content = .ok out := by
      revert hout
      cases sealFile session.region (dst ++ rest).text (parserFor (dst ++ rest).text)
        (contentAt session garden (dst ++ rest)) content with
      | error e => intro hout; cases hout
      | ok found => intro hout; cases hout; rfl
    rw [(session.blob _ _).1, Option.bind_some]
    exact revealRegion_resealed hideal hne hparser hparse hopens hbody hseal

/-- **No other rename keeps every secret.** -/
theorem harmless_of_kept (hideal : session.region.Ideal) (hdevice : registry.device = .device)
    (hrefs : (registry.enabledChains.map Chain.refName).Nodup) (hapart : Apart src dst)
    (hrename : RenamedBy session hook registry src dst skipped io inner garden garden₁)
    (hback : RenamedBy session hook registry dst src skipped' io' inner' garden₁ garden₂)
    (hall : AllSealed session hook src dst garden)
    (h : SecretsKept session hook registry src dst garden garden₁ garden₂) :
    RenameHarmless session hook registry src dst skipped skipped' garden := by
  refine ⟨?_, ?_, ?_⟩
  · intro rest content hcontent hsealed hkept
    obtain ⟨hskipped, -⟩ | ⟨-, blob, hencrypt, hstored⟩ := hrename.stored hapart hcontent
    · rw [hskipped] at hkept
      cases hkept
    · rcases h.concealed rest none blob ⟨content, hcontent, hsealed⟩ hstored with hblob | hregion
      · rw [isLayerB_encryptAt hdevice hrefs hencrypt] at hblob
        exact hblob
      · obtain ⟨i, hnone, -⟩ := hregion
        cases hnone
  · intro rest content hcontent hsealed hown
    have hsecret : SecretAt session hook registry garden (src ++ rest) none :=
      ⟨content, hcontent, hsealed⟩
    have hreveal : revealAt session hook registry garden (src ++ rest) none = some content :=
      revealAt_sealed hown hsealed hcontent
    have hmoved := h.revealed rest none content hsecret hreveal
    have hrestored := h.restored rest none content hsecret hreveal
    have hown' : onDevice registry (dst ++ rest) = true := by
      by_contra hnot
      rw [revealAt, if_neg hnot] at hmoved
      cases hmoved
    refine ⟨hown', ?_, ?_⟩
    · obtain ⟨-, hnone⟩ | ⟨hkept, -⟩ := hrename.stored hapart hcontent
      · rw [revealAt, if_pos hown', hnone] at hmoved
        cases hmoved
      · exact hkept
    · by_contra hskipped
      obtain ⟨back, -, hcommits⟩ := hback.commits
      rw [revealAt, if_pos hown, hcommits.passed _ (Bool.not_eq_false _ ▸ hskipped)] at hrestored
      cases hrestored
  · intro rest content hcontent hown
    by_contra hids
    obtain ⟨id, hid⟩ := List.exists_mem_of_ne_nil _ hids
    obtain ⟨spans, body, plain, hparse, hbody, hplain, hreveal⟩ :=
      revealAt_region hown hcontent hid
    obtain ⟨hparser, hopens⟩ := hall rest content spans hcontent hids hparse
    have hmoved := h.revealed rest (some id) plain ⟨content, hcontent, hown, hid⟩ hreveal
    have hown' : onDevice registry (dst ++ rest) = true := by
      by_contra hnot
      rw [revealAt, if_neg hnot] at hmoved
      cases hmoved
    obtain ⟨-, hnone⟩ | ⟨-, blob, hencrypt, hstored⟩ := hrename.stored hapart hcontent
    · rw [revealAt, if_pos hown', hnone] at hmoved
      cases hmoved
    · rw [revealAt_moved hideal hdevice hrefs hapart hown' hparser hparse hopens hbody hencrypt
        hstored] at hmoved
      cases hmoved
      exact ne_of_decryptBody hideal hplain rfl

end

/-! ### A garden of one file -/

section

variable {session : VaultSession} {hook : LayerBHook} {name new : FileName}
  {content blob blob' : Bytes}

def onlyFile (name : FileName) (blob : Bytes) : Garden := fun path =>
  if path = [name] then some blob else none

def onlyIo (session : VaultSession) (blob : Bytes) : MountIo :=
  ⟨fun _ => some blob, session.decryptTrackedBlob, fun _ => none, fun _ => []⟩

def onlyInner (name : FileName) : Inner :=
  ⟨(∅ : AList fun _ : RepoPath => Entry).insert [name] ⟨.blob, 0o100644, ⟨[]⟩⟩, .new⟩

theorem live_onlyInner (name : FileName) (path : RepoPath) : (onlyInner name).live path =
    if path = [name] then some (.file (0o100644, .blob ⟨[]⟩)) else none := by
  rw [live_of_get_none (show (onlyInner name).overlay.get path = none from rfl), onlyInner]
  dsimp only
  by_cases heq : path = [name]
  · subst heq
    rw [AList.lookup_insert, if_pos rfl]
    rfl
  · rw [AList.lookup_insert_ne heq, if_neg heq]
    rfl

theorem serves_onlyFile (session : VaultSession) (name : FileName) (blob : Bytes) :
    Serves session (onlyIo session blob) (onlyInner name) (onlyFile name blob) where
  clean _ := rfl
  rooted := by
    intro dir other hsome
    rw [live_onlyInner] at hsome
    split_ifs at hsome with heq
    · exact Or.inl (List.append_eq_singleton_iff.mp heq |>.elim (fun h => h.1) fun h => by
        cases h.2)
    · cases hsome
  decrypts := rfl
  blobs := by
    intro path
    rw [blobAt, onlyFile, onlyInner]
    dsimp only
    by_cases heq : path = [name]
    · subst heq
      rw [AList.lookup_insert, if_pos rfl]
      rfl
    · rw [AList.lookup_insert_ne heq, if_neg heq]
      rfl

/-- The only file of a garden is renamed and committed. -/
theorem renamedBy_onlyFile (hne : name ≠ new)
    (hcontent : contentAt session (onlyFile name blob) [name] = some content)
    (hencrypt : encryptAt session hook .deviceOnly (onlyFile name blob) [new] content =
      some blob') :
    RenamedBy session hook .deviceOnly [name] [new] (fun _ => false) (onlyIo session blob)
      (onlyInner name) (onlyFile name blob) (onlyFile new blob') := by
  have hserves := serves_onlyFile session name blob
  have hapart : Apart [name] [new] := by simp [Apart, hne, Ne.symm hne]
  have hread := hserves.reads.mpr hcontent
  have hkind : (onlyInner name).entryKindOf [name] = some .blob := by
    rw [entryKindOf_eq, live_onlyInner, if_pos rfl]
    rfl
  obtain ⟨inner', hrename⟩ : ∃ inner', (onlyInner name).stageRename (onlyIo session blob) [name]
      [new] = some inner' := by
    simp [Inner.stageRename, Inner.renameMovers, hkind, Inner.filePlan, hread]
  have hrenamed := renamed hrename hserves.rooted hapart (hserves.parentsFree [new])
  have hmoved : readWorkfile (onlyIo session blob) inner' [new] = some (some content) :=
    readWorkfile_renamed .deviceOnly hrename hserves.rooted hapart
      (show readWorkfile _ _ ([name] ++ []) = _ from hread)
  have hgone : ∀ path, path ≠ [new] → ∀ source, inner'.live path ≠ some (.file source) := by
    intro path hpath source hfile
    by_cases hsrc : [name] <+: path
    · obtain ⟨rest, rfl⟩ := hsrc
      rw [hrenamed.source rest] at hfile
      cases hfile
    by_cases hdst : [new] <+: path
    · obtain ⟨rest, rfl⟩ := hdst
      have hrest : rest ≠ [] := by
        rintro rfl
        exact hpath rfl
      have hnone : (onlyInner name).live ([name] ++ rest) = none := by
        rw [live_onlyInner, if_neg (by simpa using hrest)]
      rw [hrenamed.still rest hnone, live_onlyInner, if_neg (by simp [hrest])] at hfile
      cases hfile
    · have hnot : path ∉ RepoPath.parents [new] := by
        intro hmem
        obtain ⟨hnil, hpre, hself⟩ := RepoPath.mem_parents.mp hmem
        rw [List.prefix_cons_iff] at hpre
        rcases hpre with heq | ⟨rest, heq, hpre⟩
        · exact hnil heq
        · rw [List.prefix_nil.mp hpre] at heq
          exact hself heq
      rw [hrenamed.other path hsrc hdst (Or.inl hnot), live_onlyInner, if_neg] at hfile
      · cases hfile
      · rintro rfl
        exact hsrc List.prefix_rfl
  have hreads : ∀ path found, readWorkfile (onlyIo session blob) inner' path = some (some found) →
      path = [new] ∧ found = content := by
    intro path found hfound
    by_cases heq : path = [new]
    · rw [heq, hmoved] at hfound
      cases hfound
      exact ⟨heq, rfl⟩
    · obtain ⟨source, hfile, -⟩ :=
        @live_of_readWorkfile (onlyIo session blob) ⟨inner', .deviceOnly⟩ _ _ hfound
      exact absurd hfile (hgone path heq source)
  refine ⟨hserves, inner', hrename, ⟨?_, ?_, ?_⟩⟩
  · intro path found hfound _
    obtain ⟨rfl, rfl⟩ := hreads path found hfound
    exact ⟨blob', hencrypt, if_pos rfl⟩
  · intro path hskipped
    cases hskipped
  · intro path hnone
    refine if_neg ?_
    rintro rfl
    exact hnone content hmoved

/-- The mark of a path; two paths have one. -/
def markOf (path : String) : Option UInt8 :=
  if path = "f" then some 1 else if path = "g" then some 2 else none

theorem eq_of_markOf {path path' : String} {mark : UInt8} (h : markOf path = some mark)
    (h' : markOf path' = some mark) : path = path' := by
  unfold markOf at h h'
  split_ifs at h h' <;> cases h <;> first | (subst_vars; rfl) | cases h'

/-- A cipher that marks what it seals with its path. -/
def pathCipher : RegionCipher where
  encrypt path _ plain := (markOf path).map (· :: plain)
  decrypt path _ blob :=
    match blob with
    | [] => none
    | mark :: plain => if markOf path = some mark then some plain else none
  decrypt_encrypt := by
    intro path id plain blob h
    obtain ⟨mark, hmark, rfl⟩ := Option.map_eq_some_iff.mp h
    exact if_pos hmark

theorem pathCipher_decrypt (path : String) (id : Bytes) (mark : UInt8) (plain : Bytes) :
    pathCipher.decrypt path id (mark :: plain) =
      if markOf path = some mark then some plain else none := rfl

theorem pathCipher_ideal : pathCipher.Ideal where
  bound := by
    intro path path' id blob hopens hopens'
    cases blob with
    | nil => cases hopens
    | cons mark plain =>
      rw [pathCipher_decrypt] at hopens hopens'
      split_ifs at hopens with hmark
      · split_ifs at hopens' with hmark'
        · exact eq_of_markOf hmark hmark'
        · cases hopens'
      · cases hopens
  longer := by
    intro path id blob plain hopens
    cases blob with
    | nil => cases hopens
    | cons mark rest =>
      rw [pathCipher_decrypt] at hopens
      split_ifs at hopens
      cases hopens
      exact Nat.lt_succ_self _

/-- A session without shared keys, whose blobs start with their layer. -/
def pathSession : VaultSession where
  region := pathCipher
  encryptBlob content := 0 :: content
  encryptLayerB _ content := 1 :: content
  encryptSharedBlob _ _ := none
  encryptSharedLayerB _ _ _ := none
  decryptTrackedBlob _ blob := blob.tail?
  isLayerB blob := blob.head? = some 1
  blob _ _ := ⟨rfl, rfl⟩
  layerB _ _ := ⟨rfl, rfl⟩
  sharedBlob _ _ _ _ h := by cases h
  sharedLayerB _ _ _ _ h := by cases h

def sealNothing : LayerBHook := ⟨fun _ => false, fun _ => none⟩

def sealAll : LayerBHook := ⟨fun _ => true, fun _ => none⟩

def fName : FileName := ⟨"f", by decide⟩

def gName : FileName := ⟨"g", by decide⟩

/-- A file whose region holds `s`, sealed at `f`. -/
def regionFile : Bytes := ascii "<vault id=\"k\">AXM=</vault>"

def wrappedFile : Bytes := ascii "<vault id=\"k\">AkFYTT0=</vault>"

def rewrappedFile : Bytes := ascii "<vault id=\"k\">AUFrRllUVDA9</vault>"

def regionGarden : Garden := onlyFile fName (0 :: regionFile)

def wrappedGarden : Garden := onlyFile gName (0 :: wrappedFile)

def rewrappedGarden : Garden := onlyFile fName (0 :: rewrappedFile)

/-- The ciphertext of a region is sealed at its new place, and once more at the old one. -/
theorem wrapped_twice :
    (contentAt pathSession regionGarden [fName] = some regionFile ∧
      encryptAt pathSession sealNothing .deviceOnly regionGarden [gName] regionFile =
        some (0 :: wrappedFile)) ∧
    (contentAt pathSession wrappedGarden [gName] = some wrappedFile ∧
      encryptAt pathSession sealNothing .deviceOnly wrappedGarden [fName] wrappedFile =
        some (0 :: rewrappedFile)) ∧
    (onDevice .deviceOnly [fName] = true ∧
      ascii "k" ∈ sealNothing.regionIds pathSession (RepoPath.text [fName]) regionFile) ∧
    revealAt pathSession sealNothing .deviceOnly regionGarden [fName] (some (ascii "k")) =
      some (ascii "s") ∧
    revealAt pathSession sealNothing .deviceOnly wrappedGarden [gName] (some (ascii "k")) ≠
      some (ascii "s") := by
  decide +kernel

theorem fName_ne : fName ≠ gName := by simp [fName, gName]

theorem refNames_deviceOnly :
    (ChainRegistry.deviceOnly.enabledChains.map Chain.refName).Nodup := List.nodup_singleton _

theorem fName_apart : Apart [fName] [gName] := by simp [Apart, fName_ne, Ne.symm fName_ne]

/-- **Which renames keep every secret**: those that harm none, and of the renames under which every
file with a sealed region keeps its format no others. -/
theorem rename_keeps_secrets {session : VaultSession} {hook : LayerBHook}
    {registry : ChainRegistry} {src dst : RepoPath} {skipped skipped' : RepoPath → Bool}
    {io io' : MountIo} {inner inner' : Inner} {garden garden₁ garden₂ : Garden}
    (hideal : session.region.Ideal) (hdevice : registry.device = .device)
    (hrefs : (registry.enabledChains.map Chain.refName).Nodup) (hapart : Apart src dst)
    (hrename : RenamedBy session hook registry src dst skipped io inner garden garden₁)
    (hback : RenamedBy session hook registry dst src skipped' io' inner' garden₁ garden₂) :
    (RenameHarmless session hook registry src dst skipped skipped' garden →
      SecretsKept session hook registry src dst garden garden₁ garden₂) ∧
    (AllSealed session hook src dst garden →
      SecretsKept session hook registry src dst garden garden₁ garden₂ →
        RenameHarmless session hook registry src dst skipped skipped' garden) :=
  ⟨kept_of_harmless hdevice hrefs hapart hrename hback,
    harmless_of_kept hideal hdevice hrefs hapart hrename hback⟩

/-- A sealed file moves below the globs. -/
theorem rename_keeps_secrets_sealed :
    SecretsKept pathSession sealAll .deviceOnly [fName] [gName] (onlyFile fName [1, 7])
      (onlyFile gName [1, 7]) (onlyFile fName [1, 7]) := by
  refine (rename_keeps_secrets pathCipher_ideal rfl refNames_deviceOnly fName_apart
    (renamedBy_onlyFile fName_ne rfl rfl) (renamedBy_onlyFile (Ne.symm fName_ne) rfl rfl)).1
    ⟨fun _ _ _ _ _ => rfl, fun _ _ _ _ _ => ⟨rfl, rfl, rfl⟩, fun _ _ _ _ => rfl⟩

/-- A region of a renamed file is sealed once more, and is revealed as its old ciphertext. -/
theorem rename_keeps_secrets_fails :
    ¬ ∀ (session : VaultSession) (hook : LayerBHook) (registry : ChainRegistry) (src dst : RepoPath)
        (skipped skipped' : RepoPath → Bool) (io io' : MountIo) (inner inner' : Inner)
        (garden garden₁ garden₂ : Garden),
      session.region.Ideal → registry.device = .device →
      (registry.enabledChains.map Chain.refName).Nodup → Apart src dst →
      RenamedBy session hook registry src dst skipped io inner garden garden₁ →
      RenamedBy session hook registry dst src skipped' io' inner' garden₁ garden₂ →
      SecretsKept session hook registry src dst garden garden₁ garden₂ := by
  intro h
  obtain ⟨⟨hread, hcommit⟩, ⟨hread', hcommit'⟩, ⟨hown, hid⟩, hbefore, hafter⟩ := wrapped_twice
  have hkept := h pathSession sealNothing .deviceOnly [fName] [gName] _ _ _ _ _ _ _ _ _
    pathCipher_ideal rfl refNames_deviceOnly fName_apart
    (renamedBy_onlyFile fName_ne hread hcommit)
    (renamedBy_onlyFile (Ne.symm fName_ne) hread' hcommit')
  exact hafter (hkept.revealed [] (some (ascii "k")) (ascii "s") ⟨regionFile, hread, hown, hid⟩
    hbefore)

end

end Softfig.Mount
