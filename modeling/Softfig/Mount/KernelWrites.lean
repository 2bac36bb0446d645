import Softfig.Lib.Edits
import Softfig.LayerB.ReadView
import Softfig.Mount.Cache

/-!
Kernel writes, truncates and mode changes of one file.

Each is a read, an edit and a write: it reads what a reader is shown, edits that, and stages the
whole of it. Where the reader is shown all there is, this edits the content of the file; a sealed
file is shown as one line of text, and that line becomes part of the content.

- `KernelOp.staged_iff`: what one operation stages is right exactly where its edit leaves nothing
  that a reader is not shown;
- `kernel_writes_kept`: where every operation is such, the staged content is the edits applied in
  order, a commit keeps the secret behind every placeholder, and mode changes alter nothing;
- `kernel_writes_fails`: a mode change of a sealed file replaces its content.
-/

namespace Softfig.Mount

open Softfig.Lib
open Softfig.Store (Bytes)
open Softfig.LayerB (RegionCipher RegionParser RegionSpan Region)

/-! ### What a reader is shown -/

/-- A path under the policy and the vault session. -/
structure FilePolicy where
  path : String
  /-- a sealed glob matches the path -/
  isSealed : Bool
  cipher : RegionCipher
  /-- `parser_for` of the path -/
  parser : RegionParser

/-- A file of the working tree: staged in the overlay, or as it is committed. -/
inductive WorkFile where
  | staged (content : Bytes) (mode : UInt32)
  | committed (plain : Bytes) (mode : UInt32)
  deriving DecidableEq

def WorkFile.mode : WorkFile → UInt32
  | .staged _ mode => mode
  | .committed _ mode => mode

def malformedPlaceholder (path : String) : Bytes :=
  Store.utf8 ("[malformed vault tag in " ++ path ++ "]\n")

section

variable (p : FilePolicy)

/-- `redact_regions` of a path that is not sealed. -/
def FilePolicy.redactRegions (content : Bytes) : Bytes :=
  match LayerB.parse p.cipher p.path p.parser content with
  | .error _ => malformedPlaceholder p.path
  | .ok spans => if spans = [] then content else LayerB.renderReadView content spans

/-- `read_bytes`; none is an I/O error, which only the read of a blob can meet. -/
def FilePolicy.readBytes (readFails : Bool) : WorkFile → Option Bytes
  | .staged content _ =>
      some (if p.isSealed then sealedPlaceholder p.path else p.redactRegions content)
  | .committed plain _ =>
      if p.isSealed then some (sealedPlaceholder p.path)
      else if readFails then none
      else some (p.redactRegions plain)

/-! ### The operations -/

inductive KernelOp where
  | write (offset : Int) (data : Bytes)
  | setattr (mode : Option UInt32) (size : Option Nat)
  deriving DecidableEq

inductive Errno where
  | eio
  | erofs
  | ebusy
  | enoent
  | enotempty
  | eexist
  | enosys
  | eisdir
  deriving DecidableEq

/-- What an operation finds: whether the path is the root of an enabled mount, whether an unkeyed
share owns it, and whether the read of its blob fails. -/
structure Circumstance where
  enabledMountRoot : Bool
  unkeyedSharedOwner : Bool
  readFails : Bool
  deriving DecidableEq

def FilePolicy.write (c : Circumstance) (offset : Int) (data : Bytes) (file : WorkFile) :
    Except Errno WorkFile :=
  if c.unkeyedSharedOwner then .error .erofs
  else match p.readBytes c.readFails file with
    | none => .error .eio
    | some bytes => .ok (.staged (overwrite 0 offset.toNat data bytes) file.mode)

/-- `stage_mode` of a file. -/
def FilePolicy.stageMode (c : Circumstance) (mode : UInt32) (file : WorkFile) : WorkFile :=
  .staged ((p.readBytes c.readFails file).getD []) mode

def FilePolicy.setattr (c : Circumstance) (mode : Option UInt32) (size : Option Nat)
    (file : WorkFile) : Except Errno WorkFile :=
  if (mode.isSome || size.isSome) && c.enabledMountRoot then .error .ebusy
  else if (mode.isSome || size.isSome) && c.unkeyedSharedOwner then .error .erofs
  else match size, mode with
    | some newSize, _ =>
        .ok (.staged (resize 0 newSize ((p.readBytes c.readFails file).getD []))
          (mode.getD file.mode))
    | none, some newMode => .ok (p.stageMode c newMode file)
    | none, none => .ok file

def FilePolicy.kernelOp (c : Circumstance) : KernelOp → WorkFile → Except Errno WorkFile
  | .write offset data => p.write c offset data
  | .setattr mode size => p.setattr c mode size

/-- The edit of its content that an operation asks for; none where it sets times only. -/
def KernelOp.edit : KernelOp → Option (Edit UInt8)
  | .write offset data => some (.write offset.toNat data)
  | .setattr _ (some size) => some (.truncate size)
  | .setattr (some _) none => some .keep
  | .setattr none none => none

/-- A file and the edits that the operations accepted so far ask for. -/
structure Handle where
  file : WorkFile
  edits : List (Edit UInt8)

/-- A refused operation changes nothing. -/
def Handle.step (h : Handle) (label : Circumstance × KernelOp) : Handle :=
  match p.kernelOp label.1 label.2 h.file with
  | .error _ => h
  | .ok file => ⟨file, h.edits ++ label.2.edit.toList⟩

def writeSystem : System Handle (Circumstance × KernelOp) where
  init h := h.edits = []
  step h label h' := h.step p label = h'

/-! ### What the operations must leave -/

/-- The content that edits are about: of a committed file with regions, the content around the
placeholders of its secrets. -/
def FilePolicy.working : WorkFile → Bytes
  | .staged content _ => content
  | .committed plain _ =>
      if p.isSealed then plain
      else match LayerB.parse p.cipher p.path p.parser plain with
        | .error _ => plain
        | .ok spans => if spans = [] then plain else LayerB.renderReadView plain spans

/-- The contents that edits, in order, may leave: each is applied to what there is, and a write of
a whole sealed file may leave nothing but what is written. -/
inductive Outcome (start : Bytes) : List (Edit UInt8) → Bytes → Prop where
  | start : Outcome start [] start
  | edit {edits : List (Edit UInt8)} {content : Bytes} (edit : Edit UInt8) :
      Outcome start edits content → Outcome start (edits ++ [edit]) (edit.apply 0 content)
  | replace {edits : List (Edit UInt8)} {content : Bytes} (data : Bytes) :
      p.isSealed = true → Outcome start edits content →
      Outcome start (edits ++ [.write 0 data]) data

/-- An edit leaves nothing of a file that a reader is not shown: outside of what it writes the view
is the content, or it writes the whole of a sealed file, over all of its placeholder. -/
def FilePolicy.Shown (readFails : Bool) (file : WorkFile) (edit : Edit UInt8) : Prop :=
  edit.Covers 0 ((p.readBytes readFails file).getD []) (p.working file) ∨
    p.isSealed = true ∧
      ∃ data, edit = .write 0 data ∧ (sealedPlaceholder p.path).length ≤ data.length

/-- What an accepted operation must meet. -/
def Handle.Sound (h : Handle) (label : Circumstance × KernelOp) : Prop :=
  ∀ file, p.kernelOp label.1 label.2 h.file = .ok file →
    ∀ edit ∈ label.2.edit, p.Shown label.1.readFails h.file edit

/-- What a commit stores for a content with regions: the same bytes around the same ids, and in
each region the secret its placeholder stands for, or ciphertext of what it holds. -/
def FilePolicy.Stores (prior : Option Bytes) (content out : Bytes) : Prop :=
  ∃ (regions stored : List Region) (tail : Bytes), content = LayerB.weave regions tail ∧
    out = LayerB.weave stored tail ∧
    List.Forall₂ (fun r s => s.gap = r.gap ∧ s.id = r.id ∧
      if r.body = LayerB.encryptedPlaceholder then
        LayerB.priorBody prior (LayerB.priorSpans p.cipher p.path p.parser prior) r.id = some s.body
      else LayerB.decryptBody p.cipher p.path r.id s.body =
        some (LayerB.held p.cipher p.path r.id r.body)) regions stored

end

section

variable {p : FilePolicy} {file : WorkFile} {c : Circumstance}

theorem readBytes_sealed (h : p.isSealed = true) (readFails : Bool) :
    p.readBytes readFails file = some (sealedPlaceholder p.path) := by
  cases file <;> simp only [FilePolicy.readBytes, h, if_true]

/-- What an operation does: it refuses, sets times only, or stages its edit of the view. -/
theorem kernelOp_cases {op : KernelOp} {file' : WorkFile}
    (h : p.kernelOp c op file = .ok file') :
    (op.edit = none ∧ file' = file) ∨ ∃ edit mode, op.edit = some edit ∧
      file' = .staged (edit.apply 0 ((p.readBytes c.readFails file).getD [])) mode := by
  cases op with
  | write offset data =>
    simp only [FilePolicy.kernelOp, FilePolicy.write] at h
    split at h
    · cases h
    · split at h
      · cases h
      · rename_i bytes hbytes
        cases h
        refine Or.inr ⟨_, file.mode, rfl, ?_⟩
        rw [hbytes]
        rfl
  | setattr mode size =>
    simp only [FilePolicy.kernelOp, FilePolicy.setattr] at h
    split at h
    · cases h
    · split at h
      · cases h
      · cases size with
        | some newSize =>
          cases h
          exact Or.inr ⟨_, _, by cases mode <;> rfl, rfl⟩
        | none =>
          cases mode with
          | some newMode =>
            cases h
            exact Or.inr ⟨_, _, rfl, rfl⟩
          | none =>
            cases h
            exact Or.inl ⟨rfl, rfl⟩

/-- **What one operation stages is right** exactly where its edit leaves nothing of the file that
a reader is not shown. -/
theorem KernelOp.staged_iff {edit : Edit UInt8} :
    (edit.apply 0 ((p.readBytes c.readFails file).getD []) = edit.apply 0 (p.working file) ∨
      p.isSealed = true ∧ ∃ data, edit = .write 0 data ∧
        edit.apply 0 ((p.readBytes c.readFails file).getD []) = data) ↔
      p.Shown c.readFails file edit := by
  refine or_congr Edit.apply_eq_iff (and_congr_right fun hsealed => ?_)
  refine exists_congr fun data => and_congr_right fun hedit => ?_
  subst hedit
  rw [readBytes_sealed hsealed, Option.getD_some]
  exact overwrite_zero_eq_iff

theorem Outcome.step {start : Bytes} {h h' : Handle} {label : Circumstance × KernelOp}
    (hout : Outcome p start h.edits (p.working h.file)) (hsound : h.Sound p label)
    (hstep : h.step p label = h') : Outcome p start h'.edits (p.working h'.file) := by
  unfold Handle.step at hstep
  split at hstep
  · cases hstep
    exact hout
  · rename_i file hfile
    cases hstep
    obtain ⟨hnone, rfl⟩ | ⟨edit, mode, hedit, rfl⟩ := kernelOp_cases hfile
    · simpa only [hnone, Option.toList_none, List.append_nil] using hout
    · rw [hedit, Option.toList_some]
      have hshown := hsound _ hfile edit hedit
      obtain hkept | ⟨hsealed, data, rfl, hdata⟩ := KernelOp.staged_iff.mpr hshown
      · rw [FilePolicy.working, hkept]
        exact .edit edit hout
      · rw [FilePolicy.working, hdata]
        exact .replace data hsealed hout

theorem Outcome.guarded {start h : Handle} {labels : List (Circumstance × KernelOp)}
    (hrun : (writeSystem p).Guarded (Handle.Sound p) start labels h) (hstart : start.edits = []) :
    Outcome p (p.working start.file) h.edits (p.working h.file) := by
  induction hrun with
  | refl =>
    rw [hstart]
    exact .start
  | snoc _ hsound hstep ih => exact ih.step hsound hstep

/-- Edits that keep everything leave everything. -/
theorem Outcome.kept {start content : Bytes} {edits : List (Edit UInt8)}
    (h : Outcome p start edits content) (hkeep : ∀ edit ∈ edits, edit = .keep) :
    content = start := by
  induction h with
  | start => rfl
  | edit edit _ ih =>
    obtain rfl := hkeep edit (by simp)
    exact ih fun e he => hkeep e (by simp [he])
  | replace data => cases hkeep (.write 0 data) (by simp)

/-- **What a commit stores** keeps the secret behind every placeholder. -/
theorem stores_of_sealFile {prior : Option Bytes} {content out : Bytes}
    (h : LayerB.sealFile p.cipher p.path p.parser prior content = .ok out) :
    p.Stores prior content out := by
  obtain ⟨spans, hparse, -⟩ := bind_ok_iff.mp h
  rw [LayerB.sealFile_of_parse hparse] at h
  obtain ⟨-, rfl⟩ | ⟨-, regions, tail, rfl, -, rfl⟩ := LayerB.parse_eq_ok hparse
  · cases h
    exact ⟨[], [], content, rfl, rfl, .nil⟩
  · obtain ⟨l, rfl, hnew, rfl⟩ := (LayerB.applyWritePath_weave regions tail).mp h
    refine ⟨_, _, tail, rfl, rfl, ?_⟩
    rw [List.forall₂_map_left_iff, List.forall₂_map_right_iff, List.forall₂_same]
    exact fun x hx => ⟨rfl, rfl, (hnew x hx).stores⟩

/-- A committed file of ciphertext is stored again as it is from its view. -/
theorem sealFile_working {plain : Bytes} {mode : UInt32} {spans : List RegionSpan}
    (hplain : p.isSealed = false) (hparse : LayerB.parse p.cipher p.path p.parser plain = .ok spans)
    (hsealed : ∀ span ∈ spans, span.kind = .ciphertext) :
    LayerB.sealFile p.cipher p.path p.parser (some plain) (p.working (.committed plain mode)) =
      .ok plain := by
  have hprior : LayerB.priorSpans p.cipher p.path p.parser (some plain) = spans := by
    rw [LayerB.priorSpans, hparse]
    rfl
  simp only [FilePolicy.working, hplain, hparse, Bool.false_eq_true, if_false]
  split
  · rename_i hnil
    rw [LayerB.sealFile_of_parse hparse, hnil]
    rfl
  · obtain ⟨viewSpans, hview, hwrite⟩ := LayerB.write_view hparse hsealed
    rw [LayerB.sealFile_of_parse hview, hprior, hwrite]

/-- **The staged content is the edits applied in order** after every run whose operations leave
nothing of the file that a reader is not shown. A commit of it keeps the secret behind every
placeholder and stores ciphertext of every other body, and mode changes alter nothing: a committed
file of ciphertext is stored as it was. -/
theorem kernel_writes_kept {start h : Handle} {labels : List (Circumstance × KernelOp)}
    (hinit : (writeSystem p).init start)
    (hrun : (writeSystem p).Guarded (Handle.Sound p) start labels h) :
    Outcome p (p.working start.file) h.edits (p.working h.file) ∧
    (p.isSealed = false → ∀ prior out,
      LayerB.sealFile p.cipher p.path p.parser prior (p.working h.file) = .ok out →
      p.Stores prior (p.working h.file) out) ∧
    ((∀ edit ∈ h.edits, edit = .keep) →
      p.working h.file = p.working start.file ∧
      ∀ plain mode spans, p.isSealed = false → start.file = .committed plain mode →
        LayerB.parse p.cipher p.path p.parser plain = .ok spans →
        (∀ span ∈ spans, span.kind = .ciphertext) →
        LayerB.sealFile p.cipher p.path p.parser (some plain) (p.working h.file) = .ok plain) := by
  have hout := Outcome.guarded hrun hinit
  refine ⟨hout, fun _ prior out hcommit => stores_of_sealFile hcommit, fun hkeep => ?_⟩
  have hsame := hout.kept hkeep
  refine ⟨hsame, fun plain mode spans hplain hstart hparse hsealed => ?_⟩
  rw [hsame, hstart]
  exact sealFile_working hplain hparse hsealed

end

/-! ### A sealed file -/

def demoPolicy : FilePolicy := ⟨".env", true, LayerB.markCipher, .plainText⟩

/-- A sealed file that is written whole holds what is written. -/
theorem kernel_writes_whole : ∃ h : Handle,
    h.file = .staged (Store.utf8 "TOKEN=fresh and long\n") 0o644 ∧
    Outcome demoPolicy (Store.utf8 "TOKEN=old\n") h.edits (demoPolicy.working h.file) := by
  obtain ⟨h, hh⟩ : ∃ h, Handle.step demoPolicy ⟨.committed (Store.utf8 "TOKEN=old\n") 0o644, []⟩
      (⟨false, false, false⟩, .write 0 (Store.utf8 "TOKEN=fresh and long\n")) = h := ⟨_, rfl⟩
  have hrun : (writeSystem demoPolicy).Guarded (Handle.Sound demoPolicy)
      ⟨.committed (Store.utf8 "TOKEN=old\n") 0o644, []⟩ 
      ([] ++ [(⟨false, false, false⟩, .write 0 (Store.utf8 "TOKEN=fresh and long\n"))]) h := by
    refine .snoc (.refl _) ?_ hh
    intro file _ edit hedit
    cases hedit
    exact Or.inr ⟨rfl, _, rfl, by decide +kernel⟩
  have hfile : h.file = .staged (Store.utf8 "TOKEN=fresh and long\n") 0o644 := by
    cases hh
    decide +kernel
  exact ⟨h, hfile, (kernel_writes_kept (by rfl) hrun).1⟩

/-- A mode change of a sealed file stages the line that a reader is shown as its content. -/
theorem kernel_writes_fails : ∃ (p : FilePolicy) (start h : Handle)
    (labels : List (Circumstance × KernelOp)), (writeSystem p).init start ∧
      (writeSystem p).Run start labels h ∧ (∀ edit ∈ h.edits, edit = .keep) ∧
      h.file = .staged (sealedPlaceholder p.path) 0o600 ∧
      ¬ Outcome p (p.working start.file) h.edits (p.working h.file) := by
  refine ⟨demoPolicy, ⟨.committed (Store.utf8 "TOKEN=old\n") 0o644, []⟩,
    ⟨.staged (sealedPlaceholder ".env") 0o600, [.keep]⟩,
    [(⟨false, false, false⟩, .setattr (some 0o600) none)], rfl, .single rfl, by simp, rfl, ?_⟩
  intro hout
  exact absurd (hout.kept (by simp)) (by decide +kernel)

end Softfig.Mount
