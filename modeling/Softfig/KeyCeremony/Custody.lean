import Softfig.KeyCeremony.Participation
import Softfig.KeyCeremony.Persist
import Softfig.Lib.Except
import Softfig.Lib.Transition

/-!
What the calls that end a ceremony keep over any run, whatever fails and whatever is tried again.

A garden is `Accounted` for when every key its rows name, committed or staged, is sealed and has its
record beside them. No call can break that, failed or not. What a call promises on its own
(`Honours`) it keeps from every such garden where it is `Sound`.

- `Accounted.run`: every call keeps the garden accounted for;
- `custody_kept`: a filled row is never overwritten, a call that returns has its record committed,
  and a call that succeeded changes nothing when it is made again;
- `custody_fails`: a call whose commit failed returns without its record when it is made again.
-/

namespace Softfig.KeyCeremony

open Softfig.Lib
open Softfig.Vault (Bytes FixedBytes)
open Softfig.Vcs (SharedSubtreeEntry SharedSubtreesConfig)

/-! ### Paths -/

theorem append_middle_inj {a b k k' : String} (h : a ++ k ++ b = a ++ k' ++ b) : k = k' := by
  have hlist := congrArg String.toList h
  simp only [String.toList_append, List.append_assoc, List.append_cancel_left_eq,
    List.append_cancel_right_eq] at hlist
  exact String.toList_inj.mp hlist

theorem toList_prefix_append {a b k s : String} (h : a ++ k ++ b = s) : a.toList <+: s.toList := by
  rw [← h, String.toList_append, String.toList_append, List.append_assoc]
  exact List.prefix_append _ _

theorem ceremonyRecordRel_inj {k k' : String} (h : ceremonyRecordRel k = ceremonyRecordRel k') :
    k = k' := append_middle_inj h

theorem ceremonyRecordRel_ne (k : String) : ceremonyRecordRel k ≠ sharedSubtreesRel := by
  intro h
  have hpre := toList_prefix_append h
  revert hpre
  decide

/-! ### Keys that are accounted for -/

/-- A filled row keeps its key. -/
def KeepsFilled (rows rows' : List SharedSubtreeEntry) : Prop :=
  ∀ (i : Nat) (row : SharedSubtreeEntry), rows[i]? = some row → row.keyId.isSome →
    rows'[i]? = some row

section

variable (p : Crypto)

/-- The vault holds a key of this id. -/
def HasKey (vault : AList fun _ : String => SharedKey) (k : String) : Prop :=
  ∃ s, vault.lookup k = some s ∧ keyId p s = k

/-- The tree has the record of the ceremony that made this key. -/
def HasRecord (tree : String → Option CeremonyFile) (k : String) : Prop :=
  ∃ t, tree (ceremonyRecordRel k) = some (.record t) ∧ t.keyId = k ∧ t.verify p = true

/-- Every key a committed row names is sealed, and its record is committed. -/
def Garden.KeysAccounted (g : Garden) : Prop :=
  ∀ row ∈ g.rows, ∀ k, row.keyId = some k → HasKey p g.vault k ∧ HasRecord p g.work.committed k

/-- The records of a tree are records, and what its rows name is sealed and recorded. -/
structure TreeOk (vault : AList fun _ : String => SharedKey)
    (tree : String → Option CeremonyFile) : Prop where
  records : ∀ k file, tree (ceremonyRecordRel k) = some file →
    ∃ t, file = .record t ∧ t.keyId = k ∧ t.verify p = true
  rows : ∀ row ∈ rowsOf (tree sharedSubtreesRel), ∀ k, row.keyId = some k →
    HasKey p vault k ∧ HasRecord p tree k

/-- Both trees are in order, and a chain without an unkeyed row has none staged. -/
structure Accounted (vault : AList fun _ : String => SharedKey)
    (w : Overlay String CeremonyFile AuditIntent) : Prop where
  log : w.log ≠ []
  committed : TreeOk p vault w.committed
  work : TreeOk p vault w.read
  keyed : ∀ t, hasUnkeyedRow t (rowsOf (w.committed sharedSubtreesRel)) = false →
    hasUnkeyedRow t (rowsOf (w.read sharedSubtreesRel)) = false

end

section

variable {p : Crypto} {vault vault' : AList fun _ : String => SharedKey}
variable {w : Overlay String CeremonyFile AuditIntent}

theorem TreeOk.hasRecord {tree : String → Option CeremonyFile} (h : TreeOk p vault tree) {k : String}
    (hsome : (tree (ceremonyRecordRel k)).isSome) : HasRecord p tree k := by
  obtain ⟨file, hfile⟩ := Option.isSome_iff_exists.mp hsome
  obtain ⟨t, rfl, ht⟩ := h.records k file hfile
  exact ⟨t, hfile, ht⟩

theorem HasRecord.isSome {tree : String → Option CeremonyFile} {k : String}
    (h : HasRecord p tree k) : (tree (ceremonyRecordRel k)).isSome := by
  obtain ⟨t, ht, -⟩ := h
  rw [ht]
  rfl

theorem TreeOk.keeps {tree : String → Option CeremonyFile} (h : TreeOk p vault tree)
    (hkeeps : ∀ k s, vault.lookup k = some s → vault'.lookup k = some s) : TreeOk p vault' tree where
  records := h.records
  rows := by
    intro row hrow k hk
    obtain ⟨⟨s, hs, hid⟩, hrecord⟩ := h.rows row hrow k hk
    exact ⟨⟨s, hkeeps k s hs, hid⟩, hrecord⟩

theorem Accounted.keeps (h : Accounted p vault w)
    (hkeeps : ∀ k s, vault.lookup k = some s → vault'.lookup k = some s) : Accounted p vault' w :=
  ⟨h.log, h.committed.keeps hkeeps, h.work.keeps hkeeps, h.keyed⟩

/-- Staging a record that verifies. -/
theorem Accounted.stageRecord (h : Accounted p vault w) {t : Transcript} (ht : t.verify p = true) :
    Accounted p vault (w.stage (ceremonyRecordRel t.keyId) (.record t)) := by
  have hrows : (w.stage (ceremonyRecordRel t.keyId) (.record t)).read sharedSubtreesRel =
      w.read sharedSubtreesRel := Overlay.read_stage_ne _ (ceremonyRecordRel_ne _).symm
  refine ⟨h.log, h.committed, ⟨?_, ?_⟩, ?_⟩
  · intro k file hfile
    rw [Overlay.read_stage] at hfile
    split_ifs at hfile with hk
    · cases hfile
      exact ⟨t, rfl, (ceremonyRecordRel_inj hk).symm, ht⟩
    · exact h.work.records k file hfile
  · intro row hrow k hk
    rw [hrows] at hrow
    obtain ⟨hkey, t', hread, ht'⟩ := h.work.rows row hrow k hk
    refine ⟨hkey, ?_⟩
    by_cases hsame : k = t.keyId
    · exact ⟨t, by rw [hsame, Overlay.read_stage_self], hsame.symm, ht⟩
    · refine ⟨t', ?_, ht'⟩
      rw [Overlay.read_stage_ne _ fun heq => hsame (ceremonyRecordRel_inj heq), hread]
  · rw [hrows]
    exact h.keyed

/-- Staging a membership whose keys are sealed and recorded. -/
theorem Accounted.stageMembership (h : Accounted p vault w) {config : SharedSubtreesConfig}
    (hrows : ∀ row ∈ config.subtrees, ∀ k, row.keyId = some k →
      HasKey p vault k ∧ HasRecord p w.read k)
    (hkeyed : ∀ t, hasUnkeyedRow t (rowsOf (w.committed sharedSubtreesRel)) = false →
      hasUnkeyedRow t config.subtrees = false) :
    Accounted p vault (w.stage sharedSubtreesRel (.membership config)) := by
  have hrecords : ∀ k, (w.stage sharedSubtreesRel (.membership config)).read (ceremonyRecordRel k) =
      w.read (ceremonyRecordRel k) := fun k => Overlay.read_stage_ne _ (ceremonyRecordRel_ne k)
  refine ⟨h.log, h.committed, ⟨?_, ?_⟩, ?_⟩
  · intro k file hfile
    rw [hrecords] at hfile
    exact h.work.records k file hfile
  · intro row hrow k hk
    rw [Overlay.read_stage_self] at hrow
    obtain ⟨hkey, t, hread, ht⟩ := hrows row hrow k hk
    exact ⟨hkey, t, by rw [hrecords, hread], ht⟩
  · rw [Overlay.read_stage_self]
    exact hkeyed

theorem Accounted.publish (h : Accounted p vault w) (intent : AuditIntent) :
    Accounted p vault (w.publish intent) := by
  refine ⟨?_, ?_, ?_, ?_⟩
  · unfold Overlay.publish
    split_ifs
    · exact List.cons_ne_nil _ _
    · exact h.log
  · rw [Overlay.committed_publish]
    exact h.work
  · rw [Overlay.read_publish]
    exact h.work
  · intro t ht
    rwa [Overlay.committed_publish, ← Overlay.read_publish intent] at ht

end

/-! ### Rows that are given a key -/

theorem hasUnkeyedRow_eq_false {t : Transcript} {rows : List SharedSubtreeEntry} :
    hasUnkeyedRow t rows = false ↔ ∀ row ∈ rows, t.IsRow row → row.keyId.isSome := by
  rw [hasUnkeyedRow, List.any_eq_false]
  refine forall₂_congr fun row _ => ?_
  cases row.keyId <;> simp

/-- A row is left as it is, or given the key of the transcript. -/
def Keyed (t : Transcript) (row row' : SharedSubtreeEntry) : Prop :=
  row' = row ∨ row' = { row with keyId := some t.keyId }

theorem keyed_names {t : Transcript} {rows rows' : List SharedSubtreeEntry}
    (h : List.Forall₂ (Keyed t) rows rows') {row' : SharedSubtreeEntry} (hrow : row' ∈ rows')
    {k : String} (hk : row'.keyId = some k) :
    k = t.keyId ∨ ∃ row ∈ rows, row.keyId = some k := by
  obtain ⟨row, hmem, hkeyed⟩ := forall₂_mem_right h hrow
  rcases hkeyed with rfl | rfl
  · exact .inr ⟨_, hmem, hk⟩
  · exact .inl (Option.some.inj hk).symm

theorem keyed_keeps {t t' : Transcript} {rows rows' : List SharedSubtreeEntry}
    (h : List.Forall₂ (Keyed t) rows rows') (hkeyed : hasUnkeyedRow t' rows = false) :
    hasUnkeyedRow t' rows' = false := by
  rw [hasUnkeyedRow_eq_false] at hkeyed ⊢
  intro row' hrow' hchain
  obtain ⟨row, hmem, hcase⟩ := forall₂_mem_right h hrow'
  rcases hcase with rfl | rfl
  · exact hkeyed _ hmem hchain
  · rfl

theorem fillRow_ok {t : Transcript} {row row' : SharedSubtreeEntry} (h : fillRow t row = .ok row') :
    (row' = row ∧ (t.IsRow row → row.keyId = some t.keyId)) ∨
      row.keyId = none ∧ row' = { row with keyId := some t.keyId } := by
  unfold fillRow at h
  by_cases hchain : t.IsRow row
  · rw [if_neg (not_not.mpr hchain)] at h
    split at h
    · rename_i hkey
      cases h
      exact .inr ⟨hkey, rfl⟩
    · rename_i existing hkey
      split_ifs at h with hsame
      cases h
      exact .inl ⟨rfl, fun _ => hsame ▸ hkey⟩
  · rw [if_pos hchain] at h
    cases h
    exact .inl ⟨rfl, fun hrow => absurd hrow hchain⟩

section

variable {t : Transcript} {rows filled : List SharedSubtreeEntry}

theorem fill_keyed (h : rows.mapM (fillRow t) = .ok filled) :
    List.Forall₂ (Keyed t) rows filled := by
  refine (mapM_eq_ok_iff.mp h).imp fun row row' hfill => ?_
  rcases fillRow_ok hfill with ⟨hsame, -⟩ | ⟨-, hnew⟩
  · exact .inl hsame
  · exact .inr hnew

/-- After a fill no row of the chain is without a key. -/
theorem fill_filled (h : rows.mapM (fillRow t) = .ok filled) : hasUnkeyedRow t filled = false := by
  rw [hasUnkeyedRow_eq_false]
  intro row' hrow' hchain
  obtain ⟨row, -, hfill⟩ := forall₂_mem_right (mapM_eq_ok_iff.mp h) hrow'
  rcases fillRow_ok hfill with ⟨rfl, hkey⟩ | ⟨-, rfl⟩
  · rw [hkey hchain]
    rfl
  · rfl

/-- **A fill overwrites no key.** -/
theorem fill_keepsFilled (h : rows.mapM (fillRow t) = .ok filled) : KeepsFilled rows filled := by
  have hall := mapM_eq_ok_iff.mp h
  clear h
  induction hall with
  | nil => exact fun _ _ h _ => h
  | cons hfirst _ ih =>
    intro i row hrow hkey
    cases i with
    | zero =>
      cases Option.some.inj hrow
      rcases fillRow_ok hfirst with ⟨rfl, -⟩ | ⟨hnone, -⟩
      · rfl
      · rw [hnone] at hkey
        cases hkey
    | succ i => exact ih i row hrow hkey

/-- Where nothing was filled and nothing diverged, every row of the chain had this key. -/
theorem fill_settled (h : rows.mapM (fillRow t) = .ok filled)
    (hnone : hasUnkeyedRow t rows = false) :
    ∀ row ∈ rows, t.IsRow row → row.keyId = some t.keyId := by
  intro row hrow hchain
  have hsome := hasUnkeyedRow_eq_false.mp hnone row hrow hchain
  obtain ⟨row', -, hfill⟩ := forall₂_mem_left (mapM_eq_ok_iff.mp h) hrow
  rcases fillRow_ok hfill with ⟨-, hkey⟩ | ⟨hkey, -⟩
  · exact hkey hchain
  · rw [hkey] at hsome
    cases hsome

end

theorem rekey_keyed (o : Outcome) (rows : List SharedSubtreeEntry) :
    List.Forall₂ (Keyed o.transcript) rows (rekey o ⟨rows⟩).subtrees := by
  refine List.forall₂_map_right_iff.mpr (List.forall₂_same.mpr fun row _ => ?_)
  by_cases hchain : o.transcript.IsRow row
  · rw [if_pos hchain]
    exact .inr rfl
  · rw [if_neg hchain]
    exact .inl rfl

/-! ### What a call keeps -/

/-- What only grows: the keys sealed, the files of the working tree, and the chains whose rows all
have a key. -/
structure Extends (g g' : Garden) : Prop where
  vault : ∀ k s, g.vault.lookup k = some s → g'.vault.lookup k = some s
  files : ∀ k, g.work.exists k = true → g'.work.exists k = true
  keyed : ∀ t, hasUnkeyedRow t g.rows = false → hasUnkeyedRow t g'.rows = false

section

variable {p : Crypto} {env : Env} {f : Faults} {o : Outcome} {g g' g'' : Garden}
variable {res : Except CustodyError History} {vault : AList fun _ : String => SharedKey}

theorem Extends.refl (g : Garden) : Extends g g := ⟨fun _ _ h => h, fun _ h => h, fun _ h => h⟩

theorem Extends.trans (h : Extends g g') (h' : Extends g' g'') : Extends g g'' :=
  ⟨fun k s hs => h'.vault k s (h.vault k s hs), fun k hk => h'.files k (h.files k hk),
    fun t ht => h'.keyed t (h.keyed t ht)⟩

theorem Garden.rows_published {w : Overlay String CeremonyFile AuditIntent} {intent : AuditIntent}
    (h : g.work = w.publish intent) : g.rows = rowsOf (w.read sharedSubtreesRel) := by
  rw [Garden.rows, h, Overlay.committed_publish]

/-- **However a call ends that has sealed its key**, what it staged is accounted for. -/
theorem Ended.keeps {recorded written : Overlay String CeremonyFile AuditIntent}
    {intent : AuditIntent} {reached : Prop}
    (h : Ended g recorded written intent reached res g') (hg : Accounted p g.vault g.work)
    (hrecorded : Accounted p g.vault recorded) (hwritten : Accounted p g.vault written)
    (hover : g.work.StagedOver recorded) (hover' : g.work.StagedOver written) :
    Accounted p g'.vault g'.work ∧ Extends g g' := by
  have hpublished : ∀ (chains : AList fun _ : String => List (List SealedBlob)),
      Extends g { g with work := written.publish intent, chains := chains } := by
    intro chains
    refine ⟨fun _ _ hs => hs, ?_, ?_⟩
    · intro k hk
      rw [Overlay.exists, Overlay.read_publish]
      exact hover'.files k hk
    · intro t ht
      have hkeyed := hwritten.keyed t (hover'.committed ▸ ht)
      rwa [Garden.rows, Overlay.committed_publish]
  cases h with
  | cut hw =>
    have hstaged : ∀ w, g.work.StagedOver w → Extends g { g with work := w } := fun w hw =>
      ⟨fun _ _ hs => hs, hw.files, fun t ht => by rwa [Garden.rows, hw.committed]⟩
    rcases hw with rfl | rfl | rfl
    · exact ⟨hg, hstaged _ (.refl _)⟩
    · exact ⟨hrecorded, hstaged _ hover⟩
    · exact ⟨hwritten, hstaged _ hover'⟩
  | late _ => exact ⟨hwritten.publish intent, hpublished _⟩
  | landed _ => exact ⟨hwritten.publish intent, hpublished _⟩

theorem stagedOver_withRecord (t : Transcript) (w : Overlay String CeremonyFile AuditIntent) :
    w.StagedOver (withRecord t w) := by
  unfold withRecord
  split_ifs
  · exact .refl w
  · exact (Overlay.StagedOver.refl w).stage _ _

theorem stagedOver_withFilled (t : Transcript) (rows filled : List SharedSubtreeEntry)
    {w w' : Overlay String CeremonyFile AuditIntent} (h : w.StagedOver w') :
    w.StagedOver (withFilled t rows filled w') := by
  unfold withFilled
  split_ifs
  · exact h.stage _ _
  · exact h

theorem exists_withRecord (t : Transcript) (w : Overlay String CeremonyFile AuditIntent) :
    (withRecord t w).exists (ceremonyRecordRel t.keyId) = true := by
  unfold withRecord
  split_ifs with h
  · exact h
  · rw [Overlay.exists, Overlay.read_stage_self]
    rfl

/-- What the rows name is sealed and recorded where the record of the new key is staged. -/
theorem Accounted.keyed_rows (h : Accounted p g.vault g.work) (houtcome : checkOutcome p o = .ok ())
    (hstored : Stored g o vault) {w : Overlay String CeremonyFile AuditIntent}
    (hw : Accounted p vault w) (hover : g.work.StagedOver w)
    (hrecord : w.exists (ceremonyRecordRel o.transcript.keyId) = true)
    {rows : List SharedSubtreeEntry} (hrows : List.Forall₂ (Keyed o.transcript) g.rows rows) :
    Accounted p vault (w.stage sharedSubtreesRel (.membership ⟨rows⟩)) := by
  refine hw.stageMembership ?_ ?_
  · intro row hrow k hk
    rcases keyed_names hrows hrow hk with rfl | ⟨row', hrow', hk'⟩
    · exact ⟨⟨o.key, hstored.has, (checkOutcome_ok houtcome).1⟩, hw.work.hasRecord hrecord⟩
    · obtain ⟨⟨s, hs, hid⟩, hcommitted⟩ := h.committed.rows row' hrow' k hk'
      refine ⟨⟨s, hstored.keeps k s hs, hid⟩, hw.work.hasRecord ?_⟩
      exact hover.files _ (Overlay.isSome_read_of_committed hcommitted.isSome)
  · intro t ht
    rw [hover.committed] at ht
    exact keyed_keeps hrows ht

theorem PersistSeals.recorded {filled : List SharedSubtreeEntry}
    (hs : PersistSeals p env f o g vault filled) (h : Accounted p g.vault g.work) :
    Accounted p vault (withRecord o.transcript g.work) := by
  unfold withRecord
  split_ifs
  · exact h.keeps hs.stored.keeps
  · exact (h.keeps hs.stored.keeps).stageRecord (checkOutcome_ok hs.outcome).2

theorem PersistSeals.written {filled : List SharedSubtreeEntry}
    (hs : PersistSeals p env f o g vault filled) (h : Accounted p g.vault g.work) :
    Accounted p vault (withFilled o.transcript g.rows filled (withRecord o.transcript g.work)) := by
  unfold withFilled
  split_ifs
  · exact h.keyed_rows hs.outcome hs.stored (hs.recorded h) (stagedOver_withRecord _ _)
      (exists_withRecord _ _) (fill_keyed hs.fills)
  · exact hs.recorded h

/-- The outcome is in the vault and in the working tree, and its chain has no row left to fill. -/
structure Settled (g : Garden) (o : Outcome) : Prop where
  key : g.vault.lookup o.transcript.keyId = some o.key
  record : g.work.exists (ceremonyRecordRel o.transcript.keyId) = true
  rows : hasUnkeyedRow o.transcript g.rows = false

theorem Settled.extends (h : Settled g o) (hext : Extends g g') : Settled g' o :=
  ⟨hext.vault _ _ h.key, hext.files _ h.record, hext.keyed _ h.rows⟩

/-- **Whatever becomes of the call**, the garden stays accounted for; a call that returns has
settled its outcome. -/
theorem Accounted.persist (h : Accounted p g.vault g.work)
    (hrun : persistCeremonyOutcome p env f o g = (res, g')) :
    Accounted p g'.vault g'.work ∧ Extends g g' ∧ ∀ c, res = .ok c → Settled g' o := by
  rcases persistCeremonyOutcome_cases hrun with
    ⟨e, d, rfl, rfl⟩ | ⟨vault, filled, hseals, ⟨hrows, hexists, rfl, -⟩ | ⟨-, hended⟩⟩
  · exact ⟨h, ⟨fun _ _ hs => hs, fun _ hk => hk, fun _ ht => ht⟩, by rintro c ⟨⟩⟩
  · refine ⟨h.keeps hseals.stored.keeps, ⟨hseals.stored.keeps, fun _ hk => hk, fun _ ht => ht⟩, ?_⟩
    exact fun _ _ => ⟨hseals.stored.has, hexists, hrows⟩
  · have hover := stagedOver_withRecord o.transcript g.work
    have hover' := stagedOver_withFilled o.transcript g.rows filled hover
    obtain ⟨hkept, hext⟩ := hended.keeps (h.keeps hseals.stored.keeps) (hseals.recorded h)
      (hseals.written h) hover hover'
    have hall : Extends g g' :=
      (⟨hseals.stored.keeps, fun _ hk => hk, fun _ ht => ht⟩ : Extends g { g with vault := vault })
        |>.trans hext
    refine ⟨hkept, hall, ?_⟩
    rintro c rfl
    cases hended with
    | landed _ =>
      refine ⟨hseals.stored.has, ?_, ?_⟩
      · rw [Overlay.exists, Overlay.read_publish]
        unfold withFilled
        split_ifs
        · rw [Overlay.read_stage_ne _ (ceremonyRecordRel_ne _)]
          exact exists_withRecord _ _
        · exact exists_withRecord _ _
      · rw [Garden.rows_published rfl]
        by_cases hrow : hasUnkeyedRow o.transcript g.rows = true
        · rw [withFilled, if_pos hrow, Overlay.read_stage_self]
          exact fill_filled hseals.fills
        · have hkeyed := (hseals.written h).keyed o.transcript
          rw [hover'.committed] at hkeyed
          exact hkeyed (by simpa [Garden.rows] using hrow)

theorem Accounted.rotate (h : Accounted p g.vault g.work)
    (hrun : rotateSharedKey p env f o g = (res, g')) :
    Accounted p g'.vault g'.work ∧ Extends g g' := by
  rcases rotateSharedKey_cases hrun with
    ⟨e, rfl, rfl⟩ | ⟨vault, row, old, houtcome, -, -, -, -, hstored, hended⟩
  · exact ⟨h, .refl _⟩
  · have hover := (Overlay.StagedOver.refl g.work).stage (ceremonyRecordRel o.transcript.keyId)
      (.record o.transcript)
    have hrecorded := (h.keeps hstored.keeps).stageRecord (checkOutcome_ok houtcome).2
    have hwritten := h.keyed_rows houtcome hstored hrecorded hover
      (by rw [Overlay.exists, Overlay.read_stage_self]; rfl) (rekey_keyed o g.rows)
    obtain ⟨hkept, hext⟩ := hended.keeps (h.keeps hstored.keeps) hrecorded hwritten hover
      (hover.stage _ _)
    exact ⟨hkept, (⟨hstored.keeps, fun _ hk => hk, fun _ ht => ht⟩ :
      Extends g { g with vault := vault }).trans hext⟩

/-! ### What a call promises -/

/-- Vault, working tree, commits and shared chains are as they were. -/
def Unchanged (g g' : Garden) : Prop :=
  g'.vault = g.vault ∧ g'.work = g.work ∧ g'.chains = g.chains

/-- A settled outcome is persisted again without effect. -/
theorem Settled.again (h : Settled g o) (hrun : persistCeremonyOutcome p env f o g = (res, g')) :
    Unchanged g g' := by
  rcases persistCeremonyOutcome_cases hrun with
    ⟨e, d, rfl, rfl⟩ | ⟨vault, filled, hseals, ⟨hrows, hexists, rfl, -⟩ | ⟨hmore, -⟩⟩
  · exact ⟨rfl, rfl, rfl⟩
  · exact ⟨hseals.stored.same h.key, rfl, rfl⟩
  · rw [h.rows, h.record] at hmore
    rcases hmore with hmore | hmore <;> cases hmore

/-- The call passes its checks and finds every row of its chain with its key. -/
structure PersistIdle (p : Crypto) (env : Env) (f : Faults) (o : Outcome) (g : Garden) : Prop where
  outcome : checkOutcome p o = .ok ()
  unlocked : env.state = .unlocked
  members : SameSet (assembleMemberSet env.ring g.localId) o.transcript.memberIds
  reads : f.readMembership = false
  stores : g.vault.lookup o.transcript.keyId = some o.key ∨
    g.vault.lookup o.transcript.keyId = none ∧ f.store = false
  rows : ∀ row ∈ g.rows, o.transcript.IsRow row → row.keyId = some o.transcript.keyId

/-- Where `persistCeremonyOutcome` has no row to fill, its record is not merely staged, and what
its commit takes along overwrites no key. -/
def PersistSound (p : Crypto) (env : Env) (f : Faults) (o : Outcome) (g : Garden) : Prop :=
  PersistIdle p env f o g →
    (g.work.exists (ceremonyRecordRel o.transcript.keyId) = true → f.readTip = false →
      (g.work.committed (ceremonyRecordRel o.transcript.keyId)).isSome) ∧
    (g.work.exists (ceremonyRecordRel o.transcript.keyId) = false → f.writeRecord = false →
      f.commit ≠ some .before → KeepsFilled g.rows g.workRows)

theorem PersistSeals.idle {filled : List SharedSubtreeEntry}
    (hs : PersistSeals p env f o g vault filled) (hnone : hasUnkeyedRow o.transcript g.rows = false) :
    PersistIdle p env f o g :=
  ⟨hs.outcome, hs.unlocked, hs.members, hs.reads, hs.stores, fill_settled hs.fills hnone⟩

/-- **A filled row is never overwritten by `persistCeremonyOutcome`.** -/
theorem PersistSound.keepsFilled (hsound : PersistSound p env f o g)
    (hrun : persistCeremonyOutcome p env f o g = (res, g')) : KeepsFilled g.rows g'.rows := by
  have hrefl : KeepsFilled g.rows g.rows := fun _ _ h _ => h
  rcases persistCeremonyOutcome_cases hrun with
    ⟨e, d, rfl, rfl⟩ | ⟨vault, filled, hseals, ⟨hrows, hexists, rfl, -⟩ | ⟨hmore, hended⟩⟩
  · exact hrefl
  · exact hrefl
  · have hover := stagedOver_withRecord o.transcript g.work
    have hover' := stagedOver_withFilled o.transcript g.rows filled hover
    have hpublished : (g.work.exists (ceremonyRecordRel o.transcript.keyId) = false →
        f.writeRecord = false) → f.commit ≠ some .before →
        KeepsFilled g.rows (rowsOf ((withFilled o.transcript g.rows filled
          (withRecord o.transcript g.work)).read sharedSubtreesRel)) := by
      intro hwrites hcommit
      by_cases hrow : hasUnkeyedRow o.transcript g.rows = true
      · rw [withFilled, if_pos hrow, Overlay.read_stage_self]
        exact fill_keepsFilled hseals.fills
      -- with no row to fill, the commit takes along the membership that was staged before
      · have hexists := hmore.resolve_left hrow
        rw [withFilled, if_neg hrow, withRecord, if_neg (by simp [hexists]),
          Overlay.read_stage_ne _ (ceremonyRecordRel_ne _).symm]
        exact (hsound (hseals.idle (by simpa using hrow))).2 hexists (hwrites hexists) hcommit
    have hcommitted : ∀ w, g.work.StagedOver w → g'.work = w → KeepsFilled g.rows g'.rows := by
      intro w hw hwork
      rw [show g'.rows = g.rows by rw [Garden.rows, hwork, hw.committed, Garden.rows]]
      exact hrefl
    rcases hended.work_cases with (hwork | hwork | hwork) | ⟨hreached, hwork⟩
    · exact hcommitted _ (.refl _) hwork
    · exact hcommitted _ hover hwork
    · exact hcommitted _ hover' hwork
    · rw [Garden.rows_published hwork]
      exact hpublished hreached.1 hreached.2

/-- The call names the tip, and the tip's tree has the record of its key. -/
def Recorded (p : Crypto) (o : Outcome) (g' : Garden) (c : History) : Prop :=
  c = g'.work.log ∧ HasRecord p (Overlay.tipTree c) o.transcript.keyId

theorem recorded_of_published {w : Overlay String CeremonyFile AuditIntent} {intent : AuditIntent}
    (hw : Accounted p vault w) (hexists : w.exists (ceremonyRecordRel o.transcript.keyId) = true) :
    HasRecord p (Overlay.tipTree (w.publish intent).log) o.transcript.keyId := by
  have hread := hw.work.hasRecord hexists
  rwa [← Overlay.committed_publish intent] at hread

/-- **A call of `persistCeremonyOutcome` that returns has its record committed.** -/
theorem PersistSound.recorded (hsound : PersistSound p env f o g) (h : Accounted p g.vault g.work)
    (hrun : persistCeremonyOutcome p env f o g = (res, g')) {c : History} (hc : res = .ok c) :
    Recorded p o g' c := by
  subst hc
  rcases persistCeremonyOutcome_cases hrun with
    ⟨e, d, he, -⟩ | ⟨vault, filled, hseals, ⟨hrows, hexists, rfl, hres⟩ | ⟨-, hended⟩⟩
  · cases he
  · rcases hres with ⟨e, he⟩ | ⟨htip, hok⟩
    · cases he
    cases hok
    exact ⟨rfl, h.committed.hasRecord ((hsound (hseals.idle hrows)).1 hexists htip)⟩
  · cases hended with
    | landed _ =>
      refine ⟨rfl, recorded_of_published (hseals.written h) ?_⟩
      exact (stagedOver_withFilled _ _ _ (.refl _)).files _ (exists_withRecord _ _)

theorem Accounted.rotate_recorded (h : Accounted p g.vault g.work)
    (hrun : rotateSharedKey p env f o g = (res, g')) {c : History} (hc : res = .ok c) :
    Recorded p o g' c := by
  subst hc
  rcases rotateSharedKey_cases hrun with
    ⟨e, he, -⟩ | ⟨vault, row, old, houtcome, -, -, -, -, hstored, hended⟩
  · cases he
  · cases hended with
    | landed _ =>
      have hover := (Overlay.StagedOver.refl g.work).stage (ceremonyRecordRel o.transcript.keyId)
        (.record o.transcript)
      have hrecorded := (h.keeps hstored.keeps).stageRecord (checkOutcome_ok houtcome).2
      have hstaged : (g.work.stage (ceremonyRecordRel o.transcript.keyId)
          (.record o.transcript)).exists (ceremonyRecordRel o.transcript.keyId) = true := by
        rw [Overlay.exists, Overlay.read_stage_self]
        rfl
      refine ⟨rfl, recorded_of_published
        (h.keyed_rows houtcome hstored hrecorded hover hstaged (rekey_keyed o g.rows)) ?_⟩
      exact ((Overlay.StagedOver.refl _).stage _ _).files _ hstaged

/-- The chain is not keyed with another key than the rotation's. -/
def RotateSound (env : Env) (f : Faults) (o : Outcome) (g : Garden) : Prop :=
  env.state = .unlocked → f.readMembership = false → g.localId ∈ o.transcript.memberIds →
    ∀ row old, g.rows.find? (fun row => decide (o.transcript.IsRow row)) = some row →
      row.keyId = some old → old = o.transcript.keyId

/-- A rotation to the key the chain has already is refused. -/
theorem RotateSound.again (hsound : RotateSound env f o g)
    (hrun : rotateSharedKey p env f o g = (res, g')) : g' = g := by
  rcases rotateSharedKey_cases hrun with
    ⟨e, -, rfl⟩ | ⟨vault, row, old, -, hunlocked, hself, hreads, hlive, -, -⟩
  · rfl
  · unfold liveRow at hlive
    split at hlive
    · cases hlive
    rename_i row' hfind
    split at hlive
    · cases hlive
    rename_i old' hkey
    rw [if_pos (hsound hunlocked hreads hself row' old' hfind hkey)] at hlive
    cases hlive

end

/-! ### Runs -/

inductive Verb where
  | persist
  | rotate
  deriving DecidableEq

/-- A call, what it is called with, and where it breaks off. -/
structure Call where
  verb : Verb
  outcome : Outcome
  env : Env
  faults : Faults

inductive CustodyEvent where
  | call (c : Call)
  | reconcile (state : DaemonState) (readFails : Bool) (reencryptFails : String → Bool)

/-- The garden, and the calls that have returned a commit. -/
structure Custodian where
  garden : Garden
  succeeded : List (Verb × Outcome)

section

variable (p : Crypto)

def Call.run (c : Call) : CustodyM History :=
  match c.verb with
  | .persist => persistCeremonyOutcome p c.env c.faults c.outcome
  | .rotate => rotateSharedKey p c.env c.faults c.outcome

def Custodian.result (w : Custodian) (c : Call) : Except CustodyError History := (c.run p w.garden).1

def Custodian.step (w : Custodian) : CustodyEvent → Custodian
  | .call c => {
      garden := (c.run p w.garden).2
      succeeded :=
        match w.result p c with
        | .ok _ => (c.verb, c.outcome) :: w.succeeded
        | .error _ => w.succeeded }
  | .reconcile state readFails reencryptFails =>
    { w with garden := reconcileReencryptCompleteness state readFails reencryptFails w.garden }

/-- A garden in which no ceremony has ended yet: its first commit is made, and no row has a key. -/
structure Garden.Fresh (g : Garden) : Prop where
  log : g.work.log ≠ []
  staged : g.work.staged = ∅
  records : ∀ k, g.work.committed (ceremonyRecordRel k) = none
  rows : ∀ row ∈ g.rows, row.keyId = none

def custodySystem : System Custodian CustodyEvent where
  init w := w.garden.Fresh ∧ w.succeeded = []
  step w label w' := w' = w.step p label

/-- The call keeps its promise from where it is made. -/
structure Custodian.Honours (w : Custodian) (c : Call) : Prop where
  keepsFilled : c.verb = .persist → KeepsFilled w.garden.rows (w.step p (.call c)).garden.rows
  recorded : ∀ commit, w.result p c = .ok commit →
    Recorded p c.outcome (w.step p (.call c)).garden commit
  again : (c.verb, c.outcome) ∈ w.succeeded →
    Unchanged w.garden (w.step p (.call c)).garden

/-- A rotation that has succeeded is not called again once its chain has another key, and a call
of `persistCeremonyOutcome` with nothing to fill is `PersistSound`. -/
def Call.Sound (w : Custodian) (c : Call) : Prop :=
  match c.verb with
  | .persist => PersistSound p c.env c.faults c.outcome w.garden
  | .rotate => (c.verb, c.outcome) ∈ w.succeeded → RotateSound c.env c.faults c.outcome w.garden

end

section

variable {p : Crypto} {w : Custodian}

/-- The garden is accounted for, and what was persisted stays settled. -/
structure Custodian.Inv (p : Crypto) (w : Custodian) : Prop where
  accounted : Accounted p w.garden.vault w.garden.work
  settled : ∀ o, (Verb.persist, o) ∈ w.succeeded → Settled w.garden o

theorem Custodian.Inv.init {g : Garden} (h : g.Fresh) : Custodian.Inv p ⟨g, []⟩ := by
  have hread : g.work.read = g.work.committed := by
    funext k
    simp [Overlay.read, h.staged]
  have htree : TreeOk p g.vault g.work.committed := by
    refine ⟨?_, ?_⟩
    · intro k file hfile
      rw [h.records k] at hfile
      cases hfile
    · intro row hrow k hk
      rw [h.rows row hrow] at hk
      cases hk
  refine ⟨⟨h.log, htree, hread ▸ htree, ?_⟩, by rintro o ⟨⟩⟩
  intro t ht
  rwa [hread]

theorem Custodian.Inv.step (h : Custodian.Inv p w) (label : CustodyEvent) : Custodian.Inv p (w.step p label) := by
  cases label with
  | reconcile state readFails reencryptFails =>
    obtain ⟨chains, hgarden⟩ := reconcile_chains (g := w.garden) state readFails reencryptFails
    rw [Custodian.step, hgarden]
    exact ⟨h.accounted, fun o ho => ⟨(h.settled o ho).key, (h.settled o ho).record,
      (h.settled o ho).rows⟩⟩
  | call c =>
    obtain ⟨verb, o, env, f⟩ := c
    cases verb with
    | persist =>
      obtain ⟨hkept, hext, hok⟩ := h.accounted.persist
        (rfl : persistCeremonyOutcome p env f o w.garden = (_, _))
      refine ⟨hkept, ?_⟩
      intro o' ho'
      simp only [Custodian.step] at ho' ⊢
      split at ho'
      · rename_i commit hres
        rcases List.mem_cons.mp ho' with hnew | hold
        · cases hnew
          exact hok commit hres
        · exact (h.settled o' hold).extends hext
      · exact (h.settled o' ho').extends hext
    | rotate =>
      obtain ⟨hkept, hext⟩ := h.accounted.rotate
        (rfl : rotateSharedKey p env f o w.garden = (_, _))
      refine ⟨hkept, ?_⟩
      intro o' ho'
      simp only [Custodian.step] at ho' ⊢
      split at ho'
      · rcases List.mem_cons.mp ho' with hnew | hold
        · cases hnew
        · exact (h.settled o' hold).extends hext
      · exact (h.settled o' ho').extends hext

/-- **No run loses account of a key**, whatever fails in it. -/
theorem Custodian.Inv.reachable (h : (custodySystem p).Reachable w) : Custodian.Inv p w := by
  refine h.invariant ?_ ?_
  · rintro ⟨g, succeeded⟩ ⟨hfresh, hnone⟩
    cases hnone
    exact .init hfresh
  · rintro w label w' - hinv rfl
    exact hinv.step label

theorem Custodian.Inv.honours (h : Custodian.Inv p w) {c : Call} (hsound : c.Sound p w) :
    w.Honours p c := by
  obtain ⟨verb, o, env, f⟩ := c
  cases verb with
  | persist =>
    have hrun : persistCeremonyOutcome p env f o w.garden = (_, _) := rfl
    refine ⟨fun _ => PersistSound.keepsFilled hsound hrun, fun commit hc => ?_, fun hmem => ?_⟩
    · exact PersistSound.recorded hsound h.accounted hrun hc
    · exact (h.settled o hmem).again hrun
  | rotate =>
    have hrun : ∃ res g', rotateSharedKey p env f o w.garden = (res, g') := ⟨_, _, rfl⟩
    obtain ⟨res, g', hrun⟩ := hrun
    have hresult : w.result p ⟨.rotate, o, env, f⟩ = res := congrArg Prod.fst hrun
    have hgarden : (w.step p (.call ⟨.rotate, o, env, f⟩)).garden = g' := congrArg Prod.snd hrun
    refine ⟨fun hverb => (by cases hverb), fun commit hc => ?_, fun hmem => ?_⟩
    · rw [hgarden]
      exact h.accounted.rotate_recorded hrun (hresult ▸ hc)
    · rw [hgarden, RotateSound.again (hsound hmem) hrun]
      exact ⟨rfl, rfl, rfl⟩

/-- **What holds over every run.** Every key a committed row names is sealed and its record is
committed; and a call that is sound overwrites no filled row by `persistCeremonyOutcome`, has its
record in the commit it returns, and changes nothing if it has succeeded before. -/
theorem custody_kept (hreach : (custodySystem p).Reachable w) :
    w.garden.KeysAccounted p ∧ ∀ c : Call, c.Sound p w → w.Honours p c := by
  have hinv := Custodian.Inv.reachable hreach
  exact ⟨hinv.accounted.committed.rows, fun c hsound => hinv.honours hsound⟩

end

/-! ### A call that is made again -/

/-- The two members' ceremony, as the first member's daemon is handed it. -/
def demoOutcome : Outcome :=
  ⟨deriveSharedKey demoCrypto demoNonce
      [(demoFirst.ownEntry demoCrypto).contribution, (demoSecond.ownEntry demoCrypto).contribution],
    demoSealed (demoSecond.ownEntry demoCrypto)⟩

def demoEnv : Env := ⟨.unlocked, [demoSecond.localId]⟩

def demoPersist (faults : Faults) : Call := ⟨.persist, demoOutcome, demoEnv, faults⟩

/-- The first member's garden, with these membership rows committed. -/
def demoGarden (rows : List SharedSubtreeEntry) : Garden where
  localId := demoFirst.localId
  vault := ∅
  work := ⟨[⟨.genesis, fun path =>
    if path = sharedSubtreesRel then some (.membership ⟨rows⟩) else none⟩], ∅⟩
  lastSharedKeyDivergence := none
  chains := ∅

/-- A row of the ceremony's chain, which has no key yet. -/
def demoRow : SharedSubtreeEntry := ⟨"shared", "shared", String.singleton (Char.ofNat 7), none⟩

theorem demoGarden_fresh {rows : List SharedSubtreeEntry} (h : ∀ row ∈ rows, row.keyId = none) :
    (demoGarden rows).Fresh := by
  refine ⟨List.cons_ne_nil _ _, rfl, ?_, ?_⟩
  · intro k
    show (if ceremonyRecordRel k = sharedSubtreesRel then some (CeremonyFile.membership ⟨rows⟩)
      else none) = none
    rw [if_neg (ceremonyRecordRel_ne k)]
  · intro row hrow
    exact h row hrow

/-- The garden after one call. -/
def demoAfter (rows : List SharedSubtreeEntry) (faults : Faults) : Custodian :=
  (⟨demoGarden rows, []⟩ : Custodian).step demoCrypto (.call (demoPersist faults))

theorem demoAfter_reachable {rows : List SharedSubtreeEntry} (h : ∀ row ∈ rows, row.keyId = none)
    (faults : Faults) : (custodySystem demoCrypto).Reachable (demoAfter rows faults) := by
  have hinit : (custodySystem demoCrypto).Reachable ⟨demoGarden rows, []⟩ :=
    .of_init ⟨demoGarden_fresh h, rfl⟩
  exact hinit.step rfl

/-- The tip a call returns has no file at this path. -/
def Custodian.returnsWithout (w : Custodian) (c : Call) (path : String) : Bool :=
  match w.result demoCrypto c with
  | .ok commit => (Overlay.tipTree commit path).isNone
  | .error _ => false

/-- Without a row for the chain a commit that failed leaves the record staged; the call made again
finds it there and returns the tip, which does not have it. -/
theorem custody_fails : ∃ w c, (custodySystem demoCrypto).Reachable w ∧
    ¬ Custodian.Honours demoCrypto w c := by
  refine ⟨demoAfter [] { commit := some .before }, demoPersist {}, demoAfter_reachable (by simp) _,
    fun hhonours => ?_⟩
  have hreturns : (demoAfter [] { commit := some .before }).returnsWithout (demoPersist {})
      (ceremonyRecordRel demoOutcome.transcript.keyId) = true := by
    decide +kernel
  unfold Custodian.returnsWithout at hreturns
  split at hreturns
  · rename_i commit hres
    have hsome := (hhonours.recorded commit hres).2.isSome
    rw [show (demoPersist {}).outcome = demoOutcome from rfl] at hsome
    rw [Option.isNone_iff_eq_none] at hreturns
    rw [hreturns] at hsome
    cases hsome
  · cases hreturns

/-- A row is filled, and the call made again keeps its promise. -/
theorem custody_demo :
    (∃ row ∈ (demoAfter [demoRow] {}).garden.rows, ∃ k, row.keyId = some k ∧
      HasKey demoCrypto (demoAfter [demoRow] {}).garden.vault k ∧
      HasRecord demoCrypto (demoAfter [demoRow] {}).garden.work.committed k) ∧
    (demoAfter [demoRow] {}).Honours demoCrypto (demoPersist {}) := by
  obtain ⟨hfilled, hcommitted⟩ : ((demoAfter [demoRow] {}).garden.rows.any fun row =>
        row.keyId.isSome) = true ∧
      ((demoAfter [demoRow] {}).garden.work.committed
        (ceremonyRecordRel demoOutcome.transcript.keyId)).isSome = true := by
    decide +kernel
  obtain ⟨haccounted, hhonours⟩ := custody_kept (p := demoCrypto) (w := demoAfter [demoRow] {})
    (demoAfter_reachable (by simp [demoRow]) _)
  refine ⟨?_, hhonours _ ?_⟩
  · obtain ⟨row, hrow, hkey⟩ := List.any_eq_true.mp hfilled
    obtain ⟨k, hk⟩ := Option.isSome_iff_exists.mp hkey
    exact ⟨row, hrow, k, hk, haccounted row hrow k hk⟩
  · intro _
    refine ⟨fun _ _ => hcommitted, fun hnot _ _ => ?_⟩
    have hexists := Overlay.isSome_read_of_committed hcommitted
    rw [Overlay.exists] at hnot
    exact absurd hexists (by rw [show (demoPersist {}).outcome = demoOutcome from rfl] at hnot; simp [hnot])

end Softfig.KeyCeremony
