import Softfig.Lib.Transition
import Softfig.Vault.Containers
import Softfig.Vault.CrashRuns

/-!
Blobs over rotations and stored shared keys.

A Layer A blob carries no marker of its own, so an id whose first varint byte
is one of the markers is taken for another container. Everything else that was
sealed opens again after any rotations and stores, as long as a rotation takes
a number its session does not hold.

- `SealState.kept_run`: what a run keeps, generations and shared keys alike;
- `containerOf_encryptWith_iff`: the ids whose blobs are taken for Layer A;
- `decryptTracked_clash`: the others' blobs never open to their plaintext;
- `tracked_round_trip_iff`: exactly which blobs open again, and which varints
  the reader accepts beyond those that are written.
-/

namespace Softfig.Vault

open Softfig.Lib

/-! ### Runs -/

/-- An unlocked session over its vault directory. -/
structure SealState where
  dir : VaultDir
  session : VaultSession

inductive SealOp where
  | rotate (fresh : Key) (nonce : Nonce)
  | storeSharedKey (keyId : Bytes) (s : Key)

section

variable (c : Crates) (f : Formats)

inductive SealStep : SealState → SealOp → SealState → Prop where
  | rotate {st : SealState} {fresh : Key} {nonce : Nonce} {id : UInt32} {session : VaultSession}
      {disk : VaultDisk}
      (hrun : rotateMasterKey c f st.session fresh nonce (.fresh st.dir) =
        (.ok (id, session), disk)) :
      SealStep st (.rotate fresh nonce) ⟨disk.dir, session⟩
  | storeSharedKey {st : SealState} {keyId : Bytes} {s : Key} {res : Except VaultError Unit}
      {disk : VaultDisk}
      (hrun : Vault.storeSharedKey c st.session keyId s (.fresh st.dir) = (res, disk)) :
      SealStep st (.storeSharedKey keyId s) ⟨disk.dir, st.session⟩

/-- Any session, over any directory, may start. -/
def sealSystem : System SealState SealOp where
  init _ := True
  step := SealStep c f

/-- A rotation takes a number its session does not hold. -/
def FreshGeneration (st : SealState) : SealOp → Prop
  | .rotate _ _ => st.session.masters.nextId ∉ st.session.masters.keys
  | .storeSharedKey _ _ => True

/-- The four sealers; the shared ones under the key of this id. -/
inductive Sealer where
  | layerA
  | layerB
  | shared (keyId : Bytes)
  | sharedLayerB (keyId : Bytes)

def Sealer.container : Sealer → Container
  | .layerA => .layerA
  | .layerB => .layerB
  | .shared _ => .sharedBlob
  | .sharedLayerB _ => .sharedLayerB

def Sealer.seal (st : SealState) (path : String) (plain : Bytes) : Sealer → Except VaultError Bytes
  | .layerA => encryptBlob c st.session.masters plain
  | .layerB => encryptLayerB c st.session path plain
  | .shared keyId => encryptSharedBlob c st.dir st.session keyId plain
  | .sharedLayerB keyId => encryptSharedLayerB c st.dir st.session keyId path plain

end

/-- The first varint byte of this id is one of the three markers. -/
def Clashes (id : UInt32) : Prop := 128 ≤ id.toNat ∧ 125 ≤ id.toNat % 128

/-- A sealer that writes such an id first. -/
def Sealer.Misread (st : SealState) : Sealer → Prop
  | .layerA => Clashes st.session.masters.activeId
  | _ => False

/-- A body sealed as a Layer A blob does not open with the associated data of Layer B. -/
def Crates.LayersSeparated (c : Crates) : Prop :=
  ∀ key key' nonce plain plain',
    c.decrypt key' nonce aad.layerB (c.encrypt key nonce aad.blob plain) ≠ some plain'

variable {c : Crates} {f : Formats}

/-! ### What a run keeps -/

/-- Every generation and every shared key of the first state is in the second one. -/
structure SealState.Kept (c : Crates) (st st' : SealState) : Prop where
  generation : ∀ id key, st.session.masters.get id = .ok key → st'.session.masters.get id = .ok key
  shared : ∀ keyId s, loadSharedKey c st.dir st.session keyId = .ok s →
    loadSharedKey c st'.dir st'.session keyId = .ok s

theorem SealState.Kept.refl (st : SealState) : SealState.Kept c st st :=
  ⟨fun _ _ h => h, fun _ _ h => h⟩

theorem SealState.Kept.trans {st st' st'' : SealState} (h : SealState.Kept c st st')
    (h' : SealState.Kept c st' st'') : SealState.Kept c st st'' :=
  ⟨fun id key hid => h'.generation id key (h.generation id key hid),
    fun keyId s hs => h'.shared keyId s (h.shared keyId s hs)⟩

/-- A blob opens under every store that holds at least these generations. -/
theorem decryptBlob_mono {masters masters' : MasterKeyStore}
    (hkept : ∀ id key, masters.get id = .ok key → masters'.get id = .ok key) {blobFile plain : Bytes}
    (h : decryptBlob c masters blobFile = .ok plain) :
    decryptBlob c masters' blobFile = .ok plain := by
  obtain ⟨read, hread, h⟩ := bind_ok_iff.mp h
  obtain ⟨parts, hparts, h⟩ := bind_ok_iff.mp h
  obtain ⟨m, hm, h⟩ := bind_ok_iff.mp h
  exact bind_ok_iff.mpr ⟨read, hread, bind_ok_iff.mpr ⟨parts, hparts,
    bind_ok_iff.mpr ⟨m, hkept _ _ hm, h⟩⟩⟩

theorem SealState.Kept.step {st st' : SealState} {op : SealOp}
    (hfresh : FreshGeneration st op) (h : SealStep c f st op st') : SealState.Kept c st st' := by
  cases h with
  | @rotate fresh nonce id session disk hrun =>
    rw [rotateMasterKey_apply] at hrun
    cases hrun
    have hgeneration : ∀ id key, st.session.masters.get id = .ok key →
        ((st.session.masters.insert ⟨st.session.masters.nextId, fresh⟩).setActive
          st.session.masters.nextId).get id = .ok key := by
      intro id key hget
      obtain ⟨hid, hlook⟩ := MasterKeyStore.get_eq_ok.mp hget
      refine MasterKeyStore.get_eq_ok.mpr ⟨hid, ?_⟩
      have hother : id ≠ st.session.masters.nextId := by
        rintro rfl
        exact hfresh (AList.lookup_isSome.mp (by rw [hlook, Option.isSome_some]))
      rw [MasterKeyStore.setActive, MasterKeyStore.insert, AList.lookup_insert_ne hother]
      exact hlook
    refine ⟨hgeneration, ?_⟩
    intro keyId s hload
    obtain ⟨hid, sealed, hlook, hopen⟩ := loadSharedKey_ok.mp hload
    refine loadSharedKey_ok.mpr ⟨hid, sealed, ?_, decryptBlob_mono hgeneration hopen⟩
    have hactive : VaultFile.sharedKey keyId ≠ .active := by simp
    have hmaster : VaultFile.sharedKey keyId ≠ .master st.session.masters.nextId := by simp
    exact (AList.lookup_insert_ne hactive).trans ((AList.lookup_insert_ne hmaster).trans hlook)
  | @storeSharedKey keyId s res disk hrun =>
    refine ⟨fun _ _ hget => hget, ?_⟩
    intro keyId' s' hload
    rcases storeSharedKey_cases hrun with rfl | ⟨sealed, _, _, hunread, rfl⟩
    · exact hload
    · have hother : keyId' ≠ keyId := by
        rintro rfl
        exact hunread s' hload
      obtain ⟨hid, sealed', hlook, hopen⟩ := loadSharedKey_ok.mp hload
      refine loadSharedKey_ok.mpr ⟨hid, sealed', ?_, hopen⟩
      exact (AList.lookup_insert_ne (by simpa using hother)).trans hlook

/-- **What a run keeps**: every generation and every shared key. -/
theorem SealState.kept_run {st st' : SealState} {ops : List SealOp}
    (h : (sealSystem c f).Guarded FreshGeneration st ops st') : SealState.Kept c st st' := by
  induction h with
  | refl => exact .refl _
  | snoc _ hfresh hstep ih => exact ih.trans (.step hfresh hstep)

/-! ### Which container a blob is taken for -/

theorem writeVarint_large {v : UInt32} (hv : 128 ≤ v.toNat) :
    writeVarint v = ((v.toUInt8 &&& 0x7F) ||| 0x80) :: writeVarintFrom 3 (v >>> 7) :=
  if_pos (show (0x80 : UInt32) ≤ v from UInt32.le_iff_toNat_le.mpr hv)

theorem writeVarint_small {v : UInt32} (hv : v.toNat < 128) : writeVarint v = [v.toUInt8] := by
  refine if_neg fun hlarge => ?_
  exact absurd (UInt32.le_iff_toNat_le.mp hlarge) (Nat.not_le.mpr hv)

/-- The first byte of an id and of what follows it. -/
theorem head_writeVarint (v : UInt32) (rest : Bytes) :
    ∃ b, (writeVarint v ++ rest).head? = some b ∧
      b.toNat = if 128 ≤ v.toNat then v.toNat % 128 + 128 else v.toNat := by
  by_cases hv : 128 ≤ v.toNat
  · refine ⟨(v.toUInt8 &&& 0x7F) ||| 0x80, ?_, ?_⟩
    · rw [writeVarint_large hv]
      rfl
    · rw [if_pos hv, marked_toNat, toUInt8_toNat]
      omega
  · refine ⟨v.toUInt8, ?_, ?_⟩
    · rw [writeVarint_small (Nat.lt_of_not_le hv)]
      rfl
    · rw [if_neg hv, toUInt8_toNat]
      omega

/-- **The ids whose blobs are taken for Layer A.** -/
theorem containerOf_encryptWith_iff (m : MasterKey) (plain : Bytes) :
    containerOf (encryptWith c m plain) = .layerA ↔ ¬Clashes m.id := by
  obtain ⟨b, hhead, hb⟩ := head_writeVarint m.id ((c.keyedNonce m.bytes plain).val ++
    c.encrypt (c.hkdf (c.keyedNonce m.bytes plain).val m.bytes aad.blob) (c.keyedNonce m.bytes plain)
      aad.blob plain)
  have hmarker : ∀ marker : UInt8, (encryptWith c m plain).head? = some marker ↔
      b.toNat = marker.toNat := by
    intro marker
    rw [encryptWith, hhead, Option.some.injEq, UInt8.toNat_inj]
  have hff : layerBMarker.toNat = 255 := rfl
  have hfd : sharedLayerBMarker.toNat = 253 := rfl
  have hfe : sharedBlobMarker.toNat = 254 := rfl
  have hid := m.id.toNat_lt
  simp only [containerOf, hmarker, hff, hfd, hfe, Clashes]
  split at hb
  · split
    · simp only [reduceCtorEq, false_iff, not_not]
      omega
    · split
      · simp only [reduceCtorEq, false_iff, not_not]
        omega
      · split
        · simp only [reduceCtorEq, false_iff, not_not]
          omega
        · simp only [true_iff]
          omega
  · rw [if_neg (by omega), if_neg (by omega), if_neg (by omega)]
    simp only [true_iff]
    omega

/-! ### What a clash costs -/

/-- What follows the first byte of a large id is the rest of its varint. -/
theorem readVarint_rest {v : UInt32} (rest : Bytes) :
    readVarint (writeVarintFrom 3 (v >>> 7) ++ rest) = some (v >>> 7, rest) := by
  have hv := v.toNat_lt
  have hshift := shiftRight7_toNat v
  obtain ⟨hframed, hlen, hpayload⟩ := writeVarintFrom_spec 3 (v := v >>> 7) (by omega)
  refine readVarint_iff.mpr ⟨_, hframed, by omega, rfl, ?_⟩
  rw [hpayload, Nat.mod_eq_of_lt (v >>> 7).toNat_lt]

/-- Read as Layer B, the body of a Layer A blob is found but does not open. -/
theorem decryptLayerB_clash (hs : c.LayersSeparated) {m : MasterKey} (hid : 128 ≤ m.id.toNat)
    (session : VaultSession) (path : String) (plain plain' : Bytes) :
    decryptLayerB c session path (encryptWith c m plain) ≠ .ok plain' := by
  intro h
  obtain ⟨id, _, h⟩ := bind_ok_iff.mp h
  obtain ⟨key, _, h⟩ := bind_ok_iff.mp h
  obtain ⟨after, hafter, h⟩ := bind_ok_iff.mp h
  obtain ⟨_, hafter⟩ := refuseIf_bind_ok_iff.mp hafter
  cases hafter
  simp only [encryptWith, writeVarint_large hid, List.cons_append, List.tail_cons,
    readVarintOrMalformed, readVarint_rest, splitNonce_append, aeadOpen, bind, Except.bind] at h
  split at h
  · rename_i hopen
    exact hs _ _ _ _ _ hopen
  · cases h

/-- Read as a shared container, the body of a Layer A blob is cut short. -/
theorem openHeader_clash (hc : c.Lawful) {m : MasterKey} (hid : 128 ≤ m.id.toNat) {marker : UInt8}
    {plain body : Bytes} {nonce : Nonce}
    (h : openHeader marker (encryptWith c m plain) = .ok (nonce, body)) :
    body.length < plain.length + aeadTagLen := by
  obtain ⟨after, hafter, h⟩ := bind_ok_iff.mp h
  obtain ⟨_, hafter⟩ := refuseIf_bind_ok_iff.mp hafter
  cases hafter
  obtain ⟨⟨keyId, rest⟩, hsplit, h⟩ := bind_ok_iff.mp h
  simp only [encryptWith, writeVarint_large hid, List.cons_append, List.tail_cons] at hsplit
  have hv := m.id.toNat_lt
  have hshift := shiftRight7_toNat m.id
  obtain ⟨hframed, hlen, hpayload⟩ := writeVarintFrom_spec 3 (v := m.id >>> 7) (by omega)
  generalize writeVarintFrom 3 (m.id >>> 7) = enc at hsplit hframed hlen hpayload
  have hsum : ((c.keyedNonce m.bytes plain).val ++ c.encrypt (c.hkdf (c.keyedNonce m.bytes plain).val
      m.bytes aad.blob) (c.keyedNonce m.bytes plain) aad.blob plain).length =
        24 + (plain.length + aeadTagLen) := by
    rw [List.length_append, FixedBytes.length_val, hc.encrypt_length]
  generalize (c.keyedNonce m.bytes plain).val ++ c.encrypt _ _ _ _ = sealed at hsplit hsum
  cases enc with
  | nil => exact absurd rfl hframed.ne_nil
  | cons len enc =>
    obtain ⟨hfits, hsplit⟩ := refuseIf_bind_ok_iff.mp hsplit
    obtain ⟨_, hsplit⟩ := refuseIf_bind_ok_iff.mp hsplit
    cases hsplit
    have hmax : maxKeyIdLen = 64 := rfl
    -- a length byte of at most 64 has no high bit, so it is the whole rest of the varint
    have hlast : enc = [] := by
      by_contra hmore
      have := ((Framed.cons_iff hmore).mp hframed).1
      omega
    subst hlast
    have hrest : 0 < len.toNat := by
      simp only [payload] at hpayload
      omega
    simp only [splitNonce, FixedBytes.split] at h
    split at h
    · rename_i hparts
      split at hparts
      · cases hparts
        cases h
        have hnil : ([].append sealed).length = sealed.length := rfl
        have htag : aeadTagLen = 16 := rfl
        simp only [List.length_drop] at hfits ⊢
        omega
      · cases hparts
    · cases h

/-- What opens is as long as what was sealed. -/
theorem aeadOpen_length (hc : c.Lawful) {key : Key} {nonce : Nonce} {ad body plain : Bytes}
    (h : aeadOpen c key nonce ad body = .ok plain) : body.length = plain.length + aeadTagLen := by
  unfold aeadOpen at h
  split at h
  · rename_i hopen
    cases h
    exact hc.decrypt_length _ _ _ _ _ hopen
  · cases h

/-- **A blob that is taken for another container never opens to its plaintext.** -/
theorem decryptTracked_clash (hc : c.Lawful) (hs : c.LayersSeparated) {m : MasterKey}
    (hclash : Clashes m.id) (dir : VaultDir) (session : VaultSession) (path : String)
    (plain : Bytes) :
    decryptTrackedBlob c dir session path (encryptWith c m plain) ≠ .ok plain := by
  intro h
  have hother : containerOf (encryptWith c m plain) ≠ .layerA :=
    fun hlayer => (containerOf_encryptWith_iff m plain).mp hlayer hclash
  unfold decryptTrackedBlob at h
  split at h
  · exact decryptLayerB_clash hs hclash.1 session path plain plain h
  · obtain ⟨keyId, _, h⟩ := bind_ok_iff.mp h
    obtain ⟨s, _, h⟩ := bind_ok_iff.mp h
    obtain ⟨⟨nonce, body⟩, hopen, h⟩ := bind_ok_iff.mp h
    have hshort := openHeader_clash hc hclash.1 hopen
    have hlong := aeadOpen_length hc h
    omega
  · obtain ⟨keyId, _, h⟩ := bind_ok_iff.mp h
    obtain ⟨s, _, h⟩ := bind_ok_iff.mp h
    obtain ⟨⟨nonce, body⟩, hopen, h⟩ := bind_ok_iff.mp h
    have hshort := openHeader_clash hc hclash.1 hopen
    have hlong := aeadOpen_length hc h
    omega
  · rename_i hlayer
    exact hother hlayer

/-! ### Round trips over runs -/

theorem encryptBlob_ok {masters : MasterKeyStore} {plain blob : Bytes}
    (h : encryptBlob c masters plain = .ok blob) :
    ∃ m, masters.active = .ok m ∧ m.id = masters.activeId ∧ masters.get m.id = .ok m ∧
      blob = encryptWith c m plain := by
  obtain ⟨m, hactive, h⟩ := bind_ok_iff.mp h
  cases h
  have hid := (MasterKeyStore.get_eq_ok.mp hactive).1
  refine ⟨m, hactive, hid, ?_, rfl⟩
  rw [hid]
  exact hactive

/-- A blob that is sealed is taken for its own container, and opens after every run that keeps what
its session holds, exactly when it is not misread. -/
theorem sealer_round_trip (hc : c.Lawful) (hs : c.LayersSeparated) {st st' : SealState}
    (hkept : SealState.Kept c st st') {sealer : Sealer} {path : String} {plain blob : Bytes}
    (hseal : sealer.seal c st path plain = .ok blob) :
    (containerOf blob = sealer.container ↔ ¬sealer.Misread st) ∧
      (decryptTrackedBlob c st'.dir st'.session path blob = .ok plain ↔ ¬sealer.Misread st) := by
  cases sealer with
  | layerA =>
    obtain ⟨m, _, hid, hheld, rfl⟩ := encryptBlob_ok hseal
    have hcontainer := containerOf_encryptWith_iff (c := c) m plain
    rw [hid] at hcontainer
    refine ⟨hcontainer, ?_, ?_⟩
    · intro hopen hclash
      exact decryptTracked_clash hc hs (hid ▸ hclash) _ _ path plain hopen
    · intro hclear
      have hlayer := hcontainer.mpr hclear
      simp only [decryptTrackedBlob, hlayer]
      exact decryptBlob_encryptWith hc (hkept.generation _ _ hheld) plain
  | layerB =>
    obtain ⟨m, hactive, hseal⟩ := bind_ok_iff.mp hseal
    cases hseal
    have hid := (MasterKeyStore.get_eq_ok.mp hactive).1
    have hheld : st.session.masters.get m.id = .ok m := by
      rw [hid]
      exact hactive
    have hlayer : containerOf (encryptLayerBWith c m.id plain (layerBSubkey c m path)) = .layerB :=
      rfl
    refine ⟨by simp [hlayer, Sealer.container, Sealer.Misread], ?_⟩
    simp only [Sealer.Misread, not_false_eq_true, iff_true, decryptTrackedBlob, hlayer]
    simp only [decryptLayerB, readMasterId_encrypt, hkept.generation _ _ hheld, bind, Except.bind]
    exact decryptLayerB_encrypt hc _ plain _
  | shared keyId =>
    obtain ⟨s, hload, hseal⟩ := bind_ok_iff.mp hseal
    obtain ⟨hid, hlayer, hopen⟩ := decryptShared_encrypt hc (loadSharedKey_ok.mp hload).1 hseal
    refine ⟨by simp [hlayer, Sealer.container, Sealer.Misread], ?_⟩
    simp only [Sealer.Misread, not_false_eq_true, iff_true, decryptTrackedBlob, hlayer]
    simp only [decryptSharedBlob, hid, hkept.shared _ _ hload, bind, Except.bind]
    exact hopen
  | sharedLayerB keyId =>
    obtain ⟨s, hload, hseal⟩ := bind_ok_iff.mp hseal
    obtain ⟨hid, hlayer, hopen⟩ := decryptSharedLayerB_encrypt hc (loadSharedKey_ok.mp hload).1 hseal
    refine ⟨by simp [hlayer, Sealer.container, Sealer.Misread], ?_⟩
    simp only [Sealer.Misread, not_false_eq_true, iff_true, decryptTrackedBlob, hlayer]
    simp only [decryptSharedLayerB, hid, hkept.shared _ _ hload, bind, Except.bind]
    exact hopen

/-- **Exactly which blobs open again.** Whatever session seals a blob, after any run it is taken
for its own container, and opens to its plaintext on its path, if and only if it is not a Layer A
blob under an id whose first byte is a marker; and an id the varint reader accepts is one the writer
would have written if and only if its bytes are the shortest run of a number that fits 32 bits. -/
theorem tracked_round_trip_iff (hc : c.Lawful) (hs : c.LayersSeparated) :
    (∀ st st' ops sealer path plain blob,
      (sealSystem c f).Guarded FreshGeneration st ops st' →
      Sealer.seal c st path plain sealer = .ok blob →
        (containerOf blob = sealer.container ↔ ¬sealer.Misread st) ∧
        (decryptTrackedBlob c st'.dir st'.session path blob = .ok plain ↔ ¬sealer.Misread st)) ∧
    ∀ buf id rest, readVarint buf = some (id, rest) →
      (buf = writeVarint id ++ rest ↔
        Shortest (taken buf rest) ∧ payload (taken buf rest) < 2 ^ 32) := by
  refine ⟨?_, fun _ _ _ h => readVarint_canonical_iff h⟩
  intro st st' ops sealer path plain blob hrun hseal
  exact sealer_round_trip hc hs (SealState.kept_run hrun) hseal

/-! ### A vault with 253 generations -/

theorem checksumCrates_layersSeparated : checksumCrates.LayersSeparated := by
  intro key key' nonce plain plain' h
  simp only [checksumCrates, checksumTag, List.length_append, List.length_cons,
    List.length_replicate, aeadTagLen, Nat.add_sub_cancel, List.take_left'] at h
  split at h
  · rename_i htag
    -- the first byte of a tag is the length of its associated data
    have hlen := (List.cons.inj (List.append_cancel_left htag)).1
    exact absurd hlen (by decide +kernel)
  · cases h

/-- The active generation is in memory, and none is larger. -/
structure MasterKeyStore.Topped (store : MasterKeyStore) : Prop where
  mem : store.activeId ∈ store.keys
  le : ∀ id ∈ store.keys, id ≤ store.activeId

theorem max_eq_ite (a b : UInt32) : max a b = if a ≤ b then b else a := rfl

instance lawfulOrderMaxUInt32 : Std.LawfulOrderMax UInt32 := by
  refine .of_max_le_iff (fun a b c => ?_) (fun a b => ?_)
  · simp only [max_eq_ite, UInt32.le_iff_toNat_le]
    split <;> omega
  · rw [max_eq_ite]
    split <;> simp

theorem MasterKeyStore.Topped.nextId {store : MasterKeyStore} (h : store.Topped) :
    store.nextId = store.activeId + 1 := by
  have hmax : store.ids.max? = some store.activeId :=
    List.max?_eq_some_iff.mpr ⟨h.mem, h.le⟩
  rw [MasterKeyStore.nextId, hmax, Option.getD_some]

theorem MasterKeyStore.Topped.rotate {store : MasterKeyStore} (h : store.Topped)
    (hsmall : store.activeId.toNat + 1 < 2 ^ 32) (bytes : Key) :
    store.nextId.toNat = store.activeId.toNat + 1 ∧ store.nextId ∉ store.keys ∧
      ((store.insert ⟨store.nextId, bytes⟩).setActive store.nextId).Topped := by
  have hnext : store.nextId.toNat = store.activeId.toNat + 1 := by
    rw [h.nextId, UInt32.toNat_add]
    exact Nat.mod_eq_of_lt hsmall
  refine ⟨hnext, ?_, ?_, ?_⟩
  · intro hheld
    have := UInt32.le_iff_toNat_le.mp (h.le _ hheld)
    omega
  · exact (AList.mem_insert _).mpr (.inl rfl)
  · intro id hid
    rcases (AList.mem_insert _).mp hid with rfl | hold
    · exact UInt32.le_iff_toNat_le.mpr (Nat.le_refl _)
    · have := UInt32.le_iff_toNat_le.mp (h.le _ hold)
      refine UInt32.le_iff_toNat_le.mpr ?_
      show id.toNat ≤ store.nextId.toNat
      omega

/-- Every session can rotate. -/
theorem SealStep.exists_rotate (st : SealState) (fresh : Key) (nonce : Nonce) :
    ∃ st', SealStep c f st (.rotate fresh nonce) st' ∧
      st'.session.masters = (st.session.masters.insert ⟨st.session.masters.nextId, fresh⟩).setActive
        st.session.masters.nextId :=
  ⟨_, .rotate (rotateMasterKey_apply st.session fresh nonce (.fresh st.dir)), rfl⟩

/-- A fresh vault reaches every generation by rotations that take free numbers. -/
theorem rotations (n : Nat) (hn : n + 1 < 2 ^ 32) : ∃ st ops,
    (sealSystem checksumCrates unaryFormats).Guarded FreshGeneration ⟨demoVault, demoSession⟩ ops st ∧
      st.session.masters.activeId.toNat = n + 1 ∧ st.session.masters.Topped := by
  induction n with
  | zero =>
    refine ⟨_, [], .refl _, rfl, ?_, ?_⟩
    · exact (AList.mem_insert _).mpr (.inl rfl)
    · intro id hid
      rcases (AList.mem_insert _).mp hid with rfl | hold
      · exact UInt32.le_iff_toNat_le.mpr (Nat.le_refl _)
      · exact absurd hold (AList.notMem_empty _)
  | succ n ih =>
    obtain ⟨st, ops, hrun, hactive, htop⟩ := ih (by omega)
    obtain ⟨hnext, hfresh, htop'⟩ := htop.rotate (by omega) demoSecrets.master
    obtain ⟨st', hstep, hmasters⟩ := SealStep.exists_rotate (c := checksumCrates)
      (f := unaryFormats) st demoSecrets.master demoSecrets.masterNonce
    have hguard : FreshGeneration st (.rotate demoSecrets.master demoSecrets.masterNonce) := hfresh
    refine ⟨st', _, .snoc hrun hguard hstep, ?_, hmasters ▸ htop'⟩
    rw [hmasters, MasterKeyStore.setActive, hnext, hactive]

/-- After 252 rotations a sealed Layer A blob is taken for another container and does not open; and
an overlong varint is accepted. -/
theorem tracked_round_trip_fails :
    (∃ st ops, (sealSystem checksumCrates unaryFormats).Guarded FreshGeneration
      ⟨demoVault, demoSession⟩ ops st ∧
        ∃ blob, Sealer.seal checksumCrates st "note.md" [104, 105] .layerA = .ok blob ∧
          containerOf blob ≠ .layerA ∧
          decryptTrackedBlob checksumCrates st.dir st.session "note.md" blob ≠ .ok [104, 105]) ∧
      readVarint [0x80, 0x00] = some (0, []) ∧ [0x80, 0x00] ≠ writeVarint 0 ++ [] := by
  refine ⟨?_, by decide, by decide⟩
  obtain ⟨st, ops, hrun, hactive, htop⟩ := rotations 252 (by omega)
  obtain ⟨bytes, hbytes⟩ := Option.isSome_iff_exists.mp (AList.lookup_isSome.mpr htop.mem)
  have hget : st.session.masters.active = .ok ⟨st.session.masters.activeId, bytes⟩ :=
    MasterKeyStore.get_eq_ok.mpr ⟨rfl, hbytes⟩
  have hclash : Clashes st.session.masters.activeId := by
    rw [Clashes, hactive]
    omega
  refine ⟨st, ops, hrun, _, bind_ok_iff.mpr ⟨_, hget, rfl⟩, ?_, ?_⟩
  · intro hlayer
    exact (containerOf_encryptWith_iff _ _).mp hlayer hclash
  · exact decryptTracked_clash checksumCrates_lawful checksumCrates_layersSeparated hclash _ _ _ _

/-- A Layer B blob opens again after a rotation. -/
theorem tracked_round_trip_rotated : ∃ (st' : SealState) (blob : Bytes),
    Sealer.seal checksumCrates ⟨demoVault, demoSession⟩ "note.md" [104, 105] .layerB = .ok blob ∧
      decryptTrackedBlob checksumCrates st'.dir st'.session "note.md" blob = .ok [104, 105] := by
  have hguard : FreshGeneration ⟨demoVault, demoSession⟩
      (.rotate demoSecrets.master demoSecrets.masterNonce) := by
    show demoSession.masters.nextId ∉ demoSession.masters.keys
    decide +kernel
  obtain ⟨st', hstep, _⟩ := SealStep.exists_rotate (c := checksumCrates) (f := unaryFormats)
    ⟨demoVault, demoSession⟩ demoSecrets.master demoSecrets.masterNonce
  have hactive : demoSession.masters.active = .ok ⟨1, demoSecrets.master⟩ := rfl
  obtain ⟨blob, hseal⟩ : ∃ blob, Sealer.seal checksumCrates ⟨demoVault, demoSession⟩ "note.md"
      [104, 105] .layerB = .ok blob := ⟨_, bind_ok_iff.mpr ⟨_, hactive, rfl⟩⟩
  have hclear : ¬Sealer.Misread ⟨demoVault, demoSession⟩ .layerB := not_false
  have htrip := (tracked_round_trip_iff checksumCrates_lawful checksumCrates_layersSeparated).1
    _ _ _ _ _ _ _ (.snoc (.refl _) hguard hstep) hseal
  exact ⟨st', blob, hseal, htrip.2.mpr hclear⟩

end Softfig.Vault
