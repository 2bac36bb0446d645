import Softfig.Store.Db

/-!
The loose object directory beside the database.

- `ObjectStore.lookup_put`: a put adds the bytes under their digest and keeps
  every object already there;
- `ObjectStore.get_put`: what was put reads back under the address returned.
-/

namespace Softfig.Store

namespace ObjectStore

variable (hashOf : Bytes → Hash)

/-- Store the bytes under their digest; an object already there is left alone. -/
def put (objects : ObjectStore) (ciphertext : Bytes) : ObjectStore × Hash :=
  let hash := hashOf ciphertext
  if hash ∈ objects then (objects, hash) else (objects.insert hash ciphertext, hash)

/-- Read an object and check its bytes against the address. -/
def get (objects : ObjectStore) (hash : Hash) : Except StoreError Bytes :=
  match objects.lookup hash with
  | none => .error (.objectNotFound hash)
  | some bytes =>
    let actual := hashOf bytes
    if actual ≠ hash then .error (.objectCorrupt hash actual) else .ok bytes

def contains (objects : ObjectStore) (hash : Hash) : Bool := (objects.lookup hash).isSome

/-- Remove an object; one already gone is no error. -/
def remove (objects : ObjectStore) (hash : Hash) : ObjectStore := objects.erase hash

/-- Every object on disk under its declared address. -/
def iter (objects : ObjectStore) : List (Hash × Bytes) := objects.entries.map fun o => (o.1, o.2)

@[simp]
theorem put_hash (objects : ObjectStore) (ciphertext : Bytes) :
    (objects.put hashOf ciphertext).2 = hashOf ciphertext := by
  by_cases h : hashOf ciphertext ∈ objects <;> simp [put, h]

theorem lookup_put (objects : ObjectStore) (ciphertext : Bytes) (hash : Hash) :
    (objects.put hashOf ciphertext).1.lookup hash =
      if hash = hashOf ciphertext ∧ hash ∉ objects then some ciphertext
      else objects.lookup hash := by
  unfold put
  by_cases hmem : hashOf ciphertext ∈ objects
  · rw [if_pos hmem, if_neg]
    rintro ⟨rfl, hnot⟩
    exact hnot hmem
  · rw [if_neg hmem]
    by_cases heq : hash = hashOf ciphertext
    · subst heq
      rw [if_pos ⟨rfl, hmem⟩, AList.lookup_insert]
    · rw [if_neg (fun h => heq h.1), AList.lookup_insert_ne heq]

theorem lookup_put_of_mem {objects : ObjectStore} {hash : Hash} {bytes : Bytes}
    (h : objects.lookup hash = some bytes) (ciphertext : Bytes) :
    (objects.put hashOf ciphertext).1.lookup hash = some bytes := by
  rw [lookup_put, if_neg, h]
  rintro ⟨-, hnot⟩
  exact hnot (AList.lookup_isSome.mp (by simp [h]))

/-- Every object's bytes have the digest it is stored under. -/
def Sound (objects : ObjectStore) : Prop :=
  ∀ hash bytes, objects.lookup hash = some bytes → hashOf bytes = hash

theorem sound_put {objects : ObjectStore} (h : objects.Sound hashOf) (ciphertext : Bytes) :
    (objects.put hashOf ciphertext).1.Sound hashOf := by
  intro hash bytes hlookup
  rw [lookup_put] at hlookup
  split_ifs at hlookup with hnew
  · cases hlookup
    exact hnew.1.symm
  · exact h hash bytes hlookup

theorem put_mem (objects : ObjectStore) (ciphertext : Bytes) :
    hashOf ciphertext ∈ (objects.put hashOf ciphertext).1 := by
  by_cases h : hashOf ciphertext ∈ objects <;> simp [put, h]

theorem get_ok_iff {objects : ObjectStore} {hash : Hash} {bytes : Bytes} :
    objects.get hashOf hash = .ok bytes ↔
      objects.lookup hash = some bytes ∧ hashOf bytes = hash := by
  unfold get
  cases h : objects.lookup hash with
  | none => simp
  | some stored =>
    by_cases hsound : hashOf stored = hash
    · simp only [hsound, ne_eq, not_true, if_false, Except.ok.injEq, Option.some.injEq]
      exact ⟨fun heq => ⟨heq, heq ▸ hsound⟩, fun heq => heq.1⟩
    · simp only [ne_eq, hsound, not_false_iff, if_true, reduceCtorEq, Option.some.injEq, false_iff]
      rintro ⟨rfl, hgood⟩
      exact hsound hgood

theorem mem_iter {objects : ObjectStore} {hash : Hash} :
    hash ∈ objects.iter.map Prod.fst ↔ hash ∈ objects := by
  rw [iter, List.map_map]
  exact Iff.rfl

end ObjectStore

end Softfig.Store
