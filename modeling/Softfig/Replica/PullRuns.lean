import Softfig.Replica.Pipeline
import Softfig.Replica.PullEnds

/-!
The pulls of a receiver, against any table of replies.

- `pulls_end_iff`: which pulls return, and that they store only matching items;
- `ensureTree_selfListing`: a tree listed in itself is fetched without end.
-/

namespace Softfig.Replica

open Softfig.Lib Softfig.Store Softfig.Vcs

/-- **The pulls that return.** A fetch of a tree, and a pull of a subtree or of the commits one
after another, return just where no tree they follow leads back to one of them; the full-duplex
pull always returns. Each stores only items under their own digest. -/
theorem pulls_end_iff (hashOf : Bytes → Hash) (src : Source) (m : Mirror) :
    (∀ hash summary,
      (∃ depth o, ensureTree hashOf src depth hash ⟨m, summary⟩ = some o ∧
        OnlyMatching hashOf m o.2.mirror) ↔ ¬Returns (Leads hashOf src m) hash) ∧
    (∀ rootTree,
      (∃ depth o, pullSubtree hashOf src depth rootTree m = some o ∧ OnlyMatching hashOf m o.2) ↔
        ¬Returns (Leads hashOf src m) rootTree) ∧
    (∀ missing announcedTip,
      (∃ depth o, pullBackfill hashOf src depth missing announcedTip m = some o ∧
        OnlyMatching hashOf m o.2.mirror) ↔ Steady hashOf src m m missing.reverse) ∧
    ∀ missing announcedTip,
      ∃ rounds o, driveBackfill hashOf src rounds missing announcedTip m = some o ∧
        OnlyMatching hashOf m o.2.mirror := by
  refine ⟨fun hash summary => ?_, fun rootTree => ?_, fun missing announcedTip => ?_,
    fun missing announcedTip => ?_⟩
  · rw [← ensureTree_ends_iff (r := ⟨m, summary⟩) (.refl m)]
    constructor
    · rintro ⟨depth, o, ho, -⟩
      exact ⟨depth, o, ho⟩
    · rintro ⟨depth, o, ho⟩
      exact ⟨depth, o, ho, ensureTree_keeps fetchKeeps_onlyMatching ho⟩
  · rw [← pullSubtree_ends_iff]
    constructor
    · rintro ⟨depth, o, ho, -⟩
      exact ⟨depth, o, ho⟩
    · rintro ⟨depth, o, ho⟩
      exact ⟨depth, o, ho, pullSubtree_onlyMatching ho⟩
  · rw [← pullBackfill_ends_iff]
    constructor
    · rintro ⟨depth, o, ho, -⟩
      exact ⟨depth, o, ho⟩
    · rintro ⟨depth, o, ho⟩
      exact ⟨depth, o, ho, pullBackfill_onlyMatching ho⟩
  · obtain ⟨rounds, o, ho⟩ := driveBackfill_isSome missing announcedTip m
    exact ⟨rounds, o, ho, driveBackfill_onlyMatching ho⟩

/-! ### A tree that lists itself -/

/-- A digest that tells lists of bytes by their length. -/
def lengthDigest (bytes : Bytes) : Hash := ⟨toBeBytes 32 bytes.length⟩

def selfListed : Hash := ⟨List.replicate 32 7⟩

def selfListedTree : TreeData where
  found := true
  hash := selfListed.bytes
  entries := [⟨"again", "tree", dirMode, selfListed.bytes⟩]

/-- A peer whose one reply lists the address it is the reply for. -/
def selfListing : Source where
  trees := AList.singleton selfListed (.treeData selfListedTree)
  objects := ∅

theorem ensureTree_selfListing :
    ¬∃ depth o, ensureTree lengthDigest selfListing depth selfListed ⟨⟨Db.empty, ∅⟩, {}⟩ =
      some o := by
  rw [ensureTree_ends_iff (r := ⟨⟨Db.empty, ∅⟩, {}⟩) (.refl _), not_not]
  have hreply : selfListing.requestTree selfListed = .ok selfListedTree := rfl
  refine ⟨selfListed, .refl, .single ?_⟩
  exact .intro rfl hreply (List.nil_append _).symm (by simp) rfl

end Softfig.Replica
