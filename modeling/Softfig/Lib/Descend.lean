import Mathlib.Data.List.Flatten
import Mathlib.Data.List.Induction
import Mathlib.Data.List.Nodup

/-!
Descending a namespace that is kept as a map from paths.

What is live at a path is looked up by its whole path, and a listing descends from a directory
through the directories it finds. The two agree where the namespace is rooted: where whatever is
live is in a live directory.

- `mem_descend`: from a rooted namespace, a listing finds what is live below its start, each once.
-/

namespace Softfig.Lib

universe u v

/-- What is live at a path. -/
inductive Live (α : Type v) where
  | file (value : α)
  | dir
  deriving DecidableEq

def Live.isDir {α : Type v} : Live α → Bool
  | .file _ => false
  | .dir => true

variable {ν : Type u} {α : Type v}

/-- All that is found below a directory, to a depth. -/
def descend (children : List ν → List (List ν × Live α)) : Nat → List ν → List (List ν × Live α)
  | 0, _ => []
  | fuel + 1, dir => (children dir).flatMap fun child =>
      child :: if child.2.isDir then descend children fuel child.1 else []

/-- Whatever is live is at the top or in a live directory. -/
def Rooted (live : List ν → Option (Live α)) : Prop :=
  ∀ dir name, (live (dir ++ [name])).isSome → dir = [] ∨ live dir = some .dir

/-- Listing a directory finds what is live in it, each once. -/
structure Lists (live : List ν → Option (Live α)) (children : List ν → List (List ν × Live α)) :
    Prop where
  mem : ∀ dir path node, (path, node) ∈ children dir ↔
    (∃ name, path = dir ++ [name]) ∧ live path = some node
  nodup : ∀ dir, ((children dir).map Prod.fst).Nodup

section

variable {live : List ν → Option (Live α)} {children : List ν → List (List ν × Live α)}

/-- What is below a path stands below a directory. -/
theorem Rooted.dir_of_append (h : Rooted live) {dir rest : List ν} (hrest : rest ≠ [])
    (hlive : (live (dir ++ rest)).isSome) : dir = [] ∨ live dir = some .dir := by
  induction rest using List.reverseRecOn with
  | nil => exact absurd rfl hrest
  | append_singleton rest name ih =>
    rw [← List.append_assoc] at hlive
    rcases h _ _ hlive with hnil | hdir
    · exact Or.inl (List.append_eq_nil_iff.mp hnil).1
    · by_cases hmore : rest = []
      · subst hmore
        rw [List.append_nil] at hdir
        exact Or.inr hdir
      · exact ih hmore (by rw [hdir]; rfl)

/-- Nothing is live below a file. -/
theorem Rooted.not_below_file (h : Rooted live) {path rest : List ν} {value : α}
    (hfile : live path = some (.file value)) (hpath : path ≠ []) (hrest : rest ≠ []) :
    live (path ++ rest) = none := by
  cases hlive : live (path ++ rest) with
  | none => rfl
  | some node =>
    rcases h.dir_of_append hrest (by rw [hlive]; rfl) with hnil | hdir
    · exact absurd hnil hpath
    · rw [hfile] at hdir
      cases hdir

/-- Nothing is live below a path where nothing is. -/
theorem Rooted.not_below_none (h : Rooted live) {path rest : List ν} (hnone : live path = none)
    (hpath : path ≠ []) (hrest : rest ≠ []) : live (path ++ rest) = none := by
  cases hlive : live (path ++ rest) with
  | none => rfl
  | some node =>
    rcases h.dir_of_append hrest (by rw [hlive]; rfl) with hnil | hdir
    · exact absurd hnil hpath
    · rw [hnone] at hdir
      cases hdir

/-- A change at one path keeps a namespace rooted: what is put there is in a live directory, and
nothing is left below it, unless it is a directory. -/
theorem Rooted.update (h : Rooted live) {path : List ν} {node : Option (Live α)}
    (hparent : node.isSome → path.dropLast = [] ∨ live path.dropLast = some .dir)
    (hbelow : node = some .dir ∨ ∀ name, live (path ++ [name]) = none)
    {live' : List ν → Option (Live α)} (hpath : live' path = node)
    (hother : ∀ q, q ≠ path → live' q = live q) : Rooted live' := by
  intro dir name hlive
  by_cases heq : dir ++ [name] = path
  · rw [heq, hpath] at hlive
    have hdir := hparent hlive
    rw [← heq, List.dropLast_concat] at hdir
    have hne : dir ≠ path := by
      rintro rfl
      simpa using congrArg List.length heq
    exact hdir.imp_right fun hdir => (hother dir hne).trans hdir
  · rw [hother _ heq] at hlive
    rcases h dir name hlive with hnil | hdir
    · exact Or.inl hnil
    · by_cases hat : dir = path
      · subst hat
        rcases hbelow with rfl | hnone
        · exact Or.inr hpath
        · rw [hnone name] at hlive
          cases hlive
      · exact Or.inr ((hother dir hat).trans hdir)

/-- A file put at a path with its ancestors made directories keeps a namespace rooted, where
nothing is live below the path. -/
theorem Rooted.write (h : Rooted live) {path : List ν}
    (hbelow : ∀ name, live (path ++ [name]) = none) {live' : List ν → Option (Live α)}
    (habove : ∀ q, q ≠ [] → q <+: path → q ≠ path → live' q = some .dir)
    (hother : ∀ q, ¬ q <+: path → live' q = live q) : Rooted live' := by
  intro dir name hlive
  by_cases hpre : dir ++ [name] <+: path
  · refine or_iff_not_imp_left.mpr fun hnil => habove dir hnil ?_ ?_
    · exact (List.prefix_append _ _).trans hpre
    · rintro rfl
      have hlen := hpre.length_le
      rw [List.length_append, List.length_singleton] at hlen
      omega
  · rw [hother _ hpre] at hlive
    rcases h dir name hlive with hnil | hdir
    · exact Or.inl hnil
    · by_cases habv : dir <+: path
      · refine or_iff_not_imp_left.mpr fun hnil => habove dir hnil habv ?_
        rintro rfl
        rw [hbelow name] at hlive
        cases hlive
      · exact Or.inr ((hother dir habv).trans hdir)

/-- Everything at a path and below it taken away keeps a namespace rooted. -/
theorem Rooted.remove (h : Rooted live) {path : List ν} {live' : List ν → Option (Live α)}
    (hbelow : ∀ q, path <+: q → live' q = none) (hother : ∀ q, ¬ path <+: q → live' q = live q) :
    Rooted live' := by
  intro dir name hlive
  by_cases hpre : path <+: dir ++ [name]
  · rw [hbelow _ hpre] at hlive
    cases hlive
  · rw [hother _ hpre] at hlive
    refine (h dir name hlive).imp_right fun hdir => ?_
    rw [hother dir fun hdir => hpre (hdir.trans (List.prefix_append _ _)), hdir]

/-- **A listing of a rooted namespace finds what is live** below its start, to its depth. -/
theorem mem_descend (hrooted : Rooted live) (hlists : Lists live children) {fuel : Nat}
    {dir path : List ν} {node : Live α} :
    (path, node) ∈ descend children fuel dir ↔
      ∃ rest, rest ≠ [] ∧ path = dir ++ rest ∧ rest.length ≤ fuel ∧ live path = some node := by
  induction fuel generalizing dir path node with
  | zero =>
    constructor
    · intro h
      cases h
    · rintro ⟨rest, hrest, -, hlen, -⟩
      exact absurd (List.length_eq_zero_iff.mp (Nat.le_zero.mp hlen)) hrest
  | succ fuel ih =>
    rw [descend, List.mem_flatMap]
    constructor
    · rintro ⟨⟨found, kind⟩, hchild, hmem⟩
      obtain ⟨⟨name, rfl⟩, hlive⟩ := (hlists.mem _ _ _).mp hchild
      rcases List.mem_cons.mp hmem with heq | hbelow
      · cases heq
        exact ⟨[name], List.cons_ne_nil _ _, rfl, by simp, hlive⟩
      · cases kind with
        | file value => cases hbelow
        | dir =>
          obtain ⟨rest, -, rfl, hlen, hfound⟩ := ih.mp hbelow
          exact ⟨name :: rest, List.cons_ne_nil _ _, by simp, by simpa using hlen, hfound⟩
    · rintro ⟨rest, hrest, rfl, hlen, hlive⟩
      obtain ⟨name, more, rfl⟩ := List.exists_cons_of_ne_nil hrest
      by_cases hmore : more = []
      · subst hmore
        exact ⟨_, (hlists.mem _ _ _).mpr ⟨⟨name, rfl⟩, hlive⟩, List.mem_cons_self⟩
      · have hsplit : dir ++ name :: more = (dir ++ [name]) ++ more := by simp
        have hdir : live (dir ++ [name]) = some .dir := by
          refine (hrooted.dir_of_append hmore ?_).resolve_left (by simp)
          rw [← hsplit, hlive]
          rfl
        refine ⟨_, (hlists.mem _ _ _).mpr ⟨⟨name, rfl⟩, hdir⟩, List.mem_cons_of_mem _ ?_⟩
        rw [Live.isDir, if_pos rfl, ih]
        exact ⟨more, hmore, hsplit, by simpa using hlen, hlive⟩

/-- What is found below a path starts with it. -/
theorem prefix_of_mem_descend (hlists : Lists live children) {fuel : Nat} {dir path : List ν}
    (h : path ∈ (descend children fuel dir).map Prod.fst) : dir <+: path := by
  induction fuel generalizing dir with
  | zero => cases h
  | succ fuel ih =>
    obtain ⟨⟨path, node⟩, hmem, rfl⟩ := List.mem_map.mp h
    rw [descend, List.mem_flatMap] at hmem
    obtain ⟨⟨found, kind⟩, hchild, hmem⟩ := hmem
    obtain ⟨⟨name, rfl⟩, -⟩ := (hlists.mem _ _ _).mp hchild
    rcases List.mem_cons.mp hmem with heq | hbelow
    · cases heq
      exact List.prefix_append _ _
    · cases kind with
      | file value => cases hbelow
      | dir => exact (List.prefix_append _ _).trans (ih (List.mem_map_of_mem hbelow))

/-- What is found below a path is longer than it. -/
theorem length_lt_of_mem_descend (hlists : Lists live children) {fuel : Nat} {dir path : List ν}
    (h : path ∈ (descend children fuel dir).map Prod.fst) : dir.length < path.length := by
  cases fuel with
  | zero => cases h
  | succ fuel =>
    obtain ⟨⟨path, node⟩, hmem, rfl⟩ := List.mem_map.mp h
    rw [descend, List.mem_flatMap] at hmem
    obtain ⟨⟨found, kind⟩, hchild, hmem⟩ := hmem
    obtain ⟨⟨name, rfl⟩, -⟩ := (hlists.mem _ _ _).mp hchild
    have hlen : dir.length < (dir ++ [name]).length := by simp
    rcases List.mem_cons.mp hmem with heq | hbelow
    · cases heq
      exact hlen
    · cases kind with
      | file value => cases hbelow
      | dir =>
        have hbelow := prefix_of_mem_descend hlists (List.mem_map_of_mem hbelow)
        exact Nat.lt_of_lt_of_le hlen hbelow.length_le

/-- A child and what is found below it start with the child. -/
theorem prefix_of_mem_block (hlists : Lists live children) {fuel : Nat} {child : List ν × Live α}
    {path : List ν} (h : path ∈
      (child :: if child.2.isDir then descend children fuel child.1 else []).map Prod.fst) :
    child.1 <+: path := by
  rcases List.mem_cons.mp h with rfl | hbelow
  · exact List.prefix_rfl
  · split at hbelow
    · exact prefix_of_mem_descend hlists hbelow
    · cases hbelow

/-- **Nothing is found twice.** -/
theorem nodup_descend (hlists : Lists live children) (fuel : Nat) (dir : List ν) :
    ((descend children fuel dir).map Prod.fst).Nodup := by
  induction fuel generalizing dir with
  | zero => exact List.nodup_nil
  | succ fuel ih =>
    rw [descend, List.map_flatMap, List.nodup_flatMap]
    constructor
    · rintro ⟨found, kind⟩ -
      rw [List.map_cons, List.nodup_cons]
      cases kind with
      | file value => exact ⟨List.not_mem_nil, List.nodup_nil⟩
      | dir =>
        refine ⟨fun hmem => ?_, ih found⟩
        exact absurd (length_lt_of_mem_descend hlists hmem) (Nat.lt_irrefl _)
    · refine (List.pairwise_map.mp (hlists.nodup dir)).imp_of_mem ?_
      intro first other hfirst hother hne path hpath hpath'
      obtain ⟨⟨name, hname⟩, -⟩ := (hlists.mem _ _ _).mp hfirst
      obtain ⟨⟨name', hname'⟩, -⟩ := (hlists.mem _ _ _).mp hother
      have hpre := prefix_of_mem_block hlists hpath
      have hpre' := prefix_of_mem_block hlists hpath'
      have hlen : first.1.length = other.1.length := by
        rw [hname, hname', List.length_append, List.length_append]
        rfl
      refine hne ?_
      exact (List.prefix_of_prefix_length_le hpre hpre' (Nat.le_of_eq hlen)).eq_of_length hlen

end

end Softfig.Lib
