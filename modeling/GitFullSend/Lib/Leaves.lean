import Mathlib.Data.List.Pairwise
import GitFullSend.Lib.Lists

/-! Trees seen through their leaves: finite maps from paths, with no leaf below another. -/

variable {α β : Type*}

/-- Two paths of which one opens the other: only one of them can be a leaf of a tree. -/
def Comparable (left right : List α) : Prop :=
  left <+: right ∨ right <+: left

instance [DecidableEq α] (left right : List α) : Decidable (Comparable left right) :=
  inferInstanceAs (Decidable (_ ∨ _))

/-- Every path is comparable with itself. -/
@[simp] theorem Comparable.refl (path : List α) : Comparable path path :=
  .inl List.prefix_rfl

/-- Comparing two paths does not depend on which is named first. -/
theorem Comparable.symm {left right : List α} (close : Comparable left right) :
    Comparable right left :=
  Or.symm close

/--
The leaves of a directory tree, each at its path of segments.

A path that holds a leaf is not a directory, so no leaf lies at or below another.
-/
structure Leaves (α β : Type*) where
  /-- Every leaf with its path, in no particular order. -/
  entries : List (List α × β)
  /-- No two listed leaves are at comparable paths. -/
  apart : entries.Pairwise fun left right => ¬ Comparable left.1 right.1

namespace Leaves

variable [DecidableEq α]

/-- The leaf at a path, if there is one. -/
def get (leaves : Leaves α β) (path : List α) : Option β :=
  (leaves.entries.find? fun entry => entry.1 = path).map Prod.snd

/-- A tree with no leaf. -/
def empty : Leaves α β := ⟨[], .nil⟩

/-- Two trees with the same leaf at every path. -/
def Same (left right : Leaves α β) : Prop :=
  ∀ path, left.get path = right.get path

/-- The leaves whose paths pass a test. -/
def keep (leaves : Leaves α β) (test : List α → Bool) : Leaves α β :=
  ⟨leaves.entries.filter fun entry => test entry.1, leaves.apart.filter _⟩

/-- Dropping the entry at a path: the leaf there, or everything below it. -/
def remove (leaves : Leaves α β) (path : List α) : Leaves α β :=
  leaves.keep fun other => !decide (path <+: other)

/--
Writing a leaf at a path.

A leaf on the way becomes a directory, and whatever stood at the path gives way to the new leaf.
-/
def upsert (leaves : Leaves α β) (path : List α) (leaf : β) : Leaves α β where
  entries := (path, leaf) ::
    leaves.entries.filter fun entry => !decide (Comparable path entry.1)
  apart := List.pairwise_cons.mpr
    ⟨fun _ member => by simpa using (List.mem_filter.mp member).2, leaves.apart.filter _⟩

/-- Writing every leaf of one tree over another, in the order they are listed. -/
def overlay (base top : Leaves α β) : Leaves α β :=
  top.entries.foldl (fun leaves entry => leaves.upsert entry.1 entry.2) base

/-- Some leaf of the tree could not stand beside a leaf at the path. -/
def Meets (leaves : Leaves α β) (path : List α) : Prop :=
  ∃ entry ∈ leaves.entries, Comparable entry.1 path

instance (leaves : Leaves α β) (path : List α) : Decidable (leaves.Meets path) :=
  inferInstanceAs (Decidable (∃ entry ∈ leaves.entries, _))

section Lookup

variable {leaves : Leaves α β} {path other : List α} {leaf value : β}

omit [DecidableEq α] in
private theorem entry_unique {left right : List α × β} (first : left ∈ leaves.entries)
    (second : right ∈ leaves.entries) (close : Comparable left.1 right.1) : left = right := by
  -- Apartness is symmetric, so it holds of any two distinct listed entries.
  have : Std.Symm fun (left right : List α × β) => ¬ Comparable left.1 right.1 :=
    ⟨fun _ _ beside close => beside close.symm⟩
  by_contra different
  exact leaves.apart.forall first second different close

/-- Looking a path up finds the leaf listed there. -/
theorem get_eq_some : leaves.get path = some leaf ↔ (path, leaf) ∈ leaves.entries := by
  -- Entries at one path are at comparable paths, so there is only one of them.
  apply Lists.find?_key_eq_some
  intro left first right second same
  exact entry_unique first second (by rw [same]; exact .refl _)

/-- A path has no leaf exactly when none is listed there. -/
theorem get_eq_none : leaves.get path = none ↔ ∀ leaf, (path, leaf) ∉ leaves.entries := by
  simp [Option.eq_none_iff_forall_ne_some, get_eq_some]

@[simp] theorem get_empty : (empty : Leaves α β).get path = none := rfl

/-- Filtering by path leaves the other lookups alone. -/
@[simp] theorem get_keep (test : List α → Bool) :
    (leaves.keep test).get path = if test path then leaves.get path else none := by
  -- The test reads the path alone, so it keeps or drops what the lookup would find.
  ext leaf
  split <;> rename_i tested <;> simp [get_eq_some, keep, tested]

/-- Removing a path empties it and everything below it. -/
@[simp] theorem get_remove :
    (leaves.remove path).get other = if path <+: other then none else leaves.get other := by
  by_cases below : path <+: other <;> simp [remove, below]

/-- Writing a leaf empties every other path that could not stand beside it. -/
theorem get_upsert :
    (leaves.upsert path leaf).get other =
      if path = other then some leaf
      else if Comparable path other then none else leaves.get other := by
  -- The new leaf is listed first, and every entry comparable with it is filtered out.
  ext value
  rw [get_eq_some]
  by_cases same : path = other
  · subst same
    simp [upsert, eq_comm]
  · by_cases close : Comparable path other <;>
      simp [upsert, same, close, Ne.symm same, get_eq_some]

end Lookup

/-- Writing every leaf of a tree keeps of the base only what stands beside all of them. -/
theorem get_overlay (base top : Leaves α β) (path : List α) :
    (base.overlay top).get path =
      match top.get path with
      | some leaf => some leaf
      | none => if top.Meets path then none else base.get path := by
  obtain ⟨entries, apart⟩ := top
  -- The induction is on the leaves still to write, so the base changes from step to step.
  induction entries generalizing base with
  | nil => simp [overlay, get, Meets]
  | cons entry rest ih =>
    obtain ⟨beside, apart'⟩ := List.pairwise_cons.mp apart
    have later := ih (base.upsert entry.1 entry.2) apart'
    have meets : (⟨entry :: rest, apart⟩ : Leaves α β).Meets path ↔
        Comparable entry.1 path ∨ (⟨rest, apart'⟩ : Leaves α β).Meets path := by
      simp [Meets]
    change ((base.upsert entry.1 entry.2).overlay ⟨rest, apart'⟩).get path = _
    rw [later, get_upsert]
    by_cases same : entry.1 = path
    · -- The entry written first stays, because no later leaf is comparable with it.
      subst same
      have absent : (⟨rest, apart'⟩ : Leaves α β).get entry.1 = none :=
        get_eq_none.mpr fun leaf member => beside _ member (.refl _)
      have alone : ¬ (⟨rest, apart'⟩ : Leaves α β).Meets entry.1 := by
        intro near
        obtain ⟨other, member, close⟩ := near
        exact beside other member close.symm
      have present : (⟨entry :: rest, apart⟩ : Leaves α β).get entry.1 = some entry.2 := by
        simp [get]
      simp only [absent, alone, present, if_false, if_true]
    · have shifted : (⟨entry :: rest, apart⟩ : Leaves α β).get path =
          (⟨rest, apart'⟩ : Leaves α β).get path := by simp [get, same]
      rw [shifted]
      cases (⟨rest, apart'⟩ : Leaves α β).get path with
      | some leaf => rfl
      | none =>
        -- A path the first leaf meets is emptied by it, and the later leaves never refill it.
        simp only [if_neg same, meets]
        by_cases met : (⟨rest, apart'⟩ : Leaves α β).Meets path <;>
          by_cases close : Comparable entry.1 path <;> simp [met, close]

omit [DecidableEq α] in
/-- Keeping every leaf keeps the tree. -/
@[simp] theorem keep_all (leaves : Leaves α β) : leaves.keep (fun _ => true) = leaves := by
  cases leaves; simp [keep]

private theorem same_iff_entries {left right : Leaves α β} :
    left.Same right ↔ left.entries ⊆ right.entries ∧ right.entries ⊆ left.entries := by
  -- A lookup and the list of entries determine each other.
  constructor
  · intro same
    refine ⟨fun entry member => ?_, fun entry member => ?_⟩
    · exact get_eq_some.mp ((same entry.1).symm.trans (get_eq_some.mpr member))
    · exact get_eq_some.mp ((same entry.1).trans (get_eq_some.mpr member))
  · intro both path
    obtain ⟨forth, back⟩ := both
    ext leaf
    rw [get_eq_some, get_eq_some]
    exact ⟨(forth ·), (back ·)⟩

instance [DecidableEq β] (left right : Leaves α β) : Decidable (left.Same right) :=
  decidable_of_iff ((∀ entry ∈ left.entries, entry ∈ right.entries) ∧
    ∀ entry ∈ right.entries, entry ∈ left.entries) same_iff_entries.symm

/-- A tree is the same as itself. -/
@[simp] theorem Same.refl (leaves : Leaves α β) : leaves.Same leaves := fun _ => rfl

/-- The tree meets every path it has a leaf at. -/
theorem meets_of_get {leaves : Leaves α β} {path : List α} {leaf : β}
    (found : leaves.get path = some leaf) : leaves.Meets path :=
  ⟨(path, leaf), get_eq_some.mp found, .refl path⟩

/-- Leaves at comparable paths are at the same path. -/
theorem get_comparable {leaves : Leaves α β} {left right : List α} {first second : β}
    (found : leaves.get left = some first) (other : leaves.get right = some second)
    (close : Comparable left right) : left = right :=
  congrArg Prod.fst (entry_unique (get_eq_some.mp found) (get_eq_some.mp other) close)

end Leaves
