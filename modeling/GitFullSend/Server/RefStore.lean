import Mathlib.Data.List.Nodup
import GitFullSend.Lib.Lists
import GitFullSend.Common.StreamId

/-! The refs of one repository, and the calls of the Git library that read and delete them. -/

namespace GitFullSend

open Utf8 (Bytes ofText)
open Segments (Above)

/--
The refs of a repository in the order they are enumerated, each with the object it points at.

The fields are what a Git ref store guarantees of its names.
-/
structure RefStore (Target : Type) where
  /-- Every ref and its object. -/
  refs : List (Bytes × Target)
  /-- A name is taken once. -/
  distinct : (refs.map Prod.fst).Nodup
  /-- No ref stands where another one needs a directory. -/
  beside : ∀ upper ∈ refs, ∀ lower ∈ refs, ¬ Above slash upper.1 lower.1

namespace RefStore

variable {Target : Type} {store : RefStore Target} {name : Bytes} {target : Target}

/-- The object a ref points at, or `none` when there is no such ref. -/
def get (store : RefStore Target) (name : Bytes) : Option Target :=
  (store.refs.find? fun entry => entry.1 = name).map Prod.snd

/-- The refs whose names start with a prefix. -/
def prefixed (store : RefStore Target) (opening : Bytes) : List (Bytes × Target) :=
  store.refs.filter fun entry => decide (opening <+: entry.1)

/-- The refs left after those with the given names are deleted. -/
def delete (store : RefStore Target) (names : List Bytes) : RefStore Target where
  refs := store.refs.filter fun entry => entry.1 ∉ names
  distinct := (List.filter_sublist.map Prod.fst).nodup store.distinct
  beside upper here lower there :=
    store.beside upper (List.mem_of_mem_filter here) lower (List.mem_of_mem_filter there)

/-- Two stores with the same refs are the same store. -/
private theorem ext_refs {left right : RefStore Target} (same : left.refs = right.refs) :
    left = right := by
  cases left; cases right; simpa using same

/-- Looking a name up finds the object listed beside it. -/
theorem get_eq_some : store.get name = some target ↔ (name, target) ∈ store.refs := by
  -- Names are listed once.
  apply Lists.find?_key_eq_some
  intro left first right second same
  exact List.inj_on_of_nodup_map store.distinct first second same

/-- A name is free exactly when no ref is listed under it. -/
theorem get_eq_none : store.get name = none ↔ ∀ target, (name, target) ∉ store.refs := by
  simp [Option.eq_none_iff_forall_ne_some, get_eq_some]

/-- Deleting refs frees their names and keeps every other ref with its object. -/
@[simp] theorem get_delete (names : List Bytes) :
    (store.delete names).get name = if name ∈ names then none else store.get name := by
  -- A deleted name is filtered out, and no other one is.
  ext target
  split <;> rename_i listed <;> simp [get_eq_some, delete, listed]

/-- Deleting no ref changes nothing. -/
@[simp] theorem delete_nil : store.delete [] = store := ext_refs (by simp [delete])

/-- The enumerated refs are the stored ones with that opening. -/
theorem mem_prefixed {opening : Bytes} :
    (name, target) ∈ store.prefixed opening ↔ (name, target) ∈ store.refs ∧ opening <+: name := by
  simp [prefixed]

end RefStore

/-- The steps of a worktree update that run a `git` process. -/
inductive GitStep where
  | revParse
  | readTree
  | clean
  deriving DecidableEq, Repr

/-- Errors of the server's operations, without the texts other programs attach. -/
inductive ServerError where
  /-- The configured target path is not a Git repository. -/
  | notARepo (repo : Bytes)
  /-- The repository has no `code` ref for the requested stream to check out. -/
  | missingCodeRef (refName : Bytes)
  /-- Resolving the stream's `extra` tree failed. -/
  | resolveExtra
  /-- Building the combined tree to check out failed. -/
  | buildTree
  /-- Listing the synced streams failed. -/
  | listStreams
  /-- Deleting a stream's refs failed. -/
  | forgetStream
  /-- Reaping stale streams failed while enumerating or reading a `code` commit. -/
  | reap
  /-- Creating the worktree directory or its state directory failed. -/
  | createWorktree
  /-- A `git` step of the worktree update failed to spawn. -/
  | runGit (step : GitStep)
  /-- A `git` step of the worktree update exited non-zero. -/
  | worktree (step : GitStep)
  /-- Another run already holds the worktree's lock, and the mode was to fail fast. -/
  | worktreeBusy (worktree : Bytes)
  /-- The holder did not release the worktree's lock before the deadline. -/
  | lockTimeout (worktree : Bytes) (timeoutMs : Nat)
  /-- Opening or locking the lock file failed for a reason other than contention. -/
  | lock
  deriving DecidableEq, Repr

/-- Which calls into the Git library succeed during one operation. -/
structure Gix where
  /-- Whether the path leads to a repository. -/
  discover : Bool
  /-- Whether the ref store opens. -/
  references : Bool
  /-- Whether enumeration by prefix starts. -/
  prefixed : Bool
  /-- Whether the ref of this name can be read during enumeration. -/
  readable : Bytes → Bool
  /-- Whether the transaction deleting these refs goes through. -/
  editReferences : List Bytes → Bool

/-- A library all of whose calls succeed. -/
def Gix.sound : Gix := ⟨true, true, true, fun _ => true, fun _ => true⟩

/-- Enumerate the refs under a prefix, giving the failure at the first call that does not succeed. -/
def enumerate {Target : Type} (gix : Gix) (failure : ServerError) (store : RefStore Target)
    (opening : Bytes) : Except ServerError (List (Bytes × Target)) :=
  if !gix.references then .error failure
  else if !gix.prefixed then .error failure
  else if !(store.prefixed opening).all fun entry => gix.readable entry.1 then .error failure
  else .ok (store.prefixed opening)

/-- An enumeration that succeeds lists exactly the refs under the prefix. -/
theorem enumerate_ok {Target : Type} {gix : Gix} {failure : ServerError} {store : RefStore Target}
    {opening : Bytes} {entries : List (Bytes × Target)}
    (listed : enumerate gix failure store opening = .ok entries) :
    entries = store.prefixed opening := by
  -- Every other branch reports the failure.
  unfold enumerate at listed
  grind

end GitFullSend
