import Mathlib.Data.List.Nodup
import GitFullSend.Lib.Lists

/-! Values gathered under keys, with the keys in ascending order. -/

universe u v

/--
The values of every key in the order they were pushed, and the keys in theirs.

No key is there without a value.
-/
structure Groups (κ : Type u) (α : Type v) [LT κ] where
  /-- The keys with their values. -/
  entries : List (κ × List α)
  /-- The keys ascend. -/
  ordered : entries.Pairwise fun left right => left.1 < right.1
  /-- Every key has a value. -/
  inhabited : ∀ entry ∈ entries, entry.2 ≠ []

namespace Groups

variable {κ : Type u} {α : Type v}

section Entries

variable [DecidableEq κ]

/-- The values of a key in a list of entries. -/
def lookup (entries : List (κ × List α)) (key : κ) : List α :=
  ((entries.find? fun entry => entry.1 = key).map Prod.snd).getD []

private theorem lookup_cons (first : κ × List α) (rest : List (κ × List α)) (key : κ) :
    lookup (first :: rest) key = if first.1 = key then first.2 else lookup rest key := by
  unfold lookup
  rw [List.find?_cons]
  by_cases same : first.1 = key <;> simp [same]

private theorem lookup_absent {entries : List (κ × List α)} {key : κ}
    (absent : ∀ entry ∈ entries, entry.1 ≠ key) : lookup entries key = [] := by
  -- The search finds no entry.
  have unfound : (entries.find? fun entry => entry.1 = key) = none :=
    List.find?_eq_none.mpr fun entry member => by simpa using absent entry member
  rw [lookup, unfound]
  rfl

/-- What a key has among the entries of one key. -/
private theorem lookup_filter (entries : List (κ × List α)) (key other : κ) :
    lookup (entries.filter fun entry => entry.1 = key) other =
      if other = key then lookup entries other else [] := by
  -- The induction is on the entries, and those of other keys are not looked at.
  induction entries with
  | nil => simp [lookup]
  | cons first rest ih =>
    rw [List.filter_cons]
    by_cases kept : first.1 = key
    · rw [if_pos (decide_eq_true kept), lookup_cons, lookup_cons, ih, kept]
      by_cases same : other = key
      · simp [same]
      · rw [if_neg fun back => same back.symm, if_neg same, if_neg same]
    · rw [if_neg (by simpa using kept), lookup_cons, ih]
      by_cases same : other = key
      · rw [if_pos same, if_pos same, if_neg fun equal => kept (equal.trans same)]
      · rw [if_neg same, if_neg same]

end Entries

section Push

variable [LT κ] [DecidableLT κ] [DecidableEq κ]

/-- Push a value behind those of its key, in a list whose keys ascend. -/
def pushInto (key : κ) (value : α) : List (κ × List α) → List (κ × List α)
  | [] => [(key, [value])]
  | (other, values) :: rest =>
    if key < other then (key, [value]) :: (other, values) :: rest
    else if key = other then (other, values ++ [value]) :: rest
    else (other, values) :: pushInto key value rest

/-- Every entry after a push is the one of its key, or was there. -/
private theorem mem_pushInto {key : κ} {value : α} {entries : List (κ × List α)}
    {entry : κ × List α} (member : entry ∈ pushInto key value entries) :
    entry ∈ entries ∨ (entry.1 = key ∧ entry.2 ≠ []) := by
  -- The induction is on the entries that the push walks along.
  induction entries with
  | nil =>
    obtain rfl := List.mem_singleton.mp member
    exact .inr ⟨rfl, by simp⟩
  | cons first rest ih =>
    obtain ⟨other, values⟩ := first
    rw [pushInto] at member
    split at member
    · rcases List.mem_cons.mp member with rfl | member
      · exact .inr ⟨rfl, by simp⟩
      · exact .inl member
    · split at member
      · rename_i same
        rcases List.mem_cons.mp member with rfl | member
        · exact .inr ⟨same.symm, by simp⟩
        · exact .inl (List.mem_cons_of_mem _ member)
      · rcases List.mem_cons.mp member with rfl | member
        · exact .inl List.mem_cons_self
        · exact (ih member).imp_left (List.mem_cons_of_mem _)

variable [LE κ] [Std.IsLinearOrder κ] [Std.LawfulOrderLT κ]

/-- A push keeps the keys ascending. -/
private theorem pushInto_ordered {key : κ} {value : α} {entries : List (κ × List α)}
    (ordered : entries.Pairwise fun left right => left.1 < right.1) :
    (pushInto key value entries).Pairwise fun left right => left.1 < right.1 := by
  induction entries with
  | nil => exact List.pairwise_singleton ..
  | cons first rest ih =>
    obtain ⟨other, values⟩ := first
    obtain ⟨front, ordered⟩ := List.pairwise_cons.mp ordered
    rw [pushInto]
    split
    · rename_i before
      refine List.pairwise_cons.mpr ⟨List.forall_mem_cons.mpr ⟨before, fun entry member => ?_⟩,
        List.pairwise_cons.mpr ⟨front, ordered⟩⟩
      exact Std.lt_trans before (front entry member)
    · rename_i notBefore
      split
      · exact List.pairwise_cons.mpr ⟨front, ordered⟩
      · rename_i different
        -- The key of the push is behind this one.
        have behind : other < key :=
          (Std.lt_trichotomy key other).elim (fun before => absurd before notBefore)
            fun others => others.resolve_left different
        refine List.pairwise_cons.mpr ⟨fun entry member => ?_, ih ordered⟩
        rcases mem_pushInto member with member | ⟨same, -⟩
        · exact front entry member
        · exact same ▸ behind

/-- A push adds to what its key has in a list of entries, and to no other. -/
private theorem lookup_pushInto {key : κ} {value : α} {entries : List (κ × List α)}
    (ordered : entries.Pairwise fun left right => left.1 < right.1) (other : κ) :
    lookup (pushInto key value entries) other =
      if other = key then lookup entries other ++ [value] else lookup entries other := by
  -- The induction is on the entries that the push walks along.
  induction entries with
  | nil =>
    rw [pushInto, lookup_cons]
    by_cases same : other = key
    · simp [same, lookup]
    · rw [if_neg fun equal => same equal.symm, if_neg same]
  | cons first rest ih =>
    obtain ⟨here, values⟩ := first
    obtain ⟨front, ordered⟩ := List.pairwise_cons.mp ordered
    rw [pushInto]
    split
    · rename_i before
      rw [lookup_cons]
      by_cases same : other = key
      · -- All keys that are there are behind the one that is pushed.
        have absent : ∀ entry ∈ (here, values) :: rest, entry.1 ≠ other := by
          refine List.forall_mem_cons.mpr ⟨fun equal => ?_, fun entry member equal => ?_⟩
          · exact Std.lt_irrefl (equal.trans same ▸ before)
          · exact Std.lt_irrefl (equal.trans same ▸ Std.lt_trans before (front entry member))
        rw [if_pos same.symm, if_pos same, lookup_absent absent, List.nil_append]
      · rw [if_neg fun equal => same equal.symm, if_neg same]
    · split
      · rename_i same
        rw [lookup_cons, lookup_cons]
        by_cases equal : other = key
        · simp [equal, same]
        · have apart : here ≠ other := fun back => equal (back.symm.trans same.symm)
          simp only [equal, apart, if_false]
      · rename_i different
        rw [lookup_cons, lookup_cons, ih ordered]
        by_cases equal : here = other
        · have apart : other ≠ key := fun back => different (back.symm.trans equal.symm)
          simp [equal, apart]
        · simp [equal]

end Push

variable [LT κ]

/-- No value at all. -/
def empty : Groups κ α := ⟨[], .nil, by simp⟩

/-- The keys that have values. -/
def keys (groups : Groups κ α) : List κ := groups.entries.map Prod.fst

/-- The keys ascend. -/
theorem keys_ordered (groups : Groups κ α) : groups.keys.Pairwise (· < ·) :=
  List.pairwise_map.mpr groups.ordered

section Order

variable [LE κ] [Std.LawfulOrderLT κ]

/-- No key is listed twice. -/
theorem nodup_keys (groups : Groups κ α) : groups.keys.Nodup := by
  -- No key is below itself.
  refine groups.keys_ordered.imp ?_
  intro left right before same
  rw [same] at before
  exact Std.lt_irrefl before

end Order

variable [DecidableEq κ]

/-- The values of a key, none where it is not there. -/
def get (groups : Groups κ α) (key : κ) : List α := lookup groups.entries key

/-- What there is of one key. -/
def only (groups : Groups κ α) (key : κ) : Groups κ α where
  entries := groups.entries.filter fun entry => entry.1 = key
  ordered := groups.ordered.filter _
  inhabited entry member := groups.inhabited entry (List.mem_of_mem_filter member)

/-- There is nothing under any key of the empty groups. -/
@[simp] theorem get_empty (key : κ) : (empty : Groups κ α).get key = [] := rfl

/-- What there is of one key has its values, and those of no other. -/
@[simp] theorem get_only (groups : Groups κ α) (key other : κ) :
    (groups.only key).get other = if other = key then groups.get other else [] :=
  lookup_filter groups.entries key other

variable [LE κ] [Std.LawfulOrderLT κ]

/-- An entry is what its key has, and what a key has is its entry. -/
theorem mem_entries {groups : Groups κ α} {key : κ} {values : List α} :
    (key, values) ∈ groups.entries ↔ groups.get key = values ∧ values ≠ [] := by
  -- A key is listed once, and never without a value.
  have found : (groups.entries.find? fun entry => entry.1 = key).map Prod.snd = some values ↔
      (key, values) ∈ groups.entries :=
    Lists.find?_key_eq_some fun left first right second same =>
      List.inj_on_of_nodup_map groups.nodup_keys first second same
  rw [← found]
  constructor
  · intro located
    exact ⟨by rw [get, lookup, located, Option.getD_some],
      groups.inhabited _ (found.mp located)⟩
  · intro held
    obtain ⟨rfl, some⟩ := held
    unfold get lookup at some ⊢
    cases located : (groups.entries.find? fun entry => entry.1 = key).map Prod.snd with
    | none => simp [located] at some
    | some values => rfl

/-- A key is listed exactly when it has values. -/
theorem mem_keys {groups : Groups κ α} {key : κ} : key ∈ groups.keys ↔ groups.get key ≠ [] := by
  -- The entry of a key is what it has.
  constructor
  · intro listed
    obtain ⟨⟨key, values⟩, member, rfl⟩ := List.mem_map.mp listed
    obtain ⟨held, some⟩ := mem_entries.mp member
    exact held ▸ some
  · intro some
    exact List.mem_map.mpr ⟨(key, groups.get key), mem_entries.mpr ⟨rfl, some⟩, rfl⟩

/-- The entries are the keys with what they have. -/
theorem entries_eq (groups : Groups κ α) :
    groups.entries = groups.keys.map fun key => (key, groups.get key) := by
  -- Every entry holds what its key has.
  rw [keys, List.map_map]
  refine (List.map_id _).symm.trans (List.map_congr_left ?_)
  rintro ⟨key, values⟩ member
  exact congrArg (key, ·) (mem_entries.mp member).1.symm

/-- One key has an entry of its own, or none. -/
theorem keys_only (groups : Groups κ α) (key : κ) :
    (groups.only key).keys = if groups.get key = [] then [] else [key] := by
  -- A key is listed once at most, and exactly when it has values.
  have filtered : (groups.only key).keys = groups.keys.filter (· = key) :=
    (List.filter_map (f := Prod.fst) (p := fun listed : κ => decide (listed = key))).symm
  rw [filtered, List.filter_eq]
  by_cases absent : groups.get key = []
  · rw [if_pos absent, List.count_eq_zero_of_not_mem fun listed => mem_keys.mp listed absent]
    rfl
  · rw [if_neg absent, List.count_eq_one_of_mem groups.nodup_keys (mem_keys.mpr absent)]
    rfl

variable [Std.IsLinearOrder κ]

/-- Groups with values under the same keys list them alike. -/
theorem keys_congr {β : Type*} {left : Groups κ α} {right : Groups κ β}
    (same : ∀ key, left.get key = [] ↔ right.get key = []) : left.keys = right.keys := by
  -- Both list the same keys in the one order there is.
  have listed : left.keys.Perm right.keys := by
    rw [List.perm_ext_iff_of_nodup left.nodup_keys right.nodup_keys]
    intro key
    rw [mem_keys, mem_keys]
    exact not_congr (same key)
  exact listed.eq_of_pairwise
    (fun first second _ _ before after => absurd (Std.lt_trans before after) Std.lt_irrefl)
    left.keys_ordered right.keys_ordered

/-- Groups with the same values under every key are the same. -/
theorem ext_get {left right : Groups κ α} (same : ∀ key, left.get key = right.get key) :
    left = right := by
  -- The keys are the same, and so is what they have.
  have listed : left.keys = right.keys := keys_congr fun key => by rw [same]
  have equal : left.entries = right.entries := by
    rw [entries_eq, entries_eq, listed]
    simp only [same]
  cases left
  cases right
  simpa using equal

variable [DecidableLT κ]

/-- Push a value behind those of its key. -/
def push (groups : Groups κ α) (key : κ) (value : α) : Groups κ α where
  entries := pushInto key value groups.entries
  ordered := pushInto_ordered groups.ordered
  inhabited entry member := (mem_pushInto member).elim (groups.inhabited entry) And.right

/-- A push adds to what its key has, and to no other. -/
@[simp] theorem get_push (groups : Groups κ α) (key : κ) (value : α) (other : κ) :
    (groups.push key value).get other =
      if other = key then groups.get other ++ [value] else groups.get other :=
  lookup_pushInto groups.ordered other

end Groups
