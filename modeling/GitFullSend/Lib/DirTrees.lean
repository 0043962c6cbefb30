import Mathlib.Algebra.Ring.Nat
import GitFullSend.Lib.Folds
import GitFullSend.Lib.Leaves

/-! Nested directory trees: looking a path up, writing a leaf, and visiting entries level by level. -/

variable {α β : Type*}

/-- The entries of a directory, one after the other, each a leaf or a directory of its own. -/
inductive DirTree (α β : Type*) where
  | nil
  | leaf (name : α) (value : β) (rest : DirTree α β)
  | dir (name : α) (inner rest : DirTree α β)
  deriving DecidableEq, Repr

namespace DirTree

/-- What stands at a path. -/
inductive Node (β : Type*) where
  | dir
  | leaf (value : β)
  deriving DecidableEq, Repr

/-- The names of the entries at the top. -/
def names : DirTree α β → List α
  | .nil => []
  | .leaf name _ rest => name :: rest.names
  | .dir name _ rest => name :: rest.names

/-- No directory has two entries of one name. -/
def Distinct : DirTree α β → Prop
  | .nil => True
  | .leaf name _ rest => name ∉ rest.names ∧ rest.Distinct
  | .dir name inner rest => name ∉ rest.names ∧ inner.Distinct ∧ rest.Distinct

instance distinctDecidable [DecidableEq α] :
    (tree : DirTree α β) → Decidable tree.Distinct
  | .nil => .isTrue trivial
  | .leaf name _ rest =>
    have := distinctDecidable rest
    inferInstanceAs (Decidable (name ∉ rest.names ∧ rest.Distinct))
  | .dir name inner rest =>
    have := distinctDecidable inner
    have := distinctDecidable rest
    inferInstanceAs (Decidable (name ∉ rest.names ∧ inner.Distinct ∧ rest.Distinct))

/-- Every name passes a test, at every depth. -/
def Names (test : α → Prop) : DirTree α β → Prop
  | .nil => True
  | .leaf name _ rest => test name ∧ rest.Names test
  | .dir name inner rest => test name ∧ inner.Names test ∧ rest.Names test

instance namesDecidable (test : α → Prop) [DecidablePred test] :
    (tree : DirTree α β) → Decidable (tree.Names test)
  | .nil => .isTrue trivial
  | .leaf name _ rest =>
    have := namesDecidable test rest
    inferInstanceAs (Decidable (test name ∧ rest.Names test))
  | .dir name inner rest =>
    have := namesDecidable test inner
    have := namesDecidable test rest
    inferInstanceAs (Decidable (test name ∧ inner.Names test ∧ rest.Names test))

/-- How many entries there are, at every depth. -/
def size : DirTree α β → Nat
  | .nil => 0
  | .leaf _ _ rest => rest.size + 1
  | .dir _ inner rest => inner.size + rest.size + 1

/-- The entries at the top of a directory, with their paths. -/
def records (path : List α) : DirTree α β → List (List α × Node β)
  | .nil => []
  | .leaf name value rest => (path ++ [name], .leaf value) :: rest.records path
  | .dir name _ rest => (path ++ [name], .dir) :: rest.records path

/-- The directories at the top of a directory, with their paths. -/
def inners (path : List α) : DirTree α β → List (List α × DirTree α β)
  | .nil => []
  | .leaf _ _ rest => rest.inners path
  | .dir name inner rest => (path ++ [name], inner) :: rest.inners path

/-- How many entries a queue of directories has left, and the directories themselves. -/
def pending (queue : List (List α × DirTree α β)) : Nat :=
  (queue.map fun waiting => waiting.2.size + 1).sum

theorem pending_inners (path : List α) (tree : DirTree α β) :
    pending (tree.inners path) ≤ tree.size := by
  -- Every inner directory pays for itself with the entry that names it.
  induction tree with
  | nil => simp [inners, pending, size]
  | leaf name value rest ih => simp only [inners, size]; omega
  | dir name inner rest _ ih =>
    simp only [inners, pending, size, List.map_cons, List.sum_cons] at ih ⊢
    omega

/-- Visit the entries of every queued directory, and queue those they hold behind the others. -/
def breadthfirst : List (List α × DirTree α β) → List (List α × Node β)
  | [] => []
  | (path, tree) :: queue => tree.records path ++ breadthfirst (queue ++ tree.inners path)
termination_by queue => pending queue
decreasing_by
  have inner := pending_inners path tree
  simp only [pending, List.map_append, List.sum_append, List.map_cons, List.sum_cons] at inner ⊢
  omega

/-- Every entry with its path, each directory followed by what it holds. -/
def walk (path : List α) : DirTree α β → List (List α × Node β)
  | .nil => []
  | .leaf name value rest => (path ++ [name], .leaf value) :: rest.walk path
  | .dir name inner rest =>
    (path ++ [name], .dir) :: (inner.walk (path ++ [name]) ++ rest.walk path)

private theorem walk_perm (path : List α) (tree : DirTree α β) :
    (tree.walk path).Perm (tree.records path ++
      (tree.inners path).flatMap fun waiting => waiting.2.walk waiting.1) := by
  -- The induction is on the entries at the top; what an inner directory holds stays as it is.
  induction tree with
  | nil => exact .refl _
  | leaf name value rest ih => exact ih.cons _
  | dir name inner rest _ ih =>
    have moved := ih.append_left (inner.walk (path ++ [name]))
    exact (moved.trans (List.perm_append_comm_assoc ..)).cons _

/-- Visiting level by level meets the same entries as going down at once. -/
theorem breadthfirst_perm (queue : List (List α × DirTree α β)) :
    (breadthfirst queue).Perm (queue.flatMap fun waiting => waiting.2.walk waiting.1) := by
  -- The induction follows the queue, whose end is where the inner directories wait.
  induction queue using breadthfirst.induct with
  | case1 => simp [breadthfirst]
  | case2 path tree queue ih =>
    rw [breadthfirst, List.flatMap_cons]
    have later := ih.append_left (tree.records path)
    rw [List.flatMap_append] at later
    refine later.trans ((List.perm_append_comm.append_left _).trans ?_)
    rw [← List.append_assoc]
    exact (walk_perm path tree).symm.append_right _

section Find

variable [DecidableEq α]

/-- What stands at a path. -/
def find : DirTree α β → List α → Option (Node β)
  | _, [] => some .dir
  | .nil, _ :: _ => none
  | .leaf name value rest, first :: below =>
    if name = first then if below = [] then some (.leaf value) else none
    else rest.find (first :: below)
  | .dir name inner rest, first :: below =>
    if name = first then inner.find below else rest.find (first :: below)

/-- The leaf at a path, if there is one. -/
def leafAt (tree : DirTree α β) (path : List α) : Option β :=
  match tree.find path with
  | some (.leaf value) => some value
  | _ => none

/-- Two trees with the same leaf or directory at every path. -/
def Same (left right : DirTree α β) : Prop :=
  ∀ path, left.find path = right.find path

@[simp] theorem find_root (tree : DirTree α β) : tree.find [] = some .dir := by
  cases tree <;> rfl

/-- What is found below a name is below one of the names at the top. -/
theorem mem_names_of_find {tree : DirTree α β} {first : α} {below : List α} {node : Node β}
    (found : tree.find (first :: below) = some node) : first ∈ tree.names := by
  -- The lookup stops at an entry of that name, or it goes on with the entries behind.
  induction tree with
  | nil => cases found
  | leaf name value rest ih =>
    rw [find] at found
    split at found
    · rename_i same; exact same ▸ List.mem_cons_self
    · exact List.mem_cons_of_mem _ (ih found)
  | dir name inner rest _ ih =>
    rw [find] at found
    split at found
    · rename_i same; exact same ▸ List.mem_cons_self
    · exact List.mem_cons_of_mem _ (ih found)

private theorem ne_of_find {name first : α} {rest : DirTree α β} {below : List α} {node : Node β}
    (fresh : name ∉ rest.names) (found : rest.find (first :: below) = some node) :
    name ≠ first := by
  rintro rfl
  exact fresh (mem_names_of_find found)

/-- The walk meets exactly what is found below the top. -/
theorem mem_walk {tree : DirTree α β} (distinct : tree.Distinct) {path whole : List α}
    {node : Node β} :
    (whole, node) ∈ tree.walk path ↔
      ∃ below, below ≠ [] ∧ whole = path ++ below ∧ tree.find below = some node := by
  -- The induction is on the entries: an entry that comes later has another name.
  induction tree generalizing path with
  | nil =>
    simp only [walk, List.not_mem_nil, false_iff, not_exists, not_and]
    intro below nonempty _ found
    obtain ⟨first, below, rfl⟩ := List.exists_cons_of_ne_nil nonempty
    cases found
  | leaf name value rest ih =>
    obtain ⟨fresh, distinct⟩ := distinct
    rw [walk, List.mem_cons, ih distinct]
    constructor
    · intro member
      rcases member with here | ⟨below, nonempty, rfl, found⟩
      · cases here
        exact ⟨[name], by simp, rfl, by simp [find]⟩
      · obtain ⟨first, below, rfl⟩ := List.exists_cons_of_ne_nil nonempty
        exact ⟨_, nonempty, rfl, by rwa [find, if_neg (ne_of_find fresh found)]⟩
    · intro held
      obtain ⟨below, nonempty, rfl, found⟩ := held
      obtain ⟨first, below, rfl⟩ := List.exists_cons_of_ne_nil nonempty
      rw [find] at found
      split at found
      · rename_i same
        split at found
        · rename_i last
          cases found
          exact .inl (by rw [same, last])
        · cases found
      · exact .inr ⟨_, nonempty, rfl, found⟩
  | dir name inner rest inside ih =>
    obtain ⟨fresh, distinct', distinct⟩ := distinct
    rw [walk, List.mem_cons, List.mem_append, ih distinct, inside distinct']
    constructor
    · intro member
      rcases member with here | ⟨below, nonempty, rfl, found⟩ | ⟨below, nonempty, rfl, found⟩
      · cases here
        exact ⟨[name], by simp, rfl, by simp [find]⟩
      · exact ⟨name :: below, by simp, by simp, by simpa [find] using found⟩
      · obtain ⟨first, below, rfl⟩ := List.exists_cons_of_ne_nil nonempty
        exact ⟨_, nonempty, rfl, by rwa [find, if_neg (ne_of_find fresh found)]⟩
    · intro held
      obtain ⟨below, nonempty, rfl, found⟩ := held
      obtain ⟨first, below, rfl⟩ := List.exists_cons_of_ne_nil nonempty
      rw [find] at found
      split at found
      · rename_i same
        subst same
        cases below with
        | nil => exact .inl (by simpa [eq_comm] using found)
        | cons second below => exact .inr (.inl ⟨_, by simp, by simp, found⟩)
      · exact .inr (.inr ⟨_, nonempty, rfl, found⟩)

/-- The entries that are visited are those that are found. -/
theorem mem_breadthfirst {tree : DirTree α β} (distinct : tree.Distinct) {path : List α}
    {node : Node β} :
    (path, node) ∈ breadthfirst [([], tree)] ↔ path ≠ [] ∧ tree.find path = some node := by
  -- The order of the visits does not matter, and the walk from the top meets what is found.
  rw [(breadthfirst_perm _).mem_iff]
  simp only [List.flatMap_cons, List.flatMap_nil, List.append_nil, mem_walk distinct,
    List.nil_append]
  constructor
  · intro held
    obtain ⟨below, nonempty, rfl, found⟩ := held
    exact ⟨nonempty, found⟩
  · intro held
    exact ⟨path, held.1, rfl, held.2⟩

/-- Above whatever stands somewhere there is a directory. -/
theorem find_above {tree : DirTree α β} {path other : List α} {node : Node β}
    (found : tree.find other = some node) (above : path <+: other) (shorter : path ≠ other) :
    tree.find path = some .dir := by
  -- Below a leaf and below nothing there is nothing, so only a directory is left.
  induction tree generalizing path other with
  | nil =>
    cases path with
    | nil => rfl
    | cons first path => obtain ⟨further, rfl⟩ := above; cases found
  | leaf name held rest ih =>
    cases path with
    | nil => rfl
    | cons first path =>
      obtain ⟨further, rfl⟩ := above
      rw [List.cons_append, find] at found
      rw [find]
      split at found
      · rename_i same
        split at found
        · rename_i last
          obtain ⟨rfl, rfl⟩ := List.append_eq_nil_iff.mp last
          exact absurd rfl shorter
        · cases found
      · rename_i other
        rw [if_neg other]
        exact ih found (List.prefix_append (first :: path) further) shorter
  | dir name inner rest inside ih =>
    cases path with
    | nil => rfl
    | cons first path =>
      obtain ⟨further, rfl⟩ := above
      rw [List.cons_append, find] at found
      rw [find]
      split at found
      · rename_i same
        rw [if_pos same]
        exact inside found (List.prefix_append path further) fun whole =>
          shorter (by rw [List.cons_append, ← whole])
      · rename_i other
        rw [if_neg other]
        exact ih found (List.prefix_append (first :: path) further) shorter

/-- Nothing stands below a leaf. -/
theorem find_below_leaf {tree : DirTree α β} {path other : List α} {value : β}
    (found : tree.find path = some (.leaf value)) (below : path <+: other) (longer : path ≠ other) :
    tree.find other = none := by
  cases stands : tree.find other with
  | none => rfl
  | some node => cases found.symm.trans (find_above stands below longer)

/-- The entry for a path of which nothing is there yet, before the other entries. -/
def graft (first : α) (below : List α) (value : β) (rest : DirTree α β) : DirTree α β :=
  match below with
  | [] => .leaf first value rest
  | second :: deeper => .dir first (graft second deeper value .nil) rest

/-- Writing a leaf below a name: directories appear on the way, and what was there gives way. -/
def upsert : DirTree α β → α → List α → β → DirTree α β
  | .nil, first, below, value => graft first below value .nil
  | .leaf name held rest, first, below, value =>
    if name = first then graft first below value rest
    else .leaf name held (rest.upsert first below value)
  | .dir name inner rest, first, below, value =>
    if name = first then
      match below with
      | [] => .leaf first value rest
      | second :: deeper => .dir name (inner.upsert second deeper value) rest
    else .dir name inner (rest.upsert first below value)

/-- What a leaf that is written at one path leaves at another. -/
def touch (path : List α) (entry : List α × β) : Option (Option (Node β)) :=
  if entry.1 = path then some (some (.leaf entry.2))
  else if path <+: entry.1 then some (some .dir)
  else if entry.1 <+: path then some none
  else none

section Touch

variable {first other : α} {path below : List α} {value : β} {rest : DirTree α β}

@[simp] private theorem touch_root : touch [] (first :: below, value) = some (some .dir) := by
  simp [touch]

@[simp] private theorem touch_cons :
    touch (first :: path) (first :: below, value) = touch path (below, value) := by
  simp [touch]

private theorem touch_cons_ne (apart : first ≠ other) :
    touch (other :: path) (first :: below, value) = none := by
  simp [touch, apart, Ne.symm apart]

private theorem touch_here (left right : Option (Node β)) :
    (touch [] (below, value)).getD left = (touch [] (below, value)).getD right := by
  unfold touch
  split <;> simp

private theorem find_graft :
    (graft first below value rest).find (first :: path) =
      (touch path (below, value)).getD none := by
  -- The induction is on the names below the first, each of which becomes a directory.
  induction below generalizing first path rest with
  | nil =>
    cases path <;> simp [graft, find, touch]
  | cons second deeper ih =>
    rw [graft, find, if_pos rfl]
    cases path with
    | nil => simp
    | cons name path =>
      by_cases same : second = name
      · subst same
        rw [ih, touch_cons]
      · rw [touch_cons_ne same]
        cases deeper <;> simp [graft, find, same]

private theorem find_graft_ne (apart : first ≠ other) :
    (graft first below value rest).find (other :: path) = rest.find (other :: path) := by
  cases below <;> simp [graft, find, apart]

end Touch

/-- Writing a leaf touches what cannot stand beside it, and nothing else. -/
theorem find_upsert (tree : DirTree α β) (first : α) (below : List α) (value : β)
    (path : List α) :
    (tree.upsert first below value).find path =
      (touch path (first :: below, value)).getD (tree.find path) := by
  -- The induction is on the entries, down to the one whose name opens the path.
  induction tree generalizing first below path with
  | nil =>
    cases path with
    | nil => simp
    | cons name path =>
      rw [upsert]
      by_cases same : first = name
      · subst same
        rw [find_graft, touch_cons, find]
      · rw [find_graft_ne same, touch_cons_ne same, Option.getD_none]
  | leaf held kept rest ih =>
    cases path with
    | nil => simp
    | cons name path =>
      rw [upsert]
      by_cases here : held = first
      · subst here
        rw [if_pos rfl]
        by_cases same : held = name
        · subst same
          rw [find_graft, touch_cons, find, if_pos rfl]
          split
          · rename_i last
            subst last
            exact touch_here _ _
          · rfl
        · rw [find_graft_ne same, touch_cons_ne same, find, if_neg same, Option.getD_none]
      · rw [if_neg here, find, find, ih]
        by_cases same : held = name
        · subst same
          simp [touch_cons_ne (Ne.symm here)]
        · rw [if_neg same, if_neg same]
  | dir held inner rest inside ih =>
    cases path with
    | nil => simp
    | cons name path =>
      unfold upsert
      by_cases here : held = first
      · subst here
        rw [if_pos rfl]
        by_cases same : held = name
        · subst same
          rw [touch_cons, find, if_pos rfl]
          cases below with
          | nil => cases path <;> simp [find, touch]
          | cons second deeper => simp [find, inside]
        · rw [touch_cons_ne same, Option.getD_none, find, if_neg same]
          cases below <;> simp [find, same]
      · rw [if_neg here, find, find, ih]
        by_cases same : held = name
        · subst same
          simp [touch_cons_ne (Ne.symm here)]
        · rw [if_neg same, if_neg same]

section Keeps

variable {tree : DirTree α β} {first : α} {below : List α} {value : β}

omit [DecidableEq α] in
private theorem mem_names_graft {rest : DirTree α β} {name : α} :
    name ∈ (graft first below value rest).names ↔ name = first ∨ name ∈ rest.names := by
  cases below <;> simp [graft, names]

/-- Writing a leaf below a name adds no other name. -/
theorem mem_names_upsert {name : α} :
    name ∈ (tree.upsert first below value).names ↔ name = first ∨ name ∈ tree.names := by
  -- The induction is on the entries; the one with that name is replaced.
  induction tree with
  | nil => rw [upsert, mem_names_graft]
  | leaf held kept rest ih =>
    rw [upsert]
    split
    · rename_i same
      simp [mem_names_graft, names, same]
    · simp only [names, List.mem_cons, ih, or_left_comm]
  | dir held inner rest _ ih =>
    unfold upsert
    split
    · rename_i same
      cases below <;> simp [names, same]
    · simp only [names, List.mem_cons, ih, or_left_comm]

omit [DecidableEq α] in
private theorem distinct_graft {rest : DirTree α β} (fresh : first ∉ rest.names)
    (distinct : rest.Distinct) : (graft first below value rest).Distinct := by
  -- A new directory holds the one entry that leads on.
  induction below generalizing first rest with
  | nil => exact ⟨fresh, distinct⟩
  | cons second deeper ih => exact ⟨fresh, ih (by simp [names]) trivial, distinct⟩

/-- Writing a leaf keeps the names of every directory distinct. -/
theorem Distinct.upsert (distinct : tree.Distinct) : (tree.upsert first below value).Distinct := by
  -- The entry of that name is replaced in its place, or the new one comes last.
  induction tree generalizing first below with
  | nil => exact distinct_graft (by simp [names]) trivial
  | leaf held kept rest ih =>
    obtain ⟨fresh, distinct⟩ := distinct
    rw [DirTree.upsert]
    split
    · rename_i same
      exact distinct_graft (same ▸ fresh) distinct
    · rename_i other
      exact ⟨fun within => (mem_names_upsert.mp within).elim other fresh, ih distinct⟩
  | dir held inner rest inside ih =>
    obtain ⟨fresh, distinct', distinct⟩ := distinct
    unfold DirTree.upsert
    split
    · rename_i same
      cases below with
      | nil => exact ⟨same ▸ fresh, distinct⟩
      | cons second deeper => exact ⟨fresh, inside distinct', distinct⟩
    · rename_i other
      exact ⟨fun within => (mem_names_upsert.mp within).elim other fresh, distinct', ih distinct⟩

variable {test : α → Prop}

omit [DecidableEq α] in
private theorem names_graft {rest : DirTree α β} (passes : ∀ name ∈ first :: below, test name)
    (others : rest.Names test) : (graft first below value rest).Names test := by
  -- Each directory on the way is named by the path.
  induction below generalizing first rest with
  | nil => exact ⟨passes first List.mem_cons_self, others⟩
  | cons second deeper ih =>
    obtain ⟨here, passes⟩ := List.forall_mem_cons.mp passes
    exact ⟨here, ih passes trivial, others⟩

/-- Writing a leaf brings in the names of its path only. -/
theorem Names.upsert (names : tree.Names test) (passes : ∀ name ∈ first :: below, test name) :
    (tree.upsert first below value).Names test := by
  -- The induction follows the path: every name on it passes, and the others are kept.
  induction tree generalizing first below with
  | nil => exact names_graft passes trivial
  | leaf held kept rest ih =>
    obtain ⟨here, names⟩ := names
    rw [DirTree.upsert]
    split
    · exact names_graft passes names
    · exact ⟨here, ih names passes⟩
  | dir held inner rest inside ih =>
    obtain ⟨here, names', names⟩ := names
    unfold DirTree.upsert
    split
    · cases below with
      | nil => exact ⟨passes first List.mem_cons_self, names⟩
      | cons second deeper =>
        exact ⟨here, inside names' (List.forall_mem_cons.mp passes).2, names⟩
    · exact ⟨here, names', ih names passes⟩

/-- Whatever is found has a path of such names. -/
theorem Names.of_find (names : tree.Names test) {path : List α} {node : Node β}
    (found : tree.find path = some node) : ∀ name ∈ path, test name := by
  -- The induction is on the entries, down the path.
  induction tree generalizing path with
  | nil =>
    cases path with
    | nil => simp
    | cons first path => cases found
  | leaf held kept rest ih =>
    cases path with
    | nil => simp
    | cons first path =>
      rw [find] at found
      split at found
      · rename_i same
        split at found
        · rename_i last
          subst same last
          simpa using names.1
        · cases found
      · exact ih names.2 found
  | dir held inner rest inside ih =>
    cases path with
    | nil => simp
    | cons first path =>
      rw [find] at found
      split at found
      · rename_i same
        subst same
        exact List.forall_mem_cons.mpr ⟨names.1, inside names.2.1 found⟩
      · exact ih names.2.2 found

end Keeps

/-- Writing a leaf at a path; there is none at the root. -/
def write (tree : DirTree α β) (entry : List α × β) : DirTree α β :=
  match entry.1 with
  | [] => tree
  | first :: below => tree.upsert first below entry.2

/-- Writing a leaf keeps the names of every directory distinct. -/
theorem Distinct.write {tree : DirTree α β} (distinct : tree.Distinct) (entry : List α × β) :
    (tree.write entry).Distinct := by
  -- At the root nothing is written.
  unfold DirTree.write
  split
  · exact distinct
  · exact distinct.upsert

/-- Writing a leaf brings in the names of its path only. -/
theorem Names.write {tree : DirTree α β} {test : α → Prop} (names : tree.Names test)
    {entry : List α × β} (passes : ∀ name ∈ entry.1, test name) :
    (tree.write entry).Names test := by
  -- At the root nothing is written.
  unfold DirTree.write
  split
  · exact names
  · rename_i path
    exact names.upsert (path ▸ passes)

/-- Writing leaves from first to last. -/
def writes (tree : DirTree α β) (entries : List (List α × β)) : DirTree α β :=
  entries.foldl write tree

/-- The leaf of a visited entry, if it is one. -/
def leafOf (record : List α × Node β) : Option (List α × β) :=
  match record.2 with
  | .dir => none
  | .leaf value => some (record.1, value)

/-- The leaves that are visited, with their paths. -/
def leaves (tree : DirTree α β) : List (List α × β) :=
  (breadthfirst [([], tree)]).filterMap leafOf

/-- Writing every leaf of one tree over another. -/
def overlay (base top : DirTree α β) : DirTree α β :=
  base.writes top.leaves

/-- Entries of which no two different ones are at comparable paths, and none at the root. -/
structure Apart (entries : List (List α × β)) : Prop where
  rooted : ∀ entry ∈ entries, entry.1 ≠ []
  beside : ∀ left ∈ entries, ∀ right ∈ entries, Comparable left.1 right.1 → left = right

section Writes

variable {tree : DirTree α β} {entries : List (List α × β)} {path : List α}

theorem find_write {entry : List α × β} (below : entry.1 ≠ []) :
    (tree.write entry).find path = (touch path entry).getD (tree.find path) := by
  obtain ⟨place, value⟩ := entry
  obtain ⟨first, rest, rfl⟩ := List.exists_cons_of_ne_nil below
  exact find_upsert tree first rest value path

private theorem touch_cases {entry : List α × β} {left : Option (Node β)}
    (touched : touch path entry = some left) :
    (path <+: entry.1 ∧ left = some .dir) ∨ entry.1 <+: path := by
  -- A leaf touches its own path, what lies above it, and what lies below it.
  unfold touch at touched
  split at touched
  · rename_i same
    exact .inr (same ▸ List.prefix_rfl)
  · split at touched
    · cases touched
      exact .inl ⟨‹_›, rfl⟩
    · split at touched
      · exact .inr ‹_›
      · cases touched

/-- Entries beside each other leave a path that several of them touch alike. -/
theorem Apart.touch_agree (apart : Apart entries) {first second : List α × β}
    {left right : Option (Node β)} (here : first ∈ entries) (there : second ∈ entries)
    (touched : touch path first = some left) (touched' : touch path second = some right) :
    left = right := by
  -- Either both lie below the path, or they are at comparable paths and so the same.
  have one : Comparable first.1 second.1 → left = right := by
    intro close
    obtain rfl := apart.beside first here second there close
    exact Option.some.inj (touched.symm.trans touched')
  rcases touch_cases touched with ⟨lower, folder⟩ | upper <;>
    rcases touch_cases touched' with ⟨lower', folder'⟩ | upper'
  · rw [folder, folder']
  · exact one (.inr (upper'.trans lower))
  · exact one (.inl (upper.trans lower'))
  · exact one (List.prefix_or_prefix_of_prefix upper upper')

/-- A path ends as the entries that touch it leave it. -/
theorem Apart.find_touched (apart : Apart entries) {entry : List α × β} (member : entry ∈ entries)
    {left : Option (Node β)} (touched : touch path entry = some left) :
    (tree.writes entries).find path = left := by
  -- All that touch the path agree on it, so it does not matter which comes last.
  refine @Folds.foldl_settles _ _ _ write (find · path) (touch path) _ _ _
    (fun other inside _ => find_write (apart.rooted other inside)) ?_
    (.inr ⟨entry, member, by simp [touched]⟩)
  intro other inside value touched'
  exact apart.touch_agree inside member touched' touched

/-- A path that no entry touches stays as it was. -/
theorem Apart.find_untouched (apart : Apart entries)
    (spared : ∀ entry ∈ entries, touch path entry = none) :
    (tree.writes entries).find path = tree.find path := by
  -- Nothing touches the path, so it settles where it began.
  refine @Folds.foldl_settles _ _ _ write (find · path) (touch path) _ _ _
    (fun other inside _ => find_write (apart.rooted other inside)) ?_ (.inl rfl)
  intro entry inside value touched
  cases (spared entry inside).symm.trans touched

/-- A path is touched by an entry, or spared by all of them. -/
private theorem touched_or_spared (path : List α) (entries : List (List α × β)) :
    (∃ entry ∈ entries, ∃ left, touch path entry = some left) ∨
      ∀ entry ∈ entries, touch path entry = none := by
  by_cases touched : ∃ entry ∈ entries, touch path entry ≠ none
  · obtain ⟨entry, inside, touched⟩ := touched
    obtain ⟨left, touched⟩ := Option.ne_none_iff_exists'.mp touched
    exact .inl ⟨entry, inside, left, touched⟩
  · push Not at touched
    exact .inr touched

/-- What entries beside each other leave depends on which there are, and not on their order. -/
theorem Apart.writes_same (apart : Apart entries) {others : List (List α × β)}
    (members : ∀ entry, entry ∈ others ↔ entry ∈ entries) :
    (tree.writes others).Same (tree.writes entries) := by
  -- A path is touched by an entry that both lists have, or by none of either.
  have apart' : Apart others := ⟨fun entry inside => apart.rooted entry ((members entry).mp inside),
    fun left here right there => apart.beside left ((members left).mp here) right
      ((members right).mp there)⟩
  intro path
  rcases touched_or_spared path entries with ⟨entry, inside, left, touched⟩ | spared
  · rw [apart.find_touched inside touched,
      apart'.find_touched ((members entry).mpr inside) touched]
  · rw [apart.find_untouched spared,
      apart'.find_untouched fun entry inside => spared entry ((members entry).mp inside)]

/-- Entries beside each other that are written once more change nothing. -/
theorem Apart.writes_again (apart : Apart entries) :
    ((tree.writes entries).writes entries).Same (tree.writes entries) := by
  -- The second time finds every touched path as it leaves it.
  intro path
  rcases touched_or_spared path entries with ⟨entry, inside, left, touched⟩ | spared
  · rw [apart.find_touched inside touched, apart.find_touched inside touched]
  · exact apart.find_untouched spared

end Writes

section Overlay

variable {base top : DirTree α β} {path : List α} {value : β}

theorem leafAt_eq_some : top.leafAt path = some value ↔ top.find path = some (.leaf value) := by
  unfold leafAt
  split <;> simp_all

/-- The leaves that are visited are those that are found. -/
theorem mem_leaves (distinct : top.Distinct) :
    (path, value) ∈ top.leaves ↔ top.leafAt path = some value := by
  -- Directories are left out of the visited entries, and the root is a directory.
  rw [leafAt_eq_some, leaves, List.mem_filterMap]
  constructor
  · intro visited
    obtain ⟨⟨place, node⟩, inside, same⟩ := visited
    cases node with
    | dir => cases same
    | leaf held =>
      cases same
      exact ((mem_breadthfirst distinct).mp inside).2
  · intro found
    have below : path ≠ [] := by rintro rfl; simp at found
    exact ⟨_, (mem_breadthfirst distinct).mpr ⟨below, found⟩, rfl⟩

/-- No leaf of a tree lies below another. -/
theorem leaves_apart (distinct : top.Distinct) : Apart top.leaves := by
  -- A leaf at a comparable path would lie below another, where nothing stands.
  have found : ∀ entry ∈ top.leaves, top.find entry.1 = some (.leaf entry.2) := by
    intro entry inside
    exact leafAt_eq_some.mp ((mem_leaves distinct).mp inside)
  constructor
  · intro entry inside root
    have leaf := found entry inside
    simp [root] at leaf
  · intro left here right there close
    have same : left.1 = right.1 := by
      by_contra different
      rcases close with below | above
      · cases (find_below_leaf (found left here) below different).symm.trans (found right there)
      · cases (find_below_leaf (found right there) above (Ne.symm different)).symm.trans
          (found left here)
    have leaf := (found left here).symm.trans (same ▸ found right there)
    exact Prod.ext same (by simpa using leaf)

/-- Every leaf of the tree on top is a leaf of the overlay. -/
theorem leafAt_overlay_top (distinct : top.Distinct) (found : top.leafAt path = some value) :
    (base.overlay top).leafAt path = some value := by
  rw [leafAt_eq_some]
  exact (leaves_apart distinct).find_touched ((mem_leaves distinct).mpr found) (by simp [touch])

/-- A path that cannot stand beside a leaf on top has no leaf, unless it is that leaf. -/
theorem leafAt_overlay_close (distinct : top.Distinct) {other : List α}
    (found : top.leafAt other = some value) (different : other ≠ path)
    (close : Comparable other path) : (base.overlay top).leafAt path = none := by
  -- Above a leaf there is a directory, and below it there is nothing.
  have member := (mem_leaves distinct).mpr found
  unfold leafAt
  by_cases above : path <+: other
  -- The other leaf is what touches the path, and what it leaves there is no leaf.
  · have touched : touch path (other, value) = some (some .dir) := by
      simp [touch, different, above]
    have folder : (base.overlay top).find path = some .dir :=
      (leaves_apart distinct).find_touched member touched
    rw [folder]
  · have touched : touch path (other, value) = some none := by
      simp [touch, different, above, close.resolve_right above]
    have nothing : (base.overlay top).find path = none :=
      (leaves_apart distinct).find_touched member touched
    rw [nothing]

/-- A path beside all leaves on top is as it was. -/
theorem leafAt_overlay_beside (distinct : top.Distinct)
    (beside : ∀ other value, top.leafAt other = some value → ¬ Comparable other path) :
    (base.overlay top).leafAt path = base.leafAt path := by
  -- No leaf on top touches the path, as none is at a comparable one.
  have same : (base.overlay top).find path = base.find path := by
    refine (leaves_apart distinct).find_untouched fun entry inside => ?_
    have apart := beside entry.1 entry.2 ((mem_leaves distinct).mp inside)
    obtain ⟨upper, lower⟩ := not_or.mp apart
    have different : entry.1 ≠ path := by
      intro same
      exact apart (same ▸ .refl _)
    simp [touch, different, upper, lower]
  unfold leafAt
  rw [same]

end Overlay

end Find

end DirTree
