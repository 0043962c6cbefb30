import GitFullSend.Lib.Folds
import GitFullSend.Lib.Leaves

/-! Sequences of edits to a tree, and exactly which of them may be reordered. -/

variable {α β : Type*}

/-- One edit of a tree: drop what stands at a path, or write a leaf there. -/
inductive Edit (α β : Type*) where
  /-- Drop the leaf at the path, or everything below it. -/
  | remove (path : List α)
  /-- Write the leaf at the path, whatever is in its way. -/
  | upsert (path : List α) (leaf : β)
  deriving DecidableEq, Repr

namespace Edit

/-- Two edits whose order matters: the later one undoes part of the earlier one. -/
def Clash : Edit α β → Edit α β → Prop
  -- A removal takes every leaf written at its path or below it.
  | .remove upper, .upsert lower _ => upper <+: lower
  | .upsert lower _, .remove upper => upper <+: lower
  -- Of two leaves that cannot stand beside each other, the later one stays.
  | .upsert left first, .upsert right second =>
    Comparable left right ∧ (left, first) ≠ (right, second)
  | .remove _, .remove _ => False

instance [DecidableEq α] [DecidableEq β] (left right : Edit α β) :
    Decidable (left.Clash right) := by
  cases left <;> cases right <;> unfold Clash <;> infer_instance

/-- No edit clashes with itself. -/
theorem clash_irrefl (edit : Edit α β) : ¬ edit.Clash edit := by
  cases edit <;> simp [Clash]

/-- Clashing does not depend on which edit is named first. -/
theorem Clash.symm {left right : Edit α β} (clash : left.Clash right) : right.Clash left := by
  -- Only two writes compare paths, and that comparison is symmetric.
  cases left <;> cases right <;> simp only [Clash] at clash ⊢
  · exact clash
  · exact clash
  · exact ⟨clash.1.symm, clash.2.symm⟩

variable [DecidableEq α]

/-- Carrying out one edit. -/
def apply (leaves : Leaves α β) : Edit α β → Leaves α β
  | .remove path => leaves.remove path
  | .upsert path leaf => leaves.upsert path leaf

/-- Carrying out edits from first to last. -/
def run (leaves : Leaves α β) (edits : List (Edit α β)) : Leaves α β :=
  edits.foldl apply leaves

/-- What one edit does to the lookups of any tree. -/
def effect (lookup : List α → Option β) : Edit α β → List α → Option β
  | .remove path, other => if path <+: other then none else lookup other
  | .upsert path leaf, other =>
    if path = other then some leaf else if Comparable path other then none else lookup other

/-- An edit changes the lookups of a tree by its effect. -/
@[simp] theorem get_apply (leaves : Leaves α β) (edit : Edit α β) :
    (apply leaves edit).get = edit.effect leaves.get := by
  funext other
  cases edit with
  | remove path => exact Leaves.get_remove
  | upsert path leaf => exact Leaves.get_upsert

/-- A run of edits changes the lookups by their effects in turn. -/
theorem get_run (leaves : Leaves α β) (edits : List (Edit α β)) :
    (run leaves edits).get = edits.foldl effect leaves.get := by
  -- The induction is on the edits, and the tree changes from one to the next.
  induction edits generalizing leaves with
  | nil => rfl
  | cons edit rest ih =>
    simp only [run, List.foldl_cons] at ih ⊢
    rw [ih, get_apply]

private theorem effect_comm {left right : Edit α β} (free : ¬ left.Clash right)
    (lookup : List α → Option β) :
    right.effect (left.effect lookup) = left.effect (right.effect lookup) := by
  -- One case for each pair of edits; a path is looked up through both of them.
  funext other
  cases left with
  | remove upper =>
    cases right with
    | remove lower => simp only [effect]; split <;> split <;> rfl
    | upsert lower leaf =>
      -- The removed path does not open the written one, so the new leaf survives the removal.
      have safe : lower = other → ¬ upper <+: other := by rintro rfl; exact free
      simp only [effect]
      by_cases here : lower = other
      · simp [here, safe here]
      · simp only [if_neg here]; split <;> split <;> rfl
  | upsert path leaf =>
    cases right with
    | remove upper =>
      have safe : path = other → ¬ upper <+: other := by rintro rfl; exact free
      simp only [effect]
      by_cases here : path = other
      · simp [here, safe here]
      · simp only [if_neg here]; split <;> split <;> rfl
    | upsert lower value =>
      simp only [Clash, not_and, not_not] at free
      by_cases close : Comparable path lower
      · -- Comparable paths are only free when both edits write the same leaf at one path.
        obtain ⟨rfl, rfl⟩ := Prod.mk.inj (free close)
        rfl
      · have first : path = other → ¬ Comparable lower other := by
          rintro rfl; exact fun near => close near.symm
        have second : lower = other → ¬ Comparable path other := by rintro rfl; exact close
        have apart : path ≠ lower := by rintro rfl; exact close (.refl _)
        simp only [effect]
        by_cases here : path = other
        · simp [here, first here, show lower ≠ other from fun same => apart (here.trans same.symm)]
        · by_cases there : lower = other
          · simp [there, second there, show path ≠ other from here]
          · simp only [if_neg here, if_neg there]; split <;> split <;> rfl

/-- Edits of which no two clash leave the same tree in every order. -/
theorem run_perm {edits reordered : List (Edit α β)}
    (free : ∀ left ∈ edits, ∀ right ∈ edits, ¬ left.Clash right)
    (same : edits.Perm reordered) (leaves : Leaves α β) :
    (run leaves edits).Same (run leaves reordered) := by
  -- Their effects commute in pairs, which is all that reordering a fold needs.
  have folded := same.foldl_eq' (f := effect) (fun left first right second lookup =>
    effect_comm (free left first right second) lookup) leaves.get
  intro path
  rw [get_run, get_run, folded]

/-- Two edits that clash leave different trees when they come last, in either order. -/
theorem run_clash {left right : Edit α β} (clash : left.Clash right) (edits : List (Edit α β))
    (leaves : Leaves α β) :
    ¬ (run leaves (edits ++ [left, right])).Same (run leaves (edits ++ [right, left])) := by
  -- The path of the earlier edit tells the two orders apart.
  intro same
  have lookups : ∀ path, right.effect (left.effect (run leaves edits).get) path =
      left.effect (right.effect (run leaves edits).get) path := by
    intro path
    have here := same path
    simp only [get_run, List.foldl_append, List.foldl_cons, List.foldl_nil] at here ⊢
    exact here
  cases left with
  | remove upper =>
    cases right with
    | remove lower => exact clash
    | upsert lower leaf => simpa [effect, show upper <+: lower from clash] using lookups lower
  | upsert path leaf =>
    cases right with
    | remove upper => simpa [effect, show upper <+: path from clash] using lookups path
    | upsert lower value =>
      obtain ⟨close, different⟩ := clash
      by_cases here : path = lower
      · subst here
        have leaves : value = leaf := by simpa [effect] using lookups path
        exact different (by rw [leaves])
      · simpa [effect, here, Ne.symm here, close, close.symm] using lookups path

/-- What an edit leaves at a path, if it has anything to do with that path at all. -/
def touch (path : List α) : Edit α β → Option (Option β)
  | .remove upper => if upper <+: path then some none else none
  | .upsert lower leaf =>
    if lower = path then some (some leaf) else if Comparable lower path then some none else none

/-- A path looks as an edit leaves it, or as it was. -/
theorem effect_eq_touch (lookup : List α → Option β) (edit : Edit α β) (path : List α) :
    edit.effect lookup path = (edit.touch path).getD (lookup path) := by
  -- What is touched is left as the edit says, and the rest is passed through.
  cases edit with
  | remove upper => simp only [effect, touch]; split <;> rfl
  | upsert lower leaf =>
    simp only [effect, touch]
    split
    · rfl
    · split <;> rfl

/-- The path that an edit is about. -/
def path : Edit α β → List α
  | .remove path => path
  | .upsert path _ => path

/-- An edit touches comparable paths only. -/
theorem comparable_of_touch {edit : Edit α β} {path : List α} {value : Option β}
    (touched : edit.touch path = some value) : Comparable edit.path path := by
  -- A removal touches what lies below it, and a write what cannot stand beside it.
  cases edit with
  | remove upper =>
    simp only [touch] at touched
    split at touched
    · exact .inl ‹_›
    · cases touched
  | upsert lower leaf =>
    simp only [touch] at touched
    split at touched
    · rename_i same
      exact same ▸ .refl lower
    · split at touched
      · assumption
      · cases touched

/-- A path ends as every edit that touches it leaves it, when they agree and one of them does. -/
theorem run_settles {leaves : Leaves α β} {edits : List (Edit α β)} {path : List α}
    {verdict : Option β}
    (agree : ∀ edit ∈ edits, ∀ value, edit.touch path = some value → value = verdict)
    (reached : leaves.get path = verdict ∨ ∃ edit ∈ edits, edit.touch path ≠ none) :
    (run leaves edits).get path = verdict := by
  -- The lookup at the path follows what each edit leaves there.
  refine @Folds.foldl_settles _ _ _ apply (Leaves.get · path) (touch path) _ _ _
    (fun edit _ leaves => ?_) agree reached
  rw [get_apply, effect_eq_touch]

/-- A path at which no leaf is written stays empty. -/
theorem run_unwritten {leaves : Leaves α β} {edits : List (Edit α β)} {path : List α}
    (unwritten : ∀ leaf, upsert path leaf ∉ edits) (empty : leaves.get path = none) :
    (run leaves edits).get path = none := by
  -- Whatever else touches the path leaves nothing there.
  refine run_settles ?_ (.inl empty)
  intro edit member value touched
  cases edit with
  | remove upper =>
    simp only [touch] at touched
    split at touched <;> cases touched
    rfl
  | upsert lower leaf =>
    have apart : lower ≠ path := by rintro rfl; exact unwritten leaf member
    simp only [touch, if_neg apart] at touched
    split at touched <;> cases touched
    rfl

end Edit
