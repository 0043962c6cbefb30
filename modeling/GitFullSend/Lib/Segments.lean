import Mathlib.Data.List.Basic

/-! Paths written with a separator, and the order of one path lying above another. -/

namespace Segments

variable {α : Type*} [DecidableEq α] {sep : α}

/-- A path lies above another when the longer one goes on after a separator. -/
def Above (sep : α) (upper lower : List α) : Prop :=
  -- Ending the shorter path with a separator bounds the comparison at a whole segment.
  upper ++ [sep] <+: lower

instance (upper lower : List α) : Decidable (Above sep upper lower) :=
  inferInstanceAs (Decidable (_ <+: _))

/-- A path lies at or above another: the two are equal, or the longer one goes on after it. -/
def AtOrAbove (sep : α) (upper lower : List α) : Prop :=
  upper = lower ∨ Above sep upper lower

instance (upper lower : List α) : Decidable (AtOrAbove sep upper lower) :=
  inferInstanceAs (Decidable (_ ∨ _))

/-- No segment contains the separator. -/
theorem not_mem_segment {path segment : List α} (member : segment ∈ path.splitOn sep) :
    sep ∉ segment := by
  -- The induction is on the path; a letter that is no separator joins the first segment.
  induction path generalizing segment with
  | nil =>
    obtain rfl : segment = [] := by simpa using member
    exact List.not_mem_nil
  | cons first rest ih =>
    rw [List.splitOn_cons_eq_if_modifyHead] at member
    split at member
    · rcases List.mem_cons.mp member with rfl | member
      · exact List.not_mem_nil
      · exact ih member
    · rename_i other
      obtain ⟨head, tail, split⟩ := List.exists_cons_of_ne_nil (List.splitOn_ne_nil sep rest)
      rw [split] at ih member
      rcases List.mem_cons.mp member with rfl | member
      · intro within
        rcases List.mem_cons.mp within with rfl | within
        · simp at other
        · exact ih List.mem_cons_self within
      · exact ih (List.mem_cons_of_mem _ member)

/-- Every letter of a path is the separator or stands in a segment. -/
theorem mem_segment {path : List α} {letter : α} (member : letter ∈ path) :
    letter = sep ∨ ∃ segment ∈ path.splitOn sep, letter ∈ segment := by
  -- The induction is on the path, and a separator opens a new segment.
  induction path with
  | nil => simp at member
  | cons first rest ih =>
    rw [List.splitOn_cons_eq_if_modifyHead]
    obtain ⟨head, tail, split⟩ := List.exists_cons_of_ne_nil (List.splitOn_ne_nil sep rest)
    rw [split] at ih ⊢
    rcases List.mem_cons.mp member with rfl | member
    · by_cases ends : (letter == sep) = true
      · exact .inl (eq_of_beq ends)
      · exact .inr ⟨letter :: head, by simp [ends], List.mem_cons_self⟩
    · rcases ih member with same | ⟨segment, listed, within⟩
      · exact .inl same
      · right
        split
        · exact ⟨segment, List.mem_cons_of_mem _ listed, within⟩
        · rcases List.mem_cons.mp listed with rfl | listed
          · exact ⟨first :: segment, List.mem_cons_self, List.mem_cons_of_mem _ within⟩
          · exact ⟨segment, List.mem_cons_of_mem _ listed, within⟩

/-- Splitting loses nothing, so two paths with the same segments are the same path. -/
theorem splitOn_injective (sep : α) {left right : List α}
    (same : left.splitOn sep = right.splitOn sep) : left = right := by
  -- Joining the segments again gives both paths back.
  have joined := congrArg ([sep].intercalate ·) same
  simpa only [List.intercalate_splitOn] using joined

omit [DecidableEq α] in
/-- Joining two groups of segments puts one separator between them. -/
theorem intercalate_append {left right : List (List α)} (head : left ≠ []) (tail : right ≠ []) :
    [sep].intercalate (left ++ right) =
      [sep].intercalate left ++ sep :: [sep].intercalate right := by
  -- The first group loses one segment at a time, and its last one meets the separator.
  induction left with
  | nil => exact absurd rfl head
  | cons segment rest ih =>
    cases rest with
    | nil => simp [List.intercalate_cons_of_ne_nil tail]
    | cons next rest =>
      have shorter := ih (by simp)
      rw [List.cons_append] at shorter
      rw [List.cons_append, List.cons_append, List.intercalate_cons_cons, shorter,
        List.intercalate_cons_cons]
      simp

/-- One path lies above another exactly when its segments open the longer list of segments. -/
theorem above_iff {upper lower : List α} :
    Above sep upper lower ↔
      ∃ tail, tail ≠ [] ∧ lower.splitOn sep = upper.splitOn sep ++ tail := by
  constructor
  · intro opens
    obtain ⟨rest, rfl⟩ := opens
    exact ⟨rest.splitOn sep, List.splitOn_ne_nil sep rest, by simp [List.splitOn_append_cons_self]⟩
  · intro longer
    obtain ⟨tail, nonempty, split⟩ := longer
    -- Joining the segments again exposes the separator after the shorter path.
    have joined := congrArg ([sep].intercalate ·) split
    simp only [List.intercalate_splitOn,
      intercalate_append (List.splitOn_ne_nil sep upper) nonempty] at joined
    exact ⟨[sep].intercalate tail, by simp [joined]⟩

/-- One path lies at or above another exactly when its segments are a prefix of the other's. -/
theorem atOrAbove_iff {upper lower : List α} :
    AtOrAbove sep upper lower ↔ upper.splitOn sep <+: lower.splitOn sep := by
  constructor
  · intro close
    rcases close with rfl | above
    · exact List.prefix_rfl
    · obtain ⟨tail, _, split⟩ := above_iff.mp above
      exact ⟨tail, split.symm⟩
  · intro opens
    obtain ⟨tail, split⟩ := opens
    -- An empty tail means equal segments, and any other tail goes on below.
    cases tail with
    | nil => exact .inl (splitOn_injective sep (by simpa using split))
    | cons segment tail => exact .inr (above_iff.mpr ⟨_, by simp, split.symm⟩)

/-- Names written without a separator keep their segments when joined below a path. -/
theorem splitOn_below (path : List α) {name : List α} (plain : sep ∉ name) :
    (path ++ sep :: name).splitOn sep = path.splitOn sep ++ [name] := by
  rw [List.splitOn_append_cons_self, List.splitOn_eq_singleton plain]

/-- A path lies above a child of another exactly when it lies at or above that other path. -/
theorem above_child_iff {upper lower name : List α} (plain : sep ∉ name) :
    Above sep upper (lower ++ sep :: name) ↔ AtOrAbove sep upper lower := by
  -- Splitting off the last segment turns the question into one about the lower path.
  rw [above_iff, atOrAbove_iff, splitOn_below lower plain]
  constructor
  · intro longer
    obtain ⟨tail, nonempty, split⟩ := longer
    -- The last segment on both sides is the name, so the others stand against each other.
    obtain ⟨front, last, rfl⟩ := (List.eq_nil_or_concat' tail).resolve_left nonempty
    rw [← List.append_assoc] at split
    exact ⟨front, ((List.append_inj_left' split rfl).symm)⟩
  · intro opens
    obtain ⟨tail, split⟩ := opens
    exact ⟨tail ++ [name], by simp, by simp [← split]⟩

end Segments
