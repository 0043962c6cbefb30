import Mathlib.Data.List.DropRight
import Mathlib.Tactic.GCongr
import Mathlib.Tactic.Linarith
import GitFullSend.Common.Metrics

/-! The statistics of a kind come from its own lines, and from what ranks first among them. -/

namespace GitFullSend

open Utf8 (Bytes ofText)
open ByteLines (lines)

/-- The record of a line, if it is one of the kind. -/
def recordOf (serde : Serde) (kind line : Bytes) : Option Json :=
  (serde.fromStr line).filter fun record => kindOf record = kind

/-- The lines of a kind, in the order of the file. -/
def linesOf (serde : Serde) (kind contents : Bytes) : List Bytes :=
  (lines contents).filter fun line => (recordOf serde kind line).isSome

/-- Every line of a kind has a record. -/
theorem linesOf_read (serde : Serde) (kind contents : Bytes) :
    ∀ line ∈ linesOf serde kind contents, (recordOf serde kind line).isSome :=
  fun _ member => (List.mem_filter.mp member).2

/-- The records of lines of a kind. -/
def recordsOf (serde : Serde) (kind : Bytes) (lines : List Bytes) : List Json :=
  lines.filterMap (recordOf serde kind)

/-- The lines of other kinds have no records of the kind. -/
theorem recordsOf_linesOf (serde : Serde) (kind contents : Bytes) :
    recordsOf serde kind (linesOf serde kind contents) = recordsOf serde kind (lines contents) := by
  -- A line without a record of the kind adds nothing to either list.
  rw [linesOf, recordsOf, recordsOf, List.filterMap_filter]
  congr
  funext line
  cases recordOf serde kind line <;> rfl

/-- Every line of a kind has a record, so a window of the one is a window of the other. -/
theorem length_recordsOf {serde : Serde} {kind : Bytes} {lines : List Bytes}
    (read : ∀ line ∈ lines, (recordOf serde kind line).isSome) :
    (recordsOf serde kind lines).length = lines.length := by
  -- The induction is on the lines, each of which adds one record.
  induction lines with
  | nil => rfl
  | cons line rest ih =>
    obtain ⟨here, others⟩ := List.forall_mem_cons.mp read
    obtain ⟨record, found⟩ := Option.isSome_iff_exists.mp here
    rw [recordsOf, List.filterMap_cons_some found, List.length_cons, List.length_cons]
    exact congrArg (· + 1) (ih others)

/-- A line adds its record to those of its kind, unless another kind is wanted. -/
private theorem get_pushRecord (serde : Serde) (wanted : Option Bytes)
    (records : Groups Bytes Json) (line kind : Bytes) :
    (pushRecord serde wanted records line).get kind =
      records.get kind ++
        if wanted.all (· = kind) then (recordOf serde kind line).toList else [] := by
  -- The cases are whether the line is read, and whether its kind is the one looked at.
  unfold pushRecord recordOf
  cases serde.fromStr line with
  | none => simp
  | some record =>
    simp only
    by_cases same : kindOf record = kind
    · subst same
      cases wanted with
      | none => simp [Option.filter]
      | some wanted => by_cases equal : wanted = kindOf record <;> simp [Option.filter, equal]
    · have apart : kind ≠ kindOf record := fun equal => same equal.symm
      split <;> simp [same, apart]

/-- The records under a kind are those of its lines, unless another kind is wanted. -/
private theorem get_pushRecords (serde : Serde) (wanted : Option Bytes) (lines : List Bytes)
    (records : Groups Bytes Json) (kind : Bytes) :
    (lines.foldl (pushRecord serde wanted) records).get kind =
      records.get kind ++ if wanted.all (· = kind) then recordsOf serde kind lines else [] := by
  -- The induction is on the lines that are read.
  induction lines generalizing records with
  | nil => simp [recordsOf]
  | cons line rest ih =>
    have first : recordsOf serde kind (line :: rest) =
        (recordOf serde kind line).toList ++ recordsOf serde kind rest := by
      unfold recordsOf
      cases found : recordOf serde kind line <;> simp [found]
    rw [List.foldl_cons, ih, get_pushRecord, first, List.append_assoc]
    split <;> rfl

/-- A kind has no record exactly when it has no line. -/
theorem recordsOf_eq_nil {serde : Serde} {kind contents : Bytes} :
    recordsOf serde kind (linesOf serde kind contents) = [] ↔ linesOf serde kind contents = [] := by
  rw [← List.length_eq_zero_iff, length_recordsOf (linesOf_read serde kind contents),
    List.length_eq_zero_iff]

/-- The records under a kind are those of its lines. -/
theorem get_recordsByKind (serde : Serde) (contents kind : Bytes) :
    (recordsByKind serde none contents).get kind =
      recordsOf serde kind (linesOf serde kind contents) := by
  rw [recordsOf_linesOf, recordsByKind, get_pushRecords]
  rfl

/-- Where a kind is wanted there is what there is of it, and nothing else. -/
theorem recordsByKind_some (serde : Serde) (contents wanted : Bytes) :
    recordsByKind serde (some wanted) contents =
      (recordsByKind serde none contents).only wanted := by
  -- Groups are the same when they agree under every kind.
  refine Groups.ext_get fun kind => ?_
  rw [Groups.get_only, recordsByKind, recordsByKind, get_pushRecords, get_pushRecords]
  by_cases same : kind = wanted
  · simp [same]
  · have apart : wanted ≠ kind := fun equal => same equal.symm
    simp [same, apart]

/-- The entry of a kind. -/
def entry (stats : List KindStats) (kind : Bytes) : Option KindStats :=
  stats.find? fun stat => stat.kind = kind

/-- The aggregate lists the kinds with the statistics of their windows. -/
private theorem aggregate_valid (serde : Serde) {contents : Bytes}
    (text : Utf8.valid contents = true) (wanted : Option Bytes) (last : Option Nat) :
    aggregate serde (some contents) wanted last =
      (recordsByKind serde wanted contents).keys.map fun kind =>
        kindStats kind (window last ((recordsByKind serde wanted contents).get kind)) := by
  rw [aggregate, if_pos text, Groups.entries_eq, List.map_map]
  rfl

/-- A kind has the entry of its lines, and none where it has no line. -/
theorem entry_aggregate (serde : Serde) {contents : Bytes} (text : Utf8.valid contents = true)
    (kind : Bytes) (last : Option Nat) :
    entry (aggregate serde (some contents) none last) kind =
      if linesOf serde kind contents = [] then none
      else some (kindStats kind (window last
        (recordsOf serde kind (linesOf serde kind contents)))) := by
  -- The kind is among the keys exactly when it has a line.
  have named : ∀ kind, (kindStats kind
      (window last ((recordsByKind serde none contents).get kind))).kind = kind := fun kind => rfl
  have found := Lists.find?_map_key named (recordsByKind serde none contents).keys kind
  rw [entry, aggregate_valid serde text, found, get_recordsByKind]
  by_cases absent : linesOf serde kind contents = []
  · rw [if_pos absent, if_neg fun listed => Groups.mem_keys.mp listed ?_]
    rw [get_recordsByKind]
    exact recordsOf_eq_nil.mpr absent
  · have listed : kind ∈ (recordsByKind serde none contents).keys := by
      rw [Groups.mem_keys, get_recordsByKind]
      exact mt recordsOf_eq_nil.mp absent
    rw [if_pos listed, if_neg absent]

/-- A sink that is no text has no entries. -/
theorem aggregate_invalid (serde : Serde) {contents : Bytes}
    (broken : ¬Utf8.valid contents = true) (wanted : Option Bytes) (last : Option Nat) :
    aggregate serde (some contents) wanted last = [] := if_neg broken

/-- Asking for a kind is asking for all of them and picking its entry. -/
theorem aggregate_some (serde : Serde) (contents kind : Bytes) (last : Option Nat) :
    aggregate serde (some contents) (some kind) last =
      (entry (aggregate serde (some contents) none last) kind).toList := by
  -- What there is of one kind has one key at most, the one its entry is found by.
  by_cases text : Utf8.valid contents = true
  · rw [entry_aggregate serde text, aggregate_valid serde text, recordsByKind_some,
      Groups.keys_only, get_recordsByKind]
    by_cases absent : linesOf serde kind contents = []
    · rw [if_pos absent, absent]
      rfl
    · have some : recordsOf serde kind (linesOf serde kind contents) ≠ [] :=
        mt recordsOf_eq_nil.mp absent
      rw [if_neg absent, if_neg some, List.map_singleton, Groups.get_only, if_pos rfl,
        get_recordsByKind]
      rfl
  · rw [aggregate_invalid serde text, aggregate_invalid serde text]
    rfl

mutual

/-- The numeric leaves of a value with their dotted paths. -/
def numericLeaves (above : Bytes) (value : Json) : List (Bytes × ℚ) :=
  match value with
  | .object members => memberLeaves above members
  | .number value => [(above, value)]
  | .array items => [(above ++ ofText ".len", items.length)]
  | .null | .bool _ | .string _ => []

/-- The numeric leaves of the members of an object. -/
def memberLeaves (above : Bytes) (members : List (Bytes × Json)) : List (Bytes × ℚ) :=
  match members with
  | [] => []
  | (key, child) :: rest =>
    if skipped key then memberLeaves above rest
    else numericLeaves (memberPath above key) child ++ memberLeaves above rest

end

/-- The values of a field among records, in the order of the records. -/
def fieldValues (records : List Json) (field : Bytes) : List ℚ :=
  ((records.flatMap (numericLeaves [])).filter fun leaf => leaf.1 = field).map Prod.snd

/-- The values that leaves have for a field. -/
private def valuesAt (leaves : List (Bytes × ℚ)) (field : Bytes) : List ℚ :=
  (leaves.filter fun leaf => leaf.1 = field).map Prod.snd

private theorem get_push_leaf (out : Groups Bytes ℚ) (above field : Bytes) (value : ℚ) :
    (out.push above value).get field = out.get field ++ valuesAt [(above, value)] field := by
  -- The leaf is under the field, or under another one.
  rw [Groups.get_push]
  by_cases same : above = field
  · simp [valuesAt, same]
  · have apart : field ≠ above := fun equal => same equal.symm
    simp [valuesAt, same, apart]

mutual

/-- Collecting the leaves of a value adds the ones of a field to what it has. -/
private theorem get_flattenNumbers (above : Bytes) (value : Json) (out : Groups Bytes ℚ)
    (field : Bytes) :
    (flattenNumbers above value out).get field =
      out.get field ++ valuesAt (numericLeaves above value) field := by
  -- The induction is on the value, through the members of objects.
  cases value with
  | object members =>
    rw [flattenNumbers, numericLeaves]
    exact get_flattenMembers above members out field
  | number value =>
    rw [flattenNumbers, numericLeaves]
    exact get_push_leaf out above field value
  | array items =>
    rw [flattenNumbers, numericLeaves]
    exact get_push_leaf out _ field _
  | null => simp [flattenNumbers, numericLeaves, valuesAt]
  | bool value => simp [flattenNumbers, numericLeaves, valuesAt]
  | string text => simp [flattenNumbers, numericLeaves, valuesAt]

/-- Collecting the leaves of members adds the ones of a field to what it has. -/
private theorem get_flattenMembers (above : Bytes) (members : List (Bytes × Json))
    (out : Groups Bytes ℚ) (field : Bytes) :
    (flattenMembers above members out).get field =
      out.get field ++ valuesAt (memberLeaves above members) field := by
  -- The members are taken one by one, and a skipped one has no leaves.
  cases members with
  | nil => simp [flattenMembers, memberLeaves, valuesAt]
  | cons member rest =>
    obtain ⟨key, child⟩ := member
    rw [flattenMembers, memberLeaves]
    split
    · exact get_flattenMembers above rest out field
    · rw [get_flattenMembers, get_flattenNumbers]
      simp [valuesAt]

end

/-- The fields of records have the values that are found among them. -/
theorem get_fieldsOf (records : List Json) (field : Bytes) :
    (fieldsOf records).get field = fieldValues records field := by
  have general : ∀ out : Groups Bytes ℚ,
      (records.foldl (fun out record => flattenNumbers [] record out) out).get field =
        out.get field ++ fieldValues records field := by
    -- The induction is on the records.
    induction records with
    | nil => simp [fieldValues]
    | cons record rest ih =>
      intro out
      rw [List.foldl_cons, ih, get_flattenNumbers]
      simp [fieldValues, valuesAt]
  exact general .empty

/-- The order of the records does not matter for the values of a field, but for their order. -/
theorem fieldValues_perm {records others : List Json} (perm : records.Perm others)
    (field : Bytes) : (fieldValues records field).Perm (fieldValues others field) :=
  ((perm.flatMap_right (numericLeaves [])).filter _).map Prod.snd

/-- Values in ascending order are the values. -/
theorem ascending_perm (values : List ℚ) : (ascending values).Perm values :=
  List.perm_insertionSort (· ≤ ·) values

/-- Values in ascending order ascend. -/
theorem ascending_ordered (values : List ℚ) : (ascending values).Pairwise (· ≤ ·) :=
  List.pairwise_insertionSort (· ≤ ·) values

/-- There is one ascending order. -/
theorem ascending_congr {values others : List ℚ} (perm : values.Perm others) :
    ascending values = ascending others := by
  -- Both orders have the same values, and both ascend.
  have both : (ascending values).Perm (ascending others) :=
    (ascending_perm values).trans (perm.trans (ascending_perm others).symm)
  exact both.eq_of_pairwise (fun left right _ _ => le_antisymm) (ascending_ordered values)
    (ascending_ordered others)

/-- The statistics of a kind do not depend on the order of its records. -/
theorem kindStats_perm (kind : Bytes) {records others : List Json}
    (perm : records.Perm others) : kindStats kind records = kindStats kind others := by
  -- The fields are the same, and each has the same values in ascending order.
  have keys : (fieldsOf records).keys = (fieldsOf others).keys := by
    refine Groups.keys_congr fun field => ?_
    rw [get_fieldsOf, get_fieldsOf, ← List.length_eq_zero_iff, ← List.length_eq_zero_iff,
      (fieldValues_perm perm field).length_eq]
  have stats : ∀ field, fieldStats field ((fieldsOf records).get field) =
      fieldStats field ((fieldsOf others).get field) := by
    intro field
    rw [get_fieldsOf, get_fieldsOf, fieldStats, fieldStats,
      ascending_congr (fieldValues_perm perm field)]
  rw [kindStats, kindStats, perm.length_eq, Groups.entries_eq, Groups.entries_eq, List.map_map,
    List.map_map, keys]
  exact congrArg (KindStats.mk kind _) (List.map_congr_left fun field _ => stats field)

/-- A quantile up to the whole is among the values. -/
theorem rank_le {q : ℚ} (low : 0 ≤ q) (high : q ≤ 1) (count : Nat) : rank q count ≤ count - 1 := by
  -- The product is at most the last place, and half a place does not reach the next one.
  have span : (0 : ℚ) ≤ (count - 1 : Nat) := Nat.cast_nonneg _
  have part : q * (count - 1 : Nat) ≤ (count - 1 : Nat) := mul_le_of_le_one_left span high
  have rounded : ⌊q * (count - 1 : Nat) + 1 / 2⌋ < (count - 1 : Nat) + 1 := by
    rw [Int.floor_lt]
    push_cast
    linarith
  rw [rank, roundAway, if_pos (mul_nonneg low span)]
  omega

/-- A larger quantile has no lower rank. -/
theorem rank_mono {q r : ℚ} (low : 0 ≤ q) (le : q ≤ r) (count : Nat) :
    rank q count ≤ rank r count := by
  -- Rounding down keeps the order.
  have span : (0 : ℚ) ≤ (count - 1 : Nat) := Nat.cast_nonneg _
  rw [rank, rank, roundAway, roundAway, if_pos (mul_nonneg low span),
    if_pos (mul_nonneg (low.trans le) span)]
  refine Int.toNat_le_toNat (Int.floor_mono ?_)
  gcongr

/-- A quantile of values is the one at its rank. -/
theorem percentile_eq {sorted : List ℚ} (some : sorted ≠ []) {q : ℚ} (low : 0 ≤ q)
    (high : q ≤ 1) : sorted[rank q sorted.length]? = .some (percentile sorted q) := by
  -- The rank lies within the values, so the bound of the code is never needed.
  have bound := rank_le low high sorted.length
  have length := List.length_pos_iff.mpr some
  have within : rank q sorted.length < sorted.length := by omega
  rw [percentile, if_neg some, Nat.min_eq_left bound, List.getD_eq_getElem?_getD,
    List.getElem?_eq_getElem within]
  rfl

/-- What is reported of a field is found at its place among the values in ascending order. -/
structure Ranked (values sorted : List ℚ) (stats : FieldStats) : Prop where
  values : sorted.Perm values
  ascends : sorted.Pairwise (· ≤ ·)
  count : stats.count = sorted.length
  p50 : sorted[rank (1 / 2) sorted.length]? = some stats.p50
  p95 : sorted[rank (19 / 20) sorted.length]? = some stats.p95
  max : sorted.getLast? = some stats.max
  ordered : stats.p50 ≤ stats.p95 ∧ stats.p95 ≤ stats.max

/-- A value at a lower place is no larger. -/
private theorem le_of_places {sorted : List ℚ} (ascends : sorted.Pairwise (· ≤ ·))
    {low high : Nat} (le : low ≤ high) {left right : ℚ} (first : sorted[low]? = some left)
    (second : sorted[high]? = some right) : left ≤ right := by
  -- Two places are the same, or stand in their order.
  obtain ⟨within, rfl⟩ := List.getElem?_eq_some_iff.mp second
  obtain ⟨_, rfl⟩ := List.getElem?_eq_some_iff.mp first
  rcases Nat.lt_or_eq_of_le le with less | rfl
  · exact List.pairwise_iff_getElem.mp ascends low high (by omega) within less
  · exact le_rfl

/-- The statistics of a field with values are found among them. -/
theorem fieldStats_ranked (field : Bytes) {values : List ℚ} (some : values ≠ []) :
    Ranked values (ascending values) (fieldStats field values) := by
  -- The values are no fewer in ascending order, so there is one at every rank.
  have sorted : ascending values ≠ [] := fun none =>
    some (List.nil_perm.mp (none ▸ ascending_perm values))
  have median := percentile_eq sorted (q := 1 / 2) (by norm_num) (by norm_num)
  have high := percentile_eq sorted (q := 19 / 20) (by norm_num) (by norm_num)
  have top : (ascending values).getLast? = .some ((ascending values).getLastD 0) := by
    rw [List.getLastD_eq_getLast?, List.getLast?_eq_some_getLast sorted]
    rfl
  have ascends := ascending_ordered values
  refine ⟨ascending_perm values, ascends, rfl, median, high, top, ?_, ?_⟩
  · exact le_of_places ascends (rank_mono (by norm_num) (by norm_num) _) median high
  · rw [List.getLast?_eq_getElem?] at top
    exact le_of_places ascends (rank_le (by norm_num) (by norm_num) _) high top

/-- The last of some things, or all of them. -/
def mostRecent {α : Type} (last : Option Nat) (items : List α) : List α :=
  match last with
  | some last => items.rtake last
  | none => items

/-- The last records are those of the last lines. -/
private theorem window_recordsOf {serde : Serde} {kind : Bytes} {lines : List Bytes}
    (read : ∀ line ∈ lines, (recordOf serde kind line).isSome) (last : Option Nat) :
    window last (recordsOf serde kind lines) = recordsOf serde kind (mostRecent last lines) := by
  -- Every line has a record, so as many are dropped of the one as of the other.
  have dropped : ∀ count, (recordsOf serde kind lines).drop count =
      recordsOf serde kind (lines.drop count) := by
    intro count
    induction count generalizing lines with
    | zero => rfl
    | succ count ih =>
      cases lines with
      | nil => rfl
      | cons line rest =>
        obtain ⟨here, others⟩ := List.forall_mem_cons.mp read
        obtain ⟨record, found⟩ := Option.isSome_iff_exists.mp here
        have first : recordsOf serde kind (line :: rest) =
            record :: recordsOf serde kind rest := List.filterMap_cons_some found
        rw [first, List.drop_succ_cons, List.drop_succ_cons]
        exact ih others
  cases last with
  | none => rfl
  | some last =>
    rw [window, mostRecent, List.rtake, ← dropped, length_recordsOf read]
    split
    · rfl
    · have short : lines.length - last = 0 := by omega
      rw [short, List.drop_zero]

/-- A kind has the entry of the last of its lines, and none where it has no line. -/
theorem entry_mostRecent (serde : Serde) {contents : Bytes} (text : Utf8.valid contents = true)
    (kind : Bytes) (last : Option Nat) :
    entry (aggregate serde (some contents) none last) kind =
      if linesOf serde kind contents = [] then none
      else some (kindStats kind
        (recordsOf serde kind (mostRecent last (linesOf serde kind contents)))) := by
  rw [entry_aggregate serde text, window_recordsOf (linesOf_read serde kind contents)]

/--
The statistics of a kind are those of its most recent lines.

They are the same with other lines around these and whatever their order is, they are reported
when only this kind is asked for, and what they say of a field are its values at their ranks.
-/
structure PerKind (serde : Serde) (contents edited kind : Bytes) (last : Option Nat) : Prop where
  filtered : aggregate serde (some contents) (some kind) last =
    (entry (aggregate serde (some contents) none last) kind).toList
  windowed : entry (aggregate serde (some contents) none last) kind =
    if linesOf serde kind contents = [] then none
    else some (kindStats kind
      (recordsOf serde kind (mostRecent last (linesOf serde kind contents))))
  unmoved : entry (aggregate serde (some edited) none last) kind =
    entry (aggregate serde (some contents) none last) kind
  unordered : ∀ records, records.Perm
      (recordsOf serde kind (mostRecent last (linesOf serde kind contents))) →
    ∀ stats ∈ entry (aggregate serde (some contents) none last) kind,
      stats = kindStats kind records ∧
        ∀ field ∈ stats.fields, ∃ sorted, Ranked (fieldValues records field.field) sorted field

/-- Every field of a kind is reported with values found among its records. -/
private theorem kindStats_ranked (kind : Bytes) (records : List Json) :
    ∀ field ∈ (kindStats kind records).fields,
      ∃ sorted, Ranked (fieldValues records field.field) sorted field := by
  -- No field is listed without a value.
  intro field member
  obtain ⟨⟨name, values⟩, listed, rfl⟩ := List.mem_map.mp member
  obtain ⟨held, some⟩ := Groups.mem_entries.mp listed
  rw [get_fieldsOf] at held
  exact ⟨ascending values, held ▸ fieldStats_ranked name (held ▸ some)⟩

/--
Whatever else is in a sink, a kind has the statistics of its own lines while the sink is text.

Bytes that are no text lose every kind that has a line, and not only the line they are in.
-/
theorem perKind_iff (serde : Serde) {contents edited kind : Bytes}
    (same : linesOf serde kind edited = linesOf serde kind contents) :
    (∀ last, PerKind serde contents edited kind last) ↔
      (Utf8.valid contents = true ∧ Utf8.valid edited = true) ∨
        linesOf serde kind contents = [] := by
  -- A sink that is text has the entry of its lines, and one that is none has no entry.
  constructor
  · intro sound
    obtain ⟨-, windowed, unmoved, -⟩ := sound none
    by_cases absent : linesOf serde kind contents = []
    · exact .inr absent
    · -- The kind has an entry in both sinks, so neither is without any.
      rw [if_neg absent] at windowed
      refine .inl ⟨by_contra fun broken => ?_, by_contra fun broken => ?_⟩
      · rw [aggregate_invalid serde broken] at windowed
        cases windowed
      · rw [windowed, aggregate_invalid serde broken] at unmoved
        cases unmoved
  · intro condition last
    have entered : ∀ sink, linesOf serde kind sink = linesOf serde kind contents →
        (Utf8.valid sink = true ∨ linesOf serde kind contents = []) →
        entry (aggregate serde (some sink) none last) kind =
          if linesOf serde kind contents = [] then none
          else some (kindStats kind
            (recordsOf serde kind (mostRecent last (linesOf serde kind contents)))) := by
      intro sink equal either
      by_cases text : Utf8.valid sink = true
      · rw [entry_mostRecent serde text, equal]
      · rw [aggregate_invalid serde text, if_pos (either.resolve_left text)]
        rfl
    have here := entered contents rfl (condition.imp_left And.left)
    have there := entered edited same (condition.imp_left And.right)
    refine ⟨aggregate_some serde contents kind last, here, there.trans here.symm, ?_⟩
    intro records perm stats reported
    rw [here] at reported
    split at reported
    · cases reported
    · obtain rfl := Option.some.inj reported
      rw [← kindStats_perm kind perm]
      exact ⟨rfl, kindStats_ranked kind records⟩

/-- The text of a record that has nothing but a kind. -/
def syncText : Bytes := ofText "\x7b\"kind\":\"sync\"\x7d"

/-- The record of the text. -/
def syncRecord : Json := .object [(ofText "kind", .string (ofText "sync"))]

/-- A library that is only asked for this record. -/
def syncSerde : Serde where
  toString _ := syncText
  fromStr text := if text = syncText then some syncRecord else none

/-- A line that is no JSON leaves the statistics of the record in front of it alone. -/
theorem perKind_foreign_line :
    PerKind syncSerde (syncText ++ [0x0A]) (syncText ++ [0x0A, 0x78, 0x0A]) (ofText "sync") none :=
  (perKind_iff syncSerde (by decide)).mpr (.inl ⟨by decide, by decide⟩) none

/-- A line that is no text takes the statistics of the record in front of it along. -/
theorem broken_line_loses_kind :
    linesOf syncSerde (ofText "sync") (syncText ++ [0x0A, 0xFF, 0x0A]) =
        linesOf syncSerde (ofText "sync") (syncText ++ [0x0A]) ∧
      ¬∀ last, PerKind syncSerde (syncText ++ [0x0A]) (syncText ++ [0x0A, 0xFF, 0x0A])
        (ofText "sync") last := by
  refine ⟨by decide, fun sound => ?_⟩
  have unmoved := congrArg Option.isSome (sound none).unmoved
  exact absurd unmoved (by decide)

end GitFullSend
