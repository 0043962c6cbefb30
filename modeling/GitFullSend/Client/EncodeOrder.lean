import GitFullSend.Lib.Lists
import GitFullSend.Client.Encode

/-! When the encoded tree depends on the order in which the status pass delivers its items. -/

namespace GitFullSend

open Utf8 (Bytes ofText)

variable {Oid : Type}

/-- Any two orders of the items end alike: both encodings fail, or both give the same tree. -/
def OrderFree (calls : ObjectCalls Oid) (checkout : Checkout) (index : List (IndexEntry Oid))
    (items : List (Option Item)) : Prop :=
  ∀ left right, left.Perm items → right.Perm items →
    ∀ first, encodeTree calls checkout index left = .ok first →
      ∃ second, encodeTree calls checkout index right = .ok second ∧
        first.editor.Same second.editor

/--
No two deliveries are about paths where one has to be taken in before the other.

A path reported as removed does not lie at or above a path taken from disk, and two different leaves
taken from disk do not lie at or above each other.
-/
def ClashFree (calls : ObjectCalls Oid) (checkout : Checkout) (items : List (Option Item)) : Prop :=
  ∀ one ∈ items, ∀ other ∈ items, ∀ left ∈ editsOf calls checkout one,
    ∀ right ∈ editsOf calls checkout other, ¬ left.Clash right

/-- A delivery comes to at most one edit. -/
theorem editsOf_mem {calls : ObjectCalls Oid} {checkout : Checkout} {delivery : Option Item}
    {edit : Edit Bytes (EntryKind × Oid)} (member : edit ∈ editsOf calls checkout delivery) :
    editsOf calls checkout delivery = [edit] := by
  -- What fails or says nothing has no edit, and anything else has one.
  unfold editsOf at member ⊢
  cases edited : deliveryEdit calls checkout delivery with
  | error failure => simp [edited] at member
  | ok found =>
    cases found with
    | none => simp [edited] at member
    | some only =>
      have same : edit = only := by simpa [edited] using member
      simp [same]

/-- The encoded tree is the same in every order exactly when nothing clashes, or nothing is encoded. -/
theorem encodeTree_order_free_iff {calls : ObjectCalls Oid} {checkout : Checkout}
    {index : List (IndexEntry Oid)} {start : Encoding Oid}
    (seeded : seedFromIndex calls index = .ok start) (items : List (Option Item)) :
    OrderFree calls checkout index items ↔
      (∃ item ∈ items, ¬ Encodable calls checkout item) ∨ ClashFree calls checkout items := by
  -- Encoding carries out the edits of the deliveries, so the question is which edits commute.
  constructor
  · intro free
    by_contra failing
    obtain ⟨fits, clashing⟩ := not_or.mp failing
    have fits : ∀ item ∈ items, Encodable calls checkout item := by simpa using fits
    simp only [ClashFree, not_forall, not_not] at clashing
    obtain ⟨one, here, other, there, left, first, right, second, clash⟩ := clashing
    -- The two edits come from different deliveries, because no edit clashes with itself.
    have different : one ≠ other := by
      intro same
      subst same
      have same := (editsOf_mem first).symm.trans (editsOf_mem second)
      obtain rfl : left = right := by simpa using same
      exact left.clash_irrefl clash
    obtain ⟨rest, forth, back⟩ := Lists.perm_two_last here there different
    obtain ⟨before, encoded⟩ := encodeTree_complete seeded
      fun item member => fits item (forth.mem_iff.mp member)
    obtain ⟨after, again, same⟩ := free _ _ forth back before encoded
    rw [(encodeTree_ok seeded encoded).2, (encodeTree_ok seeded again).2] at same
    simp only [List.flatMap_append, List.flatMap_cons, List.flatMap_nil, editsOf_mem first,
      editsOf_mem second, List.append_nil, List.singleton_append] at same
    exact Edit.run_clash clash _ _ same
  · intro condition left right forth back first encoded
    obtain ⟨fits, carried⟩ := encodeTree_ok seeded encoded
    have fits' : ∀ item ∈ right, Encodable calls checkout item :=
      fun item member => fits item (forth.mem_iff.mpr (back.mem_iff.mp member))
    obtain ⟨second, again⟩ := encodeTree_complete seeded fits'
    refine ⟨second, again, ?_⟩
    rcases condition with ⟨item, member, broken⟩ | free
    · exact absurd (fits item (forth.mem_iff.mpr member)) broken
    · rw [carried, (encodeTree_ok seeded again).2]
      refine Edit.run_perm ?_ ((forth.trans back.symm).flatMap_right _) _
      intro one here other there
      obtain ⟨item, member, from_⟩ := List.mem_flatMap.mp here
      obtain ⟨item', member', from'⟩ := List.mem_flatMap.mp there
      exact free item (forth.mem_iff.mp member) item' (forth.mem_iff.mp member') one from_ other from'

/-- A file replaced by another and a new file beside it are encoded alike in every order. -/
theorem encodeTree_siblings_order_free :
    OrderFree (⟨some, fun _ => true⟩ : ObjectCalls Bytes)
      ⟨ofText "/work", fun path => if path = ofText "p" then .other else .file 0o644 (some path)⟩
      [⟨ofText "p", .unconflicted, some .blob, ofText "old"⟩,
        ⟨ofText "q", .unconflicted, some .blob, ofText "old"⟩]
      [some (.modification (ofText "p") (.change .removed)),
        some (.modification (ofText "q") (.change .modification)),
        some (.directoryContents (ofText "d/new") .untracked (some .file))] :=
  (@encodeTree_order_free_iff _ _ _ _ ⟨_, _⟩ rfl _).mpr (.inr (by unfold ClashFree; decide))

/-- When a directory replaced the file `p`, delivering its removal last loses what is in there. -/
theorem encodeTree_order_loses_files :
    ∃ (checkout : Checkout) (index : List (IndexEntry Bytes)) (removed added : Option Item),
      checkout.entry (ofText "p") = .other ∧
      checkout.entry (ofText "p/f") = .file 0o644 (some (ofText "new")) ∧
      removed = some (.modification (ofText "p") (.change .removed)) ∧
      added = some (.directoryContents (ofText "p/f") .untracked (some .file)) ∧
      (encodeTree ⟨some, fun _ => true⟩ checkout index [removed, added]).map
        (fun encoding => encoding.editor.get (segments (ofText "p/f"))) =
          .ok (some (.blob, ofText "new")) ∧
      (encodeTree ⟨some, fun _ => true⟩ checkout index [added, removed]).map
        (fun encoding => encoding.editor.get (segments (ofText "p/f"))) = .ok none ∧
      ¬ OrderFree ⟨some, fun _ => true⟩ checkout index [removed, added] := by
  refine ⟨⟨ofText "/work", fun path =>
      if path = ofText "p/f" then .file 0o644 (some (ofText "new")) else .other⟩,
    [⟨ofText "p", .unconflicted, some .blob, ofText "old"⟩], _, _, by decide, by decide, rfl, rfl,
    rfl, rfl, ?_⟩
  intro free
  -- The two orders disagree about the file below the path that was removed.
  obtain ⟨second, again, same⟩ := free _ _ (.refl _) (.swap ..) _ rfl
  cases again
  exact absurd (same (segments (ofText "p/f"))) (by decide)

end GitFullSend
