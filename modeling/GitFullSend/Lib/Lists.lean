import Mathlib.Data.List.Perm.Basic

/-! Lookups by key, selections, and members moved within a list. -/

namespace Lists

/-- Looking a key up finds the value listed beside it, when no key is listed twice. -/
theorem find?_key_eq_some {α β : Type*} [DecidableEq α] {entries : List (α × β)}
    (unique : ∀ left ∈ entries, ∀ right ∈ entries, left.1 = right.1 → left = right) {key : α}
    {value : β} :
    (entries.find? fun entry => entry.1 = key).map Prod.snd = some value ↔
      (key, value) ∈ entries := by
  -- A lookup takes the first entry of the key, which is the only one.
  constructor
  · intro found
    obtain ⟨⟨listed, other⟩, located, rfl⟩ := Option.map_eq_some_iff.mp found
    have named : listed = key := by simpa using List.find?_some located
    exact named ▸ List.mem_of_find?_eq_some located
  · intro member
    cases located : entries.find? fun entry => entry.1 = key with
    | none => simpa using List.find?_eq_none.mp located _ member
    | some entry =>
      -- The key is listed once, so the entry that was found is the one at hand.
      have named : entry.1 = key := by simpa using List.find?_some located
      have same := unique entry (List.mem_of_find?_eq_some located) (key, value) member named
      simp [same]

/-- Among things made from keys, a search by key finds the one that was made from it. -/
theorem find?_map_key {α β : Type*} [DecidableEq α] {make : α → β} {name : β → α}
    (named : ∀ key, name (make key) = key) (keys : List α) (key : α) :
    (keys.map make).find? (fun item => name item = key) =
      if key ∈ keys then some (make key) else none := by
  -- The induction is on the keys, up to the first one that is the right one.
  induction keys with
  | nil => rfl
  | cons first rest ih =>
    rw [List.map_cons, List.find?_cons, named, ih]
    by_cases same : first = key
    · simp [same]
    · have apart : key ≠ first := fun equal => same equal.symm
      simp [same, apart]

/-- What is taken first, and what is taken behind it, are what is taken of both together. -/
theorem take_append_take_drop {α : Type*} {items : List α} {few many : Nat} (le : few ≤ many) :
    items.take few ++ (items.drop few).take (many - few) = items.take many := by
  rw [← List.take_add, Nat.add_sub_cancel' le]

/-- Pushing members one by one unless they are there leaves each of them once. -/
theorem foldl_push {α : Type*} [BEq α] [LawfulBEq α] (members : List α) :
    members.foldl (fun out member => if out.contains member then out else out ++ [member]) [] =
      members.eraseDups := by
  -- The induction is on the members still to push, behind those that are there already.
  have behind : ∀ out : List α,
      members.foldl (fun out member => if out.contains member then out else out ++ [member]) out =
        out ++ (members.removeAll out).eraseDups := by
    induction members with
    | nil => simp [List.removeAll]
    | cons member rest ih =>
      intro out
      simp only [List.removeAll, List.foldl_cons, List.filter_cons] at ih ⊢
      split <;> rename_i there
      · rw [ih, if_neg (by simpa using there)]
      · rw [ih, if_pos (by simpa using there), List.eraseDups_cons, List.append_assoc,
          List.singleton_append, List.filter_filter]
        -- What is pushed now is what is left out from here on.
        congr 3
        refine List.filter_congr fun other _ => ?_
        simp only [List.elem_eq_contains, List.contains_append, List.contains_cons,
          List.contains_nil, Bool.or_false, Bool.not_or, Bool.and_comm]
  simpa [List.removeAll] using behind []

/-- Two searches that answer alike everywhere find the same. -/
theorem findSome?_alike {α β : Type*} {left right : α → Option β} {members : List α}
    (alike : ∀ member ∈ members, left member = right member) :
    members.findSome? left = members.findSome? right := by
  -- The searches agree at each member in turn.
  induction members with
  | nil => rfl
  | cons member rest ih =>
    obtain ⟨here, others⟩ := List.forall_mem_cons.mp alike
    rw [List.findSome?_cons, List.findSome?_cons, here, ih others]

/-- Selecting entries before or after reading them is the same when the two tests always agree. -/
theorem filterMap_filter_eq_iff {α β : Type*} {read : α → Option β} {early : α → Bool}
    {late : β → Bool} {entries : List α} :
    (entries.filter early).filterMap read = (entries.filterMap read).filter late ↔
      ∀ entry ∈ entries, ∀ result, read entry = some result → early entry = late result := by
  -- The induction compares the two lists at the entry read first.
  induction entries with
  | nil => simp
  | cons entry rest ih =>
    cases found : read entry with
    | none =>
      have skipped : ((entry :: rest).filter early).filterMap read =
          (rest.filter early).filterMap read := by
        cases kept : early entry <;> simp [kept, found]
      rw [skipped, List.filterMap_cons_none found, ih]
      simp [found]
    | some result =>
      have split : (∀ other ∈ entry :: rest, ∀ value, read other = some value →
          early other = late value) ↔ early entry = late result ∧
            ∀ other ∈ rest, ∀ value, read other = some value → early other = late value := by
        simp [found]
      rw [split, List.filterMap_cons_some found, ← ih]
      cases kept : early entry <;> cases wanted : late result
      · simp [kept, wanted]
      · -- The late test keeps a result that the early one lost, and nothing makes up for it.
        simp only [kept, wanted, List.filter_cons_of_neg, List.filter_cons_of_pos,
          Bool.false_eq_true, not_false_eq_true, false_and, iff_false]
        intro same
        have selected : ((rest.filter early).filterMap read).filter late =
            (rest.filter early).filterMap read := by
          rw [same, List.filter_cons_of_pos wanted, List.filter_filter]
          simp
        have shorter : (rest.filter early).filterMap read |>.Sublist
            ((rest.filterMap read).filter late) := by
          rw [← selected]
          exact (List.filter_sublist.filterMap read).filter late
        have length := shorter.length_le
        rw [same, List.length_cons] at length
        omega
      · -- The early test keeps a result that the late one refuses.
        simp only [kept, wanted, List.filter_cons_of_neg, List.filter_cons_of_pos,
          Bool.false_eq_true, not_false_eq_true, reduceCtorEq, false_and, iff_false]
        intro same
        have refused : result ∈ (rest.filterMap read).filter late := by
          rw [← same, List.filterMap_cons_some found]
          exact List.mem_cons_self
        simp [wanted] at refused
      · simp [kept, wanted, found]

/-- Replacing a member changes a count by what the two members add to it. -/
theorem countP_replaced {α : Type*} {test : α → Bool} {members : List α} {place : Nat}
    {old new : α} (located : members[place]? = some old) :
    (members.set place new).countP test + (test old).toNat =
      members.countP test + (test new).toNat := by
  -- The induction goes down to the place, and what stands before it counts on both sides.
  induction members generalizing place with
  | nil => simp at located
  | cons member rest ih =>
    cases place with
    | zero =>
      obtain rfl : member = old := by simpa using located
      cases before : test member <;> cases after : test new <;> simp [before, after]
    | succ place =>
      have counted := @ih place (by simpa using located)
      simp only [List.set_cons_succ, List.countP_cons]
      omega

/-- Two different members of a list can be moved to its end, in either order. -/
theorem perm_two_last {α : Type*} {items : List α} {left right : α} (here : left ∈ items)
    (there : right ∈ items) (different : left ≠ right) :
    ∃ rest, (rest ++ [left, right]).Perm items ∧ (rest ++ [right, left]).Perm items := by
  obtain ⟨before, after, rfl⟩ := List.append_of_mem here
  have others : right ∈ before ++ after := by
    simpa [Ne.symm different] using there
  obtain ⟨front, back, split⟩ := List.append_of_mem others
  -- Take both out, keep the others in their order, and put the two behind them.
  have outer : (before ++ after).Perm (right :: (front ++ back)) := split ▸ List.perm_middle
  have moved : (before ++ left :: after).Perm (left :: right :: (front ++ back)) :=
    List.perm_middle.trans (outer.cons left)
  refine ⟨front ++ back, ?_, ?_⟩
  · exact List.perm_append_comm.trans moved.symm
  · exact List.perm_append_comm.trans ((List.Perm.swap ..).trans moved.symm)

/-- A list with one more item at its end, unless it has the item already. -/
def once {α : Type*} [DecidableEq α] (items : List α) (item : α) : List α :=
  if item ∈ items then items else items ++ [item]

/-- Items taken once each are those that were there and those that came. -/
theorem mem_foldl_once {α : Type*} [DecidableEq α] {start items : List α} {item : α} :
    item ∈ items.foldl once start ↔ item ∈ start ∨ item ∈ items := by
  -- The induction is on the items; one that is known already adds nothing.
  induction items generalizing start with
  | nil => simp
  | cons first rest ih =>
    rw [List.foldl_cons, ih, once]
    split
    · rename_i known
      constructor
      · intro within
        exact within.imp_right (List.mem_cons_of_mem first)
      · intro within
        rcases within with within | within
        · exact .inl within
        · rcases List.mem_cons.mp within with rfl | within
          · exact .inl known
          · exact .inr within
    · simp [or_assoc]

/-- Items taken once each are listed once each. -/
theorem nodup_foldl_once {α : Type*} [DecidableEq α] {start : List α} (distinct : start.Nodup)
    (items : List α) : (items.foldl once start).Nodup := by
  -- The induction is on the items, and only a fresh one is added.
  induction items generalizing start with
  | nil => exact distinct
  | cons first rest ih =>
    apply ih
    unfold once
    split
    · exact distinct
    · rename_i fresh
      apply List.nodup_append.mpr ⟨distinct, by simp, ?_⟩
      intro item known last only same
      rw [List.mem_singleton.mp only] at same
      exact fresh (same ▸ known)

/-- Items taken once each stand in the order they came in. -/
theorem foldl_once_sublist {α : Type*} [DecidableEq α] (start items : List α) :
    (items.foldl once start).Sublist (start ++ items) := by
  -- The induction is on the items; one that is known already is left out.
  induction items generalizing start with
  | nil => simp
  | cons first rest ih =>
    apply (ih (once start first)).trans
    unfold once
    split
    · exact (List.Sublist.refl start).append (List.sublist_cons_self first rest)
    · simp

end Lists
