import GitFullSend.Server.WorktreeOrder
import GitFullSend.Transfer.Mirror

/-! Which two layers an update puts together, while syncs of its stream go on. -/

namespace GitFullSend

open Utf8 (Bytes ofText)

variable {Leaf : Type}

/-- One sync of a stream as the server sees it: the two layers, and how many of them landed. -/
structure SyncedLayers (Leaf : Type) where
  code : Tree Leaf
  extra : Tree Leaf
  landed : Landed

/-- The `extra` layer a stream has after syncs, given the one it had before them. -/
def lastExtra (before : Option (Tree Leaf)) (syncs : List (SyncedLayers Leaf)) :
    Option (Tree Leaf) :=
  syncs.foldl (fun extra sync => if sync.landed = .both then some sync.extra else extra) before

/-- The pushes of one sync to a stream that has this `extra` layer. -/
def SyncedLayers.pushes (extra : Option (Tree Leaf)) (sync : SyncedLayers Leaf) :
    List (Push Leaf) :=
  match sync.landed with
  | .nothing => []
  | .code => [⟨some sync.code, extra⟩]
  -- Each layer is pushed in an exchange of its own.
  | .both => [⟨some sync.code, extra⟩, ⟨some sync.code, some sync.extra⟩]

/-- The pushes of syncs that are run one after another. -/
def pushesFrom (extra : Option (Tree Leaf)) : List (SyncedLayers Leaf) → List (Push Leaf)
  | [] => []
  | sync :: rest => sync.pushes extra ++ pushesFrom (lastExtra extra [sync]) rest

section Pushes

variable {extra : Option (Tree Leaf)} {syncs front rest : List (SyncedLayers Leaf)}
  {sync : SyncedLayers Leaf}

/-- The pushes of two groups of syncs come one behind the other. -/
theorem pushesFrom_append : pushesFrom extra (front ++ rest) =
    pushesFrom extra front ++ pushesFrom (lastExtra extra front) rest := by
  -- The induction is on the first group, whose syncs change the `extra` layer one by one.
  induction front generalizing extra with
  | nil => rfl
  | cons sync front ih =>
    have change : lastExtra extra (sync :: front) = lastExtra (lastExtra extra [sync]) front := rfl
    rw [List.cons_append, pushesFrom, ih, pushesFrom, List.append_assoc, change]

/-- The `extra` layer after syncs is the one before them, or that of a whole one among them. -/
theorem lastExtra_cases :
    lastExtra extra syncs = extra ∨
      ∃ sync ∈ syncs, sync.landed = .both ∧ lastExtra extra syncs = some sync.extra := by
  -- The induction is on the syncs; one that lands whole replaces the layer.
  induction syncs generalizing extra with
  | nil => exact .inl rfl
  | cons sync rest ih =>
    have step : lastExtra extra (sync :: rest) =
        lastExtra (if sync.landed = .both then some sync.extra else extra) rest := rfl
    rw [step]
    rcases @ih (if sync.landed = .both then some sync.extra else extra) with
      same | ⟨other, member, whole, same⟩
    · split at same <;> rename_i landed
      · exact .inr ⟨sync, List.mem_cons_self, landed, by rw [if_pos landed]; exact same⟩
      · exact .inl (by rw [if_neg landed]; exact same)
    · exact .inr ⟨other, List.mem_cons_of_mem _ member, whole, same⟩

/-- A push of a sync sets its own `code`, and either the `extra` before it or its own. -/
structure SyncedLayers.Sets (extra : Option (Tree Leaf)) (sync : SyncedLayers Leaf)
    (push : Push Leaf) : Prop where
  landed : sync.landed ≠ .nothing
  code : push.code = some sync.code
  extra : push.extra = extra ∨ sync.landed = .both ∧ push.extra = some sync.extra

/-- A sync pushes what it sets. -/
theorem SyncedLayers.pushes_sets {push : Push Leaf} (pushed : push ∈ sync.pushes extra) :
    sync.Sets extra push := by
  -- The cases are how far the sync landed.
  unfold SyncedLayers.pushes at pushed
  split at pushed <;> rename_i landed
  · cases pushed
  · obtain rfl := List.mem_singleton.mp pushed
    exact ⟨by simp [landed], rfl, .inl rfl⟩
  · -- The first of the two pushes leaves the `extra` layer for the second.
    rcases List.mem_pair.mp pushed with rfl | rfl
    · exact ⟨by simp [landed], rfl, .inl rfl⟩
    · exact ⟨by simp [landed], rfl, .inr ⟨landed, rfl⟩⟩

/-- Every push is that of a sync, behind the pushes of the syncs before it. -/
theorem pushesFrom_getElem {count : Nat} {push : Push Leaf}
    (found : (pushesFrom extra syncs)[count]? = some push) :
    ∃ front sync back, syncs = front ++ sync :: back ∧
      (pushesFrom extra front).length ≤ count ∧ sync.Sets (lastExtra extra front) push := by
  -- The induction is on the syncs: the push is one of the first sync, or one behind it.
  induction syncs generalizing extra count with
  | nil => simp [pushesFrom] at found
  | cons sync rest ih =>
    rw [pushesFrom] at found
    by_cases own : count < (sync.pushes extra).length
    · rw [List.getElem?_append_left own] at found
      exact ⟨[], sync, rest, rfl, Nat.zero_le _,
        SyncedLayers.pushes_sets (List.mem_of_getElem? found)⟩
    · rw [List.getElem?_append_right (Nat.not_lt.mp own)] at found
      obtain ⟨front, other, back, rfl, behind, sets⟩ := ih found
      refine ⟨sync :: front, other, back, rfl, ?_, sets⟩
      rw [pushesFrom, List.length_append]
      omega

/-- A push that is not before one of a sync has an `extra` of that sync or of a later one. -/
theorem pushesFrom_extra {back : List (SyncedLayers Leaf)} {count : Nat} {push : Push Leaf}
    (behind : (pushesFrom extra front).length ≤ count)
    (found : (pushesFrom extra (front ++ back))[count]? = some push) :
    push.extra = lastExtra extra front ∨
      ∃ sync ∈ back, sync.landed = .both ∧ push.extra = some sync.extra := by
  -- The push is one of the second group, whose first sync starts from what the first group left.
  rw [pushesFrom_append, List.getElem?_append_right behind] at found
  obtain ⟨middle, sync, last, rfl, -, sets⟩ := pushesFrom_getElem found
  rcases sets.extra with same | ⟨whole, own⟩
  · rw [same]
    rcases @lastExtra_cases _ (lastExtra extra front) middle with kept | ⟨other, member, held⟩
    · exact .inl kept
    · exact .inr ⟨other, List.mem_append_left _ member, held⟩
  · exact .inr ⟨sync, List.mem_append_right _ List.mem_cons_self, whole, own⟩

/-- A `code` ref that is set was set by a push. -/
theorem stateAt_code {pushes : List (Push Leaf)} {count : Nat} {code : Tree Leaf}
    (set : (stateAt pushes count).code = some code) :
    ∃ index, count = index + 1 ∧ pushes[index]? = some (stateAt pushes count) := by
  -- Nothing is set in front of the first push.
  cases count with
  | zero => cases set
  | succ index =>
    refine ⟨index, rfl, ?_⟩
    simp only [stateAt, List.getElem?_cons_succ] at set ⊢
    cases held : pushes[index]? with
    | none => simp [held] at set
    | some push => rfl

end Pushes

section Runs

variable [DecidableEq Leaf] {rules : IgnoreRules Leaf} {jobs : Nat → Job}
  {start : Bytes → Worktree Leaf} {system : System Leaf} {events : List (Event Leaf)}

end Runs

/-- A layer of one file. -/
def layerOf (name : String) (content : Nat) : Tree Nat :=
  ⟨[([ofText name], content)], by simp⟩

/-- A sync of one file in each layer. -/
def syncOf (content : Nat) : SyncedLayers Nat :=
  ⟨layerOf "code" content, layerOf "extra" content, .both⟩

/-- A whole sync comes between the two reads of a run. -/
def straddling : List (Event Nat) :=
  ((syncOf 1).pushes none).map (.push waiting.stream) ++ .act 0 (.resolveCode .sound) ::
    ((syncOf 2).pushes (some (layerOf "extra" 1))).map (.push waiting.stream) ++
    [.act 0 (.resolveExtra .sound), .act 0 .acquire, .act 0 (.readTree .done),
      .act 0 (.clean .done), .act 0 (.record .written)]

end GitFullSend
