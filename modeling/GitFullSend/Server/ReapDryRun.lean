import Mathlib.Algebra.Ring.Nat
import Mathlib.Data.Prod.Basic
import GitFullSend.Server.Reap

/-! When a dry run of a reaping pass predicts what the pass does. -/

namespace GitFullSend

open Utf8 (Bytes ofText)

variable {Target : Type}

/-- A dry run told what a pass over the same store does. -/
structure DryRunPredicts (store same after : RefStore Target) (predicted outcome : ReapOutcome) :
    Prop where
  /-- The dry run deletes nothing. -/
  untouched : same = store
  scanned : predicted.scanned = outcome.scanned
  /-- Both report the same streams, with their times and their numbers of refs. -/
  reaped : predicted.reaped = outcome.reaped
  /-- As many refs are gone as were counted. -/
  counted : (predicted.reaped.map ReapedStream.refsRemoved).sum + after.refs.length =
    store.refs.length

/-- No stored ref lies under the prefixes of two stale streams. -/
def NoneShared (commitTime : Target → Option Int) (cutoffUnixSecs : Int)
    (store : RefStore Target) : Prop :=
  ((store.prefixed streamsPrefix).filterMap (staleEntry commitTime cutoffUnixSecs)).Pairwise
    fun left right => ∀ entry ∈ store.refs,
      streamPrefix left.1 <+: entry.1 → ¬ streamPrefix right.1 <+: entry.1

/-- The number of refs under the prefix of a stream. -/
def refsUnder (store : RefStore Target) (stream : StreamId) : Nat :=
  (store.prefixed (streamPrefix stream)).length

/-- What a dry run counts of each stale stream. -/
def foreseen (store : RefStore Target) (stale : List (StreamId × Int)) : List ReapedStream :=
  stale.map fun entry => ⟨entry.1, entry.2, refsUnder store entry.1⟩

section Passes

variable {gix : Nat → Gix} {repo : Bytes} {call : Nat} {stale : List (StreamId × Int)}
  {store after : RefStore Target}

/-- A dry run counts every stream over the same store, and changes none of it. -/
theorem reapEach_dry {result : Except ServerError (List ReapedStream)}
    (ran : reapEach gix repo true call stale store = (result, after)) :
    after = store ∧ ∀ reaped, result = .ok reaped → reaped = foreseen store stale := by
  -- The induction is on the stale streams, each of which is counted or fails.
  induction stale generalizing call result with
  | nil =>
    cases ran
    refine ⟨rfl, fun reaped same => ?_⟩
    exact (Except.ok.inj same).symm
  | cons entry rest ih =>
    obtain ⟨stream, committed⟩ := entry
    simp only [reapEach, if_true] at ran
    cases counted : countStreamRefs (gix call) store stream with
    | error failure =>
      simp only [counted] at ran
      cases ran
      exact ⟨rfl, by simp⟩
    | ok number =>
      obtain ⟨entries, listed, same⟩ := Folds.bind_ok.mp counted
      obtain rfl := enumerate_ok listed
      obtain rfl := Except.ok.inj same
      simp only [counted] at ran
      split at ran <;> rename_i later <;> cases ran <;> obtain ⟨untouched, told⟩ := ih later
      · exact ⟨untouched, by simp⟩
      · refine ⟨untouched, fun reaped same => ?_⟩
        rw [← Except.ok.inj same, told _ rfl]
        rfl

/-- A pass counts each stream over what the streams before it have left. -/
theorem reapEach_cons {entry : StreamId × Int} {reaped : List ReapedStream}
    (done : reapEach gix repo false call (entry :: stale) store = (.ok reaped, after)) :
    ∃ others, reaped = ⟨entry.1, entry.2, refsUnder store entry.1⟩ :: others ∧
      reapEach gix repo false (call + 1) stale
        (store.delete ((store.prefixed (streamPrefix entry.1)).map Prod.fst)) =
          (.ok others, after) := by
  -- A stream whose refs are forgotten has reported how many there were.
  simp only [reapEach, Bool.false_eq_true, if_false] at done
  cases forgot : forgetStream (gix call) repo store entry.1 with
  | mk result middle =>
    cases result with
    | error failure => simp [forgot] at done
    | ok removed =>
      obtain ⟨rfl, rfl⟩ := forgetStream_ok forgot
      simp only [forgot] at done
      split at done <;> rename_i later <;> cases done
      exact ⟨_, rfl, later⟩

/-- A pass counts every ref that it deletes. -/
theorem reapEach_counted {reaped : List ReapedStream}
    (done : reapEach gix repo false call stale store = (.ok reaped, after)) :
    (reaped.map ReapedStream.refsRemoved).sum + after.refs.length = store.refs.length := by
  -- What a stream takes and what it leaves are the refs there were.
  induction stale generalizing call store reaped with
  | nil => cases done; simp
  | cons entry rest ih =>
    obtain ⟨others, rfl, later⟩ := reapEach_cons done
    have split : refsUnder store entry.1 +
        (store.refs.filter fun ref => ¬ streamPrefix entry.1 <+: ref.1).length =
          store.refs.length := by
      have parts := List.length_eq_length_filter_add (l := store.refs)
        fun ref => decide (streamPrefix entry.1 <+: ref.1)
      simpa [refsUnder, RefStore.prefixed] using parts.symm
    have total := ih later
    rw [RefStore.refs_delete_prefixed] at total
    simp only [List.map_cons, List.sum_cons]
    omega

/-- Counting over a part of a store is counting over all of it when the part has every ref. -/
private theorem refsUnder_eq_iff {part : RefStore Target} {kept : Bytes × Target → Bool}
    (remains : part.refs = store.refs.filter kept) (stream : StreamId) :
    refsUnder part stream = refsUnder store stream ↔
      ∀ ref ∈ store.refs, streamPrefix stream <+: ref.1 → kept ref = true := by
  -- What the part has under the prefix is filtered from what the whole has there.
  have swapped : part.prefixed (streamPrefix stream) =
      (store.prefixed (streamPrefix stream)).filter kept := by
    simp only [RefStore.prefixed, remains, List.filter_filter, Bool.and_comm]
  rw [refsUnder, refsUnder, swapped, List.length_filter_eq_length_iff]
  simp [RefStore.prefixed]

/-- A pass over a part of a store reports what a dry run over all of it foresees exactly when the
streams share no ref, and the part has all of theirs. -/
theorem reapEach_foreseen_iff {whole : RefStore Target} {kept : Bytes × Target → Bool}
    (remains : store.refs = whole.refs.filter kept) {reaped : List ReapedStream}
    (done : reapEach gix repo false call stale store = (.ok reaped, after)) :
    reaped = foreseen whole stale ↔
      (∀ entry ∈ stale, ∀ ref ∈ whole.refs, streamPrefix entry.1 <+: ref.1 → kept ref = true) ∧
        stale.Pairwise fun left right => ∀ ref ∈ whole.refs,
          streamPrefix left.1 <+: ref.1 → ¬ streamPrefix right.1 <+: ref.1 := by
  -- The induction is on the streams, and each leaves a smaller part to those behind it.
  induction stale generalizing call store reaped kept with
  | nil => cases done; simp [foreseen]
  | cons entry rest ih =>
    obtain ⟨others, rfl, later⟩ := reapEach_cons done
    have remains' : (store.delete ((store.prefixed (streamPrefix entry.1)).map Prod.fst)).refs =
        whole.refs.filter fun ref => kept ref && !decide (streamPrefix entry.1 <+: ref.1) := by
      rw [RefStore.refs_delete_prefixed, remains, List.filter_filter]
      apply List.filter_congr
      intro ref _
      simp [Bool.and_comm]
    have here := refsUnder_eq_iff remains entry.1
    have onward := ih remains' later
    simp only [foreseen, List.map_cons, List.cons.injEq, ReapedStream.mk.injEq, true_and]
    rw [here]
    change _ ∧ others = foreseen whole rest ↔ _
    rw [onward, List.forall_mem_cons, List.pairwise_cons]
    simp only [Bool.and_eq_true, Bool.not_eq_true', decide_eq_false_iff_not]
    grind

end Passes

/-- A dry run deletes nothing, also where it fails. -/
theorem reapStreams_dry (gix : Nat → Gix) (commitTime : Target → Option Int) (repo : Bytes)
    (store : RefStore Target) (cutoffUnixSecs : Int) :
    (reapStreams gix commitTime repo store cutoffUnixSecs true).2 = store := by
  -- A failed listing leaves the store alone, and so does each count.
  have ran := (reapStreams gix commitTime repo store cutoffUnixSecs true).eta
  rcases reapStreams_cases ran.symm with ⟨same, -⟩ | ⟨-, reaped, counting, -⟩
  · exact same
  · exact (reapEach_dry counting).1

/-- A dry run predicts the pass exactly when no stored ref lies under the prefixes of two stale
streams. -/
theorem reapStreams_dry_iff {gix gix' : Nat → Gix} {commitTime : Target → Option Int}
    {repo : Bytes} {store same after : RefStore Target} {cutoffUnixSecs : Int}
    {predicted outcome : ReapOutcome}
    (dry : reapStreams gix commitTime repo store cutoffUnixSecs true = (.ok predicted, same))
    (real : reapStreams gix' commitTime repo store cutoffUnixSecs false = (.ok outcome, after)) :
    DryRunPredicts store same after predicted outcome ↔
      NoneShared commitTime cutoffUnixSecs store := by
  -- Both passes go over the same stale streams, so their reports are compared one by one.
  obtain ⟨-, failure, failed⟩ | ⟨-, counted, counting, told⟩ := reapStreams_cases dry
  · cases failed
  obtain ⟨-, failure, failed⟩ | ⟨-, removed, removing, told'⟩ := reapStreams_cases real
  · cases failed
  cases counted with
  | error failure => cases told
  | ok counted =>
    cases removed with
    | error failure => cases told'
    | ok removed =>
      cases told
      cases told'
      obtain ⟨rfl, foretold⟩ := reapEach_dry counting
      have predicted := foretold _ rfl
      have all : same.refs = same.refs.filter fun _ => true := by simp
      have alike := reapEach_foreseen_iff all removing
      rw [← predicted] at alike
      constructor
      · intro predicts
        exact (alike.mp predicts.reaped.symm).2
      · intro apart
        have equal : removed = counted := alike.mpr ⟨fun _ _ _ _ _ => rfl, apart⟩
        refine ⟨rfl, rfl, equal.symm, ?_⟩
        rw [← equal]
        exact reapEach_counted removing

/-- Two stale siblings share no ref, and a dry run foretells that both of them go. -/
theorem reapStreams_dry_siblings :
    ∃ (store same after : RefStore Int) (one other : StreamId) (predicted outcome : ReapOutcome),
      store.refs = [(codeRef one, 1), (extraRef one, 1), (codeRef other, 2)] ∧
      reapStreams (fun _ => .sound) some [] store 5 true = (.ok predicted, same) ∧
      reapStreams (fun _ => .sound) some [] store 5 false = (.ok outcome, after) ∧
      predicted.reaped = [⟨one, 1, 2⟩, ⟨other, 2, 1⟩] ∧
      DryRunPredicts store same after predicted outcome := by
  -- The prefixes end in a slash, so neither stream has a ref of the other.
  let one : StreamId := ⟨ofText "one", by decide, by decide, by decide⟩
  let other : StreamId := ⟨ofText "other", by decide, by decide, by decide⟩
  let store : RefStore Int :=
    ⟨[(codeRef one, 1), (extraRef one, 1), (codeRef other, 2)], by decide, by decide⟩
  have told : (reapStreams (fun _ => .sound) some [] store 5 true).1 =
      .ok ⟨2, [⟨one, 1, 2⟩, ⟨other, 2, 1⟩], true⟩ := by decide +kernel
  have done : (reapStreams (fun _ => .sound) some [] store 5 false).1 =
      .ok ⟨2, [⟨one, 1, 2⟩, ⟨other, 2, 1⟩], false⟩ := by decide +kernel
  refine ⟨store, _, _, one, other, _, _, rfl, Prod.fst_eq_iff.mp told, Prod.fst_eq_iff.mp done, rfl,
    (reapStreams_dry_iff (Prod.fst_eq_iff.mp told) (Prod.fst_eq_iff.mp done)).mpr ?_⟩
  have stale : (store.prefixed streamsPrefix).filterMap (staleEntry some 5) =
      [(one, 1), (other, 2)] := by decide +kernel
  rw [NoneShared, stale]
  decide

/-- The refs of the stale stream `a/b` are counted twice by a dry run that also counts `a`. -/
theorem reapStreams_dry_nested :
    ∃ (store same after : RefStore Int) (outer inner : StreamId) (predicted outcome : ReapOutcome),
      outer.id = ofText "a" ∧ inner.id = ofText "a/b" ∧
      store.refs = [(codeRef inner, 1), (codeRef outer, 2)] ∧
      reapStreams (fun _ => .sound) some [] store 5 true = (.ok predicted, same) ∧
      reapStreams (fun _ => .sound) some [] store 5 false = (.ok outcome, after) ∧
      predicted.reaped = [⟨inner, 1, 1⟩, ⟨outer, 2, 2⟩] ∧
      outcome.reaped = [⟨inner, 1, 1⟩, ⟨outer, 2, 1⟩] ∧
      ¬ DryRunPredicts store same after predicted outcome := by
  -- The ref of the inner stream lies under the prefix of the outer one as well.
  let outer : StreamId := ⟨ofText "a", by decide, by decide, by decide⟩
  let inner : StreamId := ⟨ofText "a/b", by decide, by decide, by decide⟩
  let store : RefStore Int := ⟨[(codeRef inner, 1), (codeRef outer, 2)], by decide, by decide⟩
  have told : (reapStreams (fun _ => .sound) some [] store 5 true).1 =
      .ok ⟨2, [⟨inner, 1, 1⟩, ⟨outer, 2, 2⟩], true⟩ := by decide +kernel
  have done : (reapStreams (fun _ => .sound) some [] store 5 false).1 =
      .ok ⟨2, [⟨inner, 1, 1⟩, ⟨outer, 2, 1⟩], false⟩ := by decide +kernel
  refine ⟨store, _, _, outer, inner, _, _, rfl, rfl, rfl, Prod.fst_eq_iff.mp told,
    Prod.fst_eq_iff.mp done, rfl, rfl, fun predicts => ?_⟩
  exact absurd predicts.reaped (by decide)

end GitFullSend
