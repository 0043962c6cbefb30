import GitFullSend.Lib.Ints
import GitFullSend.Server.ReapExact

/-! The cutoff that `reap --older-than-days` computes, and the streams it keeps. -/

namespace GitFullSend

open Utf8 (Bytes ofText)
open Segments (AtOrAbove)
open Ints (Fits checkedMul checkedSub)

variable {Target : Type}

def secondsPerDay : Int64 := 86400

/-- The current time in Unix seconds, or zero where the clock is set before the epoch. -/
def nowUnix (sinceEpoch : Option UInt64) : Int64 := (sinceEpoch.map UInt64.toInt64).getD 0

/-- The cutoff for an age in days, in a build whose arithmetic wraps. -/
def reapCutoff (now : Int64) (olderThanDays : UInt64) : Int64 :=
  now - olderThanDays.toInt64 * secondsPerDay

/-- The cutoff for an age in days, or `none` where a build that checks its arithmetic panics. -/
def reapCutoffChecked (now : Int64) (olderThanDays : UInt64) : Option Int64 := do
  let age ← checkedMul olderThanDays.toInt64 secondsPerDay
  checkedSub now age

/-- The `reap` command, once its cutoff is computed. -/
def reapCommand (gix : Nat → Gix) (commitTime : Target → Option Int) (repo : Bytes)
    (store : RefStore Target) (sinceEpoch : Option UInt64) (olderThanDays : UInt64)
    (dryRun : Bool) : Except ServerError ReapOutcome × RefStore Target :=
  let cutoff := reapCutoff (nowUnix sinceEpoch) olderThanDays
  reapStreams gix commitTime repo store cutoff.toInt dryRun

/-- The time so many days ago, whatever a word can hold. -/
def daysAgo (now : Int64) (days : UInt64) : Int := now.toInt - 86400 * days.toNat

/-- The `code` commit of a stream is not older than a time. -/
def Younger (commitTime : Target → Option Int) (store : RefStore Target) (limit : Int)
    (stream : StreamId) : Prop :=
  ∃ target committed, store.get (codeRef stream) = some target ∧
    commitTime target = some committed ∧ limit ≤ committed

/-- Reaping what is older than so many days takes nothing younger. -/
structure ReapsOnlyOld (commitTime : Target → Option Int) (store : RefStore Target)
    (sinceEpoch : Option UInt64) (days : UInt64) : Prop where
  /-- No step of the computation overflows. -/
  fits : reapCutoffChecked (nowUnix sinceEpoch) days = some (reapCutoff (nowUnix sinceEpoch) days)
  /-- The cutoff is not later than that many days ago, or the earliest time there is. -/
  bounded : (reapCutoff (nowUnix sinceEpoch) days).toInt ≤
    max (daysAgo (nowUnix sinceEpoch) days) (-2 ^ 63)
  /-- A greater age makes for no later cutoff. -/
  decreasing : ∀ fewer ≤ days,
    reapCutoff (nowUnix sinceEpoch) days ≤ reapCutoff (nowUnix sinceEpoch) fewer
  /-- No stream that is younger loses a ref. -/
  kept : ∀ gix repo dryRun stream,
    Younger commitTime store (daysAgo (nowUnix sinceEpoch) days) stream →
    ∀ name ∈ serverRefs stream,
      (reapCommand gix commitTime repo store sinceEpoch days dryRun).2.get name = store.get name

/-- No stream that is younger than a time lies at or below one that is older. -/
def NoYoungInside (commitTime : Target → Option Int) (store : RefStore Target) (limit : Int) :
    Prop :=
  ∀ outer old, (outer, old) ∈
      (store.prefixed streamsPrefix).filterMap (staleEntry commitTime limit) →
    ∀ stream, Younger commitTime store limit stream → ¬ AtOrAbove slash outer.id stream.id

section Cutoff

variable {now : Int64} {days : UInt64}

private theorem secondsPerDay_toInt : secondsPerDay.toInt = 86400 := by decide

/-- An age of which no part is lost makes the cutoff the time so many days ago. -/
theorem reapCutoff_exact (past : 0 ≤ now.toInt) (short : 86400 * days.toNat < 2 ^ 63) :
    reapCutoffChecked now days = some (reapCutoff now days) ∧
      (reapCutoff now days).toInt = daysAgo now days := by
  -- The days are a positive word, and both results stay within the range of words.
  have upper := now.toInt_lt
  have cast : days.toInt64.toInt = days.toNat := by
    rw [Ints.toInt_toInt64, if_pos (by omega)]
  have product : Fits (days.toInt64.toInt * secondsPerDay.toInt) := by
    rw [cast, secondsPerDay_toInt]
    constructor <;> omega
  have age := Ints.toInt_mul_of_fits product
  have difference : Fits (now.toInt - (days.toInt64 * secondsPerDay).toInt) := by
    rw [age, cast, secondsPerDay_toInt]
    constructor <;> omega
  have cutoff := Ints.toInt_sub_of_fits difference
  refine ⟨?_, ?_⟩
  · rw [reapCutoffChecked, checkedMul, if_pos product]
    change checkedSub now (days.toInt64 * secondsPerDay) = _
    rw [checkedSub, if_pos difference, reapCutoff]
  · rw [reapCutoff, cutoff, age, cast, secondsPerDay_toInt, daysAgo]
    omega

/-- An age that no word can hold overflows, or makes for a cutoff in the future. -/
theorem reapCutoff_long (long : 2 ^ 63 ≤ 86400 * days.toNat)
    (fits : reapCutoffChecked now days = some (reapCutoff now days)) :
    now.toInt < (reapCutoff now days).toInt := by
  -- A product that is not lost is one of days that were read as a negative number.
  simp only [reapCutoffChecked, checkedMul, checkedSub, Option.bind_eq_bind,
    Option.bind_eq_some_iff, Option.ite_none_right_eq_some, Option.some.injEq] at fits
  obtain ⟨age, ⟨product, rfl⟩, difference, -⟩ := fits
  have total := Ints.toInt_mul_of_fits product
  have cutoff := Ints.toInt_sub_of_fits difference
  have small := days.toNat_lt
  have cast := Ints.toInt_toInt64 days
  rw [secondsPerDay_toInt] at product total
  obtain ⟨-, high⟩ := product
  rw [reapCutoff, cutoff, total, cast]
  rw [cast] at high
  split at high
  · omega
  · rename_i negative
    rw [if_neg negative]
    omega

end Cutoff

/--
Reaping by age takes nothing younger exactly when the age in seconds fits a word and no younger
stream lies inside an older one, or a commit is found to be unreadable before anything is deleted.
-/
theorem reapsOnlyOld_iff {commitTime : Target → Option Int} {store : RefStore Target}
    {sinceEpoch : Option UInt64} {days : UInt64} (past : 0 ≤ (nowUnix sinceEpoch).toInt) :
    ReapsOnlyOld commitTime store sinceEpoch days ↔
      86400 * days.toNat < 2 ^ 63 ∧
        (¬ Timed commitTime store ∨
          NoYoungInside commitTime store (daysAgo (nowUnix sinceEpoch) days)) := by
  constructor
  · intro only
    have short : 86400 * days.toNat < 2 ^ 63 := by
      by_contra long
      have later := reapCutoff_long (Nat.le_of_not_lt long) only.fits
      have bounded := only.bounded
      unfold daysAgo at bounded
      omega
    refine ⟨short, or_iff_not_imp_left.mpr fun timed => ?_⟩
    obtain ⟨-, cutoff⟩ := reapCutoff_exact past short
    intro outer old stale stream younger inside
    -- A pass over a library that does not fail takes the `code` ref of the younger stream.
    obtain ⟨outcome, after, done⟩ := reapStreams_sound (not_not.mp timed) []
      (daysAgo (nowUnix sinceEpoch) days)
    have kept := only.kept (fun _ => .sound) [] false stream younger _ List.mem_cons_self
    obtain ⟨target, committed, stored, -⟩ := younger
    rw [reapCommand, cutoff, done, stored] at kept
    have gone : after.get (codeRef stream) = none := by
      rw [(reapEach_ok (reapStreams_ok done)).2]
      exact if_pos ⟨_, stale, (streamPrefix_serverRef List.mem_cons_self).mpr inside⟩
    simp [gone] at kept
  · intro condition
    obtain ⟨short, condition⟩ := condition
    obtain ⟨fits, cutoff⟩ := reapCutoff_exact past short
    refine ⟨fits, ?_, ?_, ?_⟩
    · rw [cutoff]
      exact Int.le_max_left _ _
    · intro fewer less
      have lower : fewer.toNat ≤ days.toNat := less
      obtain ⟨-, other⟩ := @reapCutoff_exact _ fewer past (by omega)
      rw [Int64.le_iff_toInt_le, cutoff, other, daysAgo, daysAgo]
      omega
    · intro gix repo dryRun stream younger name held
      rw [reapCommand, cutoff]
      have ran := (reapStreams gix commitTime repo store
        (daysAgo (nowUnix sinceEpoch) days) dryRun).eta
      rcases reapStreams_cases ran.symm with ⟨same, -⟩ | ⟨timed, reaped, passed, -⟩
      · rw [same]
      · -- Nothing younger lies under the prefix of what is forgotten.
        refine reapEach_only passed fun entry stale opens => ?_
        exact condition.resolve_left (not_not.mpr timed) entry.1 entry.2 stale stream younger
          ((streamPrefix_serverRef held).mp opens)

/-- With thirty days, a stream that was synced an hour ago is kept beside one of last year. -/
theorem reapsOnlyOld_month :
    ∃ (store : RefStore Int) (old new : StreamId),
      store.refs = [(codeRef old, 1700000000 - 31536000), (codeRef new, 1700000000 - 3600)] ∧
      ReapsOnlyOld some store (some 1700000000) 30 := by
  let old : StreamId := ⟨ofText "old", by decide, by decide, by decide⟩
  let new : StreamId := ⟨ofText "new", by decide, by decide, by decide⟩
  let store : RefStore Int :=
    ⟨[(codeRef old, 1700000000 - 31536000), (codeRef new, 1700000000 - 3600)], by decide,
      by decide⟩
  refine ⟨store, old, new, rfl, (reapsOnlyOld_iff (by decide)).mpr ⟨by decide, .inr ?_⟩⟩
  -- Only the old stream is stale, and only the new one is young.
  have stale : (store.prefixed streamsPrefix).filterMap
      (staleEntry some (daysAgo (nowUnix (some 1700000000)) 30)) =
        [(old, 1700000000 - 31536000)] := by decide +kernel
  intro outer time listed stream younger
  rw [stale, List.mem_singleton] at listed
  cases listed
  obtain ⟨target, committed, stored, timed, young⟩ := younger
  obtain rfl := Option.some.inj timed
  have member := RefStore.get_eq_some.mp stored
  simp only [store, List.mem_cons, List.not_mem_nil, or_false, Prod.mk.injEq] at member
  rcases member with ⟨same, rfl⟩ | ⟨same, rfl⟩
  · exact absurd young (by decide)
  · obtain rfl := codeRef_injective same
    decide

/-- The greatest age there is makes a pass delete a stream that was synced just now. -/
theorem reapsOnlyOld_negative :
    ∃ (store : RefStore Int) (stream : StreamId),
      store.refs = [(codeRef stream, 1700000000)] ∧
      reapCutoff (nowUnix (some 1700000000)) 18446744073709551615 = 1700086400 ∧
      (reapCommand (fun _ => .sound) some [] store (some 1700000000) 18446744073709551615
        false).2.refs = [] ∧
      ¬ ReapsOnlyOld some store (some 1700000000) 18446744073709551615 := by
  -- The age wraps to a negative number of days, so the cutoff lies a day ahead.
  let stream : StreamId := ⟨ofText "s", by decide, by decide, by decide⟩
  let store : RefStore Int := ⟨[(codeRef stream, 1700000000)], by decide, by decide⟩
  refine ⟨store, stream, rfl, by decide, by decide +kernel, ?_⟩
  intro only
  exact absurd only.bounded (by decide)

end GitFullSend
