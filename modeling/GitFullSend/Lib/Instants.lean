import GitFullSend.Lib.Ints

/-! Machine instants and durations, in whole seconds and nanoseconds. -/

namespace Instants

/-- The nanoseconds of one second. -/
def nanosPerSec : Nat := 1000000000

/-- A span of time, whose seconds are an unsigned word of 64 bits. -/
structure Duration where
  secs : Nat
  secs_lt : secs < 2 ^ 64
  nanos : Nat
  nanos_lt : nanos < nanosPerSec

/-- A reading of a monotonic clock, whose seconds are a signed word of 64 bits. -/
structure Instant where
  secs : Int
  fits : Ints.Fits secs
  nanos : Nat
  nanos_lt : nanos < nanosPerSec

/-- The whole span in nanoseconds. -/
def Duration.toNanos (span : Duration) : Nat := span.secs * nanosPerSec + span.nanos

/-- The reading in nanoseconds. -/
def Instant.toNanos (instant : Instant) : Int := instant.secs * nanosPerSec + instant.nanos

/-- A span of whole seconds. -/
def Duration.fromSecs (secs : UInt64) : Duration := ⟨secs.toNat, secs.toNat_lt, 0, by decide⟩

/-- A span of less than a second. -/
def Duration.fromMillis (millis : Nat) (small : millis < 1000) : Duration :=
  ⟨0, by decide, millis * 1000000, by unfold nanosPerSec; omega⟩

/-- The shorter of two spans. -/
def Duration.min (left right : Duration) : Duration :=
  if left.toNanos ≤ right.toNanos then left else right

/-- The instant a span later, or `none` where the seconds do not fit a word. -/
def Instant.checkedAdd (start : Instant) (span : Duration) : Option Instant :=
  let nanos := start.nanos + span.nanos
  if whole : nanos < nanosPerSec then
    if fits : Ints.Fits (start.secs + span.secs) then some ⟨_, fits, nanos, whole⟩ else none
  -- The nanoseconds carry over into the seconds.
  else if fits : Ints.Fits (start.secs + span.secs + 1) then
    some ⟨_, fits, nanos - nanosPerSec, by
      have left := start.nanos_lt
      have right := span.nanos_lt
      omega⟩
  else none

/-- Whether an instant is at or after another. -/
def Instant.reached (now deadline : Instant) : Bool :=
  deadline.secs < now.secs || (deadline.secs = now.secs && deadline.nanos ≤ now.nanos)

/-- Nanoseconds below the span of all instants make up a duration. -/
def Duration.ofNanos (nanos : Nat) (small : nanos < 2 ^ 64 * nanosPerSec) : Duration :=
  ⟨nanos / nanosPerSec, Nat.div_lt_of_lt_mul (Nat.mul_comm .. ▸ small), nanos % nanosPerSec,
    Nat.mod_lt _ (by decide)⟩

/-- The span between two instants fits a duration. -/
theorem Instant.span_lt (later earlier : Instant) :
    (later.toNanos - earlier.toNanos).toNat < 2 ^ 64 * nanosPerSec := by
  -- The seconds of both lie in one word, and the nanoseconds below a second.
  obtain ⟨low, -⟩ := earlier.fits
  obtain ⟨-, high⟩ := later.fits
  have later_lt := later.nanos_lt
  simp only [Instant.toNanos, nanosPerSec] at later_lt ⊢
  omega

/-- The span from one instant to a later one, which is zero where it is not later. -/
def Instant.durationSince (later earlier : Instant) : Duration :=
  .ofNanos (later.toNanos - earlier.toNanos).toNat (later.span_lt earlier)

/-- The nanoseconds a duration is made of are its own. -/
@[simp] theorem Duration.toNanos_ofNanos {nanos : Nat} (small : nanos < 2 ^ 64 * nanosPerSec) :
    (Duration.ofNanos nanos small).toNanos = nanos :=
  Nat.div_add_mod' nanos nanosPerSec

/-- One instant is at or after another exactly when its nanoseconds are. -/
theorem Instant.reached_iff {now deadline : Instant} :
    now.reached deadline = true ↔ deadline.toNanos ≤ now.toNanos := by
  -- The nanoseconds below a second only decide within one second.
  have now_lt := now.nanos_lt
  have deadline_lt := deadline.nanos_lt
  simp only [Instant.reached, Instant.toNanos, nanosPerSec, Bool.or_eq_true, Bool.and_eq_true,
    decide_eq_true_eq] at now_lt deadline_lt ⊢
  omega

/-- The instant a span later is that many nanoseconds later. -/
theorem Instant.toNanos_checkedAdd {start later : Instant} {span : Duration}
    (added : start.checkedAdd span = some later) :
    later.toNanos = start.toNanos + span.toNanos := by
  -- A second that is carried over is taken off the nanoseconds.
  unfold Instant.checkedAdd at added
  simp only at added
  split at added
  · split at added
    · cases added
      simp only [Instant.toNanos, Duration.toNanos, nanosPerSec]
      omega
    · cases added
  · split at added
    · cases added
      rename_i carried _
      simp only [Instant.toNanos, Duration.toNanos, nanosPerSec] at carried ⊢
      omega
    · cases added

/-- Whole seconds can be added exactly as long as they fit. -/
theorem Instant.checkedAdd_fromSecs {start : Instant} {secs : UInt64} :
    (start.checkedAdd (.fromSecs secs)).isSome ↔ start.secs + secs.toNat < 2 ^ 63 := by
  -- Nothing is carried over, and the sum is not below the start.
  have low := start.fits.1
  have whole : start.nanos + (Duration.fromSecs secs).nanos < nanosPerSec := start.nanos_lt
  unfold Instant.checkedAdd
  simp only
  rw [dif_pos whole]
  by_cases fits : Ints.Fits (start.secs + (Duration.fromSecs secs).secs)
  · rw [dif_pos fits]
    exact iff_of_true rfl fits.2
  · rw [dif_neg fits]
    refine iff_of_false (by simp) fun small => fits ⟨?_, small⟩
    omega

end Instants
