import GitFullSend.Lib.Arrivals

/-! What both ends see of the processes they run and of the connection between them. -/

namespace GitFullSend

open Arrivals (Arrival)

/-- How a child ended. -/
inductive ExitStatus where
  | code (number : Int)
  | signal (number : Nat)
  deriving DecidableEq

namespace ExitStatus

/-- Whether the child exited zero. -/
def success (status : ExitStatus) : Bool := status = .code 0

/-- The exit code, if the child exited via a code. -/
def code? : ExitStatus → Option Int
  | code number => some number
  | signal _ => none

/-- The signal that killed the child, if one did. -/
def signal? : ExitStatus → Option Nat
  | code _ => none
  | signal number => some number

end ExitStatus

/-- A connection, as one end of it sees it. -/
structure Socket where
  /-- What the peer sends, call by call; a deadline that passes is a failure. -/
  incoming : List Arrival
  /-- How much of each write it takes, where it does not take all. -/
  outgoing : Nat → Option Nat

end GitFullSend
