import Mathlib.Data.List.Basic

/-! Channels that give what was put into them, in its order. -/

namespace Channels

variable {α : Type*}

/-- What has been taken out of a channel, and what is left in it. -/
structure Channel (α : Type*) where
  taken : List α
  left : List α

namespace Channel

variable (channel : Channel α) (items : List α) (count : Nat)

/-- A channel into which nothing was put. -/
def empty : Channel α := ⟨[], []⟩

/-- Everything that was ever put into a channel. -/
def all : List α := channel.taken ++ channel.left

/-- Put some items behind the others. -/
def put : Channel α := ⟨channel.taken, channel.left ++ items⟩

/-- Take so many items from the front. -/
def take : Channel α := ⟨channel.taken ++ channel.left.take count, channel.left.drop count⟩

@[simp] theorem empty_taken : (empty : Channel α).taken = [] := rfl
@[simp] theorem empty_left : (empty : Channel α).left = [] := rfl
@[simp] theorem empty_all : (empty : Channel α).all = [] := rfl
@[simp] theorem put_taken : (channel.put items).taken = channel.taken := rfl
@[simp] theorem put_left : (channel.put items).left = channel.left ++ items := rfl
@[simp] theorem take_left : (channel.take count).left = channel.left.drop count := rfl

@[simp] theorem take_taken : (channel.take count).taken =
    channel.taken ++ channel.left.take count := rfl

/-- What is put into a channel comes last of all. -/
@[simp] theorem put_all : (channel.put items).all = channel.all ++ items :=
  (List.append_assoc ..).symm

/-- Taking from a channel changes nothing about what was put into it. -/
@[simp] theorem take_all : (channel.take count).all = channel.all := by
  rw [all, take, List.append_assoc, List.take_append_drop, all]

/-- What has been taken are the first ones of all. -/
theorem taken_prefix : channel.taken <+: channel.all := List.prefix_append ..

variable {channel}

/-- Of a channel in which nothing is left, everything has been taken. -/
theorem taken_all (nothing : channel.left = []) : channel.taken = channel.all := by
  rw [all, nothing, List.append_nil]

end Channel

end Channels
