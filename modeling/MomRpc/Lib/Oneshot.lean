import Mathlib.Data.Option.Basic

-- A channel for a single value: `sender` and `receiver` tell which of its halves still exist.
structure Oneshot (α : Type*) where
  value    : Option α := none
  sender   : Bool     := true
  receiver : Bool     := true
  deriving DecidableEq

namespace Oneshot

variable {α : Type*} {c : Oneshot α} {a : α}

-- Sending uses the sender up.
def send (c : Oneshot α) (a : α) : Oneshot α :=
  { c with value := if c.receiver then some a else none, sender := false }

def dropSender (c : Oneshot α) : Oneshot α :=
  { c with sender := false }

def dropReceiver (c : Oneshot α) : Oneshot α :=
  { c with value := none, receiver := false }

-- What awaiting the receiver evaluates to, once it does: the value, or none if the sender has been
-- dropped without sending one.
def recv (c : Oneshot α) : Option (Option α) :=
  if c.sender then none else some c.value

@[simp]
theorem dropSender_sender : c.dropSender.sender = false :=
  rfl

@[simp]
theorem dropReceiver_sender : c.dropReceiver.sender = c.sender :=
  rfl

theorem recv_isSome : c.recv.isSome ↔ c.sender = false := by
  cases h : c.sender <;> simp [recv, h]

theorem recv_of_sender (h : c.sender = false) : c.recv = some c.value := by
  simp [recv, h]

end Oneshot
