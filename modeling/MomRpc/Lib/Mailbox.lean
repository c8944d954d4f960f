import Mathlib.Data.List.Basic

-- The channel between any number of senders and a single receiver, as seen from the receiver's
-- side. `received` is what the receiver has taken out so far; `held` tells that it still exists.
@[ext]
structure Mailbox (α : Type*) (capacity : ℕ) where
  queue    : List α := []
  received : List α := []
  held     : Bool   := true
  bounded  : queue.length ≤ capacity

namespace Mailbox

variable {α : Type*} {capacity : ℕ} {m m' : Mailbox α capacity} {a : α}

def empty : Mailbox α capacity where
  bounded := Nat.zero_le _

def HasRoom (m : Mailbox α capacity) : Prop :=
  m.queue.length < capacity

instance : Decidable m.HasRoom :=
  inferInstanceAs (Decidable (_ < _))

-- Everything that has ever been put into a mailbox which is still held.
def contents (m : Mailbox α capacity) : List α :=
  m.received ++ m.queue

def trySend (m : Mailbox α capacity) (a : α) : Option (Mailbox α capacity) :=
  if h : m.held ∧ m.HasRoom then
    some { m with queue := m.queue ++ [a], bounded := by grind [HasRoom] }
  else
    none

def recv (m : Mailbox α capacity) : Option (α × Mailbox α capacity) :=
  match h : m.queue with
  | []     => none
  | a :: q =>
    if m.held then
      some (a, {
        queue    := q
        received := m.received ++ [a]
        bounded  := Nat.le_of_succ_le <| by simpa [h] using m.bounded
      })
    else
      none

-- Takes out up to `n` messages at once.
def drain (m : Mailbox α capacity) (n : ℕ) : Mailbox α capacity where
  queue    := m.queue.drop n
  received := m.received ++ m.queue.take n
  held     := m.held
  bounded  := Nat.le_trans (by simp) m.bounded

-- Dropping the receiver discards what it has not taken out.
def drop (m : Mailbox α capacity) : Mailbox α capacity where
  received := m.received
  held     := false
  bounded  := Nat.zero_le _

@[simp]
theorem empty_queue : (empty : Mailbox α capacity).queue = [] :=
  rfl

@[simp]
theorem empty_received : (empty : Mailbox α capacity).received = [] :=
  rfl

@[simp]
theorem empty_held : (empty : Mailbox α capacity).held = true :=
  rfl

theorem trySend_iff :
    m.trySend a = some m' ↔
      m.held ∧ m.HasRoom ∧ m'.queue = m.queue ++ [a] ∧ m'.received = m.received ∧ m'.held := by
  simp only [trySend, Option.dite_none_right_eq_some, Option.some.injEq]
  constructor
  case mp => rintro ⟨⟨h, r⟩, rfl⟩; simp [h, r]
  case mpr =>
    rintro ⟨h, r, hq, hr, hh⟩
    exact ⟨⟨h, r⟩, Mailbox.ext hq.symm hr.symm (h.trans hh.symm)⟩

theorem trySend_eq_none_iff : m.trySend a = none ↔ (m.held → ¬m.HasRoom) := by
  simp [trySend]

theorem trySend_contents (h : m.trySend a = some m') : m'.contents = m.contents ++ [a] := by
  have ⟨_, _, hq, hr, _⟩ := trySend_iff.mp h
  simp [contents, hq, hr]

theorem trySend_held (h : m.trySend a = some m') : m.held ∧ m'.held :=
  have ⟨h, _, _, _, h'⟩ := trySend_iff.mp h
  ⟨h, h'⟩

theorem recv_iff :
    m.recv = some (a, m') ↔
      m.held ∧ m.queue = a :: m'.queue ∧ m'.received = m.received ++ [a] ∧ m'.held := by
  cases m with | mk q r h b =>
  cases m' with | mk q' r' h' b' =>
  cases q <;> simp [recv]
  grind

theorem recv_of_queue {q : List α} (held : m.held) (h : m.queue = a :: q) :
    ∃ m', m.recv = some (a, m') := by
  cases m with | mk queue received held b =>
  subst h
  exact ⟨_, if_pos held⟩

theorem recv_contents (h : m.recv = some (a, m')) : m'.contents = m.contents := by
  have ⟨_, hq, hr, _⟩ := recv_iff.mp h
  simp [contents, hq, hr]

theorem recv_held (h : m.recv = some (a, m')) : m.held ∧ m'.held :=
  have ⟨h, _, _, h'⟩ := recv_iff.mp h
  ⟨h, h'⟩

@[simp]
theorem drop_held : m.drop.held = false :=
  rfl

end Mailbox
