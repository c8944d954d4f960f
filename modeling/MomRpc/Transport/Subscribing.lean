import MomRpc.Transport.Calls
import MomRpc.Transport.Fanout

namespace MomRpc

open RumqttcTransport (MethodCall)

-- A transport seen from its calls of `subscribe` and the subscriber map. `owners` are the calls
-- that have pushed the senders, in this order.
structure Subscribing (S A ι : Type) where
  machine : Machine S A
  calls   : S → List MethodCall
  owners  : S → List ℕ
  fanout  : S → Fanout ι

namespace Subscribing

variable {S A ι : Type} (sub : Subscribing S A ι)

-- The call of `subscribe` returns `Err` in the step from `s` to `s'`.
def Fails (s s' : S) (i : ℕ) (topic : String) : Prop :=
  ∃ c c' err, (sub.calls s)[i]? = some c ∧ c.method = .subscribe topic ∧ c.active ∧
    (sub.calls s')[i]? = some c' ∧ c'.phase = .returned (.error err)

-- The map has no sender that the call has pushed.
def Evicted (s : S) (i : ℕ) : Prop :=
  ∀ k, (sub.owners s)[k]? = some i →
    ∀ topic senders, (sub.fanout s).subscribers topic = some senders → k ∉ senders

-- The map has a sender for the topic that another call has pushed, and its receiver is held.
def Shared (s : S) (i : ℕ) (topic : String) : Prop :=
  ∃ k j senders h, (sub.owners s)[k]? = some j ∧ j ≠ i ∧
    (sub.fanout s).subscribers topic = some senders ∧ k ∈ senders ∧
    (sub.fanout s).handles[k]? = some h ∧ h.inbox.held

-- The map is as if the call had not been made.
structure NoTrace (s : S) (i : ℕ) (topic : String) : Prop where
  sender : sub.Evicted s i
  key    : ¬sub.Shared s i topic → (sub.fanout s).subscribers topic = none

def LeavesNoTrace (s : S) (a : A) : Prop :=
  ∀ s' i topic, sub.machine.next s a = some s' → sub.Fails s s' i topic → sub.NoTrace s' i topic

-- A call that fails has pushed its sender, and it leaves the map and the other receivers as they
-- are.
structure Lawful : Prop where
  owned  : ∀ s, sub.machine.Reachable s → (sub.owners s).length = (sub.fanout s).handles.length
  pushed : ∀ s a s' i topic, sub.machine.Reachable s → sub.machine.next s a = some s' →
    sub.Fails s s' i topic → i ∈ sub.owners s ∧ (sub.fanout s).subscribers topic ≠ none
  same   : ∀ s a s' i topic, sub.machine.Reachable s → sub.machine.next s a = some s' →
    sub.Fails s s' i topic → (sub.fanout s').subscribers = (sub.fanout s).subscribers ∧
      sub.owners s' = sub.owners s ∧ ∀ k j : ℕ, (sub.owners s)[k]? = some j → j ≠ i →
        (sub.fanout s').handles[k]? = (sub.fanout s).handles[k]?

variable {sub} {s s' : S} {a : A} {i : ℕ} {topic : String}

-- Nothing is undone when the call fails.
theorem Lawful.noTrace_iff (law : sub.Lawful) (r : sub.machine.Reachable s)
    (hn : sub.machine.next s a = some s') (h : sub.Fails s s' i topic) :
    sub.NoTrace s' i topic ↔ sub.Evicted s i ∧ sub.Shared s i topic := by
  obtain ⟨map, owners, handles⟩ := law.same s a s' i topic r hn h
  obtain ⟨_, key⟩ := law.pushed s a s' i topic r hn h
  have evicted : sub.Evicted s' i ↔ sub.Evicted s i := by simp [Evicted, map, owners]
  have shared : sub.Shared s' i topic ↔ sub.Shared s i topic := by
    simp only [Shared, map, owners]
    constructor
    case mp =>
      rintro ⟨k, j, senders, h, owner, ne, hs, hk, handle, held⟩
      exact ⟨k, j, senders, h, owner, ne, hs, hk, handles k j owner ne ▸ handle, held⟩
    case mpr =>
      rintro ⟨k, j, senders, h, owner, ne, hs, hk, handle, held⟩
      exact ⟨k, j, senders, h, owner, ne, hs, hk, (handles k j owner ne).trans handle, held⟩
  constructor
  case mp =>
    rintro ⟨sender, none⟩
    refine ⟨evicted.mp sender, by_contra fun hs => key ?_⟩
    exact map ▸ (none <| mt shared.mp hs)
  case mpr =>
    rintro ⟨he, hs⟩
    exact ⟨evicted.mpr he, fun hn => absurd (shared.mpr hs) hn⟩

end Subscribing
end MomRpc
