import MomRpc.Domain.Transport
import MomRpc.Lib.History
import MomRpc.Lib.Machine

namespace MomRpc

-- How many envelopes are in the inbox of a handle.
def queued (handles : List SubscriptionHandle) (k : ℕ) : ℕ :=
  handles[k]?.elim 0 (·.inbox.queue.length)

section Queued

variable {handles : List SubscriptionHandle} {h : SubscriptionHandle} {i k : ℕ}
  {inbox : Mailbox Envelope inboxCapacity}

theorem queued_of_handle (handle : handles[k]? = some h) :
    queued handles k = h.inbox.queue.length := by
  simp [queued, handle]

theorem queued_concat (empty : h.inbox.queue = []) :
    queued (handles ++ [h]) k = queued handles k := by
  rcases Nat.lt_trichotomy k handles.length with hk | rfl | hk
  · simp [queued, List.getElem?_append_left hk]
  · simp [queued, empty]
  · have hk' : (handles ++ [h]).length ≤ k := by rwa [List.length_append]
    simp [queued, List.getElem?_eq_none hk', List.getElem?_eq_none (Nat.le_of_lt hk)]

theorem queued_set_le (handle : handles[i]? = some h)
    (le : inbox.queue.length ≤ h.inbox.queue.length) :
    queued (handles.set i { h with inbox }) k ≤ queued handles k := by
  by_cases hi : i = k
  case pos =>
    subst hi
    obtain ⟨hl, _⟩ := List.getElem?_eq_some_iff.mp handle
    rwa [queued_of_handle handle, queued_of_handle (List.getElem?_set_self hl)]
  case neg => simp [queued, hi]

-- Whoever receives leaves one envelope less.
theorem queued_recv {env : Envelope} (handle : handles[k]? = some h)
    (received : h.inbox.recv = some (env, inbox)) :
    queued (handles.set k { h with inbox }) k < queued handles k := by
  obtain ⟨hl, _⟩ := List.getElem?_eq_some_iff.mp handle
  obtain ⟨_, hq, _⟩ := Mailbox.recv_iff.mp received
  rw [queued_of_handle handle, queued_of_handle (List.getElem?_set_self hl), hq]
  exact Nat.lt_add_one _

end Queued

-- A transport seen from its subscribers. `retained` tells that somebody keeps a sender of the
-- handle, and `closes` that a call of `close` returns in the step.
structure Subscriptions (S A : Type) where
  machine  : Machine S A
  handles  : S → List SubscriptionHandle
  retained : S → ℕ → Prop
  closes   : S → A → Prop

namespace Subscriptions

variable {S A : Type} (sub : Subscriptions S A)

-- What `recv` returns for a handle: the next envelope, or `None` if there is none and nobody is
-- left who could send one. Otherwise it waits.
inductive Yields (s : S) (k : ℕ) : Option Envelope → Prop
  | some {h : SubscriptionHandle} {env : Envelope} (handle : (sub.handles s)[k]? = some h)
    (held : h.inbox.held) (next : h.inbox.queue.head? = some env) : Yields s k (some env)
  | none {h : SubscriptionHandle} (handle : (sub.handles s)[k]? = some h) (held : h.inbox.held)
    (empty : h.inbox.queue = []) (released : ¬sub.retained s k) : Yields s k none

-- From `s` on, the inbox yields only what has been put into it by then, and after that `None`.
structure Ended (s t : S) (k : ℕ) : Prop where
  released : ¬sub.retained t k
  inbox    : ∀ h h', (sub.handles s)[k]? = some h → (sub.handles t)[k]? = some h' →
    h'.inbox.held → h.inbox.held ∧ h'.inbox.contents = h.inbox.contents
  yields   : ∀ h', (sub.handles t)[k]? = some h' → h'.inbox.held →
    sub.Yields t k h'.inbox.queue.head?

-- Each `close` that has returned has ended all subscriptions that had been made by then.
def CloseEnds (as : List A) (t : S) : Prop :=
  ∀ xs a ys s s', as = xs ++ a :: ys → sub.machine.Run xs s → sub.machine.next s a = some s' →
    sub.closes s a → ∀ k < (sub.handles s').length, sub.Ended s' t k

-- Handles are never removed, and nobody comes to keep the sender of an old one.
structure Lawful : Prop where
  grows : ∀ s a s', sub.machine.next s a = some s' →
    (sub.handles s).length ≤ (sub.handles s').length
  ends  : ∀ s a s' k, sub.machine.Reachable s → sub.machine.next s a = some s' →
    k < (sub.handles s).length → ¬sub.retained s k → sub.Ended s s' k

-- When `close` returns in the step, it leaves no sender of an old handle behind.
def Releases (s : S) (a : A) : Prop :=
  sub.closes s a → ∀ s', sub.machine.next s a = some s' →
    ∀ k < (sub.handles s').length, ¬sub.retained s' k

-- Nobody keeps the sender of a handle when `close` is about to return.
def Released (s : S) (a : A) : Prop :=
  sub.closes s a → ∀ k < (sub.handles s).length, ¬sub.retained s k

variable {sub} {s t u : S} {as : List A} {k : ℕ}

theorem Ended.of_released (released : ¬sub.retained t k)
    (inbox : ∀ h h', (sub.handles s)[k]? = some h → (sub.handles t)[k]? = some h' →
      h'.inbox.held → h.inbox.held ∧ h'.inbox.contents = h.inbox.contents) :
    sub.Ended s t k where
  released
  inbox
  yields h hh held := by
    cases hq : h.inbox.queue
    case nil  => exact .none hh held hq released
    case cons => exact .some hh held <| by simp [hq]

theorem Ended.refl (released : ¬sub.retained s k) : sub.Ended s s k := by
  refine .of_released released fun h h' hh hh' held => ?_
  cases hh.symm.trans hh'
  exact ⟨held, rfl⟩

theorem Ended.trans (hk : k < (sub.handles t).length) (h₁ : sub.Ended s t k)
    (h₂ : sub.Ended t u k) : sub.Ended s u k := by
  refine .of_released h₂.released fun h h' hh hh' held => ?_
  have ht := List.getElem?_eq_getElem hk
  have ⟨held, e₂⟩ := h₂.inbox _ h' ht hh' held
  have ⟨held, e₁⟩ := h₁.inbox h _ hh ht held
  exact ⟨held, e₂.trans e₁⟩

theorem Lawful.exec_grows (law : sub.Lawful) (he : sub.machine.exec s as = some t) :
    (sub.handles s).length ≤ (sub.handles t).length := by
  refine Machine.exec_stable (P := fun t => (sub.handles s).length ≤ (sub.handles t).length)
    he (Nat.le_refl _) ?_
  exact fun u a u' _ hl hn => Nat.le_trans hl <| law.grows u a u' hn

theorem closeEnds_iff (law : sub.Lawful) (r : sub.machine.Run as s) :
    sub.machine.Along as sub.CloseEnds ↔ sub.machine.Throughout as sub.Releases := by
  refine Machine.along_iff_throughout r (by simp [CloseEnds]) fun as s a s' r ih hn => ?_
  constructor
  case mp =>
    intro h hc s'' hn' k hk
    cases hn.symm.trans hn'
    exact h as a [] s s' rfl r hn hc k hk |>.released
  case mpr =>
    intro h xs b ys t t' he rt hn' hc k hk
    rcases List.concat_eq_append_cons_iff.mp he with ⟨zs, rfl, hs⟩ | ⟨rfl, rfl, rfl⟩
    case inl =>
      have e := ih xs b zs t t' hs rt hn' hc k hk
      have ⟨_, hn'', he⟩ := (hs ▸ r : sub.machine.Run (xs ++ b :: zs) s).next rt
      cases hn'.symm.trans hn''
      have hk := Nat.lt_of_lt_of_le hk <| law.exec_grows he
      exact e.trans hk <| law.ends s a s' k r.reachable hn hk e.released
    case inr =>
      cases r.deterministic rt
      cases hn.symm.trans hn'
      exact .refl <| h hc s' hn k hk

-- A `close` that does nothing to the senders leaves behind whatever is there.
theorem closeEnds_iff_released (law : sub.Lawful)
    (same : ∀ s a s', sub.machine.next s a = some s' → sub.closes s a →
      sub.handles s' = sub.handles s ∧ ∀ k, sub.retained s' k ↔ sub.retained s k)
    (r : sub.machine.Run as s) :
    sub.machine.Along as sub.CloseEnds ↔ sub.machine.Throughout as sub.Released := by
  refine (closeEnds_iff law r).trans <| Machine.Throughout.congr r fun s a s' _ hn => ?_
  constructor
  case mp =>
    intro h hc k hk
    have ⟨hh, hr⟩ := same s a s' hn hc
    exact fun hk' => h hc s' hn k (hh ▸ hk) <| (hr k).mpr hk'
  case mpr =>
    intro h hc s'' hn' k hk
    have ⟨hh, hr⟩ := same s a s'' hn' hc
    exact fun hk' => h hc k (hh ▸ hk) <| (hr k).mp hk'

end Subscriptions
end MomRpc
