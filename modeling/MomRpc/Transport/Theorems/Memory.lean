import Mathlib.Data.List.Nodup
import Mathlib.Data.List.Count
import MomRpc.Lib.History
import MomRpc.Transport.Memory

namespace MomRpc.MemoryHub

variable {ι : Type} {hub hub' : MemoryHub ι} {a : Action ι}

-- The subscription which the `i`-th `subscribe()` was for.
def topic (hub : MemoryHub ι) (i : ℕ) : Option Subscription :=
  hub.handles[i]?.map SubscriptionHandle.subscription

theorem topic_eq_none_iff {i : ℕ} : hub.topic i = none ↔ hub.handles.length ≤ i := by
  simp [topic]

theorem lt_of_topic {i : ℕ} {sub : Subscription} (h : hub.topic i = some sub) :
    i < hub.handles.length := by
  by_contra hl
  simp [topic_eq_none_iff.mpr (Nat.le_of_not_lt hl)] at h

def Action.isSubscribe : Action ι → Bool
  | subscribe _ => true
  | _           => false

variable [DecidableEq ι]

@[simp]
theorem set_publishes {p q : ι} {progress : Publish} :
    (hub.set p progress).publishes q = if q = p then progress else hub.publishes q := by
  simp [set, Function.update_apply]

@[simp]
theorem set_subscriptions {p : ι} {progress : Publish} :
    (hub.set p progress).subscriptions = hub.subscriptions :=
  rfl

@[simp]
theorem set_handles {p : ι} {progress : Publish} : (hub.set p progress).handles = hub.handles :=
  rfl

@[simp]
theorem set_readers {p : ι} {progress : Publish} : (hub.set p progress).readers = hub.readers :=
  rfl

-- All that one action can do to a hub.
inductive Step (hub : MemoryHub ι) : Action ι → MemoryHub ι → Prop
  | subscribe {sub} (free : hub.readers = []) :
    Step hub (.subscribe sub) { hub with
      subscriptions :=
        Function.update hub.subscriptions sub (hub.subscriptions sub ++ [hub.handles.length])
      handles := hub.handles ++ [{ subscription := sub }]
    }
  | publish {p env} (idle : hub.publishes p = .idle) :
    Step hub (.publish p env) (hub.set p (.locking env))
  | acquire {p env} (locking : hub.publishes p = .locking env) :
    Step hub (.acquire p) { hub.set p (.sending env (hub.subscriptions ⟨env.address.name⟩)) with
      readers := p :: hub.readers
    }
  | send {p i env senders h inbox} (sending : hub.publishes p = .sending env (i :: senders))
    (handle : hub.handles[i]? = some h) (sent : h.inbox.trySend env = some inbox) :
    Step hub (.send p i) { hub.set p (.sending env senders) with
      handles := hub.handles.set i { h with inbox }
    }
  | ignore {p i env senders h} (sending : hub.publishes p = .sending env (i :: senders))
    (handle : hub.handles[i]? = some h) (dropped : h.inbox.held = false) :
    Step hub (.send p i) (hub.set p (.sending env senders))
  | release {p env} (sending : hub.publishes p = .sending env []) :
    Step hub (.release p) { hub.set p (.done env) with readers := hub.readers.erase p }
  | abandonLocking {p env} (locking : hub.publishes p = .locking env) :
    Step hub (.abandon p) (hub.set p (.abandoned env))
  | abandonSending {p env senders} (sending : hub.publishes p = .sending env senders) :
    Step hub (.abandon p) { hub.set p (.abandoned env) with readers := hub.readers.erase p }
  | recv {i h env inbox} (handle : hub.handles[i]? = some h)
    (received : h.inbox.recv = some (env, inbox)) :
    Step hub (.recv i) { hub with handles := hub.handles.set i { h with inbox } }
  | drop {i h} (handle : hub.handles[i]? = some h) :
    Step hub (.drop i) { hub with handles := hub.handles.set i { h with inbox := h.inbox.drop } }
  | close (free : hub.readers = []) : Step hub .close { hub with subscriptions := fun _ => [] }

theorem next_step (h : (machine ι).next hub a = some hub') : Step hub a hub' := by
  cases a <;> simp only [machine, next] at h
  case subscribe sub =>
    simp only [MemoryHub.subscribe, Option.ite_none_right_eq_some, Option.some.injEq] at h
    exact h.right ▸ .subscribe h.left
  case publish p env =>
    simp only [MemoryHub.publish] at h
    split at h <;> cases h
    exact .publish ‹_›
  case acquire p =>
    simp only [MemoryHub.acquire] at h
    split at h <;> cases h
    exact .acquire ‹_›
  case send p i =>
    simp only [MemoryHub.send] at h
    split at h <;> try cases h
    case _ env j senders hs =>
      simp only [Option.ite_none_right_eq_some, Option.map_eq_some_iff] at h
      obtain ⟨rfl, hub₁, hd, rfl⟩ := h
      simp only [deliver] at hd
      split at hd <;> try cases hd
      case _ h hh =>
        split at hd
        case isTrue =>
          obtain ⟨inbox, hi, rfl⟩ := Option.map_eq_some_iff.mp hd
          exact .send hs hh hi
        case isFalse hf =>
          cases hd
          exact .ignore hs hh (by simpa using hf)
  case release p =>
    simp only [MemoryHub.release] at h
    split at h <;> cases h
    exact .release ‹_›
  case abandon p =>
    simp only [MemoryHub.abandon] at h
    split at h <;> cases h
    · exact .abandonLocking ‹_›
    · exact .abandonSending ‹_›
  case recv i =>
    simp only [MemoryHub.recv, Option.map_eq_some_iff, Option.bind_eq_bind,
      Option.bind_eq_some_iff] at h
    obtain ⟨_, ⟨h, hh, ⟨env, inbox⟩, hr, he⟩, rfl⟩ := h
    cases he
    exact .recv hh hr
  case drop i =>
    obtain ⟨h, hh, rfl⟩ := Option.map_eq_some_iff.mp h
    exact .drop hh
  case close =>
    simp only [MemoryHub.close, Option.ite_none_right_eq_some, Option.some.injEq] at h
    exact h.right ▸ .close h.left

-- What the action takes out of the inbox of the `i`-th handle.
def taken (hub : MemoryHub ι) (a : Action ι) (i : ℕ) : List Envelope :=
  match a with
  | .recv j => if j = i then (hub.recv i).map Prod.fst |>.toList else []
  | _       => []

-- What an action can do to the `i`-th handle.
structure Change (hub : MemoryHub ι) (a : Action ι) (i : ℕ) (h h' : SubscriptionHandle) : Prop where
  subscription : h'.subscription = h.subscription
  received     : h'.inbox.received = h.inbox.received ++ hub.taken a i
  held         : h'.inbox.held ∨ hub.taken a i = []

omit [DecidableEq ι] in
theorem Change.same {i : ℕ} {h : SubscriptionHandle} (quiet : hub.taken a i = []) :
    Change hub a i h h :=
  ⟨rfl, by simp [quiet], .inr quiet⟩

namespace Step

variable {i : ℕ} {p : ι} {env : Envelope}

theorem handles_length (st : Step hub a hub') :
    hub'.handles.length = hub.handles.length + if a.isSubscribe then 1 else 0 := by
  cases st <;> simp [Action.isSubscribe]

theorem topic (st : Step hub a hub') (hi : a.isSubscribe → i < hub.handles.length) :
    hub'.topic i = hub.topic i := by
  cases st <;> simp only [MemoryHub.topic, set_handles, List.getElem?_set, List.getElem?_append]
  case subscribe => simp [hi rfl]
  case send handle _ | recv handle _ | drop handle =>
    have ⟨hl, _⟩ := List.getElem?_eq_some_iff.mp handle
    split <;> simp_all

theorem mem_subscriptions {sub : Subscription} (st : Step hub a hub') :
    i ∈ hub'.subscriptions sub ↔
      (i ∈ hub.subscriptions sub ∧ a ≠ .close) ∨ (a = .subscribe sub ∧ i = hub.handles.length) := by
  cases st <;> simp
  case subscribe sub' _ =>
    by_cases hs : sub = sub'
    case pos => subst hs; simp
    case neg => simp [hs, Ne.symm hs]

theorem preserves_env? (st : Step hub a hub') (h : (hub.publishes p).env? = some env) :
    (hub'.publishes p).env? = some env := by
  cases st <;> simp only [set_publishes, h]
  all_goals
    split
    · simp_all [Publish.env?]
    · exact h

theorem env?_cases (st : Step hub a hub') (h : (hub'.publishes p).env? = some env) :
    (hub.publishes p).env? = some env ∨ a = .publish p env := by
  cases st <;> simp only [set_publishes] at h <;> try exact .inl h
  all_goals
    split at h
    · subst_vars
      simp_all [Publish.env?]
    · exact .inl h

theorem handle {h : SubscriptionHandle} (st : Step hub a hub') (hh : hub.handles[i]? = some h) :
    ∃ h', hub'.handles[i]? = some h' ∧ Change hub a i h h' := by
  have ⟨hl, _⟩ := List.getElem?_eq_some_iff.mp hh
  -- The action changes the `j`-th handle.
  have set {j h₁ h₂} (handle : hub.handles[j]? = some h₁) (change : Change hub a j h₁ h₂)
      (quiet : j ≠ i → hub.taken a i = []) :
      ∃ h', (hub.handles.set j h₂)[i]? = some h' ∧ Change hub a i h h' :=
    List.getElem?_set_related handle hh (fun hj => hj ▸ change) fun hj => .same (quiet hj)
  cases st <;> try exact ⟨h, hh, .same rfl⟩
  case subscribe => exact ⟨h, by rwa [List.getElem?_append_left hl], .same rfl⟩
  case send handle sent =>
    have ⟨_, _, _, hr, _⟩ := Mailbox.trySend_iff.mp sent
    exact set handle ⟨rfl, by simp [hr, taken], .inr rfl⟩ fun _ => rfl
  case recv j h₁ env inbox handle received =>
    have ⟨_, _, hr, held⟩ := Mailbox.recv_iff.mp received
    refine set handle ⟨rfl, ?_, .inl held⟩ fun hj => by simp [taken, hj]
    simp [hr, taken, MemoryHub.recv, handle, received]
  case drop handle =>
    exact set handle ⟨rfl, by simp [Mailbox.drop, taken], .inr rfl⟩ fun _ => rfl

theorem fresh_handle {h : SubscriptionHandle} (st : Step hub a hub')
    (hl : hub.handles.length ≤ i) (hh : hub'.handles[i]? = some h) :
    ∃ sub, a = .subscribe sub ∧ i = hub.handles.length ∧ h = { subscription := sub } := by
  have hn := List.getElem?_eq_none hl
  have ⟨hl', _⟩ := List.getElem?_eq_some_iff.mp hh
  cases st <;> simp only [set_handles, List.length_set] at hl' <;> try omega
  case subscribe =>
    obtain rfl : i = hub.handles.length := by simp at hl'; omega
    exact ⟨_, rfl, rfl, by simpa [eq_comm] using hh⟩

end Step

-- The senders in the subscription map, each under the subscription it was registered for.
theorem topic_of_mem {i : ℕ} {sub : Subscription} (r : (machine ι).Reachable hub)
    (hi : i ∈ hub.subscriptions sub) : hub.topic i = some sub := by
  induction hub, r using Machine.Reachable.induction_on generalizing i sub
  case init => simp [machine] at hi
  case step hub a hub' _ h ih =>
    have st := next_step h
    have keep {sub} (hi : i ∈ hub.subscriptions sub) : hub'.topic i = some sub :=
      st.topic (fun _ => lt_of_topic <| ih hi) ▸ ih hi
    cases st <;> try exact keep hi
    case subscribe sub' free =>
      by_cases hs : sub = sub'
      case pos =>
        subst hs
        simp only [Function.update_self, List.mem_append, List.mem_singleton] at hi
        rcases hi with hi | rfl
        · exact keep hi
        · simp [topic]
      case neg => exact keep <| by simpa [hs] using hi
    case close => simp at hi

theorem subscriptions_nodup {sub : Subscription} (r : (machine ι).Reachable hub) :
    (hub.subscriptions sub).Nodup := by
  induction hub, r using Machine.Reachable.induction_on generalizing sub
  case init => simp [machine]
  case step hub a hub' r h ih =>
    cases next_step h <;> try exact ih
    case subscribe sub' free =>
      by_cases hs : sub = sub'
      case pos =>
        subst hs
        simp only [Function.update_self, ← List.concat_eq_append, List.nodup_concat]
        refine ⟨fun hm => ?_, ih⟩
        exact Nat.lt_irrefl _ <| lt_of_topic <| topic_of_mem r hm
      case neg => simpa [hs] using ih
    case close => simp

theorem sending_nodup {p : ι} {env : Envelope} {senders : List ℕ} (r : (machine ι).Reachable hub)
    (hs : hub.publishes p = .sending env senders) : senders.Nodup := by
  induction hub, r using Machine.Reachable.induction_on generalizing env senders
  case init => simp [machine] at hs
  case step hub a hub' r h ih =>
    cases next_step h <;> try exact ih hs
    all_goals
      simp only [set_publishes] at hs
      split at hs <;> try exact ih hs
      cases hs
    case acquire => exact subscriptions_nodup r
    all_goals
      subst_vars
      exact (ih ‹_›).of_cons

end MomRpc.MemoryHub
