import Mathlib.Data.List.Basic
import MomRpc.Transport.Fanout

namespace MomRpc.Fanout

section Subscribe

variable {ι : Type} {f : Fanout ι} {i : ℕ} {topic topic' : String}

-- The sender is in the map under the topic.
def Registered (f : Fanout ι) (topic : String) (i : ℕ) : Prop :=
  ∃ senders, f.subscribers topic = some senders ∧ i ∈ senders

@[simp]
theorem subscribe_incoming : (f.subscribe topic).incoming = f.incoming :=
  rfl

@[simp]
theorem subscribe_handles :
    (f.subscribe topic).handles = f.handles ++ [{ subscription := ⟨topic⟩ }] :=
  rfl

theorem subscribe_registered :
    (f.subscribe topic).Registered topic' i ↔
      f.Registered topic' i ∨ (topic' = topic ∧ i = f.handles.length) := by
  by_cases ht : topic' = topic
  case neg => simp [Registered, subscribe, ht]
  case pos =>
    subst ht
    cases hs : f.subscribers topic' <;> simp [Registered, subscribe, hs]

end Subscribe

variable {ι : Type} [DecidableEq ι] {decode : Bytes → Option Envelope} {f f' : Fanout ι}
  {act : Action ι}

-- All that one action can do to the subscribers.
inductive Step (decode : Bytes → Option Envelope) (f : Fanout ι) : Action ι → Fanout ι → Prop
  | subscribe {topic} : Step decode f (.subscribe topic) (f.subscribe topic)
  | ignore {w topic message} (idle : f.incoming w = .idle) :
    Step decode f (.incoming w topic message) f
  | snapshot {w topic message env senders} (idle : f.incoming w = .idle)
    (decoded : decode message = some env) (found : f.subscribers topic = some senders) :
    Step decode f (.incoming w topic message) { f with
      incoming := Function.update f.incoming w (.sending topic env senders senders [])
    }
  | sent {w i topic env senders rest survivors h inbox}
    (sending : f.incoming w = .sending topic env senders (i :: rest) survivors)
    (handle : f.handles[i]? = some h) (accepted : h.inbox.trySend env = some inbox) :
    Step decode f (.trySend w i) { f with
      handles  := f.handles.set i { h with inbox }
      incoming :=
        Function.update f.incoming w (.sending topic env senders rest (survivors ++ [i]))
    }
  | evicted {w i topic env senders rest survivors h}
    (sending : f.incoming w = .sending topic env senders (i :: rest) survivors)
    (handle : f.handles[i]? = some h) (rejected : h.inbox.trySend env = none) :
    Step decode f (.trySend w i) { f with
      incoming := Function.update f.incoming w (.sending topic env senders rest survivors)
    }
  | finish {w topic env senders survivors}
    (sending : f.incoming w = .sending topic env senders [] survivors)
    (all : survivors.length = senders.length) :
    Step decode f (.writeBack w) { f with incoming := Function.update f.incoming w .idle }
  | writeBack {w topic env senders survivors}
    (sending : f.incoming w = .sending topic env senders [] survivors)
    (fewer : survivors.length ≠ senders.length) :
    Step decode f (.writeBack w) { f with
      incoming    := Function.update f.incoming w .idle
      subscribers := Function.update f.subscribers topic (some survivors)
    }
  | recv {i h env inbox} (handle : f.handles[i]? = some h)
    (received : h.inbox.recv = some (env, inbox)) :
    Step decode f (.recv i) { f with handles := f.handles.set i { h with inbox } }
  | drop {i h} (handle : f.handles[i]? = some h) :
    Step decode f (.drop i)
      { f with handles := f.handles.set i { h with inbox := h.inbox.drop } }

theorem next_step (h : (machine ι decode).next f act = some f') : Step decode f act f' := by
  cases act <;> simp only [machine, next] at h
  case subscribe topic => cases h; exact .subscribe
  case incoming w topic message =>
    simp only [handleIncoming] at h
    split at h <;> try cases h
    case _ idle =>
      split at h <;> cases h
      · exact .snapshot idle ‹_› ‹_›
      · exact .ignore idle
  case trySend w i =>
    simp only [Fanout.trySend] at h
    split at h <;> try cases h
    case _ sending =>
      split at h <;> try cases h
      case _ handle =>
        split at h <;> try cases h
        case _ hi =>
          subst hi
          split at h <;> cases h
          · exact .sent sending handle ‹_›
          · exact .evicted sending handle ‹_›
  case writeBack w =>
    simp only [Fanout.writeBack] at h
    split at h <;> try cases h
    case _ sending =>
      split at h <;> cases h
      · exact .finish sending ‹_›
      · exact .writeBack sending ‹_›
  case recv i =>
    simp only [Fanout.recv, Option.bind_eq_bind, Option.bind_eq_some_iff] at h
    obtain ⟨h, hh, ⟨env, inbox⟩, hr, he⟩ := h
    cases he
    exact .recv hh hr
  case drop i =>
    obtain ⟨h, hh, rfl⟩ := Option.map_eq_some_iff.mp h
    exact .drop hh

theorem writeBack_eq {w : ι} {topic : String} {env : Envelope} {senders survivors : List ℕ}
    (hs : f.incoming w = .sending topic env senders [] survivors)
    (hl : survivors.length ≠ senders.length) :
    f.writeBack w = some { f with
      incoming    := Function.update f.incoming w .idle
      subscribers := Function.update f.subscribers topic (some survivors)
    } := by
  simp [writeBack, hs, hl]

theorem Step.length_le (st : Step decode f act f') : f.handles.length ≤ f'.handles.length := by
  cases st <;> simp

theorem next?_grows {o : Option (Action ι)} (hn : (machine ι decode).next? f o = some f') :
    f.handles.length ≤ f'.handles.length := by
  rcases Machine.next?_cases hn with ⟨_, rfl⟩ | ⟨_, _, hn⟩
  · exact Nat.le_refl _
  · exact (next_step hn).length_le

-- A handle that is held has been held before, or it has just been subscribed.
theorem Step.held {i : ℕ} {h' : SubscriptionHandle} (st : Step decode f act f')
    (hh : f'.handles[i]? = some h') (held : h'.inbox.held) :
    (∃ h, f.handles[i]? = some h ∧ h.subscription = h'.subscription ∧ h.inbox.held) ∨
      (i = f.handles.length ∧ act = .subscribe h'.subscription.name) := by
  cases st
  case ignore | snapshot | evicted | finish | writeBack => exact .inl ⟨h', hh, rfl, held⟩
  case subscribe topic =>
    by_cases hl : i < f.handles.length
    case pos =>
      rw [subscribe_handles, List.getElem?_append_left hl] at hh
      exact .inl ⟨h', hh, rfl, held⟩
    case neg =>
      rw [subscribe_handles, List.getElem?_append_right (Nat.le_of_not_lt hl)] at hh
      obtain ⟨hi, rfl⟩ := by simpa [List.getElem?_singleton] using hh
      exact .inr ⟨by omega, rfl⟩
  case sent j _ _ _ _ _ h inbox _ handle accepted =>
    simp only [List.getElem?_set] at hh
    split at hh
    case isFalse => exact .inl ⟨h', hh, rfl, held⟩
    case isTrue hj =>
      subst hj
      obtain ⟨_, rfl⟩ := by simpa using hh
      exact .inl ⟨h, handle, rfl, (Mailbox.trySend_held accepted).left⟩
  case recv j h env inbox handle received =>
    simp only [List.getElem?_set] at hh
    split at hh
    case isFalse => exact .inl ⟨h', hh, rfl, held⟩
    case isTrue hj =>
      subst hj
      obtain ⟨_, rfl⟩ := by simpa using hh
      exact .inl ⟨h, handle, rfl, (Mailbox.recv_held received).left⟩
  case drop j h handle =>
    simp only [List.getElem?_set] at hh
    split at hh
    case isFalse => exact .inl ⟨h', hh, rfl, held⟩
    case isTrue hj =>
      obtain ⟨_, rfl⟩ := by simpa using hh
      simp at held

-- All that one action can do to a worker.
inductive Progress (f : Fanout ι) (act : Action ι) (f' : Fanout ι) (w : ι) :
    Incoming → Incoming → Prop
  | same {incoming} (other : act ≠ .writeBack w) : Progress f act f' w incoming incoming
  | snapshot {topic env senders} (other : act ≠ .writeBack w)
    (found : f.subscribers topic = some senders) :
    Progress f act f' w .idle (.sending topic env senders senders [])
  | sent {i topic env senders rest survivors h inbox} (action : act = .trySend w i)
    (handle : f.handles[i]? = some h) (accepted : h.inbox.trySend env = some inbox)
    (handle' : f'.handles[i]? = some { h with inbox }) :
    Progress f act f' w (.sending topic env senders (i :: rest) survivors)
      (.sending topic env senders rest (survivors ++ [i]))
  | evicted {i topic env senders rest survivors h} (action : act = .trySend w i)
    (handle : f.handles[i]? = some h) (rejected : h.inbox.trySend env = none) :
    Progress f act f' w (.sending topic env senders (i :: rest) survivors)
      (.sending topic env senders rest survivors)
  | done {topic env senders survivors} (action : act = .writeBack w) :
    Progress f act f' w (.sending topic env senders [] survivors) .idle

theorem Step.progress (st : Step decode f act f') (w : ι) :
    Progress f act f' w (f.incoming w) (f'.incoming w) := by
  cases st
  case subscribe | ignore | recv | drop => exact .same nofun
  case snapshot w' _ _ _ _ idle _ found =>
    by_cases hw : w = w'
    case neg => simpa [hw] using .same nofun
    case pos => subst hw; simpa [idle] using .snapshot nofun found
  case sent w' i _ _ _ _ _ h inbox sending handle accepted =>
    by_cases hw : w = w'
    case neg => simpa [hw] using .same nofun
    case pos =>
      subst hw
      have ⟨hl, _⟩ := List.getElem?_eq_some_iff.mp handle
      simpa [sending] using .sent rfl handle accepted (by simp [hl])
  case evicted w' _ _ _ _ _ _ _ sending handle rejected =>
    by_cases hw : w = w'
    case neg => simpa [hw] using .same nofun
    case pos => subst hw; simpa [sending] using .evicted rfl handle rejected
  case finish w' _ _ _ _ sending _ | writeBack w' _ _ _ _ sending _ =>
    by_cases hw : w = w'
    case neg => simpa [hw] using .same (by simpa using Ne.symm hw)
    case pos => subst hw; simpa [sending] using .done rfl

section Reachable

variable {w : ι} {i : ℕ} {topic : String} {env : Envelope} {senders rest survivors : List ℕ}

-- No more than the snapshot survives.
theorem survivors_subset (r : (machine ι decode).Reachable f)
    (hs : f.incoming w = .sending topic env senders rest survivors) :
    rest ⊆ senders ∧ survivors ⊆ senders := by
  induction f, r using Machine.Reachable.induction_on generalizing topic env senders rest survivors
  case init => simp [machine] at hs
  case step f act f' _ h ih =>
    have p := hs ▸ (next_step h).progress w
    generalize hf : f.incoming w = incoming at p
    cases p
    case same => exact ih hf
    case snapshot => simp
    case sent =>
      have ⟨hr, hs⟩ := ih hf
      have ⟨hi, hr⟩ := List.cons_subset.mp hr
      exact ⟨hr, List.append_subset.mpr ⟨hs, by simpa using hi⟩⟩
    case evicted =>
      have ⟨hr, hs⟩ := ih hf
      exact ⟨(List.cons_subset.mp hr).right, hs⟩

-- All senders, in the map or in a snapshot, belong to a handle.
theorem sender_lt (r : (machine ι decode).Reachable f) :
    (∀ topic i, f.Registered topic i → i < f.handles.length) ∧
      ∀ w topic env senders rest survivors i,
        f.incoming w = .sending topic env senders rest survivors → i ∈ senders →
          i < f.handles.length := by
  induction f, r using Machine.Reachable.induction_on
  case init => simp [machine, Registered]
  case step f act f' r h ih =>
    have st := next_step h
    have ⟨hm, hs⟩ := ih
    replace hm {topic i} (hr : f.Registered topic i) :=
      Nat.lt_of_lt_of_le (hm topic i hr) st.length_le
    replace hs {w topic env senders rest survivors i}
        (hi : f.incoming w = .sending topic env senders rest survivors) (hr : i ∈ senders) :=
      Nat.lt_of_lt_of_le (hs w topic env senders rest survivors i hi hr) st.length_le
    constructor
    case left =>
      intro topic i hr
      cases st <;> try exact hm hr
      case subscribe topic' =>
        rcases subscribe_registered.mp hr with hr | ⟨_, rfl⟩
        · exact hm hr
        · simp
      case writeBack w topic' env senders survivors sending _ =>
        by_cases ht : topic = topic'
        case neg =>
          have hr : f.Registered topic i := by simpa [Registered, ht] using hr
          exact hm hr
        case pos =>
          obtain ⟨_, he, hi⟩ := hr
          subst ht
          obtain rfl := by simpa using he
          exact hs sending <| (survivors_subset r sending).right hi
    case right =>
      intro w topic env senders rest survivors i hi hr
      have p := hi ▸ st.progress w
      generalize hf : f.incoming w = incoming at p
      cases p
      case snapshot found => exact hm ⟨senders, found, hr⟩
      all_goals exact hs hf hr

-- The steps by which a worker completes a call of `handle_incoming`.
def Action.Completes (w : ι) (act : Action ι) : Prop :=
  act = .writeBack w ∨ ∃ i, act = .trySend w i

variable (decode) in
theorem trySend_enabled {j : ℕ}
    (hs : f.incoming w = .sending topic env senders (j :: rest) survivors)
    (hj : j < f.handles.length) :
    ∃ f' survivors', (machine ι decode).next f (.trySend w j) = some f' ∧
      f'.incoming w = .sending topic env senders rest survivors' := by
  have hh := List.getElem?_eq_getElem hj
  cases ht : f.handles[j].inbox.trySend env
  case none =>
    refine ⟨_, survivors, by simp [machine, next, Fanout.trySend, hs, hh, ht]; rfl, ?_⟩
    simp
  case some inbox =>
    refine ⟨_, survivors ++ [j], by simp [machine, next, Fanout.trySend, hs, hh, ht]; rfl, ?_⟩
    simp

variable (decode) in
theorem writeBack_enabled (hs : f.incoming w = .sending topic env senders [] survivors) :
    ∃ f', (machine ι decode).next f (.writeBack w) = some f' ∧ f'.incoming w = .idle := by
  simp only [machine, next, Fanout.writeBack, hs]
  split <;> exact ⟨_, rfl, by simp⟩

theorem leads_idle (r : (machine ι decode).Reachable f) (w : ι) :
    (machine ι decode).Leads (Action.Completes w) f fun f' => f'.incoming w = .idle := by
  cases hs : f.incoming w
  case idle => exact .here hs
  case sending topic env senders rest survivors =>
    induction rest generalizing f survivors
    case nil =>
      have ⟨f', hn, hi⟩ := writeBack_enabled decode hs
      exact .single (.inl rfl) hn hi
    case cons j rest ih =>
      have hj := (sender_lt r).right w topic env senders _ survivors j hs <|
        (survivors_subset r hs).left <| List.mem_cons_self ..
      have ⟨f', survivors', hn, hi⟩ := trySend_enabled decode hs hj
      exact .step (.inr ⟨j, rfl⟩) hn <| ih (r.next hn) survivors' hi

end Reachable
end MomRpc.Fanout
