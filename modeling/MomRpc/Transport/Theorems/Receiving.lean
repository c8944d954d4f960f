import MomRpc.Transport.Theorems.Carriers
import MomRpc.Transport.Theorems.Closing
import MomRpc.Transport.Theorems.Failing

namespace MomRpc

open RumqttcTransport (MethodCall)

namespace RumqttcTransport.CallChange

variable {caller : Caller} {shut gone owns : Prop} {replies : Except RpcError Ack → Prop}
  {c c' : MethodCall} {result : Except RpcError Unit}

theorem returned (ch : CallChange caller shut gone owns replies c c')
    (h : c.phase = .returned result) : c'.phase = .returned result := by
  cases ch
  case same | reply => exact h
  case send sending => cases h.symm.trans sending
  case step step    => simpa [MethodCall.active, h] using step.active

-- A call that has failed does not come back.
theorem fails (ch : CallChange caller shut gone owns replies c c') (ok : c'.fails = false) :
    c.fails = false := by
  cases ch
  case same | reply => exact ok
  case send sending => simp [MethodCall.fails, sending]
  case step step    =>
    have active := step.active
    cases hp : c.phase <;> simp_all [MethodCall.fails, MethodCall.active]

theorem not_registering (ch : CallChange caller shut gone owns replies c c')
    (h : c.phase ≠ .registering) : c'.phase ≠ .registering := by
  cases ch
  case same | reply => exact h
  case send         => nofun
  case step step    => exact step.not_registering h

end RumqttcTransport.CallChange

namespace Fanout

variable {ι : Type} [DecidableEq ι] {decode : Bytes → Option Envelope} {f f' : Fanout ι}
  {act : Action ι} {o : Option (Action ι)} {k : ℕ} {h' : SubscriptionHandle}

-- A receiver is dropped by nobody else.
theorem Step.stays_held (st : Step decode f act f') (other : act ≠ .drop k)
    (hk : k < f.handles.length) (handle' : f'.handles[k]? = some h') :
    ∃ h, f.handles[k]? = some h ∧ (h.inbox.held → h'.inbox.held) := by
  cases st
  case ignore | snapshot | evicted | finish | writeBack => exact ⟨h', handle', id⟩
  case subscribe => exact ⟨h', (List.getElem?_append_left hk).symm.trans handle', id⟩
  case sent handle accepted =>
    rcases List.getElem?_set_cases handle' with ⟨rfl, rfl⟩ | ⟨_, handle'⟩
    · exact ⟨_, handle, fun _ => (Mailbox.trySend_held accepted).right⟩
    · exact ⟨h', handle', id⟩
  case recv handle received =>
    rcases List.getElem?_set_cases handle' with ⟨rfl, rfl⟩ | ⟨_, handle'⟩
    · exact ⟨_, handle, fun _ => (Mailbox.recv_held received).right⟩
    · exact ⟨h', handle', id⟩
  case drop i h handle =>
    have ne : i ≠ k := fun he => other <| he ▸ rfl
    exact ⟨h', (List.getElem?_set_ne ne).symm.trans handle', id⟩

theorem next?_stays_held (hn : (machine ι decode).next? f o = some f') (other : o ≠ some (.drop k))
    (hk : k < f.handles.length) (handle' : f'.handles[k]? = some h') :
    ∃ h, f.handles[k]? = some h ∧ (h.inbox.held → h'.inbox.held) := by
  rcases Machine.next?_cases hn with ⟨_, rfl⟩ | ⟨act, rfl, hn⟩
  · exact ⟨h', handle', id⟩
  · exact (next_step hn).stays_held (fun he => other <| congrArg some he) hk handle'

theorem next?_queued (hn : (machine ι decode).next? f o = some f') (hr : ¬f.Retained k) :
    queued f'.handles k ≤ queued f.handles k ∧
      (o = some (.recv k) → queued f'.handles k < queued f.handles k) := by
  rcases Machine.next?_cases hn with ⟨rfl, rfl⟩ | ⟨act, rfl, hn⟩
  · exact ⟨Nat.le_refl _, nofun⟩
  · have ⟨le, lt⟩ := (next_step hn).queued_le hr
    exact ⟨le, fun he => lt <| Option.some.inj he⟩

omit [DecidableEq ι] in
theorem exists_recv {h : SubscriptionHandle} {env : Envelope}
    {inbox : Mailbox Envelope inboxCapacity} (handle : f.handles[k]? = some h)
    (received : h.inbox.recv = some (env, inbox)) : ∃ f', f.recv k = some f' := by
  simp [recv, handle, received]

omit [DecidableEq ι] in
theorem exists_drop (hk : k < f.handles.length) : ∃ f', f.drop k = some f' := by
  simp [drop, hk]

omit [DecidableEq ι] in
theorem retained_of_retains {workers : List ι} (h : f.retains workers k) : f.Retained k := by
  simp only [retains, Bool.or_eq_true, List.any_eq_true] at h
  rcases h with h | ⟨w, _, h⟩
  case inl =>
    obtain ⟨g, _, h⟩ := (Option.any_eq_true _ _).mp h
    cases senders : f.subscribers g.subscription.name <;> simp [senders] at h
    exact .inl ⟨_, _, senders, h⟩
  case inr =>
    split at h
    case h_1 => cases h
    case h_2 sending => exact .inr ⟨w, _, _, _, _, _, sending, by simpa using h⟩

omit [DecidableEq ι] in
theorem retains_of_retained {workers : List ι} (all : ∀ w, w ∈ workers)
    (hasTopic : ∀ topic, f.Registered topic k → f.HasTopic topic k) (h : f.Retained k) :
    f.retains workers k := by
  simp only [retains, Bool.or_eq_true, List.any_eq_true]
  rcases h with ⟨topic, hr⟩ | ⟨w, _, _, _, _, _, sending, hk⟩
  case inl =>
    obtain ⟨g, handle, hs⟩ := hasTopic topic hr
    obtain ⟨senders, found, hk⟩ := hr
    exact .inl <| by simp [handle, hs, found, hk]
  case inr => exact .inr ⟨w, all w, by simpa [sending] using hk⟩

end Fanout

namespace Actor

variable {ι σ α τ : Type} {kind : ActorKind ι σ α τ} {m m' : Actor kind} {act : Action α τ}
  {i k : ℕ} {c c' : MethodCall}

theorem Step.owner (st : Step m act m') (h : m.owners[k]? = some i) : m'.owners[k]? = some i := by
  obtain ⟨hl, _⟩ := List.getElem?_eq_some_iff.mp h
  cases st <;> try exact h
  case register => exact (List.getElem?_append_left hl).trans h

-- No call gets the lock twice.
structure OwnersDistinct (m : Actor kind) : Prop where
  nodup   : m.owners.Nodup
  locked  : ∀ i ∈ m.owners, ∃ c : MethodCall, m.calls[i]? = some c ∧ c.phase ≠ .registering

theorem Step.ownersDistinct (st : Step m act m') (od : m.OwnersDistinct) :
    m'.OwnersDistinct := by
  have old : ∀ i ∈ m.owners, ∃ c : MethodCall, m'.calls[i]? = some c ∧ c.phase ≠ .registering := by
    intro i hi
    obtain ⟨c, h, locked⟩ := od.locked i hi
    obtain ⟨c', h', ch⟩ := st.change_of_call h
    exact ⟨c', h', ch.not_registering locked⟩
  cases st <;> try exact ⟨od.nodup, old⟩
  case register i topic lock c handle _ registering _ _ =>
    have fresh : i ∉ m.owners := by
      intro hi
      obtain ⟨_, h, locked⟩ := od.locked i hi
      cases handle.symm.trans h
      exact locked registering
    constructor
    case nodup => exact List.concat_eq_append ▸ od.nodup.concat fresh
    case locked =>
      intro j hj
      rcases List.mem_append.mp hj with hj | hj
      · exact old j hj
      · obtain rfl := List.mem_singleton.mp hj
        obtain ⟨hl, _⟩ := List.getElem?_eq_some_iff.mp handle
        exact ⟨_, List.getElem?_set_self hl, nofun⟩

theorem ownersDistinct (r : (machine kind).Reachable m) : m.OwnersDistinct := by
  induction m, r using Machine.Reachable.induction_on
  case init => exact ⟨List.nodup_nil, by simp [machine]⟩
  case step m act m' r hn ih => exact (next_step hn).ownersDistinct ih

-- No task drops a receiver or makes one.
def KeepsInboxes (kind : ActorKind ι σ α τ) : Prop :=
  ∀ phase s f lock a s' f' lock' (k : ℕ) h', kind.task phase s f lock a = some (s', f', lock') →
    k < f.handles.length → f'.handles[k]? = some h' →
    ∃ h, f.handles[k]? = some h ∧ (h.inbox.held → h'.inbox.held)

theorem Fans.keepsInboxes [DecidableEq ι] {decode : Bytes → Option Envelope}
    {fan : σ → α → Option (Fanout.Action ι)} (fans : Fans kind decode fan)
    (other : ∀ s a k, fan s a ≠ some (.drop k)) : KeepsInboxes kind := by
  intro phase s f lock a s' f' lock' k h' acted hk
  exact Fanout.next?_stays_held (fans _ _ _ _ _ _ _ _ acted) (other s a k) hk

theorem Step.holding [DecidableEq ι] (keeps : KeepsInboxes kind) (od : m.OwnersDistinct)
    (length : m.owners.length = m.subscribers.handles.length) (st : Step m act m')
    (owner : m'.owners[k]? = some i) (other : act ≠ .dropInbox k)
    (h : m.owners[k]? = some i → Carrier.Holding m.calls m.subscribers.handles k i) :
    Carrier.Holding m'.calls m'.subscribers.handles k i := by
  intro c' g' hc' ok handle'
  -- The call has not failed before either.
  have old {g} (owner : m.owners[k]? = some i) (handle : m.subscribers.handles[k]? = some g) :
      g.inbox.held := by
    obtain ⟨c, hc, _⟩ := od.locked i <| List.mem_of_getElem? owner
    obtain ⟨_, hc'', ch⟩ := st.change_of_call hc
    cases hc'.symm.trans hc''
    exact h owner c g hc (ch.fails ok) handle
  have kept {f a} {g'} (st : Fanout.Step (fun _ => none) m.subscribers a f)
      (owner : m.owners[k]? = some i) (other : a ≠ .drop k) (handle' : f.handles[k]? = some g') :
      g'.inbox.held := by
    obtain ⟨hl, _⟩ := List.getElem?_eq_some_iff.mp owner
    obtain ⟨_, handle, held⟩ := st.stays_held other (length ▸ hl) handle'
    exact held <| old owner handle
  cases st <;> try exact old owner handle'
  case register topic lock _ _ _ _ _ _ =>
    rcases List.getElem?_concat_cases owner with owner | ⟨rfl, _⟩
    · obtain ⟨hl, _⟩ := List.getElem?_eq_some_iff.mp owner
      exact old owner <| (List.getElem?_append_left <| length ▸ hl).symm.trans handle'
    · simp only [Fanout.subscribe, length, List.getElem?_concat_length, Option.some.injEq]
        at handle'
      exact handle' ▸ rfl
  case caller j _ _ _ next handle _ _ _ _ =>
    by_cases hj : j = i
    case pos =>
      subst hj
      obtain ⟨hl, _⟩ := List.getElem?_eq_some_iff.mp handle
      rw [conclude_calls, List.getElem?_set_self hl] at hc'
      obtain rfl := Option.some.inj hc'
      have same : m.subscribers.conclude m.owners j next = m.subscribers := Fanout.conclude_of_ok ok
      exact old owner <| same ▸ handle'
    case neg =>
      have other : m.owners[k]? ≠ some j := fun he => hj <| Option.some.inj <| he.symm.trans owner
      exact old owner <| (Fanout.conclude_other other).symm.trans handle'
  case recv j _ received =>
    have st : Fanout.Step (fun _ => none) m.subscribers (.recv j) _ := Fanout.next_step received
    exact kept st owner (by simp) handle'
  case dropInbox j _ dropped =>
    have st : Fanout.Step (fun _ => none) m.subscribers (.drop j) _ := Fanout.next_step dropped
    exact kept st owner (fun he => other <| Fanout.Action.drop.inj he ▸ rfl) handle'
  case task acted =>
    obtain ⟨hl, _⟩ := List.getElem?_eq_some_iff.mp owner
    obtain ⟨g, handle, held⟩ := keeps _ _ _ _ _ _ _ _ k g' acted (length ▸ hl) handle'
    exact held <| old owner handle

theorem exists_inbox {use : Fanout ι → ℕ → Option (Fanout ι)} {f : Fanout ι}
    (owner : m.owners[k]? = some i) (h : m.calls[i]? = some c)
    (returned : c.phase = .returned (.ok ())) (used : use m.subscribers k = some f) :
    ∃ m', m.inbox k use = some m' := by
  simp [inbox, owner, h, returned, used]

theorem carrier_receives [DecidableEq ι] {encode : Envelope → Option Packet}
    {sends : Envelope → τ → Option Packet} {decode : Bytes → Option Envelope}
    {received : σ → α → Option Packet} {retains : Actor kind → ℕ → Bool}
    (keys : KeepsKeys kind) (inboxes : KeepsInboxes kind) :
    (carrier kind encode sends decode received retains).Receives where
  length _ r   := owners_length keys r
  distinct _ r := (ownersDistinct r).nodup
  owns _ _ _ _ _ hn := (next_step hn).owner
  returned _ _ _ _ _ _ _ hn h returned := by
    obtain ⟨c', h', ch⟩ := (next_step hn).change_of_call h
    exact ⟨c', h', ch.returned returned⟩
  pushed m i c topic r h method returned := by
    exact (pushed keys r i c topic h method (by simp [returned]) (by simp [returned])).left
  holds m act m' k i r hn owner other := by
    have other : act ≠ .dropInbox k := fun he => other <| he ▸ rfl
    exact (next_step hn).holding inboxes (ownersDistinct r) (owners_length keys r) owner other
  recv m k i c h env inbox owner hc returned handle received := by
    have ⟨_, used⟩ := Fanout.exists_recv handle received
    exact exists_inbox owner hc returned used
  dropInbox m k i c owner hc returned hk := by
    have ⟨_, used⟩ := Fanout.exists_drop hk
    exact exists_inbox owner hc returned used

end Actor

-- Nobody gives a sender back that the map and the fan-outs have given up.
theorem SubscriberMap.Lawful.releases {ι : Type} [DecidableEq ι] {C : Carrier}
    {map : SubscriberMap C.State C.Action ι} (law : map.Lawful) (machine : map.machine = C.machine)
    (handles : ∀ s, C.handles s = (map.fanout s).handles)
    (retains : ∀ s k, C.retains s k → (map.fanout s).Retained k)
    (recv : ∀ s a k, C.use? a = some (.recv k) → map.fans s a = some (.recv k)) :
    C.Releases fun s k => (map.fanout s).Retained k where
  retains
  stays s a s' k _ hn hk hr := by
    have hn := law.step s a s' <| machine ▸ hn
    exact (Fanout.next?_ends hn (handles s ▸ hk) hr).left
  queued s a s' k _ hn _ hr := by
    have hn := law.step s a s' <| machine ▸ hn
    have ⟨le, lt⟩ := Fanout.next?_queued hn hr
    rw [handles, handles]
    exact ⟨le, fun hu => lt <| recv s a k hu⟩

namespace Actor

variable {ι σ α τ : Type} [DecidableEq ι] {kind : ActorKind ι σ α τ} {s : σ} {a : α} {k : ℕ}
  {m : Actor kind} {act : Action α τ}

omit [DecidableEq ι] in
theorem fans_recv {fan : σ → α → Option (Fanout.Action ι)} (h : use? act = some (.recv k)) :
    m.fans fan act = some (.recv k) := by
  cases act <;> cases h
  rfl

end Actor

namespace RedisActor

theorem receives (redis : Redis) : (carrier redis).Receives :=
  Actor.carrier_receives (keepsKeys redis) <|
    (fans redis).keepsInboxes fun _ event k => by cases event <;> nofun

theorem releases (redis : Redis) : (carrier redis).Releases fun m k => m.subscribers.Retained k :=
  have law : (subscriberMap redis).Lawful := Actor.subscriberMap_lawful <| fans redis
  SubscriberMap.Lawful.releases (C := carrier redis) law rfl (fun _ => rfl)
    (fun _ _ => Fanout.retained_of_retains) fun _ _ _ => Actor.fans_recv

end RedisActor

namespace DdsActor

theorem receives (dds : Dds) : (carrier dds).Receives := by
  refine Actor.carrier_receives (keepsKeys dds) <| (fans dds).keepsInboxes fun s event k h => ?_
  cases event <;> simp [fan, Option.bind_eq_some_iff] at h

theorem releases (dds : Dds) : (carrier dds).Releases fun m k => m.subscribers.Retained k :=
  have law : (subscriberMap dds).Lawful := Actor.subscriberMap_lawful <| fans dds
  SubscriberMap.Lawful.releases (C := carrier dds) law rfl (fun _ => rfl)
    (fun _ _ => Fanout.retained_of_retains) fun _ _ _ => Actor.fans_recv

end DdsActor

namespace AmqpActor

theorem receives (amqp : Amqp) : (carrier amqp).Receives := by
  refine Actor.carrier_receives (keepsKeys amqp) ?_
  intro phase s f lock event s' f' lock' k h' h hk handle'
  cases task_worked h <;> try exact ⟨h', handle', id⟩
  case send handle accepted =>
    rcases List.getElem?_set_cases handle' with ⟨rfl, rfl⟩ | ⟨_, handle'⟩
    · exact ⟨_, handle, fun _ => (Mailbox.trySend_held accepted).right⟩
    · exact ⟨h', handle', id⟩

theorem releases (amqp : Amqp) : (carrier amqp).Releases Retained where
  retains m k h := by
    simp only [carrier, Actor.carrier, Bool.or_eq_true, List.any_eq_true] at h
    rcases h with h | ⟨c, hc, h⟩
    · exact .inl <| Fanout.retained_of_retains h
    · split at h
      case h_1 sending => exact .inr ⟨c, hc, _, _, sending, by simpa using h⟩
      case h_2 => cases h
  stays m _ _ k r _ hk hr  := absurd (.inl <| .inl <| registered r hk) hr
  queued m _ _ k r _ hk hr := absurd (.inl <| .inl <| registered r hk) hr

end AmqpActor

theorem Fanout.concludes_eq_some {ι : Type} {f : Fanout ι} {owners : List ℕ} {i k : ℕ}
    {c : MethodCall} (h : f.concludes owners i c = some (.drop k)) :
    owners[k]? = some i ∧ c.fails := by
  obtain ⟨k', found, h⟩ := Option.bind_eq_some_iff.mp h
  obtain ⟨⟨fails, _⟩, he⟩ := Option.ite_none_right_eq_some.mp h
  cases he
  obtain ⟨hl, hi, _⟩ := List.findIdx?_eq_some_iff_getElem.mp found
  exact ⟨(List.getElem?_eq_getElem hl).trans <| congrArg some <| by simpa using hi, fails⟩

namespace MqttTransport

variable {rumqttc : Rumqttc} {fromSlice : Bytes → Option Envelope} {t t' : MqttTransport}
  {act : Action} {i k : ℕ} {c : MethodCall}

-- A receiver is dropped by its user, or by its call when that fails.
theorem fans_drop (hn : (machine rumqttc fromSlice).next t act = some t')
    (h : fans rumqttc t act = some (.drop k)) :
    act = .dropInbox k ∨ ∃ (i : ℕ) (c : MethodCall), t.owners[k]? = some i ∧
      t'.actor.calls[i]? = some c ∧ c.fails := by
  cases act <;> try cases h
  case dropInbox => exact .inl rfl
  case actor act =>
    have ⟨acted, _⟩ := step_eq_some hn
    cases ends : ends? act
    case none =>
      unfold fans at h
      split at h <;> simp_all
    case some i =>
      rw [fans_of_ends? acted ends] at h
      obtain ⟨c, hc, h⟩ := Option.bind_eq_some_iff.mp h
      obtain ⟨owner, fails⟩ := Fanout.concludes_eq_some h
      exact .inr ⟨i, c, owner, hc, fails⟩

theorem change_of_call (r : (machine rumqttc fromSlice).Reachable t)
    (hn : (machine rumqttc fromSlice).next t act = some t') (h : t.actor.calls[i]? = some c) :
    ∃ c' : MethodCall, t'.actor.calls[i]? = some c' ∧
      (∀ result, c.phase = .returned result → c'.phase = .returned result) ∧
      (c'.fails = false → c.fails = false) := by
  have ⟨_, hn⟩ := (next_pushes hn).actor_next?
  rcases Machine.next?_cases hn with ⟨_, same⟩ | ⟨_, _, acted⟩
  · exact ⟨c, same ▸ h, fun _ => id, id⟩
  · obtain ⟨c', h', ch⟩ := (MqttActor.next_step acted).change_of_call (actor_reachable r) h
    exact ⟨c', h', fun _ => ch.returned, ch.fails⟩

theorem owner (hn : (machine rumqttc fromSlice).next t act = some t')
    (h : t.owners[k]? = some i) : t'.owners[k]? = some i := by
  obtain ⟨hl, _⟩ := List.getElem?_eq_some_iff.mp h
  cases next_pushes hn
  case subscribe owners => exact owners ▸ (List.getElem?_append_left hl).trans h
  case actor owners _ _ | fanout owners _ _ => exact owners ▸ h

-- Each owner is a call that has been made.
theorem call_of_owner (r : (machine rumqttc fromSlice).Reachable t) (h : t.owners[k]? = some i) :
    ∃ c : MethodCall, t.actor.calls[i]? = some c := by
  obtain ⟨hl, _⟩ := List.getElem?_eq_some_iff.mp h
  have handle := List.getElem?_eq_getElem (owners_length r ▸ hl)
  obtain ⟨c, hc, _⟩ := (owned_handles r).call h handle
  exact ⟨c, hc⟩

theorem owners_nodup (r : (machine rumqttc fromSlice).Reachable t) : t.owners.Nodup := by
  induction t, r using Machine.Reachable.induction_on
  case init => exact List.nodup_nil
  case step t act t' r hn ih =>
    cases next_pushes hn
    case actor owners _ _ | fanout owners _ _ => exact owners ▸ ih
    case subscribe owners =>
      have fresh : t.actor.calls.length ∉ t.owners := by
        intro hi
        obtain ⟨k, hk⟩ := List.mem_iff_getElem?.mp hi
        obtain ⟨c, hc⟩ := call_of_owner r hk
        simp at hc
      rw [owners, ← List.concat_eq_append]
      exact ih.concat fresh

theorem holding (r : (machine rumqttc fromSlice).Reachable t)
    (hn : (machine rumqttc fromSlice).next t act = some t') (owner' : t'.owners[k]? = some i)
    (other : act ≠ .dropInbox k)
    (h : t.owners[k]? = some i → Carrier.Holding t.actor.calls t.subscribers.handles k i) :
    Carrier.Holding t'.actor.calls t'.subscribers.handles k i := by
  intro c' g' hc' ok handle'
  -- The call has not failed before either.
  have old (ho : t.owners[k]? = some i) : g'.inbox.held := by
    obtain ⟨c, hc⟩ := call_of_owner r ho
    obtain ⟨_, hc'', _, fails⟩ := change_of_call r hn hc
    cases hc'.symm.trans hc''
    obtain ⟨hl, _⟩ := List.getElem?_eq_some_iff.mp ho
    have undropped : fans rumqttc t act ≠ some (.drop k) := by
      intro hd
      rcases fans_drop hn hd with he | ⟨j, d, owner, hd, failed⟩
      · exact other he
      · cases ho.symm.trans owner
        cases hc'.symm.trans hd
        simp [ok] at failed
    have step := (next_eq_some hn).right
    obtain ⟨g, handle, held⟩ :=
      Fanout.next?_stays_held step undropped (owners_length r ▸ hl) handle'
    exact held <| h ho c g hc (fails ok) handle
  cases next_pushes hn
  case actor owners _ _ | fanout owners _ _ => exact old <| owners ▸ owner'
  case subscribe map owners =>
    rcases List.getElem?_concat_cases (owners ▸ owner') with ho | ⟨rfl, _⟩
    · exact old ho
    · rw [map, Fanout.subscribe_handles, owners_length r, List.getElem?_concat_length] at handle'
      exact Option.some.inj handle' ▸ rfl

theorem exists_inbox {use : Fanout Unit → ℕ → Option (Fanout Unit)} {f : Fanout Unit}
    (owner : t.owners[k]? = some i) (h : t.actor.calls[i]? = some c)
    (returned : c.phase = .returned (.ok ())) (used : use t.subscribers k = some f) :
    ∃ t', t.inbox k use = some t' := by
  simp [inbox, owner, h, returned, used]

theorem receives (rumqttc : Rumqttc) (fromSlice : Bytes → Option Envelope) :
    (carrier rumqttc fromSlice).Receives where
  length _ r           := owners_length r
  distinct _ r         := owners_nodup r
  owns _ _ _ _ _ hn ho := owner hn ho
  returned _ _ _ _ _ result r hn h returned := by
    obtain ⟨c', h', stays, _⟩ := change_of_call r hn h
    exact ⟨c', h', stays result returned⟩
  pushed _ _ _ _ r h method _ := (pushed r h method).left
  holds _ act _ k _ r hn owner other :=
    have other : act ≠ .dropInbox k := fun he => other <| he ▸ rfl
    holding r hn owner other
  recv t k i c h env inbox owner hc returned handle received := by
    have ⟨_, used⟩ := Fanout.exists_recv handle received
    exact exists_inbox owner hc returned used
  dropInbox t k i c owner hc returned hk := by
    have ⟨_, used⟩ := Fanout.exists_drop hk
    exact exists_inbox owner hc returned used

theorem releases (rumqttc : Rumqttc) (fromSlice : Bytes → Option Envelope) :
    (carrier rumqttc fromSlice).Releases fun t k => t.subscribers.Retained k := by
  have law := subscriberMap_lawful rumqttc fromSlice
  refine SubscriberMap.Lawful.releases (C := carrier rumqttc fromSlice) law rfl (fun _ => rfl)
    (fun _ _ => Fanout.retained_of_retains) fun t act k h => ?_
  replace h : use? act = some (.recv k) := h
  cases act <;> try cases h
  case recv  => rfl
  case actor act => cases act <;> cases h

end MqttTransport
end MomRpc
