import MomRpc.Transport.MqttTransport
import MomRpc.Transport.Subscribing
import MomRpc.Transport.Theorems.Closing

namespace MomRpc

open RumqttcTransport (MethodCall)

namespace Fanout

section Keys

variable {ι : Type} {f : Fanout ι} {topic : String}

theorem subscribe_key {topic' : String} :
    (f.subscribe topic').subscribers topic ≠ none ↔
      f.subscribers topic ≠ none ∨ topic = topic' := by
  by_cases ht : topic = topic' <;> simp [subscribe, ht]

end Keys

variable {ι : Type} [DecidableEq ι] {decode : Bytes → Option Envelope} {f f' : Fanout ι}
  {act : Action ι} {o : Option (Action ι)} {topic : String}

-- No key is ever removed.
theorem Step.key (st : Step decode f act f') (h : f.subscribers topic ≠ none) :
    f'.subscribers topic ≠ none := by
  cases st <;> try exact h
  case subscribe => exact subscribe_key.mpr <| .inl h
  case writeBack topic' _ _ _ _ _ => by_cases ht : topic = topic' <;> simp [ht, h]

theorem Step.length_eq (st : Step decode f act f') (other : ∀ topic, act ≠ .subscribe topic) :
    f'.handles.length = f.handles.length := by
  cases st <;> first | rfl | exact List.length_set | exact absurd rfl <| other _

theorem next?_key (hn : (machine ι decode).next? f o = some f') (h : f.subscribers topic ≠ none) :
    f'.subscribers topic ≠ none := by
  rcases Machine.next?_cases hn with ⟨_, rfl⟩ | ⟨_, _, hn⟩
  · exact h
  · exact (next_step hn).key h

-- A snapshot has been taken of a list in the map.
theorem sending_key (r : (machine ι decode).Reachable f) {w : ι} {env : Envelope}
    {senders rest survivors : List ℕ}
    (h : f.incoming w = .sending topic env senders rest survivors) :
    f.subscribers topic ≠ none := by
  induction f, r using Machine.Reachable.induction_on generalizing env senders rest survivors
  case init => cases h
  case step f act f' r hn ih =>
    have st := next_step hn
    apply st.key
    have p := h ▸ st.progress w
    generalize hf : f.incoming w = incoming at p
    cases p
    case snapshot found => simp [found]
    all_goals exact ih hf

theorem Step.key_iff (r : (machine ι decode).Reachable f) (st : Step decode f act f')
    (old : act ≠ .subscribe topic) : f'.subscribers topic ≠ none ↔ f.subscribers topic ≠ none := by
  refine ⟨fun h => ?_, st.key⟩
  cases st <;> try exact h
  case subscribe topic' =>
    rcases subscribe_key.mp h with h | rfl
    · exact h
    · exact absurd rfl old
  case writeBack topic' _ _ _ sending _ =>
    by_cases ht : topic = topic'
    · exact ht ▸ sending_key r sending
    · simpa [ht] using h

end Fanout

namespace Subscribing

variable {S A ι : Type} {sub : Subscribing S A ι} {map : SubscriberMap S A ι} {s : S}
  {as : List A} {i : ℕ} {topic : String}

-- Somebody holds a receiver for the topic.
def Listens (sub : Subscribing S A ι) (s : S) (k : ℕ) (topic : String) : Prop :=
  ∃ h, (sub.fanout s).handles[k]? = some h ∧ h.subscription = ⟨topic⟩ ∧ h.inbox.held

variable [DecidableEq ι]

-- The fan-outs have removed the sender of the call, but not that of another one whose receiver for
-- the topic is held.
structure Replaced (sub : Subscribing S A ι) (map : SubscriberMap S A ι) (as : List A) (s : S)
    (i : ℕ) (topic : String) : Prop where
  own   : ∀ k, (sub.owners s)[k]? = some i → Fanout.Removed map.decode (map.history as) k
  other : ∃ k j, (sub.owners s)[k]? = some j ∧ j ≠ i ∧ sub.Listens s k topic ∧
    ¬Fanout.Removed map.decode (map.history as) k

-- Whoever fails in the run has been replaced before.
def Excused (sub : Subscribing S A ι) (map : SubscriberMap S A ι) (as : List A) : Prop :=
  ∀ xs a ys s s' i topic, as = xs ++ a :: ys → sub.machine.Run xs s →
    sub.machine.next s a = some s' → sub.Fails s s' i topic → sub.Replaced map xs s i topic

theorem evicted_iff (rf : (Fanout.machine ι map.decode).Run (map.history as) (sub.fanout s))
    (owned : (sub.owners s).length = (sub.fanout s).handles.length) :
    sub.Evicted s i ↔
      ∀ k, (sub.owners s)[k]? = some i → Fanout.Removed map.decode (map.history as) k := by
  have iff {k} (owner : (sub.owners s)[k]? = some i) :
      Fanout.Removed map.decode (map.history as) k ↔
        ∀ topic senders, (sub.fanout s).subscribers topic = some senders → k ∉ senders := by
    obtain ⟨hl, _⟩ := List.getElem?_eq_some_iff.mp owner
    simp [Fanout.removed_iff_unregistered rf (owned ▸ hl), Fanout.Registered]
  constructor
  case mp  => exact fun h k owner => (iff owner).mpr <| h k owner
  case mpr => exact fun h k owner => (iff owner).mp <| h k owner

theorem shared_iff (rf : (Fanout.machine ι map.decode).Run (map.history as) (sub.fanout s)) :
    sub.Shared s i topic ↔ ∃ k j, (sub.owners s)[k]? = some j ∧ j ≠ i ∧ sub.Listens s k topic ∧
      ¬Fanout.Removed map.decode (map.history as) k := by
  constructor
  case mp =>
    rintro ⟨k, j, senders, h, owner, ne, hs, hk, handle, held⟩
    have registered : (sub.fanout s).Registered topic k := ⟨senders, hs, hk⟩
    obtain ⟨h', handle', ht⟩ := registered.hasTopic rf.reachable
    cases handle.symm.trans handle'
    refine ⟨k, j, owner, ne, ⟨h, handle, ht, held⟩, fun removed => ?_⟩
    exact (Fanout.removed_iff rf ⟨h, handle, ht⟩).mp removed registered
  case mpr =>
    rintro ⟨k, j, owner, ne, ⟨h, handle, ht, held⟩, kept⟩
    have hasTopic : (sub.fanout s).HasTopic topic k := ⟨h, handle, ht⟩
    obtain ⟨senders, hs, hk⟩ := not_not.mp <| mt (Fanout.removed_iff rf hasTopic).mpr kept
    exact ⟨k, j, senders, h, owner, ne, hs, hk, handle, held⟩

theorem throughout_leavesNoTrace (law : sub.Lawful) (lawful : map.Lawful)
    (machine : map.machine = sub.machine) (fanout : map.fanout = sub.fanout) :
    sub.machine.Throughout as sub.LeavesNoTrace ↔ sub.Excused map as := by
  have iff {xs a s s' i topic} (r : sub.machine.Run xs s) (hn : sub.machine.next s a = some s')
      (h : sub.Fails s s' i topic) : sub.NoTrace s' i topic ↔ sub.Replaced map xs s i topic := by
    have rf : (Fanout.machine ι map.decode).Run (map.history xs) (sub.fanout s) :=
      fanout ▸ lawful.run (machine ▸ r)
    rw [law.noTrace_iff r.reachable hn h, evicted_iff rf (law.owned s r.reachable), shared_iff rf]
    exact ⟨fun h => ⟨h.left, h.right⟩, fun h => ⟨h.own, h.other⟩⟩
  constructor
  case mp =>
    intro h xs a ys s s' i topic he r hn hf
    exact (iff r hn hf).mp <| h xs a ys s he r s' i topic hn hf
  case mpr =>
    intro h xs a ys s he r s' i topic hn hf
    exact (iff r hn hf).mpr <| h xs a ys s s' i topic he r hn hf

end Subscribing

namespace Actor

variable {ι σ α τ : Type} {kind : ActorKind ι σ α τ} {m m' : Actor kind} {act : Action α τ}
  {i : ℕ} {c c' : MethodCall} {topic : String}

def subscribing (kind : ActorKind ι σ α τ) : Subscribing (Actor kind) (Action α τ) ι where
  machine := machine kind
  calls   := calls
  owners  := owners
  fanout  := subscribers

-- No task takes a key out of the map, and none makes a receiver.
def KeepsKeys (kind : ActorKind ι σ α τ) : Prop :=
  ∀ phase s f lock a s' f' lock', kind.task phase s f lock a = some (s', f', lock') →
    (∀ topic, f.subscribers topic ≠ none → f'.subscribers topic ≠ none) ∧
      f'.handles.length = f.handles.length

theorem Fans.keepsKeys [DecidableEq ι] {decode : Bytes → Option Envelope}
    {fan : σ → α → Option (Fanout.Action ι)} (fans : Fans kind decode fan)
    (other : ∀ s a topic, fan s a ≠ some (.subscribe topic)) : KeepsKeys kind := by
  intro phase s f lock a s' f' lock' h
  have hn := fans phase s f lock a s' f' lock' h
  refine ⟨fun topic => Fanout.next?_key hn, ?_⟩
  rcases Machine.next?_cases hn with ⟨_, rfl⟩ | ⟨act, he, hn⟩
  · rfl
  · exact (Fanout.next_step hn).length_eq fun topic ha => other s a topic <| ha ▸ he

theorem Step.key (keeps : KeepsKeys kind) (st : Step m act m')
    (h : m.subscribers.subscribers topic ≠ none) : m'.subscribers.subscribers topic ≠ none := by
  have same {f : Fanout ι} (hf : f.subscribers = m.subscribers.subscribers ∧
      f.handles.length = m.subscribers.handles.length) : f.subscribers topic ≠ none :=
    hf.left ▸ h
  cases st <;> try exact h
  case register          => exact Fanout.subscribe_key.mpr <| .inl h
  case caller            => exact same Fanout.conclude_same
  case recv received     => exact same <| Fanout.recv_same received
  case dropInbox dropped => exact same <| Fanout.drop_same dropped
  case task acted        => exact (keeps _ _ _ _ _ _ _ _ acted).left topic h

theorem owners_length (keeps : KeepsKeys kind) (r : (machine kind).Reachable m) :
    m.owners.length = m.subscribers.handles.length := by
  induction m, r using Machine.Reachable.induction_on
  case init => rfl
  case step m act m' r hn ih =>
    cases next_step hn <;> try exact ih
    case register          => simp [ih]
    case caller            => exact ih.trans Fanout.conclude_same.right.symm
    case recv received     => exact ih.trans (Fanout.recv_same received).right.symm
    case dropInbox dropped => exact ih.trans (Fanout.drop_same dropped).right.symm
    case task acted        => exact ih.trans (keeps _ _ _ _ _ _ _ _ acted).right.symm

theorem Step.owners (st : Step m act m') (h : i ∈ m.owners) : i ∈ m'.owners := by
  cases st <;> first | exact h | exact List.mem_append_left _ h

-- Each call of `subscribe` that has got the lock has pushed its sender.
def Pushed (m : Actor kind) : Prop :=
  ∀ (i : ℕ) (c : MethodCall) (topic : String), m.calls[i]? = some c → c.method = .subscribe topic →
    c.phase ≠ .registering → c.phase ≠ .dropped →
    i ∈ m.owners ∧ m.subscribers.subscribers topic ≠ none

theorem Step.pushed (keeps : KeepsKeys kind) (st : Step m act m') (h : m.Pushed) : m'.Pushed := by
  intro i c' topic h' method locked undropped
  rcases st.change h' with ⟨c, hc, ch⟩ | ⟨_, begun⟩
  case inr =>
    cases begun
    case call other => exact absurd method <| other topic
    case subscribe  => exact absurd rfl locked
  case inl =>
    by_cases hr : c.phase = .registering
    case neg =>
      have hd : c.phase ≠ .dropped := by
        cases ch
        case same | reply => exact undropped
        case send sending => simp [sending]
        case step step    => exact fun hd => by simpa [MethodCall.active, hd] using step.active
      obtain ⟨ho, hk⟩ := h i c topic hc (ch.method ▸ method) hr hd
      exact ⟨st.owners ho, st.key keeps hk⟩
    case pos =>
      have mine : act.call? = some i := by
        cases ch
        case same | reply => exact absurd hr locked
        case send mine _ | step mine _ => exact mine
      cases st <;> try cases mine
      case register method' _ _ handle _ =>
        cases hc.symm.trans handle
        cases method'.symm.trans <| ch.method ▸ method
        exact ⟨by simp, Fanout.subscribe_key.mpr <| .inr rfl⟩
      case send sending _ handle _ =>
        cases hc.symm.trans handle
        simp [hr] at sending
      case caller handle step _ waiters caller =>
        cases caller.symm.trans mine
        cases hc.symm.trans handle
        obtain ⟨hl, _⟩ := List.getElem?_eq_some_iff.mp handle
        rw [conclude_calls, List.getElem?_set_self hl] at h'
        cases h'
        rcases waiters with ⟨_, other⟩ | ⟨dropped, _⟩
        · exact absurd hr other
        · exact absurd dropped undropped

theorem pushed (keeps : KeepsKeys kind) (r : (machine kind).Reachable m) : m.Pushed := by
  induction m, r using Machine.Reachable.induction_on
  case init => intro i c topic h; simp [machine] at h
  case step m act m' r hn ih => exact (next_step hn).pushed keeps ih

-- A call that fails touches neither the map nor the receiver of another call.
theorem Step.failed {err : RpcError} (st : Step m act m') (h : m.calls[i]? = some c)
    (active : c.active) (h' : m'.calls[i]? = some c') (failed : c'.phase = .returned (.error err)) :
    c.phase ≠ .registering ∧ m'.subscribers.subscribers = m.subscribers.subscribers ∧
      m'.owners = m.owners ∧ ∀ k j : ℕ, m.owners[k]? = some j → j ≠ i →
        m'.subscribers.handles[k]? = m.subscribers.handles[k]? := by
  obtain ⟨_, hc, ch⟩ := st.change_of_call h
  obtain rfl := Option.some.inj <| h'.symm.trans hc
  have mine : act.call? = some i := by
    cases ch
    case same | reply =>
      replace failed : c.phase = .returned (.error err) := failed
      simp [MethodCall.active, failed] at active
    case send        => cases failed
    case step mine _ => exact mine
  cases st <;> try cases mine
  case register handle _ | send handle _ =>
    cases h.symm.trans handle
    obtain ⟨hl, _⟩ := List.getElem?_eq_some_iff.mp handle
    simp only [List.getElem?_set_self hl, Option.some.injEq] at h'
    subst h'
    cases failed
  case caller handle step _ waiters caller =>
    cases caller.symm.trans mine
    cases h.symm.trans handle
    obtain ⟨hl, _⟩ := List.getElem?_eq_some_iff.mp handle
    rw [conclude_calls, List.getElem?_set_self hl] at h'
    cases h'
    refine ⟨?_, Fanout.conclude_same.left, rfl, fun k j owner ne => ?_⟩
    case refine_1 =>
      rcases waiters with ⟨_, other⟩ | ⟨dropped, _⟩
      · exact other
      · simp [dropped] at failed
    case refine_2 =>
      exact Fanout.conclude_other fun he => ne <| Option.some.inj <| owner.symm.trans he

theorem subscribing_lawful (keeps : KeepsKeys kind) : (subscribing kind).Lawful where
  owned _ r := owners_length keeps r
  pushed m act m' i topic r hn := by
    rintro ⟨c, c', err, h, method, active, h', failed⟩
    have ⟨locked, _⟩ := (next_step hn).failed h active h' failed
    refine pushed keeps r i c topic h method locked fun hd => ?_
    simp [MethodCall.active, hd] at active
  same m act m' i topic r hn := by
    rintro ⟨c, c', err, h, method, active, h', failed⟩
    exact (next_step hn).failed h active h' failed |>.right

end Actor

namespace AmqpActor

variable {amqp : Amqp} {m m' : Actor (kind amqp)} {act : Actor.Action Event Outcome} {i : ℕ}
  {topic : String}

theorem keepsKeys (amqp : Amqp) : Actor.KeepsKeys (kind amqp) := by
  intro phase s f lock event s' f' lock' h
  have ⟨map, length⟩ := task_same h
  exact ⟨fun topic hk => map ▸ hk, length⟩

-- Whoever fails leaves its sender behind.
theorem leavesNoTrace_iff (r : (Actor.machine (kind amqp)).Reachable m) :
    (Actor.subscribing (kind amqp)).LeavesNoTrace m act ↔
      ∀ m' i topic, (Actor.machine (kind amqp)).next m act = some m' →
        ¬(Actor.subscribing (kind amqp)).Fails m m' i topic := by
  constructor
  case mp =>
    intro h m' i topic hn hf
    have law := Actor.subscribing_lawful <| keepsKeys amqp
    have ⟨evicted, _⟩ := (law.noTrace_iff r hn hf).mp <| h m' i topic hn hf
    have ⟨hi, _⟩ := law.pushed m act m' i topic r hn hf
    have ⟨k, hk⟩ := List.mem_iff_getElem?.mp hi
    have ⟨hl, _⟩ := List.getElem?_eq_some_iff.mp hk
    have ⟨topic', senders, map, mem⟩ := registered r <| law.owned m r ▸ hl
    exact evicted k hk topic' senders map mem
  case mpr => exact fun h m' i topic hn hf => absurd hf <| h m' i topic hn

end AmqpActor

theorem RedisActor.keepsKeys (redis : Redis) : Actor.KeepsKeys (kind redis) :=
  (fans redis).keepsKeys fun _ event _ => by cases event <;> nofun

theorem DdsActor.keepsKeys (dds : Dds) : Actor.KeepsKeys (kind dds) := by
  refine (fans dds).keepsKeys fun s event topic h => ?_
  cases event <;> simp [fan, Option.bind_eq_some_iff] at h

-- A call fails in a step of its own.
theorem MqttActor.Step.failed {rumqttc : Rumqttc} {m m' : MqttActor} {act : Action} {i : ℕ}
    {c c' : MethodCall} {err : RpcError} (r : (machine rumqttc).Reachable m)
    (st : Step rumqttc m act m') (h : m.calls[i]? = some c) (active : c.active)
    (h' : m'.calls[i]? = some c') (failed : c'.phase = .returned (.error err)) :
    act.call? = some i := by
  have ⟨_, hc, ch⟩ := st.change_of_call r h
  obtain rfl := Option.some.inj <| h'.symm.trans hc
  cases ch
  case same | reply =>
    replace failed : c.phase = .returned (.error err) := failed
    simp [MethodCall.active, failed] at active
  case send        => cases failed
  case step mine _ => exact mine

namespace MqttTransport

variable {rumqttc : Rumqttc} {fromSlice : Bytes → Option Envelope} {t t' : MqttTransport}
  {act : Action} {topic : String}

def subscribing (rumqttc : Rumqttc) (fromSlice : Bytes → Option Envelope) :
    Subscribing MqttTransport Action Unit where
  machine := machine rumqttc fromSlice
  calls   := fun t => t.actor.calls
  owners  := owners
  fanout  := subscribers

-- What one step does to the calls, the senders' owners and the map.
inductive Pushes (rumqttc : Rumqttc) (fromSlice : Bytes → Option Envelope)
    (t t' : MqttTransport) : Prop
  | subscribe {topic : String}
    (acted : (MqttActor.machine rumqttc).next t.actor (.call (.subscribe topic)) = some t'.actor)
    (map : t'.subscribers = t.subscribers.subscribe topic)
    (owners : t'.owners = t.owners ++ [t.actor.calls.length])
  | actor {act : MqttActor.Action}
    (acted : (MqttActor.machine rumqttc).next t.actor act = some t'.actor)
    (other : ∀ topic, act ≠ .call (.subscribe topic))
    (map : t'.subscribers.subscribers = t.subscribers.subscribers) (owners : t'.owners = t.owners)
    (length : t'.subscribers.handles.length = t.subscribers.handles.length)
    (handles : ∀ k j : ℕ, t.owners[k]? = some j → act.call? ≠ some j →
      t'.subscribers.handles[k]? = t.subscribers.handles[k]?)
  | fanout {act : Fanout.Action Unit} (actor : t'.actor = t.actor) (owners : t'.owners = t.owners)
    (acted : Fanout.Step fromSlice t.subscribers act t'.subscribers)
    (other : ∀ topic, act ≠ .subscribe topic)

theorem handleIncoming_same {f f' : Fanout Unit} {message : Bytes}
    (h : f.handleIncoming fromSlice () topic message = some f') :
    f'.subscribers = f.subscribers ∧ f'.handles = f.handles := by
  simp only [Fanout.handleIncoming] at h
  split at h <;> try cases h
  split at h <;> cases h <;> exact ⟨rfl, rfl⟩

theorem conclude_pushes {act : MqttActor.Action} {actor : MqttActor} {i : ℕ}
    (acted : (MqttActor.machine rumqttc).next t.actor act = some actor)
    (mine : act.call? = some i) : Pushes rumqttc fromSlice t (t.conclude actor i) := by
  have acted : (MqttActor.machine rumqttc).next t.actor act = some (t.conclude actor i).actor :=
    acted.trans <| congrArg some conclude_actor.symm
  have other (topic) : act ≠ .call (.subscribe topic) := by
    rintro rfl
    cases mine
  unfold conclude at acted ⊢
  cases hc : actor.calls[i]? <;> rw [hc] at acted
  case none   => exact .actor acted other rfl rfl rfl fun _ _ _ _ => rfl
  case some c =>
    refine .actor acted other Fanout.conclude_same.left rfl Fanout.conclude_same.right ?_
    refine fun k j owner ne => Fanout.conclude_other fun he => ne ?_
    exact mine.trans <| he.symm.trans owner

theorem next_pushes (h : (machine rumqttc fromSlice).next t act = some t') :
    Pushes rumqttc fromSlice t t' := by
  cases act <;> simp only [machine, next] at h
  case actor act =>
    simp only [step] at h
    split at h <;> try cases h
    obtain ⟨actor, hn, h⟩ := Option.bind_eq_some_iff.mp h
    replace hn : (MqttActor.machine rumqttc).next t.actor act = some actor := hn
    split at h
    case h_1 => cases h; exact .subscribe hn rfl rfl
    case h_2 =>
      obtain ⟨_, hi, rfl⟩ := Option.map_eq_some_iff.mp h
      obtain ⟨map, handles⟩ := handleIncoming_same hi
      exact .actor hn (by simp) map rfl (by rw [handles]) fun _ _ _ _ => by rw [handles]
    case h_3 | h_4 | h_5   => cases h; exact conclude_pushes hn rfl
    case h_6 other _ _ _ _ => cases h; exact .actor hn other rfl rfl rfl fun _ _ _ _ => rfl
  case trySend k =>
    obtain ⟨_, hf, rfl⟩ := Option.map_eq_some_iff.mp h
    have st : Fanout.Step fromSlice t.subscribers (.trySend () k) _ := Fanout.next_step hf
    exact .fanout rfl rfl st (by simp)
  case writeBack =>
    obtain ⟨_, hf, rfl⟩ := Option.map_eq_some_iff.mp h
    have st : Fanout.Step fromSlice t.subscribers (.writeBack ()) _ := Fanout.next_step hf
    exact .fanout rfl rfl st (by simp)
  case recv k =>
    obtain ⟨_, hf, rfl⟩ := inbox_eq_some h
    have st : Fanout.Step fromSlice t.subscribers (.recv k) _ := Fanout.next_step hf
    exact .fanout rfl rfl st (by simp)
  case dropInbox k =>
    obtain ⟨_, hf, rfl⟩ := inbox_eq_some h
    have st : Fanout.Step fromSlice t.subscribers (.drop k) _ := Fanout.next_step hf
    exact .fanout rfl rfl st (by simp)

theorem Pushes.actor_next? (st : Pushes rumqttc fromSlice t t') :
    ∃ o, (MqttActor.machine rumqttc).next? t.actor o = some t'.actor := by
  cases st
  case subscribe acted _ _ => exact ⟨some _, acted⟩
  case actor acted _ _ _ _ _ => exact ⟨some _, acted⟩
  case fanout actor _ _ _  => exact ⟨none, congrArg some actor.symm⟩

theorem actor_reachable (r : (machine rumqttc fromSlice).Reachable t) :
    (MqttActor.machine rumqttc).Reachable t.actor := by
  induction t, r using Machine.Reachable.induction_on
  case init => exact .init
  case step t act t' r hn ih =>
    have ⟨_, h⟩ := (next_pushes hn).actor_next?
    rcases Machine.next?_cases h with ⟨_, he⟩ | ⟨_, _, hn⟩
    · exact he ▸ ih
    · exact ih.next hn

theorem fanout_reachable (r : (machine rumqttc fromSlice).Reachable t) :
    (Fanout.machine Unit fromSlice).Reachable t.subscribers := by
  induction t, r using Machine.Reachable.induction_on
  case init => exact .init
  case step t act t' r hn ih =>
    have h := (next_eq_some hn).right
    rcases Machine.next?_cases h with ⟨_, he⟩ | ⟨_, _, hn⟩
    · exact he ▸ ih
    · exact ih.next hn

-- Each call of `subscribe` has pushed its sender.
theorem pushed (r : (machine rumqttc fromSlice).Reachable t) {i : ℕ} {c : MethodCall}
    (h : t.actor.calls[i]? = some c) (method : c.method = .subscribe topic) :
    i ∈ t.owners ∧ t.subscribers.subscribers topic ≠ none := by
  induction t, r using Machine.Reachable.induction_on generalizing c
  case init => simp [machine] at h
  case step t act t' r hn ih =>
    have old (act) (acted : (MqttActor.machine rumqttc).next t.actor act = some t'.actor) :
        (i ∈ t.owners ∧ t.subscribers.subscribers topic ≠ none) ∨
          (i = t.actor.calls.length ∧ act = .call (.subscribe topic)) := by
      rcases (MqttActor.next_step acted).change (actor_reachable r) h with ⟨_, hc, ch⟩ | ⟨hi, begun⟩
      · exact .inl <| ih hc (ch.method ▸ method)
      · obtain ⟨_, rfl, rfl⟩ := begun
        obtain rfl := method
        exact .inr ⟨hi, rfl⟩
    cases next_pushes hn
    case subscribe topic' acted map owners =>
      rw [map, owners]
      rcases old _ acted with ⟨ho, hk⟩ | ⟨hi, he⟩
      · exact ⟨List.mem_append_left _ ho, Fanout.subscribe_key.mpr <| .inl hk⟩
      · cases he
        exact ⟨by simp [hi], Fanout.subscribe_key.mpr <| .inr rfl⟩
    case actor acted other map owners _ _ =>
      rw [map, owners]
      exact old _ acted |>.resolve_right fun h => other topic h.right
    case fanout actor owners acted _ =>
      obtain ⟨ho, hk⟩ := ih (actor ▸ h) method
      exact ⟨owners ▸ ho, acted.key hk⟩

-- The topics that the actor subscribes again after a reconnect are the keys of the map.
theorem mem_subscribers_iff (r : (machine rumqttc fromSlice).Reachable t) :
    topic ∈ t.actor.subscribers ↔ t.subscribers.subscribers topic ≠ none := by
  induction t, r using Machine.Reachable.induction_on
  case init => simp [machine]
  case step t act t' r hn ih =>
    cases next_pushes hn
    case subscribe acted map _ =>
      rw [map, (MqttActor.next_step acted).subscribers, Fanout.subscribe_key, ih]
      simp [eq_comm]
    case actor acted other map _ _ _ =>
      rw [map, (MqttActor.next_step acted).subscribers, ih]
      simp [other]
    case fanout actor _ acted other =>
      rw [actor, ih, acted.key_iff (fanout_reachable r) (other topic)]

theorem owners_length (r : (machine rumqttc fromSlice).Reachable t) :
    t.owners.length = t.subscribers.handles.length := by
  induction t, r using Machine.Reachable.induction_on
  case init => rfl
  case step t act t' r hn ih =>
    cases next_pushes hn
    case subscribe map owners          => simp [map, owners, ih]
    case actor owners length _         => rw [owners, length, ih]
    case fanout owners acted other     => rw [owners, acted.length_eq other, ih]

theorem subscribing_lawful (rumqttc : Rumqttc) (fromSlice : Bytes → Option Envelope) :
    (subscribing rumqttc fromSlice).Lawful where
  owned _ r := owners_length r
  pushed t act t' i topic r hn := by
    rintro ⟨c, _, _, h, method, _⟩
    exact pushed r h method
  same t act t' i topic r hn := by
    rintro ⟨c, c', err, h, method, active, h', failed⟩
    have acted {act} (hn : (MqttActor.machine rumqttc).next t.actor act = some t'.actor) :
        act.call? = some i :=
      (MqttActor.next_step hn).failed (actor_reachable r) h active h' failed
    cases next_pushes hn
    case subscribe hn _ _ => cases acted hn
    case actor hn _ map owners _ handles =>
      refine ⟨map, owners, fun k j owner ne => handles k j owner fun he => ne ?_⟩
      exact Option.some.inj <| he.symm.trans <| acted hn
    case fanout actor _ _ _ =>
      have h' : t'.actor.calls[i]? = some c' := h'
      rw [actor] at h'
      cases h.symm.trans h'
      simp [MethodCall.active, failed] at active

end MqttTransport

-- A `subscribe` that fails undoes nothing. It leaves no trace only if the fan-outs have removed its
-- sender before, and not the one of another subscription to the topic, which AMQP never does.
theorem failed_subscribe_leaves_no_trace (rumqttc : Rumqttc) (fromSlice : Bytes → Option Envelope)
    (redis : Redis) (amqp : Amqp) (dds : Dds) :
    (∀ as, (MqttTransport.machine rumqttc fromSlice).Throughout as
          (MqttTransport.subscribing rumqttc fromSlice).LeavesNoTrace ↔
        (MqttTransport.subscribing rumqttc fromSlice).Excused
          (MqttTransport.subscriberMap rumqttc fromSlice) as) ∧
    (∀ as, (Actor.machine (RedisActor.kind redis)).Throughout as
          (Actor.subscribing (RedisActor.kind redis)).LeavesNoTrace ↔
        (Actor.subscribing (RedisActor.kind redis)).Excused (RedisActor.subscriberMap redis) as) ∧
    (∀ as m, (Actor.machine (AmqpActor.kind amqp)).Run as m →
      ((Actor.machine (AmqpActor.kind amqp)).Throughout as
          (Actor.subscribing (AmqpActor.kind amqp)).LeavesNoTrace ↔
        (Actor.machine (AmqpActor.kind amqp)).Throughout as fun m act => ∀ m' i topic,
          (Actor.machine (AmqpActor.kind amqp)).next m act = some m' →
            ¬(Actor.subscribing (AmqpActor.kind amqp)).Fails m m' i topic)) ∧
    (∀ as, (Actor.machine (DdsActor.kind dds)).Throughout as
          (Actor.subscribing (DdsActor.kind dds)).LeavesNoTrace ↔
        (Actor.subscribing (DdsActor.kind dds)).Excused (DdsActor.subscriberMap dds) as) := by
  refine ⟨fun as => ?_, fun as => ?_, fun as m r => ?_, fun as => ?_⟩
  · exact Subscribing.throughout_leavesNoTrace (MqttTransport.subscribing_lawful rumqttc fromSlice)
      (MqttTransport.subscriberMap_lawful rumqttc fromSlice) rfl rfl
  · have law := Actor.subscribing_lawful <| RedisActor.keepsKeys redis
    exact Subscribing.throughout_leavesNoTrace law
      (Actor.subscriberMap_lawful <| RedisActor.fans redis) rfl rfl
  · exact Machine.Throughout.congr r fun _ _ _ r _ => AmqpActor.leavesNoTrace_iff r
  · have law := Actor.subscribing_lawful <| DdsActor.keepsKeys dds
    exact Subscribing.throughout_leavesNoTrace law
      (Actor.subscriberMap_lawful <| DdsActor.fans dds) rfl rfl

namespace MqttTransport

-- A subscription that the broker rejects.
def loneRejected : List Action :=
  [.actor (.call (.subscribe "t")), .actor (.send 0), .actor .handle,
    .actor (.poll (.connack ["t"])), .actor (.poll .transmit),
    .actor (.poll (.suback [.failure])), .actor (.resume 0)]

end MqttTransport

-- A subscription whose queue the server does not declare.
def AmqpActor.loneRefused : List (Actor.Action Event Outcome) :=
  [.call (.subscribe "q"), .register 0, .send 0, .handle,
    .execute (.subscribe (.error "") (.ok ())), .resume 0]

theorem failed_subscribe_leaves_no_trace_lone :
    ((MqttTransport.machine MqttActor.loneRumqttc fun _ => none).Throughout
        MqttTransport.loneRejected
        (MqttTransport.subscribing MqttActor.loneRumqttc fun _ => none).LeavesNoTrace ↔
      (MqttTransport.subscribing MqttActor.loneRumqttc fun _ => none).Excused
        (MqttTransport.subscriberMap MqttActor.loneRumqttc fun _ => none)
        MqttTransport.loneRejected) ∧
    ((Actor.machine (AmqpActor.kind loneAmqp)).Throughout AmqpActor.loneRefused
        (Actor.subscribing (AmqpActor.kind loneAmqp)).LeavesNoTrace ↔
      (Actor.machine (AmqpActor.kind loneAmqp)).Throughout AmqpActor.loneRefused
        fun m act => ∀ m' i topic, (Actor.machine (AmqpActor.kind loneAmqp)).next m act = some m' →
          ¬(Actor.subscribing (AmqpActor.kind loneAmqp)).Fails m m' i topic) := by
  obtain ⟨mqtt, _, amqp, _⟩ := failed_subscribe_leaves_no_trace MqttActor.loneRumqttc
    (fun _ => none) loneRedis loneAmqp loneDds
  exact ⟨mqtt _, amqp _ _ (Machine.Run.of_isSome rfl)⟩

-- The topic stays in the map with its sender, and will be subscribed again after a reconnect.
theorem MqttTransport.rejected_subscribe_leaves_sender :
    ∃ t, (machine MqttActor.loneRumqttc fun _ => none).Run loneRejected t ∧
      t.subscribers.Registered "t" 0 ∧ "t" ∈ t.actor.subscribers ∧
      ¬(machine MqttActor.loneRumqttc fun _ => none).Throughout loneRejected
        (subscribing MqttActor.loneRumqttc fun _ => none).LeavesNoTrace := by
  have run : (machine MqttActor.loneRumqttc fun _ => none).Run loneRejected.dropLast _ :=
    .of_isSome rfl
  have run' : (machine MqttActor.loneRumqttc fun _ => none).Run loneRejected _ := .of_isSome rfl
  refine ⟨_, run', ⟨[0], rfl, by simp⟩, by decide, fun h => ?_⟩
  have leaves := h _ (.actor (.resume 0)) [] _ rfl run
  have noTrace := leaves _ 0 "t" rfl ⟨_, _, _, rfl, rfl, rfl, rfl, rfl⟩
  exact noTrace.sender 0 rfl "t" [0] rfl (by simp)

end MomRpc
