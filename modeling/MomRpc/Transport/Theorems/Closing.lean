import MomRpc.Transport.Subscriptions
import MomRpc.Transport.Theorems.Blocking
import MomRpc.Transport.Theorems.Callers
import MomRpc.Transport.Theorems.Consumers
import MomRpc.Transport.Theorems.Removal
import MomRpc.Transport.Theorems.SubscriberMap

namespace MomRpc

namespace Fanout

variable {ι : Type} [DecidableEq ι] {decode : Bytes → Option Envelope} {f f' : Fanout ι}
  {act : Action ι} {o : Option (Action ι)} {k : ℕ}

-- Nobody comes to keep an old sender.
theorem Step.released (st : Step decode f act f') (hk : k < f.handles.length)
    (h : ¬f.Retained k) : ¬f'.Retained k := by
  have map {topic} (hr : f.Registered topic k) : False := h <| .inl ⟨topic, hr⟩
  rintro (⟨topic, hr⟩ | ⟨w, topic, env, senders, rest, survivors, hi, hm⟩)
  case inl =>
    cases st <;> try exact map hr
    case subscribe topic' =>
      rcases subscribe_registered.mp hr with hr | ⟨_, rfl⟩
      · exact map hr
      · exact Nat.lt_irrefl _ hk
    case writeBack w topic' env senders survivors sending _ =>
      by_cases ht : topic = topic'
      case neg =>
        have hr : f.Registered topic k := by simpa [Registered, ht] using hr
        exact map hr
      case pos =>
        obtain ⟨_, he, hm⟩ := hr
        subst ht
        obtain rfl := by simpa using he
        exact h <| .inr ⟨w, topic, env, senders, [], _, sending, hm⟩
  case inr =>
    have p := hi ▸ st.progress w
    generalize hf : f.incoming w = incoming at p
    cases p
    case same => exact h <| .inr ⟨w, topic, env, senders, rest, survivors, hf, hm⟩
    case snapshot found => exact map ⟨_, found, by simpa using hm⟩
    case sent => exact h <| .inr ⟨w, _, _, _, _, _, hf, by grind⟩
    case evicted => exact h <| .inr ⟨w, _, _, _, _, _, hf, List.mem_cons_of_mem _ hm⟩

-- Nothing is put into an inbox whose sender nobody keeps.
theorem Step.inbox {h h' : SubscriptionHandle} (st : Step decode f act f') (hr : ¬f.Retained k)
    (hh : f.handles[k]? = some h) (hh' : f'.handles[k]? = some h') (held : h'.inbox.held) :
    h.inbox.held ∧ h'.inbox.contents = h.inbox.contents := by
  have same (hs : f.handles[k]? = some h') :
      h.inbox.held ∧ h'.inbox.contents = h.inbox.contents := by
    cases hh.symm.trans hs
    exact ⟨held, rfl⟩
  cases st
  case ignore | snapshot | evicted | finish | writeBack => exact same hh'
  case subscribe =>
    have ⟨hl, _⟩ := List.getElem?_eq_some_iff.mp hh
    exact same <| (List.getElem?_append_left hl).symm.trans hh'
  case sent w i topic env senders rest survivors _ inbox sending _ _ =>
    rcases List.getElem?_set_cases hh' with ⟨rfl, _⟩ | ⟨_, hh'⟩
    · exact absurd (.inr ⟨w, _, _, _, _, _, sending, by simp⟩) hr
    · exact same hh'
  case recv i g env inbox handle received =>
    rcases List.getElem?_set_cases hh' with ⟨rfl, rfl⟩ | ⟨_, hh'⟩
    · cases hh.symm.trans handle
      exact ⟨(Mailbox.recv_held received).left, Mailbox.recv_contents received⟩
    · exact same hh'
  case drop i g handle =>
    rcases List.getElem?_set_cases hh' with ⟨rfl, rfl⟩ | ⟨_, hh'⟩
    · simp at held
    · exact same hh'

-- An inbox whose sender nobody keeps can only be emptied.
theorem Step.queued_le (st : Step decode f act f') (hr : ¬f.Retained k) :
    queued f'.handles k ≤ queued f.handles k ∧
      (act = .recv k → queued f'.handles k < queued f.handles k) := by
  cases st
  case ignore | snapshot | evicted | finish | writeBack => exact ⟨Nat.le_refl _, by simp⟩
  case subscribe => exact ⟨Nat.le_of_eq <| queued_concat rfl, by simp⟩
  case sent w i topic env senders rest survivors _ inbox sending _ _ =>
    have ne : i ≠ k := by
      rintro rfl
      exact hr <| .inr ⟨w, _, _, _, _, _, sending, by simp⟩
    exact ⟨by simp [queued, ne], by simp⟩
  case recv i h env inbox handle received =>
    obtain ⟨_, hq, _⟩ := Mailbox.recv_iff.mp received
    refine ⟨queued_set_le handle <| by simp [hq], ?_⟩
    rintro ⟨⟩
    exact queued_recv handle received
  case drop handle => exact ⟨queued_set_le handle <| Nat.zero_le _, by simp⟩

theorem next?_ends (hn : (machine ι decode).next? f o = some f')
    (hk : k < f.handles.length) (hr : ¬f.Retained k) :
    ¬f'.Retained k ∧ ∀ h h', f.handles[k]? = some h → f'.handles[k]? = some h' →
      h'.inbox.held → h.inbox.held ∧ h'.inbox.contents = h.inbox.contents := by
  rcases Machine.next?_cases hn with ⟨_, rfl⟩ | ⟨_, _, hn⟩
  · refine ⟨hr, fun h h' hh hh' held => ?_⟩
    cases hh.symm.trans hh'
    exact ⟨held, rfl⟩
  · have st := next_step hn
    exact ⟨st.released hk hr, fun h h' => st.inbox hr⟩

end Fanout

namespace SubscriberMap

variable {S A ι : Type} [DecidableEq ι] {map : SubscriberMap S A ι} {closes : S → A → Prop}

-- The subscriptions of a transport that keeps its senders only in a subscriber map.
def subscriptions (map : SubscriberMap S A ι) (closes : S → A → Prop) : Subscriptions S A where
  machine  := map.machine
  handles  := fun s => (map.fanout s).handles
  retained := fun s => (map.fanout s).Retained
  closes   := closes

theorem Lawful.subscriptions (law : map.Lawful) : (map.subscriptions closes).Lawful where
  grows s a s' hn := Fanout.next?_grows <| law.step s a s' hn
  ends s a s' k _ hn hk hr := by
    have ⟨hr, hi⟩ := Fanout.next?_ends (law.step s a s' hn) hk hr
    exact .of_released hr hi

-- Whenever `close` returns, the fan-outs before have given up all senders pushed by then.
def GivesUp (map : SubscriberMap S A ι) (closes : S → A → Prop) (as : List A) : Prop :=
  ∀ xs a ys s, as = xs ++ a :: ys → map.machine.Run xs s → closes s a →
    ∀ k < (map.fanout s).handles.length, (map.fanout s).GivenUp map.decode (map.history xs) k

theorem givesUp_iff (law : map.Lawful) {as : List A} :
    map.GivesUp closes as ↔ map.machine.Throughout as (map.subscriptions closes).Released := by
  constructor
  case mp =>
    intro h xs a ys t he rt hc k hk
    exact (Fanout.givenUp_iff (law.run rt) hk).mp <| h xs a ys t he rt hc k hk
  case mpr =>
    intro h xs a ys t he rt hc k hk
    exact (Fanout.givenUp_iff (law.run rt) hk).mpr <| h xs a ys t he rt hc k hk

theorem closeEnds_iff (law : map.Lawful)
    (same : ∀ s a s', map.machine.next s a = some s' → closes s a → map.fanout s' = map.fanout s)
    {as : List A} {s : S} (r : map.machine.Run as s) :
    map.machine.Along as (map.subscriptions closes).CloseEnds ↔ map.GivesUp closes as := by
  have same (s a s') (hn : map.machine.next s a = some s') (hc : closes s a) :
      (map.fanout s').handles = (map.fanout s).handles ∧
        ∀ k, (map.fanout s').Retained k ↔ (map.fanout s).Retained k := by
    simp [same s a s' hn hc]
  exact (Subscriptions.closeEnds_iff_released law.subscriptions same r).trans (givesUp_iff law).symm

end SubscriberMap

namespace MemoryHub

variable {ι : Type} [DecidableEq ι] {hub hub' : MemoryHub ι} {act : Action ι} {k : ℕ}

def Retained (hub : MemoryHub ι) (k : ℕ) : Prop :=
  (∃ sub, k ∈ hub.subscriptions sub) ∨
    ∃ p env senders, hub.publishes p = .sending env senders ∧ k ∈ senders

def subscribers (ι : Type) [DecidableEq ι] : Subscriptions (MemoryHub ι) (Action ι) where
  machine        := machine ι
  handles        := MemoryHub.handles
  retained       := Retained
  closes _ act   := act = .close

theorem retained_set {p : ι} {progress : Publish} (h : (hub.set p progress).Retained k) :
    hub.Retained k ∨ ∃ env senders, progress = .sending env senders ∧ k ∈ senders := by
  rcases h with ⟨sub, h⟩ | ⟨q, env, senders, h, hm⟩
  case inl => exact .inl <| .inl ⟨sub, h⟩
  case inr =>
    by_cases hq : q = p
    case pos =>
      subst hq
      exact .inr ⟨env, senders, by simpa [set] using h, hm⟩
    case neg => exact .inl <| .inr ⟨q, env, senders, by simpa [set, hq] using h, hm⟩

-- Nobody comes to keep an old sender.
theorem Step.released (st : Step hub act hub') (hk : k < hub.handles.length)
    (h : ¬hub.Retained k) : ¬hub'.Retained k := by
  intro h'
  cases st
  case recv | drop => exact h h'
  case subscribe sub _ =>
    rcases h' with ⟨sub', h'⟩ | h'
    case inr => exact h <| .inr h'
    case inl =>
      by_cases hs : sub' = sub
      case neg => exact h <| .inl ⟨sub', by simpa [hs] using h'⟩
      case pos =>
        subst hs
        have h' : k ∈ hub.subscriptions sub' ∨ k = hub.handles.length := by simpa using h'
        rcases h' with h' | rfl
        · exact h <| .inl ⟨sub', h'⟩
        · exact Nat.lt_irrefl _ hk
  case close =>
    rcases h' with ⟨_, h'⟩ | h'
    · simp at h'
    · exact h <| .inr h'
  case publish | abandonLocking =>
    rcases retained_set h' with h' | ⟨_, _, he, _⟩
    · exact h h'
    · cases he
  case release sending | abandonSending sending =>
    have h' : (hub.set _ _).Retained k := h'
    rcases retained_set h' with h' | ⟨_, _, he, _⟩
    · exact h h'
    · cases he
  case acquire p env _ =>
    have h' : (hub.set p (.sending env (hub.subscriptions ⟨env.address.name⟩))).Retained k := h'
    rcases retained_set h' with h' | ⟨_, _, he, hm⟩
    · exact h h'
    · cases he
      exact h <| .inl ⟨_, hm⟩
  case send p _ env senders _ _ sending _ _ | ignore p _ env senders _ sending _ _ =>
    have h' : (hub.set p (.sending env senders)).Retained k := h'
    rcases retained_set h' with h' | ⟨_, _, he, hm⟩
    · exact h h'
    · cases he
      exact h <| .inr ⟨p, env, _, sending, List.mem_cons_of_mem _ hm⟩

-- Nothing is put into an inbox whose sender nobody keeps.
theorem Step.inbox {h h' : SubscriptionHandle} (st : Step hub act hub') (hr : ¬hub.Retained k)
    (hh : hub.handles[k]? = some h) (hh' : hub'.handles[k]? = some h') (held : h'.inbox.held) :
    h.inbox.held ∧ h'.inbox.contents = h.inbox.contents := by
  have same (hs : hub.handles[k]? = some h') :
      h.inbox.held ∧ h'.inbox.contents = h.inbox.contents := by
    cases hh.symm.trans hs
    exact ⟨held, rfl⟩
  cases st <;> try exact same hh'
  case subscribe =>
    have ⟨hl, _⟩ := List.getElem?_eq_some_iff.mp hh
    exact same <| (List.getElem?_append_left hl).symm.trans hh'
  case send p i env senders _ inbox sending _ _ =>
    rcases List.getElem?_set_cases hh' with ⟨rfl, _⟩ | ⟨_, hh'⟩
    · exact absurd (.inr ⟨p, _, _, sending, by simp⟩) hr
    · exact same hh'
  case recv i g env inbox handle received =>
    rcases List.getElem?_set_cases hh' with ⟨rfl, rfl⟩ | ⟨_, hh'⟩
    · cases hh.symm.trans handle
      exact ⟨(Mailbox.recv_held received).left, Mailbox.recv_contents received⟩
    · exact same hh'
  case drop i g handle =>
    rcases List.getElem?_set_cases hh' with ⟨rfl, rfl⟩ | ⟨_, hh'⟩
    · simp at held
    · exact same hh'

-- An inbox whose sender nobody keeps can only be emptied.
theorem Step.queued_le (st : Step hub act hub') (hr : ¬hub.Retained k) :
    queued hub'.handles k ≤ queued hub.handles k ∧
      (act = .recv k → queued hub'.handles k < queued hub.handles k) := by
  cases st <;> try exact ⟨Nat.le_refl _, by simp⟩
  case subscribe => exact ⟨Nat.le_of_eq <| queued_concat rfl, by simp⟩
  case send p i env senders _ inbox sending _ _ =>
    have ne : i ≠ k := by
      rintro rfl
      exact hr <| .inr ⟨p, _, _, sending, by simp⟩
    exact ⟨by simp [queued, ne], by simp⟩
  case recv i h env inbox handle received =>
    obtain ⟨_, hq, _⟩ := Mailbox.recv_iff.mp received
    refine ⟨queued_set_le handle <| by simp [hq], ?_⟩
    rintro ⟨⟩
    exact queued_recv handle received
  case drop handle => exact ⟨queued_set_le handle <| Nat.zero_le _, by simp⟩

theorem lawful (ι : Type) [DecidableEq ι] : (subscribers ι).Lawful where
  grows hub act hub' hn := by
    have st := next_step hn
    show hub.handles.length ≤ hub'.handles.length
    cases st <;> simp [set]
  ends hub act hub' k _ hn hk hr :=
    have st := next_step hn
    .of_released (st.released hk hr) fun _ _ => st.inbox hr

-- Nobody sends while `close` clears the map.
theorem releases (r : (machine ι).Reachable hub) : (subscribers ι).Releases hub act := by
  intro hc hub' hn k hk
  obtain rfl : act = .close := hc
  cases next_step hn
  case close free =>
    rintro (⟨_, h⟩ | ⟨p, env, senders, sending, _⟩)
    · cases h
    · have hp := (holders r).mem p |>.mpr ⟨env, senders, sending⟩
      simp [free] at hp

end MemoryHub
namespace MqttTransport

variable {rumqttc : Rumqttc} {fromSlice : Bytes → Option Envelope} {t t' : MqttTransport}
  {act : Action}

-- A call of `close` returns in the step.
def Closes (t : MqttTransport) (act : Action) : Prop :=
  ∃ i left, act = .actor (.join i) ∧
    t.actor.tasks.join i (t.actor.phase matches .stopped) = some (left, true)

theorem closes_same (hn : (machine rumqttc fromSlice).next t act = some t') (hc : t.Closes act) :
    t'.subscribers = t.subscribers := by
  obtain ⟨i, _, rfl, _⟩ := hc
  replace hn : (t.actor.next rumqttc (.join i)).bind (fun actor => some { t with actor }) =
      some t' := by simpa [machine, next, step, isActors] using hn
  obtain ⟨_, _, he⟩ := Option.bind_eq_some_iff.mp hn
  cases he
  rfl

end MqttTransport
namespace Actor

variable {ι σ α τ : Type} {kind : ActorKind ι σ α τ} {m m' : Actor kind} {act : Action α τ}

-- A call of `close` returns in the step.
def Closes (m : Actor kind) (act : Action α τ) : Prop :=
  ∃ i left, act = .join i ∧ m.tasks.join i (m.phase matches .stopped) = some (left, true)

theorem closes_same (hn : (machine kind).next m act = some m') (hc : m.Closes act) :
    m'.subscribers = m.subscribers ∧ m'.state = m.state := by
  obtain ⟨i, _, rfl, _⟩ := hc
  simp only [machine, next, join] at hn
  split at hn <;> try cases hn
  split at hn <;> try cases hn
  obtain ⟨_, _, rfl⟩ := Option.map_eq_some_iff.mp hn
  exact ⟨rfl, rfl⟩

end Actor

namespace AmqpActor

variable {amqp : Amqp} {m m' : Actor (kind amqp)} {act : Actor.Action Event Outcome} {k : ℕ}

-- Besides the map, a consumer task has a sender as long as it has yet to use it.
def Retained (m : Actor (kind amqp)) (k : ℕ) : Prop :=
  m.subscribers.Retained k ∨
    ∃ c ∈ m.state.consumers, ∃ env senders, c.phase = .sending env senders ∧ k ∈ senders

def subscriptions (amqp : Amqp) :
    Subscriptions (Actor (kind amqp)) (Actor.Action Event Outcome) where
  machine  := Actor.machine (kind amqp)
  handles  := fun m => m.subscribers.handles
  retained := Retained
  closes   := Actor.Closes

-- Nothing but a subscribe touches the map.
inductive Mapped (f f' : Fanout Empty) : Prop
  | subscribe {topic : String} (subscribed : f' = f.subscribe topic)
  | same (map : f'.subscribers = f.subscribers) (handles : f'.handles.length = f.handles.length)

-- No task touches the map.
theorem task_same {phase : Actor.Phase} {s s' : AmqpActor} {f f' : Fanout Empty}
    {lock lock' : List Actor.Waiter} {event : Event}
    (h : (kind amqp).task phase s f lock event = some (s', f', lock')) :
    f'.subscribers = f.subscribers ∧ f'.handles.length = f.handles.length := by
  cases task_worked h
  case send => exact ⟨rfl, List.length_set⟩
  all_goals exact ⟨rfl, rfl⟩

theorem mapped (st : Actor.Step m act m') : Mapped m.subscribers m'.subscribers := by
  have same {f : Fanout Empty} (h : f.subscribers = m.subscribers.subscribers ∧
      f.handles.length = m.subscribers.handles.length) : Mapped m.subscribers f :=
    .same h.left h.right
  cases st
  case register topic _ _ _ _ _ _ _ => exact .subscribe rfl
  case caller            => exact same Fanout.conclude_same
  case recv received     => exact same <| Fanout.recv_same received
  case dropInbox dropped => exact same <| Fanout.drop_same dropped
  case task acted        => exact same <| task_same acted
  all_goals exact .same rfl rfl

-- No sender is ever removed.
theorem registered (r : (Actor.machine (kind amqp)).Reachable m)
    (hk : k < m.subscribers.handles.length) : ∃ topic, m.subscribers.Registered topic k := by
  induction m, r using Machine.Reachable.induction_on
  case init => simp [Actor.machine] at hk
  case step m act m' r hn ih =>
    cases mapped (Actor.next_step hn)
    case subscribe topic subscribed =>
      rw [subscribed] at hk ⊢
      simp only [Fanout.subscribe_handles, List.length_append, List.length_singleton] at hk
      rcases Nat.lt_succ_iff_lt_or_eq.mp hk with hk | hk
      · obtain ⟨topic', h⟩ := ih hk
        exact ⟨topic', Fanout.subscribe_registered.mpr <| .inl h⟩
      · exact ⟨topic, Fanout.subscribe_registered.mpr <| .inr ⟨rfl, hk⟩⟩
    case same map handles =>
      obtain ⟨topic, senders, h, hm⟩ := ih (handles ▸ hk)
      exact ⟨topic, senders, map ▸ h, hm⟩

theorem lawful (amqp : Amqp) : (subscriptions amqp).Lawful where
  grows m act m' hn := by
    show m.subscribers.handles.length ≤ m'.subscribers.handles.length
    cases mapped (Actor.next_step hn)
    case subscribe subscribed => simp [subscribed]
    case same handles         => exact Nat.le_of_eq handles.symm
  ends m act m' k r _ hk hr := absurd (.inl <| .inl <| registered r hk) hr

theorem released_iff (r : (Actor.machine (kind amqp)).Reachable m) :
    (subscriptions amqp).Released m act ↔ (m.Closes act → m.subscribers.handles = []) := by
  constructor
  case mp =>
    intro h hc
    by_contra hne
    have hk := List.length_pos_iff.mpr hne
    exact h hc 0 hk <| .inl <| .inl <| registered r hk
  case mpr =>
    intro h hc k hk
    have hk : k < m.subscribers.handles.length := hk
    simp [h hc] at hk

end AmqpActor

theorem MemoryHub.closeEnds {ι : Type} [DecidableEq ι] (as : List (Action ι)) :
    (machine ι).Along as (subscribers ι).CloseEnds := by
  intro xs _ hub _ r
  have iff := Subscriptions.closeEnds_iff (lawful ι) r
  exact iff.mpr (fun _ _ _ _ _ r => releases r.reachable) xs [] hub (by simp) r

theorem MqttTransport.closeEnds_iff {rumqttc : Rumqttc} {fromSlice : Bytes → Option Envelope}
    {as : List Action} {t : MqttTransport} (r : (machine rumqttc fromSlice).Run as t) :
    (machine rumqttc fromSlice).Along as
        ((subscriberMap rumqttc fromSlice).subscriptions Closes).CloseEnds ↔
      (subscriberMap rumqttc fromSlice).GivesUp Closes as :=
  SubscriberMap.closeEnds_iff (subscriberMap_lawful rumqttc fromSlice)
    (fun _ _ _ => closes_same) r

theorem RedisActor.closeEnds_iff {redis : Redis} {as : List (Actor.Action Event _)}
    {m : Actor (kind redis)} (r : (Actor.machine (kind redis)).Run as m) :
    (Actor.machine (kind redis)).Along as
        ((subscriberMap redis).subscriptions Actor.Closes).CloseEnds ↔
      (subscriberMap redis).GivesUp Actor.Closes as :=
  SubscriberMap.closeEnds_iff (Actor.subscriberMap_lawful <| fans redis)
    (fun _ _ _ hn hc => (Actor.closes_same hn hc).left) r

theorem AmqpActor.closeEnds_iff {amqp : Amqp} {as : List (Actor.Action Event Outcome)}
    {m : Actor (kind amqp)} (r : (Actor.machine (kind amqp)).Run as m) :
    (Actor.machine (kind amqp)).Along as (subscriptions amqp).CloseEnds ↔
      (Actor.machine (kind amqp)).Throughout as fun m act =>
        m.Closes act → m.subscribers.handles = [] := by
  refine (Subscriptions.closeEnds_iff_released (lawful amqp) ?_ r).trans ?_
  · intro m act m' hn hc
    have ⟨hf, hs⟩ := Actor.closes_same hn hc
    simp [subscriptions, Retained, hf, hs]
  · exact Machine.Throughout.congr r fun _ _ _ r _ => released_iff r

theorem DdsActor.closeEnds_iff {dds : Dds} {as : List (Actor.Action Event Outcome)}
    {m : Actor (kind dds)} (r : (Actor.machine (kind dds)).Run as m) :
    (Actor.machine (kind dds)).Along as
        ((subscriberMap dds).subscriptions Actor.Closes).CloseEnds ↔
      (subscriberMap dds).GivesUp Actor.Closes as :=
  SubscriberMap.closeEnds_iff (Actor.subscriberMap_lawful <| fans dds)
    (fun _ _ _ hn hc => (Actor.closes_same hn hc).left) r

namespace MqttTransport

-- A subscription, and a `close` that is about to return.
def loneClose : List Action :=
  [.actor (.call (.subscribe "t")), .actor (.send 0), .actor .handle,
    .actor (.poll (.connack ["t"])), .actor (.poll .transmit),
    .actor (.poll (.suback [.success .atMostOnce])), .actor (.resume 0), .actor (.call .close),
    .actor (.send 1), .actor .handle, .actor (.resume 1), .actor .pushTask, .actor (.join 1)]

-- After `close` has returned, the sender is still in the map, so the inbox never ends.
theorem close_keeps_sender :
    let map := subscriberMap MqttActor.loneRumqttc fun _ => none
    let as  := loneClose ++ [.actor (.join 1)]
    ∃ t, map.machine.Run as t ∧ t.subscribers.Registered "t" 0 ∧
      ¬map.machine.Along as (map.subscriptions Closes).CloseEnds := by
  intro map as
  have run : (machine MqttActor.loneRumqttc fun _ => none).Run loneClose _ := .of_isSome rfl
  have run' : (machine MqttActor.loneRumqttc fun _ => none).Run as _ := .of_isSome rfl
  refine ⟨_, run', ⟨[0], rfl, by simp⟩, fun h => ?_⟩
  have ends := h _ [] _ (by simp) run'
  have ⟨_, hn, he⟩ := run'.next run
  cases he
  have ended := ends loneClose _ [] _ _ rfl run hn ⟨1, _, rfl, rfl⟩ 0 (by decide)
  exact ended.released <| .inl ⟨"t", [0], rfl, by simp⟩

end MqttTransport
end MomRpc
