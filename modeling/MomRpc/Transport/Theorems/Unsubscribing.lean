import MomRpc.Transport.Registry
import MomRpc.Transport.Theorems.Blocking
import MomRpc.Transport.Theorems.Isolation

namespace MomRpc

open SubscriptionHandle (Dropped mem_on)

namespace MemoryHub

variable {ι : Type} [DecidableEq ι] {hub hub' : MemoryHub ι} {act : Action ι}
  {as : List (Action ι)} {sub : Subscription} {i : ℕ} {p : ι}

-- A fan-out begins when the publish gets the lock.
def registry (ι : Type) [DecidableEq ι] : Registry (MemoryHub ι) (Action ι) ι where
  machine                     := machine ι
  handles                     := handles
  senders hub name            := hub.subscriptions ⟨name⟩
  subscribed as hub name i    := OpenFor as i ∧ hub.topic i = some ⟨name⟩
  start                       := .acquire
  finish                      := .release
  topic hub p name            := ∃ env, hub.publishes p = .locking env ∧ env.address.name = name

theorem Step.dropped (st : Step hub act hub') (hd : Dropped hub.handles i) :
    Dropped hub'.handles i := by
  cases st <;> try exact hd
  case subscribe            => exact hd.append
  case send handle sent     => exact hd.set handle fun _ => Mailbox.trySend_held sent |>.left
  case recv handle received => exact hd.set handle fun _ => Mailbox.recv_held received |>.left
  case drop handle          => exact hd.set handle <| by simp

-- The publish holds the lock, and the sender is in the map.
structure Holding (hub : MemoryHub ι) (p : ι) (sub : Subscription) (i : ℕ) : Prop where
  sending : ∃ env senders, hub.publishes p = .sending env senders
  mem     : i ∈ hub.subscriptions sub

-- Nobody closes the hub meanwhile.
theorem Holding.next (r : (machine ι).Reachable hub) (h : hub.Holding p sub i)
    (other : act ≠ .release p ∧ act ≠ .abandon p) (hn : (machine ι).next hub act = some hub') :
    hub'.Holding p sub i := by
  have ⟨⟨env, senders, sending⟩, hi⟩ := h
  have locked : hub.readers ≠ [] := by
    have := (holders r).mem p |>.mpr ⟨env, senders, sending⟩
    exact List.ne_nil_of_mem this
  cases next_step hn
  case subscribe free | close free => exact absurd free locked
  case recv | drop => exact ⟨⟨env, senders, sending⟩, hi⟩
  all_goals
    refine ⟨?_, hi⟩
    simp only [set_publishes]
    split <;> simp_all

theorem not_mem_of_sending {env : Envelope} {senders : List ℕ} (r : (machine ι).Run as hub)
    (sending : hub.publishes p = .sending env senders) : .release p ∉ as ∧ .abandon p ∉ as := by
  rw [← not_or]
  intro ended
  obtain ⟨_, h | h⟩ := ended_publish r ended <;> cases sending.symm.trans h

-- A publish that is done has held the lock all the time.
theorem keeps {zs : List (Action ι)} (r : (machine ι).Reachable hub)
    (he : (machine ι).exec hub (.acquire p :: (zs ++ [.release p])) = some hub')
    (hi : i ∈ hub.subscriptions sub) : i ∈ hub'.subscriptions sub := by
  obtain ⟨xs, r⟩ := r
  obtain ⟨v, hv, he⟩ := Option.bind_eq_some_iff.mp he
  obtain ⟨u, he, hn⟩ := Machine.exec_concat_iff.mp he
  have begun : v.Holding p sub i := by
    cases next_step hv
    exact ⟨⟨_, _, set_publishes.trans <| if_pos rfl⟩, hi⟩
  obtain ⟨⟨env, sending⟩, same⟩ :
      (∃ env, u.publishes p = .sending env []) ∧ hub'.subscriptions = u.subscriptions := by
    cases next_step hn
    exact ⟨⟨_, ‹_›⟩, rfl⟩
  have rv := r.concat hv
  have ⟨released, abandoned⟩ := not_mem_of_sending (rv.append he) sending
  have stays := Machine.exec_stable
    (P := fun hub => (machine ι).Reachable hub ∧ hub.Holding p sub i) he ⟨rv.reachable, begun⟩
  refine same ▸ (stays fun s a s' ha h hn => ⟨h.left.next hn, h.right.next h.left ?_ hn⟩).right.mem
  constructor
  · rintro rfl; exact released <| List.mem_append_right _ ha
  · rintro rfl; exact abandoned <| List.mem_append_right _ ha

theorem registry_lawful (ι : Type) [DecidableEq ι] : (registry ι).Lawful where
  init                         := rfl
  registered _ _ _ _ r         := openFor_topic_iff r
  nodup _ _ r                  := subscriptions_nodup r
  grows _ _ _ hn               := (lawful ι).grows _ _ _ hn
  dropped _ _ _ _ hn hd        := (next_step hn).dropped hd
  keeps _ _ _ _ _ _ r _ he hi  := keeps r he hi
  named _ _ _ r hi := by
    obtain ⟨h, hh, hs⟩ := Option.map_eq_some_iff.mp <| topic_of_mem r hi
    exact mem_on.mpr ⟨h, hh, hs⟩
  fresh _ _ _ _ _ hn hi := by
    rcases (next_step hn).mem_subscriptions.mp hi with ⟨hi, _⟩ | ⟨_, rfl⟩
    · exact .inl hi
    · exact .inr <| Nat.le_refl _

end MemoryHub

namespace AmqpActor

variable {amqp : Amqp} {m m' : Actor (kind amqp)} {act : Actor.Action Event Outcome}
  {as : List (Actor.Action Event Outcome)} {s s' : AmqpActor} {f f' : Fanout Empty}
  {lock lock' : List Actor.Waiter} {event : Event} {name : String} {i : ℕ}

-- A fan-out begins when the consumer task gets the lock.
def registry (amqp : Amqp) : Registry (Actor (kind amqp)) (Actor.Action Event Outcome) ℕ where
  machine               := Actor.machine (kind amqp)
  handles m             := m.subscribers.handles
  senders m name        := (m.subscribers.subscribers name).getD []
  subscribed _ m name i := m.subscribers.HasTopic name i
  start w               := .task (.lock w)
  finish w              := .task (.unlock w)
  topic m w name        := ∃ c ∈ m.state.consumers[w]?, c.queue = name

theorem mem_senders : i ∈ (f.subscribers name).getD [] ↔ f.Registered name i := by
  cases h : f.subscribers name <;> simp [Fanout.Registered, h]

theorem recv_dropped {k : ℕ} (h : f.recv k = some f') (hd : Dropped f.handles i) :
    Dropped f'.handles i := by
  simp only [Fanout.recv, Option.bind_eq_bind, Option.bind_eq_some_iff] at h
  obtain ⟨_, handle, _, received, he⟩ := h
  cases he
  exact hd.set handle fun _ => Mailbox.recv_held received |>.left

theorem drop_dropped {k : ℕ} (h : f.drop k = some f') (hd : Dropped f.handles i) :
    Dropped f'.handles i := by
  obtain ⟨_, handle, rfl⟩ := Option.map_eq_some_iff.mp h
  exact hd.set handle <| by simp

theorem Worked.dropped (worked : Worked amqp s f lock event s' f' lock')
    (hd : Dropped f.handles i) : Dropped f'.handles i := by
  cases worked <;> try exact hd
  case send handle accepted => exact hd.set handle fun _ => Mailbox.trySend_held accepted |>.left

theorem step_dropped (st : Actor.Step m act m') (hd : Dropped m.subscribers.handles i) :
    Dropped m'.subscribers.handles i := by
  cases st <;> try exact hd
  case register          => exact hd.append
  case recv received     => exact recv_dropped received hd
  case dropInbox dropped => exact drop_dropped dropped hd
  case task acted        => exact (task_worked acted).dropped hd
  case caller i' _ _ _ c' _ _ _ _ _ =>
    show Dropped (m.subscribers.conclude m.owners i' c').handles i
    rcases Fanout.conclude_cases with he | ⟨_, h⟩
    · exact he ▸ hd
    · exact drop_dropped h hd

theorem Mapped.registered (mapped : Mapped f f') (h : f.Registered name i) :
    f'.Registered name i := by
  cases mapped
  case subscribe subscribed => exact subscribed ▸ Fanout.subscribe_registered.mpr (.inl h)
  case same map _ =>
    obtain ⟨senders, hs, hi⟩ := h
    exact ⟨senders, map ▸ hs, hi⟩

theorem exec_registered (he : (Actor.machine (kind amqp)).exec m as = some m')
    (h : m.subscribers.Registered name i) : m'.subscribers.Registered name i :=
  Machine.exec_stable (P := fun m => m.subscribers.Registered name i) he h
    fun _ _ _ _ h hn => (mapped <| Actor.next_step hn).registered h

theorem Mapped.fresh (mapped : Mapped f f') (h : f'.Registered name i) :
    f.Registered name i ∨ f.handles.length ≤ i := by
  cases mapped
  case subscribe subscribed =>
    rcases Fanout.subscribe_registered.mp (subscribed ▸ h) with h | ⟨_, rfl⟩
    · exact .inl h
    · exact .inr <| Nat.le_refl _
  case same map _ =>
    obtain ⟨senders, hs, hi⟩ := h
    exact .inl ⟨senders, map ▸ hs, hi⟩

-- The map has the senders of all subscriptions.
theorem registered_iff (r : (Actor.machine (kind amqp)).Reachable m) :
    m.subscribers.Registered name i ↔ m.subscribers.HasTopic name i := by
  have ad := addressed r
  constructor
  case mp  => exact fun h => (ad.map name).hasTopic i <| mem_senders.mpr h
  case mpr =>
    intro h
    have ⟨name', h'⟩ := registered r h.lt
    have ht := (ad.map name').hasTopic i <| mem_senders.mpr h'
    exact ht.unique h ▸ h'

theorem registry_lawful (amqp : Amqp) : (registry amqp).Lawful where
  init                          := rfl
  registered _ _ _ _ r          := (registered_iff r.reachable).symm.trans mem_senders.symm
  nodup _ name r                := (addressed r).map name |>.nodup
  named _ name _ r hi           := mem_on.mpr <| (addressed r).map name |>.hasTopic _ hi
  grows _ _ _ hn                := (lawful amqp).grows _ _ _ hn
  dropped _ _ _ _ hn hd         := step_dropped (Actor.next_step hn) hd
  keeps _ _ _ _ _ _ _ _ he hi  := mem_senders.mpr <| exec_registered he <| mem_senders.mp hi
  fresh _ _ _ _ _ hn hi :=
    (mapped <| Actor.next_step hn).fresh (mem_senders.mp hi) |>.imp_left mem_senders.mpr

end AmqpActor

-- Neither fan-out takes the sender of a dropped handle out of the map.
theorem drop_unsubscribes (ι : Type) [DecidableEq ι] (amqp : Amqp) :
    (∀ as hub, (MemoryHub.machine ι).Run as hub →
      ((MemoryHub.machine ι).Along as (MemoryHub.registry ι).Unsubscribes ↔
        (MemoryHub.registry ι).Clean as)) ∧
    (∀ as m, (Actor.machine (AmqpActor.kind amqp)).Run as m →
      ((Actor.machine (AmqpActor.kind amqp)).Along as (AmqpActor.registry amqp).Unsubscribes ↔
        (AmqpActor.registry amqp).Clean as)) :=
  ⟨fun _ _ r => Registry.unsubscribes_iff (MemoryHub.registry_lawful ι) r,
    fun _ _ r => Registry.unsubscribes_iff (AmqpActor.registry_lawful amqp) r⟩

-- Of two subscriptions, one is dropped before the only message on the topic of the other one, which
-- is dropped afterwards.
def MemoryHub.loneDrops : List (Action ℕ) :=
  [.subscribe ⟨"a"⟩, .subscribe ⟨"b"⟩, .drop 1] ++ lonePublish 0 ++ [.drop 0]

def AmqpActor.loneDrops : List (Actor.Action AmqpActor.Event AmqpActor.Outcome) :=
  loneSubscribe 0 "q" (.ok ()) ++ [.resume 0, .task (.cancelled 0)] ++
    loneSubscribe 1 "b" (.ok ()) ++ [.resume 1, .dropInbox 0] ++ loneDelivery 1 1 ++ [.dropInbox 1]

-- A fan-out that is about to begin finds no sender of a dropped handle.
def MemoryHub.findsHeld (hub : MemoryHub ℕ) : Action ℕ → Bool
  | .acquire p =>
    match hub.publishes p with
    | .locking env => (hub.subscriptions ⟨env.address.name⟩).all fun i => ¬Dropped hub.handles i
    | _            => true
  | _ => true

def AmqpActor.findsHeld (m : Actor (kind loneDecoder)) : Actor.Action Event Outcome → Bool
  | .task (.lock w) => m.state.consumers[w]?.all fun c =>
    ((m.subscribers.subscribers c.queue).getD []).all fun i => ¬Dropped m.subscribers.handles i
  | _ => true

theorem MemoryHub.loneDrops_clean : (registry ℕ).Clean loneDrops := by
  have meets : (machine ℕ).Meets (fun hub act => hub.findsHeld act) {} loneDrops := by decide
  refine (registry_lawful ℕ).clean_of_throughout (Machine.throughout_of_meets meets) ?_
  rintro hub p name found ⟨env, locking, rfl⟩ i hi
  simp only [findsHeld, registry, locking, List.all_eq_true, decide_eq_true_eq] at found
  exact found i hi

theorem AmqpActor.loneDrops_clean : (registry loneDecoder).Clean loneDrops := by
  have meets : (Actor.machine (kind loneDecoder)).Meets (fun m act => findsHeld m act) {}
      loneDrops := by
    decide
  refine (registry_lawful loneDecoder).clean_of_throughout (Machine.throughout_of_meets meets) ?_
  rintro m w name found ⟨c, hc, rfl⟩ i hi
  simp only [findsHeld, registry, Option.mem_def.mp hc, Option.all_some, List.all_eq_true,
    decide_eq_true_eq] at found
  exact found i hi

theorem drop_unsubscribes_lone :
    (∃ hub, (MemoryHub.machine ℕ).Run MemoryHub.loneDrops hub ∧
      (MemoryHub.machine ℕ).Along MemoryHub.loneDrops (MemoryHub.registry ℕ).Unsubscribes) ∧
    ∃ m, (Actor.machine (AmqpActor.kind AmqpActor.loneDecoder)).Run AmqpActor.loneDrops m ∧
      (Actor.machine (AmqpActor.kind AmqpActor.loneDecoder)).Along AmqpActor.loneDrops
        (AmqpActor.registry AmqpActor.loneDecoder).Unsubscribes := by
  obtain ⟨memory, amqp⟩ := drop_unsubscribes ℕ AmqpActor.loneDecoder
  have runs : (MemoryHub.machine ℕ).Run MemoryHub.loneDrops _ := .of_isSome rfl
  have consumes : (Actor.machine (AmqpActor.kind AmqpActor.loneDecoder)).Run
      AmqpActor.loneDrops _ := .of_isSome rfl
  exact ⟨⟨_, runs, (memory _ _ runs).mpr MemoryHub.loneDrops_clean⟩,
    ⟨_, consumes, (amqp _ _ consumes).mpr AmqpActor.loneDrops_clean⟩⟩

def AmqpActor.loneDrop : List (Actor.Action AmqpActor.Event AmqpActor.Outcome) :=
  AmqpActor.loneSubscribe 0 "q" (.ok ()) ++ [.resume 0, .dropInbox 0]

-- The only handle is dropped, and a message is fanned out. Its sender is still in the map.
theorem dropped_sender_stays :
    let as := .subscribe ⟨"a"⟩ :: .drop 0 :: MemoryHub.lonePublish 0
    let bs := AmqpActor.loneDrop ++ AmqpActor.loneDelivery 0 0
    ∃ hub m, (MemoryHub.machine ℕ).Run as hub ∧ hub.subscriptions ⟨"a"⟩ = [0] ∧
      ¬(MemoryHub.machine ℕ).Along as (MemoryHub.registry ℕ).Unsubscribes ∧
      (Actor.machine (AmqpActor.kind AmqpActor.loneDecoder)).Run bs m ∧
      m.subscribers.subscribers "q" = some [0] ∧
      ¬(Actor.machine (AmqpActor.kind AmqpActor.loneDecoder)).Along bs
        (AmqpActor.registry AmqpActor.loneDecoder).Unsubscribes := by
  intro as bs
  have memory : (MemoryHub.machine ℕ).Run as _ := .of_isSome rfl
  have amqp : (Actor.machine (AmqpActor.kind AmqpActor.loneDecoder)).Run bs _ := .of_isSome rfl
  refine ⟨_, _, memory, rfl, fun h => ?_, amqp, rfl, fun h => ?_⟩
  · have forgets := h as [] _ (by simp) memory |>.forgets
    exact forgets "a" [.subscribe ⟨"a"⟩, .drop 0, .publish 0 MemoryHub.loneEnvelope] _
      ⟨0, [.send 0 0], [], rfl, by decide, .of_isSome rfl, _, rfl, rfl⟩ 0
      (List.mem_singleton_self 0) ⟨_, rfl, rfl⟩
  · have forgets := h bs [] _ (by simp) amqp |>.forgets
    exact forgets "q" (AmqpActor.loneDrop ++ [.task (.deliver 0 [] true)]) _
      ⟨0, [.task (.send 0 0)], [], rfl, by simp [AmqpActor.registry], .of_isSome rfl, _, rfl, rfl⟩ 0
      (List.mem_singleton_self 0) ⟨_, rfl, rfl⟩

end MomRpc
