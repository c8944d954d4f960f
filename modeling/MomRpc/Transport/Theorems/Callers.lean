import MomRpc.Transport.Theorems.Live
import MomRpc.Transport.Theorems.MqttService

namespace MomRpc

namespace MqttActor

open RumqttcTransport

variable {rumqttc : Rumqttc} {m m' : MqttActor} {act : Action} {as : List Action} {i : ℕ}
  {c c' : MethodCall}

-- Some call awaits an answer.
def Unheard (m : MqttActor) : Prop :=
  ∃ (i : ℕ) (c : MethodCall), m.calls[i]? = some c ∧ c.Unanswered

-- No command is sent to an actor that awaits room, and the actor does not begin to do so while a
-- call awaits an answer.
def KeepsCallers (rumqttc : Rumqttc) (m : MqttActor) (act : Action) : Prop :=
  (∀ i, act = .send i → ¬m.Suspended) ∧ (m.KeepsRoom rumqttc act ∨ ¬m.Unheard)

-- Only the actor answers calls.
theorem Step.unanswered (st : Step rumqttc m act m') (hp : m.phase ≠ .selecting)
    (h : m.calls[i]? = some c) (hr : c.reply = none) :
    ∃ c', m'.calls[i]? = some c' ∧ c'.reply = none := by
  have ⟨hl, _⟩ := List.getElem?_eq_some_iff.mp h
  have set {j : ℕ} {d d' : MethodCall} (h' : m.calls[j]? = some d)
      (hd : d.reply = none → d'.reply = none) :
      ∃ c', (m.calls.set j d')[i]? = some c' ∧ c'.reply = none :=
    List.exists_getElem?_set h' ⟨c, h, hr⟩ fun _ => hd
  cases st
  case call => exact ⟨c, (List.getElem?_append_left hl).trans h, hr⟩
  case send handle _ _ => exact set handle fun hr => hr
  case caller handle step _ _ => exact set handle step.unanswered
  case pushTask | drop => exact ⟨c, h, hr⟩
  all_goals exact absurd ‹m.phase = .selecting› hp

-- So nobody answers them while the actor awaits room.
theorem unanswered_forever (hs : m.Suspended) (h : m.calls[i]? = some c) (hr : c.reply = none)
    (he : (machine rumqttc).exec m as = some m') :
    ∃ c', m'.calls[i]? = some c' ∧ c'.reply = none := by
  refine Machine.exec_stable
    (P := fun m => m.Suspended ∧ ∃ c, m.calls[i]? = some c ∧ c.reply = none)
    he ⟨hs, c, h, hr⟩ ?_ |>.right
  intro m act m' _ ⟨hs, c, h, hr⟩ hn
  have hs' : m'.Suspended :=
    suspended_forever (by simpa using hn : (machine rumqttc).exec m [act] = some m') hs
  have ⟨_, hp⟩ := hs
  exact ⟨hs', (next_step hn).unanswered (by simp [hp]) h hr⟩

theorem canSettle_iff (r : (machine rumqttc).Reachable m) :
    (∀ (i : ℕ) (c : MethodCall), m.calls[i]? = some c → c.Unanswered →
      (service rumqttc).CanSettle m i) ↔ ¬(m.Suspended ∧ m.Unheard) := by
  constructor
  case mp =>
    intro h ⟨hs, i, c, hi, hc⟩
    have ⟨as, t, _, he, ht⟩ := h i c hi hc
    have ⟨_, hp⟩ : t.Suspended := suspended_forever he hs
    have ⟨c', hi', hr⟩ := unanswered_forever hs hi hc.right he
    rcases ht with ht | ⟨d, hd, ht⟩
    · simp [service, hp] at ht
    · cases hi'.symm.trans hd
      simp [hr] at ht
  case mpr =>
    intro hb i c hi hc
    cases hp : m.phase
    case selecting =>
      have held := held_of_active r hi <| by simp [MethodCall.active, hc.left]
      exact Machine.Leads.mono (leads_stopped r hp held) fun _ h => .inl h
    case suspended reqs => exact absurd ⟨⟨reqs, hp⟩, i, c, hi, hc⟩ hb
    case stopped => exact .here <| .inl hp

theorem noCallerLeft_iff (r : (machine rumqttc).Run as m) :
    (service rumqttc).NoCallerLeft as m ↔ ¬(m.Suspended ∧ m.Unheard) := by
  constructor
  case mp => exact fun h => (canSettle_iff r.reachable).mp h.waiting
  case mpr =>
    exact fun h => Service.noCallerLeft (lawful rumqttc) (returning rumqttc) r <|
      (canSettle_iff r.reachable).mpr h

-- A call that has been sent is the only one that has begun to wait for an answer.
theorem not_unanswered_of_step {caller : Caller} {shut gone : Prop}
    (st : CallStep caller shut gone c c') (hs : ¬shut) : ¬c'.Unanswered := by
  intro ⟨hp, hr⟩
  cases st
  case closed refused _ => exact hs refused
  case receive reply _ _ =>
    rcases caller.receive_cases c reply with ⟨_, _, he⟩ | ⟨_, _, he⟩ | ⟨_, he⟩ <;> simp [he] at hp
  case disconnected =>
    rcases caller.disconnected_cases c with ⟨_, _, he⟩ | ⟨_, he⟩ <;> simp [he] at hp
  case await joining => simp [hp] at joining
  all_goals cases hp

theorem not_unheard_step (r : (machine rumqttc).Reachable m) (hs : m.Suspended) (hu : ¬m.Unheard)
    (ne : ∀ i, act ≠ .send i) (st : Step rumqttc m act m') : ¬m'.Unheard := by
  have ⟨_, hp⟩ := hs
  intro ⟨i, c, h, hc⟩
  have not {d : MethodCall} (h : m.calls[i]? = some d) : ¬d.Unanswered := fun hd => hu ⟨i, d, h, hd⟩
  cases st
  case call =>
    rcases List.mem_append.mp <| List.mem_of_getElem? h with h | h
    · have ⟨j, h⟩ := List.mem_iff_getElem?.mp h
      exact hu ⟨j, c, h, hc⟩
    · cases List.mem_singleton.mp h
      cases hc.left
  case send => exact ne _ rfl
  case caller step _ _ =>
    rcases List.getElem?_set_cases h with ⟨_, rfl⟩ | ⟨_, h⟩
    · exact not_unanswered_of_step step (by simp [commands_held r, hp]) hc
    · exact not h hc
  case pushTask | drop => exact not h hc
  all_goals simp [‹m.phase = .selecting›] at hp

theorem send_eq_some (held : m.commands.held) (h : m.send i = some m') :
    ∃ c : MethodCall, m.calls[i]? = some c ∧ c.phase = .sending ∧
      m'.calls = m.calls.set i { c with phase := .awaiting } := by
  simp only [send, held, if_true] at h
  split at h <;> try cases h
  split at h <;> try cases h
  obtain ⟨_, _, rfl⟩ := Option.map_eq_some_iff.mp h
  exact ⟨_, ‹_›, ‹_›, rfl⟩

-- What the actor begins to await room for is not answered in the same step.
theorem Step.suspends (r : (machine rumqttc).Reachable m) (st : Step rumqttc m act m')
    (hs : ¬m.Suspended) (hs' : m'.Suspended) : m'.calls = m.calls := by
  have ⟨reqs, hp⟩ := hs'
  cases st
  case call | send | caller | pushTask | drop | transmit | error | ignored => exact absurd hs' hs
  case closed => cases hp
  case suback codes eventLoop _ _ =>
    rcases handleSuback_cases rumqttc { m with eventLoop } codes with ⟨_, he⟩ | ⟨_, _, _, he⟩
    all_goals exact absurd ⟨reqs, by simpa [he] using hp⟩ hs
  case connack topics selecting _ _ =>
    rcases selecting_connacked r selecting topics with ⟨_, he⟩ | ⟨_, awaited⟩
    · rw [he]
    · generalize handleConnack rumqttc _ topics = m' at awaited
      cases awaited <;> rfl
  case handle cmd commands selecting received =>
    have handled := selecting_handled r selecting commands cmd
    generalize MqttActor.handle rumqttc _ cmd = m' at handled hp ⊢
    cases handled
    case refused => simp [selecting] at hp
    case publish awaited | subscribe awaited | close awaited =>
      cases awaited
      case made      => first | cases hp | simp [selecting] at hp
      case suspended => rfl

theorem keepsCallers_iff (r : (machine rumqttc).Reachable m) (hb : ¬(m.Suspended ∧ m.Unheard))
    (hn : (machine rumqttc).next m act = some m') :
    ¬(m'.Suspended ∧ m'.Unheard) ↔ m.KeepsCallers rumqttc act := by
  by_cases hs : m.Suspended
  case pos =>
    have hu : ¬m.Unheard := fun hu => hb ⟨hs, hu⟩
    have hs' : m'.Suspended :=
      suspended_forever (by simpa using hn : (machine rumqttc).exec m [act] = some m') hs
    by_cases ha : ∃ i, act = .send i
    case pos =>
      obtain ⟨i, rfl⟩ := ha
      have ⟨_, hp⟩ := hs
      obtain ⟨c, h, sending, hc⟩ := send_eq_some (commands_held r <| by simp [hp]) hn
      have ⟨hl, _⟩ := List.getElem?_eq_some_iff.mp h
      have hr := (owned r).asking i c h <| .inr <| .inl sending
      have h' : m'.calls[i]? = some { c with phase := .awaiting } := by
        rw [hc, List.getElem?_set_self hl]
      have hu' : m'.Unheard := ⟨i, _, h', rfl, hr⟩
      exact iff_of_false (fun h => h ⟨hs', hu'⟩) fun h => h.left i rfl hs
    case neg =>
      have ne i : act ≠ .send i := fun h => ha ⟨i, h⟩
      have hu' := not_unheard_step r hs hu ne (next_step hn)
      exact iff_of_true (fun h => hu' h.right) ⟨fun i h => absurd h <| ne i, .inr hu⟩
  case neg =>
    have h := not_suspended_step r hs hn
    by_cases hr : m.KeepsRoom rumqttc act
    case pos => exact iff_of_true (fun hb => h.mpr hr hb.left) ⟨fun _ _ => hs, .inl hr⟩
    case neg =>
      have hs' : m'.Suspended := by_contra fun hs' => hr <| h.mp hs'
      have hc := (next_step hn).suspends r hs hs'
      simp [KeepsCallers, hs, hs', hr, Unheard, hc]

theorem noCallerLeft (r : (machine rumqttc).Run as m) :
    (machine rumqttc).Along as (service rumqttc).NoCallerLeft ↔
      (machine rumqttc).Throughout as (KeepsCallers rumqttc) := by
  have init : ¬((machine rumqttc).init.Suspended ∧ (machine rumqttc).init.Unheard) :=
    fun ⟨⟨_, h⟩, _⟩ => by cases h
  refine .trans ?_ <| Machine.always_iff_throughout r init fun _ _ _ r => keepsCallers_iff r
  constructor
  case mp  => exact fun h xs ys m he r => noCallerLeft_iff r |>.mp <| h xs ys m he r
  case mpr => exact fun h xs ys m he r => noCallerLeft_iff r |>.mpr <| h xs ys m he r

-- The eleventh publish makes the actor await room, so its caller hangs with the transport.
theorem eleventh_publish_hangs :
    ∃ as m, (machine loneRumqttc).Run as m ∧ ¬(service loneRumqttc).NoCallerLeft as m := by
  have run : (machine loneRumqttc).Run ((List.range 11).flatMap lonePublish) _ := .of_isSome rfl
  exact ⟨_, _, run, fun h => noCallerLeft_iff run |>.mp h ⟨⟨_, rfl⟩, 10, _, rfl, rfl, rfl⟩⟩

end MqttActor

-- With Redis, AMQP and DDS no caller is ever left hanging. With MQTT none is, as long as the actor
-- does not await room while somebody awaits its answer.
theorem no_caller_left (rumqttc : Rumqttc) (redis : Redis) (amqp : Amqp) (dds : Dds) :
    (∀ as m, (MqttActor.machine rumqttc).Run as m →
      ((MqttActor.machine rumqttc).Along as (MqttActor.service rumqttc).NoCallerLeft ↔
        (MqttActor.machine rumqttc).Throughout as (MqttActor.KeepsCallers rumqttc))) ∧
    (∀ as, (Actor.machine (RedisActor.kind redis)).Along as
      (Actor.service (RedisActor.kind redis)).NoCallerLeft) ∧
    (∀ as, (Actor.machine (AmqpActor.kind amqp)).Along as
      (Actor.service (AmqpActor.kind amqp)).NoCallerLeft) ∧
    (∀ as, (Actor.machine (DdsActor.kind dds)).Along as
      (Actor.service (DdsActor.kind dds)).NoCallerLeft) :=
  ⟨fun _ _ => MqttActor.noCallerLeft, Actor.noCallerLeft_along <| RedisActor.live redis,
    Actor.noCallerLeft_along <| AmqpActor.live amqp, Actor.noCallerLeft_along <| DdsActor.live dds⟩

def loneRedis : Redis where
  transportId := "n"
  toString    := fun _ => .ok ""
  getPayload  := fun _ => none
  fromStr     := fun _ => none

def loneAmqp : Amqp where
  transportId := "n"
  toVec       := fun _ => .ok []
  fromSlice   := fun _ => none

def loneDds : Dds where
  transportId := "n"
  toVec       := fun _ => .ok []
  fromSlice   := fun _ => some MqttActor.loneEnvelope

theorem no_caller_left_lone :
    ((MqttActor.machine MqttActor.loneRumqttc).Along (MqttActor.lonePublish 0)
      (MqttActor.service MqttActor.loneRumqttc).NoCallerLeft ↔
      (MqttActor.machine MqttActor.loneRumqttc).Throughout (MqttActor.lonePublish 0)
        (MqttActor.KeepsCallers MqttActor.loneRumqttc)) ∧
    (Actor.machine (RedisActor.kind loneRedis)).Along
      [.call (.publish MqttActor.loneEnvelope), .send 0, .handle, .execute (.ok ())]
      (Actor.service (RedisActor.kind loneRedis)).NoCallerLeft := by
  obtain ⟨mqtt, redis, _, _⟩ := no_caller_left MqttActor.loneRumqttc loneRedis loneAmqp loneDds
  exact ⟨mqtt _ _ rfl, redis _⟩

end MomRpc
