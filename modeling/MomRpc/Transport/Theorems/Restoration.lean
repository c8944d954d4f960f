import MomRpc.Transport.Theorems.MqttCalls
import MomRpc.Transport.Theorems.Wedge

namespace MomRpc

namespace EventLoop

variable {l l' : EventLoop} {reqs : List Request} {codes : List SubscribeReasonCode}
  {topic : String}

-- A SUBSCRIBE for the topic is still to be sent, or to be answered on this session.
def Awaiting (l : EventLoop) (topic : String) : Prop :=
  .subscribe topic ∈ l.queued ∨ ∃ s, l.session = some s ∧ topic ∈ s.unanswered

-- A SUBSCRIBE for the topic has been answered on this session.
def Answered (l : EventLoop) (topic : String) : Prop :=
  ∃ s codes, l.session = some s ∧ (topic, codes) ∈ s.answered

theorem Made.awaiting (m : Made l reqs l') (h : l.Awaiting topic) : l'.Awaiting topic := by
  rcases h with h | h
  · exact .inl <| by simp [m.queued, h]
  · exact .inr <| by rwa [m.session]

theorem Made.answered (m : Made l reqs l') (h : l.Answered topic) : l'.Answered topic := by
  rwa [Answered, m.session]

theorem Made.awaiting_of_mem (m : Made l reqs l') (h : .subscribe topic ∈ reqs) :
    l'.Awaiting topic :=
  .inl <| by simp [m.queued, h]

theorem transmit_awaiting (ht : l.transmit = some l') (h : l.Awaiting topic) :
    l'.Awaiting topic := by
  have ⟨s, req, hs, hs', hq, _⟩ := transmit_eq ht
  rcases h with h | ⟨_, hs₀, h⟩
  · rcases List.mem_cons.mp (hq ▸ h) with rfl | h
    · exact .inr ⟨_, hs', by simp [Session.receive]⟩
    · exact .inl h
  · cases hs.symm.trans hs₀
    exact .inr ⟨_, hs', by cases req <;> simp [Session.receive, h]⟩

theorem transmit_answered (ht : l.transmit = some l') (h : l.Answered topic) :
    l'.Answered topic := by
  have ⟨s, req, hs, hs', _, _⟩ := transmit_eq ht
  have ⟨_, codes, hs₀, h⟩ := h
  cases hs.symm.trans hs₀
  exact ⟨_, codes, hs', by cases req <;> simpa [Session.receive] using h⟩

theorem answer_awaiting (ha : l.answer codes = some l') (h : l.Awaiting topic) :
    l'.Awaiting topic ∨ l'.Answered topic := by
  obtain ⟨s, topic', unanswered, hs, hu, rfl⟩ := answer_eq ha
  rcases h with h | ⟨_, hs₀, h⟩
  · exact .inl <| .inl h
  · cases hs.symm.trans hs₀
    rcases List.mem_cons.mp (hu ▸ h) with rfl | h
    · exact .inr ⟨_, codes, rfl, by simp⟩
    · exact .inl <| .inr ⟨_, rfl, h⟩

theorem answer_answered (ha : l.answer codes = some l') (h : l.Answered topic) :
    l'.Answered topic := by
  obtain ⟨s, _, _, hs, _, rfl⟩ := answer_eq ha
  have ⟨_, codes', hs₀, h⟩ := h
  cases hs.symm.trans hs₀
  exact ⟨_, codes', rfl, by simp [h]⟩

end EventLoop

namespace MqttActor

open RumqttcTransport

variable {rumqttc : Rumqttc} {m m' : MqttActor} {act : Action} {as : List Action} {topic : String}

-- A SUBSCRIBE for the topic is on its way, or the next ConnAck makes the actor issue one.
def Outstanding (m : MqttActor) (topic : String) : Prop :=
  m.eventLoop.Awaiting topic ∨ (m.eventLoop.session = none ∧ m.reconnect)

def Covered (m : MqttActor) (topic : String) : Prop :=
  m.Outstanding topic ∨ m.eventLoop.Answered topic

-- An error that ends a session, or by which the event loop loses requests, is one that the actor
-- takes for a disconnect, unless it has seen such an error before.
def Recoverable (m : MqttActor) : Action → Prop
  | .poll (.error err drained pending) => isDisconnect err ∨ m.reconnect ∨
    (m.eventLoop.session = none ∧
      pending = m.eventLoop.pending ++ m.eventLoop.requests.queue.take drained)
  | _ => True

theorem Outstanding.made {reqs : List Request} (made : m.eventLoop.Made reqs m'.eventLoop)
    (reconnect : m'.reconnect = m.reconnect) (h : m.Outstanding topic) : m'.Outstanding topic := by
  rcases h with h | ⟨hs, hr⟩
  · exact .inl <| made.awaiting h
  · exact .inr ⟨made.session.trans hs, reconnect.trans hr⟩

theorem mem_resubscribe {topics : List String} (h : topic ∈ topics)
    (valid : rumqttc.subscribeError topic = none) :
    .subscribe topic ∈ resubscribe rumqttc topics := by
  simp [resubscribe, h, valid]

theorem Effect.outstanding (eff : Effect rumqttc m act m') (hs : ¬m'.Suspended)
    (hp : m'.phase ≠ .stopped) (recoverable : m.Recoverable act)
    (valid : rumqttc.subscribeError topic = none) (key : topic ∈ m.subscribers)
    (h : m.Outstanding topic) :
    m'.Outstanding topic ∨ (m'.pendingSubscribe = none ∧ m'.eventLoop.Answered topic) := by
  cases eff
  case quiet eventLoop _ reconnect => exact .inl <| by rwa [Outstanding, eventLoop, reconnect]
  case stop phase _ _ => exact absurd phase hp
  case suspend phase _ _ => exact absurd ⟨_, phase⟩ hs
  case publish made _ reconnect | subscribe made _ reconnect => exact .inl <| h.made made reconnect
  case connack topics action lost keys made _ _ =>
    rcases h with (h | ⟨_, h, _⟩) | ⟨_, hr⟩
    · exact .inl <| .inl <| made.awaiting <| .inl h
    · simp [lost] at h
    · rw [if_pos hr] at made
      exact .inl <| .inl <| made.awaiting_of_mem <| mem_resubscribe (keys.mem_iff.mpr key) valid
  case suback answered pending _ =>
    have ⟨_, _, _, hs, _⟩ := EventLoop.answer_eq answered
    rcases h with h | ⟨h, _⟩
    · exact EventLoop.answer_awaiting answered h |>.imp .inl (⟨pending, ·⟩)
    · simp [hs] at h
  case transmit transmitted _ _ =>
    have ⟨_, _, hs, _⟩ := EventLoop.transmit_eq transmitted
    rcases h with h | ⟨h, _⟩
    · exact .inl <| .inl <| EventLoop.transmit_awaiting transmitted h
    · simp [hs] at h
  case error err drained pending action lost _ reconnect =>
    have he := EventLoop.lose_eq lost
    have restores (hr : m.reconnect ∨ isDisconnect err) : m'.Outstanding topic :=
      .inr ⟨by simp [he], by simpa [reconnect] using hr⟩
    subst action
    rcases recoverable with hd | hr | ⟨none, kept⟩
    · exact .inl <| restores <| .inr hd
    · exact .inl <| restores <| .inl hr
    · rcases h with (h | ⟨_, h, _⟩) | ⟨_, hr⟩
      · exact .inl <| .inl <| .inl <| by
          simpa [he, EventLoop.queued, Mailbox.drain, kept, or_assoc,
            ← List.mem_append] using h
      · simp [none] at h
      · exact .inl <| restores <| .inl hr

theorem Effect.answered (eff : Effect rumqttc m act m') (hs : ¬m'.Suspended)
    (hp : m'.phase ≠ .stopped) (recoverable : m.Recoverable act) (h : m.eventLoop.Answered topic) :
    m'.Covered topic := by
  cases eff
  case quiet eventLoop _ _ => exact .inr <| by rwa [eventLoop]
  case stop phase _ _ => exact absurd phase hp
  case suspend phase _ _ => exact absurd ⟨_, phase⟩ hs
  case publish made _ _ | subscribe made _ _ => exact .inr <| made.answered h
  case connack lost _ _ _ _ =>
    have ⟨_, _, h, _⟩ := h
    simp [lost] at h
  case suback answered _ _ => exact .inr <| EventLoop.answer_answered answered h
  case transmit transmitted _ _ => exact .inr <| EventLoop.transmit_answered transmitted h
  case error err drained pending action lost _ reconnect =>
    subst action
    have ⟨_, _, h, _⟩ := h
    have hr : m.reconnect ∨ isDisconnect err := by
      rcases recoverable with hd | hr | ⟨none, _⟩
      · exact .inr hd
      · exact .inl hr
      · simp [h] at none
    exact .inl <| .inr ⟨by simp [EventLoop.lose_eq lost], by simpa [reconnect] using hr⟩

-- The subscribe that awaits its SUBACK has a SUBSCRIBE on its way, and so do all topics with a
-- confirmed call, unless theirs have been answered.
structure Restoring (rumqttc : Rumqttc) (m : MqttActor) : Prop where
  pending   : ∀ topic i, m.pendingSubscribe = some (topic, i) →
    rumqttc.subscribeError topic = none ∧ m.Outstanding topic
  confirmed : ∀ (i : ℕ) c topic, m.calls[i]? = some c → Confirmed c topic →
    rumqttc.subscribeError topic = none ∧ m.Covered topic

theorem restoring_step (r : (machine rumqttc).Reachable m) (h : m.Restoring rumqttc)
    (recoverable : m.Recoverable act) (hs : ¬m'.Suspended) (alive : m'.phase ≠ .stopped)
    (hn : (machine rumqttc).next m act = some m') : m'.Restoring rumqttc := by
  have st := next_step hn
  have eff := st.effect r
  have con := consistent r
  have outstanding {i c topic} (hc : m.calls[i]? = some c) (hm : c.method = .subscribe topic)
      (h : rumqttc.subscribeError topic = none ∧ m.Outstanding topic) :=
    eff.outstanding hs alive recoverable h.left (con.keys i c topic hc hm) h.right
  constructor
  case pending =>
    intro topic i hp
    have old (hp₀ : m'.pendingSubscribe = m.pendingSubscribe) :
        rumqttc.subscribeError topic = none ∧ m'.Outstanding topic := by
      have ho := h.pending topic i (hp₀ ▸ hp)
      have ⟨_, hc, hm⟩ := con.pending topic i (hp₀ ▸ hp)
      rcases outstanding hc hm ho with ho' | ⟨none, _⟩
      · exact ⟨ho.left, ho'⟩
      · simp [none] at hp
    cases eff
    case quiet hp₀ _ | publish hp₀ _ | connack hp₀ _ | transmit hp₀ _ | error hp₀ _ => exact old hp₀
    case stop phase _ _ => exact absurd phase alive
    case suspend phase _ _ => exact absurd ⟨_, phase⟩ hs
    case suback none _ => simp [none] at hp
    case subscribe valid made hp' _ =>
      cases hp'.symm.trans hp
      exact ⟨valid, .inl <| made.awaiting_of_mem <| by simp⟩
  case confirmed =>
    intro i c' topic h' hc'
    rcases st.confirmed r h' hc' with ⟨c, hc, confirmed⟩ | ⟨_, _, hp⟩
    case inl =>
      have ⟨valid, hv⟩ := h.confirmed i c topic hc confirmed
      refine ⟨valid, ?_⟩
      rcases hv with ho | ha
      · exact outstanding hc confirmed.left ⟨valid, ho⟩ |>.imp_right And.right
      · exact eff.answered hs alive recoverable ha
    case inr =>
      have ho := h.pending topic i hp
      have ⟨_, hc, hm⟩ := con.pending topic i hp
      exact ⟨ho.left, outstanding hc hm ho |>.imp_right And.right⟩

-- The steps leave the actor able to poll, and it recovers from the errors among them.
def Restores (rumqttc : Rumqttc) (m : MqttActor) (act : Action) : Prop :=
  m.KeepsRoom rumqttc act ∧ m.Recoverable act

theorem restoring (h : (machine rumqttc).Throughout as (Restores rumqttc)) :
    (machine rumqttc).Always as fun m =>
      ¬m.Suspended ∧ (m.phase = .stopped ∨ m.Restoring rumqttc) := by
  refine Machine.always_of_throughout h ?_ fun m act m' r ⟨hs, hr⟩ ⟨room, recoverable⟩ hn => ?_
  · refine ⟨nofun, .inr ?_⟩
    constructor <;> simp [machine]
  · have hs' := not_suspended_step r hs hn |>.mpr room
    refine ⟨hs', ?_⟩
    rcases hr with stopped | hr
    · exact .inl <| (next_step hn).stopped stopped
    · exact or_iff_not_imp_left.mpr fun alive => restoring_step r hr recoverable hs' alive hn

end MqttActor
end MomRpc
