import MomRpc.Transport.Theorems.Restoration

namespace MomRpc

theorem EventLoop.transmit_isSome {l : EventLoop} {s : Session} {req : Request}
    {reqs : List Request} (hs : l.session = some s) (hq : l.queued = req :: reqs)
    (held : l.requests.held) : ∃ l', l.transmit = some l' ∧ l'.queued = reqs := by
  simp only [queued] at hq
  cases hp : l.pending
  case nil =>
    have hr : l.requests.recv.isSome := by
      simp only [hp, List.nil_append] at hq
      simp only [Mailbox.recv]
      split
      · simp_all
      · simp [held]
    obtain ⟨⟨req', requests⟩, hr⟩ := Option.isSome_iff_exists.mp hr
    have hq' := (Mailbox.recv_iff.mp hr).right.left
    refine ⟨_, by simp [transmit, hs, hp, hr]; rfl, ?_⟩
    simp_all [queued]
  case cons req' pending =>
    refine ⟨_, by simp [transmit, hs, hp]; rfl, ?_⟩
    simp_all [queued]

namespace MqttActor

open RumqttcTransport

variable {rumqttc : Rumqttc} {m m' : MqttActor} {act : Action} {as : List Action} {topic : String}

-- A SUBSCRIBE for the topic has been issued on the session that is up.
def Issued (m : MqttActor) (topic : String) : Prop :=
  m.eventLoop.session ≠ none ∧ (m.eventLoop.Awaiting topic ∨ m.eventLoop.Answered topic)

-- The connection is up, all requests have been sent and all SUBSCRIBEs have been answered.
def Quiescent (m : MqttActor) : Prop :=
  m.phase = .selecting ∧ m.eventLoop.queued = [] ∧
    ∃ s, m.eventLoop.session = some s ∧ s.unanswered = []

-- The broker holds a subscription to the topic, unless it has itself rejected it.
def Subscribed (m : MqttActor) (topic : String) : Prop :=
  ∃ s, m.eventLoop.session = some s ∧ (topic ∈ s.subscriptions ∨ topic ∈ s.rejected)

-- The actions end in an error that lost a connection, and whatever followed it.
def Lost (rumqttc : Rumqttc) (as : List Action) : Prop :=
  ∃ xs err drained pending ys m, as = xs ++ .poll (.error err drained pending) :: ys ∧
    (machine rumqttc).Run xs m ∧ m.eventLoop.session ≠ none

theorem Quiescent.not_awaiting (q : m.Quiescent) : ¬m.eventLoop.Awaiting topic := by
  have ⟨_, hq, s, hs, hu⟩ := q
  simp [EventLoop.Awaiting, hq, hs, hu]

theorem Quiescent.not_outstanding (q : m.Quiescent) : ¬m.Outstanding topic := by
  have ⟨_, _, s, hs, _⟩ := q
  rintro (h | ⟨h, _⟩)
  · exact q.not_awaiting h
  · simp [hs] at h

theorem subscribed_of_answered (h : m.eventLoop.Answered topic) : m.Subscribed topic := by
  have ⟨s, codes, hs, h⟩ := h
  refine ⟨s, hs, ?_⟩
  simp only [Session.subscriptions, Session.rejected, List.mem_filterMap]
  cases ha : accepted codes
  · exact .inr ⟨_, h, by simp [ha]⟩
  · exact .inl ⟨_, h, by simp [ha]⟩

theorem Step.reconnect (r : (machine rumqttc).Reachable m) (st : Step rumqttc m act m')
    (h : m.reconnect) : m'.reconnect := by
  cases st.effect r <;> simp_all

theorem Lost.reconnect (l : Lost rumqttc as) (r : (machine rumqttc).Run as m)
    (recoverable : (machine rumqttc).Throughout as Recoverable) : m.reconnect := by
  obtain ⟨xs, err, drained, pending, ys, m₀, he, r₀, hs⟩ := l
  have rec₀ := recoverable xs _ ys m₀ he r₀
  obtain ⟨m₁, hn, he⟩ := Machine.Run.next (he ▸ r) r₀
  have hr : m₁.reconnect := by
    cases next_step hn
    case caller caller => cases caller
    case ignored quiet => rcases quiet with h | ⟨_, _, h⟩ <;> cases h
    case error lost =>
      rcases rec₀ with hd | hr | ⟨none, _⟩
      · simp [hd]
      · simp [hr]
      · exact absurd none hs
  have stable := Machine.exec_stable (P := fun m => (machine rumqttc).Reachable m ∧ m.reconnect) he
    ⟨r₀.reachable.next hn, hr⟩ fun m act m' _ ⟨r, hr⟩ hn =>
      ⟨r.next hn, (next_step hn).reconnect r hr⟩
  exact stable.right

theorem handleConnack_made {topics : List String} (held : m.eventLoop.requests.held)
    (hs : ¬(m.handleConnack rumqttc topics).Suspended) :
    ∃ eventLoop, m.handleConnack rumqttc topics = { m with eventLoop } ∧
      m.eventLoop.Made (if m.reconnect then resubscribe rumqttc topics else []) eventLoop := by
  rcases handleConnack_cases rumqttc topics held with ⟨hr, he⟩ | ⟨hr, awaited⟩
  · exact ⟨m.eventLoop, he, by simpa [hr] using .nil⟩
  · generalize m.handleConnack rumqttc topics = m' at awaited hs
    cases awaited
    case made made => exact ⟨_, rfl, by simpa [hr] using made⟩
    case suspended => exact absurd ⟨_, rfl⟩ hs

-- Until the next error, what has been issued on a session stays so.
theorem Step.issued (r : (machine rumqttc).Reachable m) (st : Step rumqttc m act m')
    (ha : ∀ err drained pending, act ≠ .poll (.error err drained pending)) (h : m.Issued topic) :
    m'.phase = .stopped ∨ m'.Suspended ∨ m'.Issued topic := by
  have ⟨up, hi⟩ := h
  cases st.effect r
  case quiet eventLoop _ _ => exact .inr <| .inr <| by rwa [Issued, eventLoop]
  case stop phase _ _ => exact .inl phase
  case suspend phase _ _ => exact .inr <| .inl ⟨_, phase⟩
  case publish made _ _ | subscribe made _ _ =>
    exact .inr <| .inr ⟨made.session ▸ up, hi.imp made.awaiting made.answered⟩
  case connack lost _ _ _ _ => exact absurd lost up
  case suback answered _ _ =>
    obtain ⟨_, _, _, _, _, he⟩ := EventLoop.answer_eq answered
    refine .inr <| .inr ⟨by simp [he], ?_⟩
    rcases hi with hi | hi
    · exact EventLoop.answer_awaiting answered hi
    · exact .inr <| EventLoop.answer_answered answered hi
  case transmit transmitted _ _ =>
    have ⟨_, _, _, hs, _⟩ := EventLoop.transmit_eq transmitted
    refine .inr <| .inr ⟨by simp [hs], ?_⟩
    exact hi.imp (EventLoop.transmit_awaiting transmitted) (EventLoop.transmit_answered transmitted)
  case error action _ _ _ => exact absurd action <| ha _ _ _

-- From here, the event loop alone gets the call its answer.
def Completable (rumqttc : Rumqttc) (m : MqttActor) (i : ℕ) : Prop :=
  ∃ (events : List Event) (m' : MqttActor) (c : MethodCall) (result : Except RpcError Ack),
    (machine rumqttc).exec m (events.map .poll) = some m' ∧ m'.calls[i]? = some c ∧
      c.reply = some result

theorem Completable.poll {event : Event} {i : ℕ}
    (hn : (machine rumqttc).next m (.poll event) = some m') (h : m'.Completable rumqttc i) :
    m.Completable rumqttc i := by
  have ⟨events, m', c, result, he, h⟩ := h
  exact ⟨event :: events, m', c, result, by simpa [hn] using he, h⟩

theorem completable_of_unanswered {s : Session} {i : ℕ} {c : MethodCall}
    (selecting : m.phase = .selecting) (hc : m.calls[i]? = some c)
    (hp : m.pendingSubscribe = some (topic, i))
    (hs : m.eventLoop.session = some s) (hu : s.unanswered ≠ []) : m.Completable rumqttc i := by
  have ⟨topic', unanswered, hu⟩ := List.exists_cons_of_ne_nil hu
  have ⟨eventLoop, ha⟩ : ∃ eventLoop, m.eventLoop.answer [] = some eventLoop := by
    simp [EventLoop.answer, hs, hu]
  have hn : (machine rumqttc).next m (.poll (.suback [])) =
      some ({ m with eventLoop }.handleSuback rumqttc []) := by
    simp [machine, next, step, selecting, poll, ha]
  refine .poll hn ?_
  rcases handleSuback_cases rumqttc { m with eventLoop } [] with
    ⟨none, _⟩ | ⟨_, _, hp', he⟩
  · simp [hp] at none
  · obtain ⟨rfl, rfl⟩ := by simpa using hp.symm.trans hp'
    let result := subackResult rumqttc topic []
    exact
      ⟨[], _, { c with reply := some result }, result, rfl, by simp [he, reply, hc, result], rfl⟩

theorem completable_of_awaiting {s : Session} {i : ℕ} {c : MethodCall}
    (selecting : m.phase = .selecting) (held : m.eventLoop.requests.held)
    (hc : m.calls[i]? = some c)
    (hp : m.pendingSubscribe = some (topic, i)) (hs : m.eventLoop.session = some s)
    (h : m.eventLoop.Awaiting topic) : m.Completable rumqttc i := by
  induction hq : m.eventLoop.queued generalizing m s
  case nil =>
    rcases h with h | ⟨_, hs', h⟩
    · simp [hq] at h
    · exact completable_of_unanswered selecting hc hp hs' <| List.ne_nil_of_mem h
  case cons req reqs ih =>
    have ⟨eventLoop, ht, hq'⟩ := EventLoop.transmit_isSome hs hq held
    have ⟨_, _, _, hs', _, held'⟩ := EventLoop.transmit_eq ht
    have hn : (machine rumqttc).next m (.poll .transmit) = some { m with eventLoop } := by
      simp [machine, next, step, selecting, poll, ht]
    have h' := EventLoop.transmit_awaiting ht h
    exact .poll hn <| ih (m := { m with eventLoop }) selecting (held'.trans held) hc hp hs' h' hq'

theorem completable (r : (machine rumqttc).Reachable m) (hr : m.Restoring rumqttc) {i : ℕ}
    (selecting : m.phase = .selecting) (hp : m.pendingSubscribe = some (topic, i))
    (room : m.eventLoop.session = none → m.KeepsRoom rumqttc (.poll (.connack m.subscribers))) :
    m.Completable rumqttc i := by
  obtain ⟨c, hc, _⟩ := (consistent r).pending topic i hp
  have held := requests_held r (by simp [selecting])
  cases hs : m.eventLoop.session
  case some s =>
    rcases (hr.pending topic i hp).right with h | ⟨none, _⟩
    · exact completable_of_awaiting selecting held hc hp hs h
    · simp [hs] at none
  case none =>
    have hn : (machine rumqttc).next m (.poll (.connack m.subscribers)) = some
        ({ m with eventLoop := { m.eventLoop with session := some {} } }.handleConnack rumqttc
          m.subscribers) := by
      simp [machine, next, step, selecting, poll, hs]
    have hs' := not_suspended_step r (by simp [Suspended, selecting]) hn |>.mpr (room hs)
    obtain ⟨eventLoop, he, made⟩ := handleConnack_made
      (m := { m with eventLoop := { m.eventLoop with session := some {} } }) held hs'
    rw [he] at hn hs'
    refine .poll hn ?_
    have recoverable : m.Recoverable (.poll (.connack m.subscribers)) := trivial
    have hr' := restoring_step r hr recoverable hs' (by simp [selecting]) hn
    rcases (hr'.pending topic i hp).right with h | ⟨none, _⟩
    · exact completable_of_awaiting selecting (made.held.trans held) hc hp made.session h
    · simp [made.session] at none

theorem issued_of_reconnect {topics : List String} (r : (machine rumqttc).Reachable m)
    (hs : ¬m.Suspended) (room : m.KeepsRoom rumqttc (.poll (.connack topics)))
    (hn : (machine rumqttc).next m (.poll (.connack topics)) = some m') (hr : m.reconnect)
    (key : topic ∈ m.subscribers) (valid : rumqttc.subscribeError topic = none) :
    m'.Issued topic := by
  have hs' := not_suspended_step r hs hn |>.mpr room
  cases next_step hn
  case caller caller => cases caller
  case ignored quiet => rcases quiet with h | ⟨_, _, h⟩ <;> cases h
  case connack selecting lost keys =>
    have held := requests_held r (by simp [selecting])
    have ⟨eventLoop, he, made⟩ := handleConnack_made
      (m := { m with eventLoop := { m.eventLoop with session := some {} } }) held hs'
    rw [he]
    rw [if_pos hr] at made
    refine ⟨by simp [made.session], .inl <| made.awaiting_of_mem ?_⟩
    exact mem_resubscribe (keys.mem_iff.mpr key) valid

-- After a ConnAck that follows a lost connection, a SUBSCRIBE has been issued on the new session
-- for every key of the subscriber map, except for topics that `AsyncClient` refuses. Whenever the
-- session is quiescent, the topics of all calls that have returned a handle are subscribed and no
-- subscribe awaits its SUBACK any more. While one does, the event loop can complete it, if the
-- connection is up or the actor has room to restore the topics.
structure SubscriptionsRestored (rumqttc : Rumqttc) (as : List Action) : Prop where
  resubscribed : ∀ xs topics ys m m' topic, as = xs ++ .poll (.connack topics) :: ys →
    (machine rumqttc).Run xs m → (machine rumqttc).Run as m' → Lost rumqttc xs →
    (∀ err drained pending, .poll (.error err drained pending) ∉ ys) → m'.phase ≠ .stopped →
    topic ∈ m.subscribers → rumqttc.subscribeError topic = none →
      m'.Issued topic ∧ (m'.Quiescent → m'.Subscribed topic)
  subscribed : (machine rumqttc).Always as fun m => m.Quiescent →
    ∀ (i : ℕ) c topic, m.calls[i]? = some c → c.method = .subscribe topic →
      c.phase = .returned (.ok ()) → m.Subscribed topic
  completed : (machine rumqttc).Always as fun m => m.Quiescent → m.pendingSubscribe = none
  completes : (machine rumqttc).Always as fun m => m.phase = .selecting →
    (m.eventLoop.session = none → m.KeepsRoom rumqttc (.poll (.connack m.subscribers))) →
      ∀ topic i, m.pendingSubscribe = some (topic, i) → m.Completable rumqttc i

theorem subscriptions_restored (h : (machine rumqttc).Throughout as (Restores rumqttc)) :
    SubscriptionsRestored rumqttc as := by
  have inv := restoring h
  have quiescent {xs ys m} (he : as = xs ++ ys) (r : (machine rumqttc).Run xs m)
      (q : m.Quiescent) : m.Restoring rumqttc := by
    rcases (inv xs ys m he r).right with stopped | hr
    · simp [q.left] at stopped
    · exact hr
  constructor
  case resubscribed =>
    intro xs topics ys m m' topic he r r' lost ok alive key valid
    have hr := lost.reconnect r fun xs' act ys' m he' r =>
      (h xs' act (ys' ++ .poll (.connack topics) :: ys) m (by simp [he, he']) r).right
    have ⟨m₁, hn, hx⟩ := Machine.Run.next (he ▸ r') r
    have hs := (inv xs _ m he r).left
    have issued := issued_of_reconnect r.reachable hs (h xs _ ys m he r).left hn hr key valid
    have stable := Machine.exec_stable
      (P := fun m => (machine rumqttc).Reachable m ∧
        (m.phase = .stopped ∨ m.Suspended ∨ m.Issued topic)) hx
      ⟨r.reachable.next hn, .inr <| .inr issued⟩ fun m act m' ha ⟨r, hi⟩ hn => by
        refine ⟨r.next hn, ?_⟩
        have he : (machine rumqttc).exec m [act] = some m' := by simp [hn]
        rcases hi with hi | hi | hi
        · exact .inl <| (next_step hn).stopped hi
        · exact .inr <| .inl <| suspended_forever he hi
        · exact (next_step hn).issued r (fun _ _ _ he => ok _ _ _ (he ▸ ha)) hi
    have hs' := (inv as [] m' (by simp) r').left
    have issued : m'.Issued topic := by
      rcases stable.right with stopped | suspended | issued
      · exact absurd stopped alive
      · exact absurd suspended hs'
      · exact issued
    exact ⟨issued, fun q => subscribed_of_answered <| issued.right.resolve_left q.not_awaiting⟩
  case subscribed =>
    intro xs ys m he r q i c topic hc hm hp
    have covered := (quiescent he r q).confirmed i c topic hc ⟨hm, .inl hp⟩
    exact subscribed_of_answered <| covered.right.resolve_left q.not_outstanding
  case completed =>
    intro xs ys m he r q
    cases hp : m.pendingSubscribe
    case none => rfl
    case some p =>
      have outstanding := (quiescent he r q).pending p.fst p.snd hp
      exact absurd outstanding.right q.not_outstanding
  case completes =>
    intro xs ys m he r selecting room topic i hp
    rcases (inv xs ys m he r).right with stopped | hr
    · simp [selecting] at stopped
    · exact completable r.reachable hr selecting hp room

-- A subscribed topic, an error, and the next ConnAck.
def loneOutage (err : ConnectionError) : List Action :=
  [.call (.subscribe "t"), .send 0, .handle, .poll (.connack ["t"]), .poll .transmit,
    .poll (.suback [.success .atMostOnce]), .resume 0, .poll (.error err 0 []),
    .poll (.connack ["t"])]

theorem subscriptions_restored_lone : SubscriptionsRestored loneRumqttc (loneOutage .io) := by
  refine subscriptions_restored <| Machine.throughout_of_meets ?_
  refine .cons ⟨by decide, trivial⟩ rfl <| .cons ⟨by decide, trivial⟩ rfl <|
    .cons ⟨by decide, trivial⟩ rfl <| .cons ⟨by decide, trivial⟩ rfl <|
    .cons ⟨by decide, trivial⟩ rfl <| .cons ⟨by decide, trivial⟩ rfl <|
    .cons ⟨by decide, trivial⟩ rfl <| .cons ⟨by decide, .inl rfl⟩ rfl <|
    .cons ⟨by decide, trivial⟩ rfl trivial

-- The actor does not take a flush timeout for a disconnect.
theorem flush_timeout_loses_subscription :
    ¬SubscriptionsRestored loneRumqttc (loneOutage .flushTimeout) := by
  intro h
  have run : (machine loneRumqttc).Run (loneOutage .flushTimeout) _ := rfl
  obtain ⟨_, hs, h⟩ :=
    h.subscribed _ [] _ (by simp) run ⟨rfl, rfl, _, rfl, rfl⟩ 0 _ "t" rfl rfl rfl
  cases hs
  simp [Session.subscriptions, Session.rejected] at h

end MqttActor
end MomRpc
