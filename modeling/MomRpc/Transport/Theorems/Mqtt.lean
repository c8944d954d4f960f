import MomRpc.Transport.Calls

namespace MomRpc

namespace EventLoop

variable {l l' : EventLoop} {reqs : List Request}

-- The requests have been put into the channel.
structure Made (l : EventLoop) (reqs : List Request) (l' : EventLoop) : Prop where
  session : l'.session = l.session
  pending : l'.pending = l.pending
  queue   : l'.requests.queue = l.requests.queue ++ reqs
  held    : l'.requests.held = l.requests.held

namespace Made

theorem nil : Made l [] l :=
  ⟨rfl, rfl, by simp, rfl⟩

theorem cons {req : Request} {requests : Mailbox Request requestCapacity}
    (h : l.requests.trySend req = some requests) (m : Made { l with requests } reqs l') :
    Made l (req :: reqs) l' :=
  have ⟨h₁, _, hq, _, h₂⟩ := Mailbox.trySend_iff.mp h
  ⟨m.session, m.pending, by simp [m.queue, hq], m.held.trans <| h₂.trans h₁.symm⟩

theorem queued (m : Made l reqs l') : l'.queued = l.queued ++ reqs := by
  simp [EventLoop.queued, m.pending, m.queue]

theorem length_le (m : Made l reqs l') :
    l.requests.queue.length + reqs.length ≤ requestCapacity := by
  have := l'.requests.bounded
  simpa [m.queue] using this

end Made

-- Either all requests fit into the channel, or it is full after some of them.
theorem request_cases (l : EventLoop) (reqs : List Request) (held : l.requests.held) :
    (∃ l', l.request reqs = (l', []) ∧ Made l reqs l') ∨
      ∃ l' done req rest, l.request reqs = (l', req :: rest) ∧ reqs = done ++ req :: rest ∧
        Made l done l' ∧ ¬l'.requests.HasRoom := by
  induction reqs generalizing l
  case nil => exact .inl ⟨l, rfl, .nil⟩
  case cons req reqs ih =>
    simp only [request]
    cases h : l.requests.trySend req
    case none =>
      exact .inr ⟨l, [], req, reqs, rfl, rfl, .nil, Mailbox.trySend_eq_none_iff.mp h held⟩
    case some requests =>
      rcases ih { l with requests } (Mailbox.trySend_held h).right with
        ⟨l', he, m⟩ | ⟨l', done, req', rest, he, hs, m, full⟩
      · exact .inl ⟨l', he, .cons h m⟩
      · exact .inr ⟨l', req :: done, req', rest, he, by simp [hs], .cons h m, full⟩

theorem answer_eq {codes : List SubscribeReasonCode} (h : l.answer codes = some l') :
    ∃ s topic unanswered, l.session = some s ∧ s.unanswered = topic :: unanswered ∧
      l' = { l with
        session := some { unanswered, answered := s.answered ++ [(topic, codes)] }
      } := by
  simp only [answer] at h
  split at h <;> try cases h
  split at h <;> cases h
  exact ⟨_, _, _, ‹_›, ‹_›, rfl⟩

theorem transmit_eq (h : l.transmit = some l') :
    ∃ s req, l.session = some s ∧ l'.session = some (s.receive req) ∧ l.queued = req :: l'.queued ∧
      l'.requests.held = l.requests.held := by
  simp only [transmit] at h
  split at h <;> try cases h
  case _ hs hp => exact ⟨_, _, hs, rfl, by simp [queued, hp], rfl⟩
  case _ hs hp =>
    obtain ⟨⟨req, requests⟩, hr, rfl⟩ := Option.map_eq_some_iff.mp h
    have ⟨held, hq, _, held'⟩ := Mailbox.recv_iff.mp hr
    exact ⟨_, req, hs, rfl, by simp [queued, hp, hq], held'.trans held.symm⟩

theorem lose_queued {drained : ℕ} {pending : List Request} (h : l.lose drained pending = some l') :
    l'.queued.Sublist l.queued := by
  simp only [lose] at h
  split at h <;> cases h
  case isTrue sub =>
    have hq := List.take_append_drop drained l.requests.queue
    conv_rhs => rw [queued, ← hq, ← List.append_assoc]
    exact sub.append <| .refl _

theorem lose_eq {drained : ℕ} {pending : List Request} (h : l.lose drained pending = some l') :
    l' = { pending, requests := l.requests.drain drained } := by
  simp only [lose] at h
  split at h <;> cases h
  rfl

end EventLoop

namespace MqttActor

open RumqttcTransport

variable {rumqttc : Rumqttc} {m m' : MqttActor} {act : Action}

def Action.call? : Action → Option ℕ
  | .send i | .resume i | .retry i | .join i | .cancel i => some i
  | _                                                    => none

-- All that one action can do.
inductive Step (rumqttc : Rumqttc) (m : MqttActor) : Action → MqttActor → Prop
  | call {method subscribers} (held : m.held)
    (keys : ∀ topic, topic ∈ subscribers ↔ topic ∈ m.subscribers ∨ method = .subscribe topic) :
    Step rumqttc m (.call method) { m with calls := m.calls ++ [{ method }], subscribers }
  | send {i c commands} (handle : m.calls[i]? = some c) (sending : c.phase = .sending)
    (sent : m.commands.trySend (c.cmd i) = some commands) :
    Step rumqttc m (.send i)
      { m with commands, calls := m.calls.set i { c with phase := .awaiting } }
  | caller {act i c c' tasks} (caller : act.call? = some i) (handle : m.calls[i]? = some c)
    (step : CallStep RumqttcTransport.caller (m.commands.held = false) (m.phase = .stopped) c c')
    (list : m.tasks.Step i c c' tasks) :
    Step rumqttc m act { m with calls := m.calls.set i c', tasks }
  | pushTask : Step rumqttc m .pushTask { m with tasks := .pushed }
  | drop (idle : ¬m.calls.any (·.active)) : Step rumqttc m .drop { m with held := false }
  | handle {cmd commands} (selecting : m.phase = .selecting)
    (received : m.commands.recv = some (cmd, commands)) :
    Step rumqttc m .handle ({ m with commands }.handle rumqttc cmd)
  | closed (selecting : m.phase = .selecting) : Step rumqttc m .closed m.stop
  | connack {topics} (selecting : m.phase = .selecting) (lost : m.eventLoop.session = none)
    (keys : topics.Perm m.subscribers) :
    Step rumqttc m (.poll (.connack topics)) <|
      { m with eventLoop := { m.eventLoop with session := some {} } }.handleConnack rumqttc topics
  | suback {codes eventLoop} (selecting : m.phase = .selecting)
    (answered : m.eventLoop.answer codes = some eventLoop) :
    Step rumqttc m (.poll (.suback codes)) ({ m with eventLoop }.handleSuback rumqttc codes)
  | transmit {eventLoop} (selecting : m.phase = .selecting)
    (transmitted : m.eventLoop.transmit = some eventLoop) :
    Step rumqttc m (.poll .transmit) { m with eventLoop }
  | ignored {event} (selecting : m.phase = .selecting)
    (quiet : event = .other ∨ ∃ topic message, event = .publish topic message) :
    Step rumqttc m (.poll event) m
  | error {err drained pending eventLoop} (selecting : m.phase = .selecting)
    (lost : m.eventLoop.lose drained pending = some eventLoop) :
    Step rumqttc m (.poll (.error err drained pending))
      { m with eventLoop, reconnect := m.reconnect || isDisconnect err }

theorem step_eq_some {select : Option MqttActor} (h : m.step select = some m') :
    m.phase = .selecting ∧ select = some m' := by
  simp only [step] at h
  split at h <;> first | exact ⟨‹_›, h⟩ | cases h

theorem next_step (h : (machine rumqttc).next m act = some m') : Step rumqttc m act m' := by
  cases act <;> simp only [machine, next] at h
  case call method =>
    simp only [call] at h
    split at h <;> try cases h
    split at h <;> cases h
    · exact .call ‹_› <| by simp [eq_comm, or_comm]
    · exact .call ‹_› <| by simp_all
  case send i =>
    simp only [send] at h
    split at h <;> try cases h
    split at h <;> try cases h
    split at h
    case isTrue =>
      obtain ⟨_, hs, rfl⟩ := Option.map_eq_some_iff.mp h
      exact .send ‹_› ‹_› hs
    case isFalse held =>
      cases h
      exact .caller rfl ‹_› (.closed (by simpa using held) ‹_›) (.same <| by simp_all)
  case resume i =>
    simp only [resume] at h
    split at h <;> try cases h
    split at h <;> cases h
    · exact .caller rfl ‹_› (.receive ‹_› ‹_›) (.same <| by simp_all)
    · exact .caller rfl ‹_› (.disconnected ‹_› ‹_› ‹_›) (.same <| by simp_all)
  case retry i =>
    simp only [retry] at h
    split at h <;> try cases h
    split at h <;> cases h
    exact .caller rfl ‹_› (.retry ‹_›) (.same <| by simp_all)
  case join i =>
    simp only [join] at h
    split at h <;> try cases h
    split at h <;> try cases h
    obtain ⟨⟨tasks, done⟩, hj, rfl⟩ := Option.map_eq_some_iff.mp h
    have list := TaskList.join_step hj ‹_› ‹_›
    cases done
    case false => exact .caller rfl ‹_› (.await ‹_› ‹_›) list
    case true  => exact .caller rfl ‹_› (.joined ‹_› ‹_›) list
  case pushTask =>
    simp only [pushTask] at h
    split at h <;> cases h
    exact .pushTask
  case cancel i =>
    simp only [cancel] at h
    split at h <;> try cases h
    split at h <;> cases h
    exact .caller rfl ‹_› (.cancel ‹_›) TaskList.cancel_step
  case drop =>
    simp only [drop] at h
    split at h <;> cases h
    exact .drop ‹_›
  case handle =>
    have ⟨selecting, h⟩ := step_eq_some h
    obtain ⟨⟨cmd, commands⟩, hr, rfl⟩ := Option.map_eq_some_iff.mp h
    exact .handle selecting hr
  case closed =>
    have ⟨selecting, h⟩ := step_eq_some h
    simp only [MqttActor.closed] at h
    split at h <;> cases h
    exact .closed selecting
  case poll event =>
    have ⟨selecting, h⟩ := step_eq_some h
    cases event <;> simp only [poll] at h
    case connack topics =>
      split at h <;> cases h
      case _ hc => exact .connack selecting (by simpa using hc.left) hc.right
    case suback codes =>
      obtain ⟨_, ha, rfl⟩ := Option.map_eq_some_iff.mp h
      exact .suback selecting ha
    case transmit =>
      obtain ⟨_, ht, rfl⟩ := Option.map_eq_some_iff.mp h
      exact .transmit selecting ht
    case publish | other =>
      split at h <;> cases h
      exact .ignored selecting <| by simp
    case error err drained pending =>
      obtain ⟨_, hl, rfl⟩ := Option.map_eq_some_iff.mp h
      exact .error selecting hl

-- How the actor goes on after it has begun to make requests.
inductive Awaited (m : MqttActor) (reqs : List Request) (next : MqttActor → MqttActor) :
    MqttActor → Prop
  | made {eventLoop} (made : m.eventLoop.Made reqs eventLoop) :
    Awaited m reqs next (next { m with eventLoop })
  | suspended {eventLoop done req rest} (split : reqs = done ++ req :: rest)
    (made : m.eventLoop.Made done eventLoop) (full : ¬eventLoop.requests.HasRoom) :
    Awaited m reqs next { m with eventLoop, phase := .suspended (req :: rest) }

theorem await_awaited {reqs : List Request} {next : MqttActor → MqttActor}
    (held : m.eventLoop.requests.held) : Awaited m reqs next (m.await reqs next) := by
  rcases m.eventLoop.request_cases reqs held with ⟨_, he, made⟩ | ⟨_, _, _, _, he, hs, made, full⟩
  · simpa [await, he] using .made made
  · simpa [await, he] using .suspended hs made full

-- How many requests the actor makes in order to handle the command.
def cmdDemand (rumqttc : Rumqttc) (m : MqttActor) : Cmd → ℕ
  | .publish env _     =>
    match rumqttc.toVec env, rumqttc.publishError env.address.name with
    | .ok _, none => 1
    | _, _        => 0
  | .subscribe topic _ =>
    match m.pendingSubscribe, rumqttc.subscribeError topic with
    | none, none => 1
    | _, _       => 0
  | .close _           => 1

-- The answers to commands for which the actor makes no request.
inductive Refusal (rumqttc : Rumqttc) : Cmd → Except RpcError Ack → Prop
  | publish {env resp text} : Refusal rumqttc (.publish env resp) (.error (.transport text))
  | pending {topic resp} : Refusal rumqttc (.subscribe topic resp) (.ok .retry)
  | subscribe {topic resp} {err : String} :
    Refusal rumqttc (.subscribe topic resp) <| .error <| .transport
      s!"{rumqttc.transportId}: failed to send subscribe for topic {topic}: {err}"

theorem publish_cases (rumqttc : Rumqttc) (m : MqttActor) (env : Envelope) (resp : ℕ) :
    (∃ text, rumqttc.publish env (rumqttc.published env.address.name) = .error (.transport text) ∧
      cmdDemand rumqttc m (.publish env resp) = 0) ∨
    ∃ payload, rumqttc.publish env (rumqttc.published env.address.name) =
        .ok { topic := env.address.name, payload } ∧
      cmdDemand rumqttc m (.publish env resp) = 1 := by
  simp only [Rumqttc.publish, Rumqttc.packet, Rumqttc.published, cmdDemand]
  cases rumqttc.toVec env
  case error => exact .inl ⟨_, rfl, rfl⟩
  case ok    =>
    cases rumqttc.publishError env.address.name
    case some => exact .inl ⟨_, rfl, rfl⟩
    case none => exact .inr ⟨_, rfl, rfl⟩

inductive Handled (rumqttc : Rumqttc) (m : MqttActor) : Cmd → MqttActor → Prop
  | refused {cmd result} (demand : cmdDemand rumqttc m cmd = 0)
    (refusal : Refusal rumqttc cmd result) :
    Handled rumqttc m cmd (m.reply cmd.resp result)
  | publish {env resp payload m'} (demand : cmdDemand rumqttc m (.publish env resp) = 1)
    (awaited : Awaited m [.publish env.address.name payload] (·.reply resp (.ok .ok)) m') :
    Handled rumqttc m (.publish env resp) m'
  | subscribe {topic resp m'} (demand : cmdDemand rumqttc m (.subscribe topic resp) = 1)
    (free : m.pendingSubscribe = none) (valid : rumqttc.subscribeError topic = none)
    (awaited : Awaited { m with pendingSubscribe := some (topic, resp) } [.subscribe topic] id m') :
    Handled rumqttc m (.subscribe topic resp) m'
  | close {resp m'} (awaited : Awaited m [.disconnect] (·.reply resp (.ok .ok) |>.stop) m') :
    Handled rumqttc m (.close resp) m'

theorem handle_handled (rumqttc : Rumqttc) (held : m.eventLoop.requests.held) (cmd : Cmd) :
    Handled rumqttc m cmd (m.handle rumqttc cmd) := by
  cases cmd <;> simp only [handle]
  case publish env resp =>
    rcases publish_cases rumqttc m env resp with ⟨_, he, demand⟩ | ⟨_, he, demand⟩
    · simpa [handlePublish, he] using .refused demand .publish
    · simpa [handlePublish, he] using .publish demand <| await_awaited held
  case subscribe topic resp =>
    simp only [handleSubscribe]
    split
    case _ h => exact .refused (by simp [cmdDemand, h]) .pending
    case _ h =>
      split
      case _ h' => exact .refused (by simp [cmdDemand, h, h']) .subscribe
      case _ h' => exact .subscribe (by simp [cmdDemand, h, h']) h h' <| await_awaited held
  case close resp => exact .close <| await_awaited held

section Reply

variable {resp : ℕ} {result : Except RpcError Ack}

@[simp]
theorem reply_subscribers : (m.reply resp result).subscribers = m.subscribers :=
  rfl

@[simp]
theorem reply_pendingSubscribe : (m.reply resp result).pendingSubscribe = m.pendingSubscribe :=
  rfl

@[simp]
theorem reply_reconnect : (m.reply resp result).reconnect = m.reconnect :=
  rfl

@[simp]
theorem reply_commands : (m.reply resp result).commands = m.commands :=
  rfl

@[simp]
theorem reply_eventLoop : (m.reply resp result).eventLoop = m.eventLoop :=
  rfl

@[simp]
theorem reply_phase : (m.reply resp result).phase = m.phase :=
  rfl

end Reply

theorem handleConnack_cases (rumqttc : Rumqttc) (topics : List String)
    (held : m.eventLoop.requests.held) :
    (m.reconnect = false ∧ m.handleConnack rumqttc topics = m) ∨
      (m.reconnect ∧
        Awaited m (resubscribe rumqttc topics) id (m.handleConnack rumqttc topics)) := by
  simp only [handleConnack]
  split
  case isTrue h  => exact .inr ⟨h, await_awaited held⟩
  case isFalse h => exact .inl ⟨by simpa using h, rfl⟩

def subscriptionFailed (rumqttc : Rumqttc) (topic : String) (codes : List SubscribeReasonCode) :
    RpcError :=
  let transportId := rumqttc.transportId
  .transport s!"{transportId}: subscription failed for topic {topic}: {debugReturnCodes codes}"

def subackResult (rumqttc : Rumqttc) (topic : String) (codes : List SubscribeReasonCode) :
    Except RpcError Ack :=
  if accepted codes then .ok .ok else .error (subscriptionFailed rumqttc topic codes)

-- A SUBACK completes the pending subscribe, whichever SUBSCRIBE it answers.
theorem handleSuback_cases (rumqttc : Rumqttc) (m : MqttActor) (codes : List SubscribeReasonCode) :
    (m.pendingSubscribe = none ∧ m.handleSuback rumqttc codes = m) ∨
      ∃ topic resp, m.pendingSubscribe = some (topic, resp) ∧
        m.handleSuback rumqttc codes =
          { m with pendingSubscribe := none }.reply resp (subackResult rumqttc topic codes) := by
  simp only [handleSuback]
  split
  case _ h => exact .inl ⟨h, rfl⟩
  case _ topic resp h =>
    refine .inr ⟨topic, resp, h, ?_⟩
    simp only [subackResult]
    split <;> rfl

-- The event loop lives as long as the actor.
theorem requests_held (r : (machine rumqttc).Reachable m) (h : m.phase ≠ .stopped) :
    m.eventLoop.requests.held := by
  induction m, r using Machine.Reachable.induction_on
  case init => rfl
  case step m act m' _ hn ih =>
    cases next_step hn
    case call | send | caller | pushTask | drop | ignored => exact ih h
    all_goals have held := ih (by simp [‹m.phase = .selecting›])
    case handle cmd commands _ _ =>
      have handled := handle_handled rumqttc (m := { m with commands }) held cmd
      generalize MqttActor.handle rumqttc _ cmd = m' at handled h ⊢
      cases handled
      case refused => exact held
      case publish awaited | subscribe awaited =>
        cases awaited
        case made made | suspended made _ => exact made.held.trans held
      case close awaited =>
        cases awaited
        case made => exact absurd rfl h
        case suspended made _ => exact made.held.trans held
    case closed => exact absurd rfl h
    case connack topics _ _ _ =>
      have connacked := handleConnack_cases rumqttc topics
        (m := { m with eventLoop := { m.eventLoop with session := some {} } }) held
      rcases connacked with ⟨_, he⟩ | ⟨_, awaited⟩
      · rwa [he]
      · generalize handleConnack rumqttc _ topics = m' at awaited
        cases awaited
        case made made | suspended made _ => exact made.held.trans held
    case suback codes eventLoop _ answered =>
      obtain ⟨_, _, _, _, _, rfl⟩ := EventLoop.answer_eq answered
      rcases handleSuback_cases rumqttc _ codes with ⟨_, he⟩ | ⟨_, _, _, he⟩ <;> rwa [he]
    case transmit eventLoop _ transmitted =>
      have ⟨_, _, _, _, _, held'⟩ := EventLoop.transmit_eq transmitted
      exact held'.trans held
    case error eventLoop _ lost =>
      cases EventLoop.lose_eq lost
      exact held

theorem selecting_handled (r : (machine rumqttc).Reachable m) (selecting : m.phase = .selecting)
    (commands : Mailbox Cmd commandCapacity) (cmd : Cmd) :
    Handled rumqttc { m with commands } cmd ({ m with commands }.handle rumqttc cmd) := by
  have held := requests_held r (by simp [selecting])
  exact handle_handled rumqttc (m := { m with commands }) held cmd

theorem selecting_connacked (r : (machine rumqttc).Reachable m)
    (selecting : m.phase = .selecting) (topics : List String) :
    let m' := { m with eventLoop := { m.eventLoop with session := some {} } }
    (m.reconnect = false ∧ m'.handleConnack rumqttc topics = m') ∨
      (m.reconnect ∧
        Awaited m' (resubscribe rumqttc topics) id (m'.handleConnack rumqttc topics)) := by
  have held := requests_held r (by simp [selecting])
  exact handleConnack_cases rumqttc topics
    (m := { m with eventLoop := { m.eventLoop with session := some {} } }) held

section Keys

theorem await_subscribers {reqs : List Request} {next : MqttActor → MqttActor}
    (h : ∀ m, (next m).subscribers = m.subscribers) :
    (m.await reqs next).subscribers = m.subscribers := by
  simp only [await]
  split
  · exact h _
  · rfl

theorem handle_subscribers (rumqttc : Rumqttc) (m : MqttActor) (cmd : Cmd) :
    (m.handle rumqttc cmd).subscribers = m.subscribers := by
  cases cmd <;> simp only [handle]
  case publish =>
    simp only [handlePublish]
    split
    · rfl
    · exact await_subscribers fun _ => rfl
  case subscribe =>
    simp only [handleSubscribe]
    split <;> try rfl
    split <;> try rfl
    exact await_subscribers fun _ => rfl
  case close => exact await_subscribers fun _ => rfl

-- No key is ever removed.
theorem Step.subscribers (st : Step rumqttc m act m') (topic : String) :
    topic ∈ m'.subscribers ↔ topic ∈ m.subscribers ∨ act = .call (.subscribe topic) := by
  cases st
  case call keys => simpa using keys topic
  case caller caller =>
    have ne : act ≠ .call (.subscribe topic) := by
      rintro rfl
      cases caller
    simp [ne]
  case handle => simp [handle_subscribers]
  case connack topics _ _ _ =>
    simp only [handleConnack]
    split
    · simp [await_subscribers]
    · simp
  case suback codes eventLoop _ _ =>
    rcases handleSuback_cases rumqttc { m with eventLoop } codes with ⟨_, he⟩ | ⟨_, _, _, he⟩
    all_goals simp [he]
  all_goals simp [stop]

end Keys

-- What one action does to the event loop, as far as the actor goes on with `select!`.
inductive Effect (rumqttc : Rumqttc) (m : MqttActor) (act : Action) (m' : MqttActor) : Prop
  | quiet (eventLoop : m'.eventLoop = m.eventLoop)
    (pending : m'.pendingSubscribe = m.pendingSubscribe) (reconnect : m'.reconnect = m.reconnect)
  | stop (phase : m'.phase = .stopped) (pending : m'.pendingSubscribe = none)
    (reconnect : m'.reconnect = m.reconnect)
  | suspend {reqs} (phase : m'.phase = .suspended reqs)
    (pending : m'.pendingSubscribe = m.pendingSubscribe ∨ ∃ topic resp,
      .subscribe topic resp ∈ m.commands.queue ∧ m'.pendingSubscribe = some (topic, resp))
    (reconnect : m'.reconnect = m.reconnect)
  | publish {topic payload} (made : m.eventLoop.Made [.publish topic payload] m'.eventLoop)
    (pending : m'.pendingSubscribe = m.pendingSubscribe) (reconnect : m'.reconnect = m.reconnect)
  | subscribe {topic resp} (free : m.pendingSubscribe = none)
    (queued : .subscribe topic resp ∈ m.commands.queue)
    (valid : rumqttc.subscribeError topic = none)
    (made : m.eventLoop.Made [.subscribe topic] m'.eventLoop)
    (pending : m'.pendingSubscribe = some (topic, resp)) (reconnect : m'.reconnect = m.reconnect)
  | connack {topics} (action : act = .poll (.connack topics)) (lost : m.eventLoop.session = none)
    (keys : topics.Perm m.subscribers)
    (made : EventLoop.Made { m.eventLoop with session := some {} }
      (if m.reconnect then resubscribe rumqttc topics else []) m'.eventLoop)
    (pending : m'.pendingSubscribe = m.pendingSubscribe) (reconnect : m'.reconnect = m.reconnect)
  | suback {codes} (action : act = .poll (.suback codes))
    (answered : m.eventLoop.answer codes = some m'.eventLoop) (pending : m'.pendingSubscribe = none)
    (reconnect : m'.reconnect = m.reconnect)
  | transmit (transmitted : m.eventLoop.transmit = some m'.eventLoop)
    (pending : m'.pendingSubscribe = m.pendingSubscribe) (reconnect : m'.reconnect = m.reconnect)
  | error {err drained pending} (action : act = .poll (.error err drained pending))
    (lost : m.eventLoop.lose drained pending = some m'.eventLoop)
    (pending : m'.pendingSubscribe = m.pendingSubscribe)
    (reconnect : m'.reconnect = (m.reconnect || isDisconnect err))

-- Once the actor has stopped, it takes no more steps.
theorem Step.stopped (st : Step rumqttc m act m') (h : m.phase = .stopped) :
    m'.phase = .stopped := by
  cases st
  case call | send | caller | pushTask | drop => exact h
  all_goals simp [‹m.phase = .selecting›] at h

theorem Step.selecting (st : Step rumqttc m act m') (h : m'.phase = .selecting) :
    m.phase = .selecting := by
  cases st
  case call | send | caller | pushTask | drop => exact h
  all_goals exact ‹m.phase = .selecting›

theorem Step.effect (r : (machine rumqttc).Reachable m) (st : Step rumqttc m act m') :
    Effect rumqttc m act m' := by
  cases st
  case call | send | caller | pushTask | drop | ignored => exact .quiet rfl rfl rfl
  case closed => exact .stop rfl rfl rfl
  case transmit transmitted => exact .transmit transmitted rfl rfl
  case error lost => exact .error rfl lost rfl rfl
  case suback codes eventLoop _ answered =>
    rcases handleSuback_cases rumqttc { m with eventLoop } codes with
      ⟨hp, he⟩ | ⟨_, _, _, he⟩
    · rw [he]; exact .suback rfl answered hp rfl
    · rw [he]; exact .suback rfl answered rfl rfl
  case handle cmd commands selecting received =>
    have hq := (Mailbox.recv_iff.mp received).right.left
    have handled := selecting_handled r selecting commands cmd
    generalize MqttActor.handle rumqttc _ cmd = m' at handled
    cases handled
    case refused => exact .quiet rfl rfl rfl
    case publish awaited =>
      cases awaited
      case made made => exact .publish made rfl rfl
      case suspended => exact .suspend rfl (.inl rfl) rfl
    case subscribe free valid awaited =>
      cases awaited
      case made made => exact .subscribe free (by simp [hq]) valid made rfl rfl
      case suspended => exact .suspend rfl (.inr ⟨_, _, by simp [hq], rfl⟩) rfl
    case close awaited =>
      cases awaited
      case made      => exact .stop rfl rfl rfl
      case suspended => exact .suspend rfl (.inl rfl) rfl
  case connack topics selecting lost keys =>
    rcases selecting_connacked r selecting topics with ⟨hr, he⟩ | ⟨hr, awaited⟩
    · rw [he]
      exact .connack rfl lost keys (by simpa [hr] using .nil) rfl rfl
    · generalize handleConnack rumqttc _ topics = m' at awaited
      cases awaited
      case made made => exact .connack rfl lost keys (by simpa [hr] using made) rfl rfl
      case suspended => exact .suspend rfl (.inl rfl) rfl

end MqttActor
end MomRpc
