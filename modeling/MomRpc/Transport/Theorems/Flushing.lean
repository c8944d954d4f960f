import MomRpc.Transport.Theorems.MqttService

namespace MomRpc

namespace EventLoop

variable {l l' : EventLoop} {reqs : List Request}

-- Only polling takes requests out of the channel.
theorem request_received (l : EventLoop) (reqs : List Request) :
    (l.request reqs).fst.requests.received = l.requests.received := by
  induction reqs generalizing l
  case nil => rfl
  case cons req reqs ih =>
    simp only [request]
    cases h : l.requests.trySend req
    case none          => rfl
    case some requests => exact (ih _).trans (Mailbox.trySend_iff.mp h).right.right.right.left

theorem transmit_requests (h : l.transmit = some l') : l'.requests = l.requests ∨
    ∃ req, l.requests.queue = req :: l'.requests.queue ∧
      l'.requests.received = l.requests.received ++ [req] := by
  simp only [transmit] at h
  split at h <;> try cases h
  case _ => exact .inl rfl
  case _ =>
    obtain ⟨⟨req, requests⟩, hr, rfl⟩ := Option.map_eq_some_iff.mp h
    obtain ⟨_, hq, received, _⟩ := Mailbox.recv_iff.mp hr
    exact .inr ⟨req, hq, received⟩

end EventLoop

namespace MqttActor

open RumqttcTransport

variable {rumqttc : Rumqttc} {m m' : MqttActor} {as : List Action} {act : Action} {i k n : ℕ}
  {c : MethodCall} {env : Envelope}

theorem await_received {reqs : List Request} {next : MqttActor → MqttActor}
    (h : ∀ m, (next m).eventLoop.requests.received = m.eventLoop.requests.received) :
    (m.await reqs next).eventLoop.requests.received = m.eventLoop.requests.received := by
  have kept := m.eventLoop.request_received reqs
  simp only [await]
  split
  · exact (h _).trans kept
  · exact kept

-- Whatever command the actor handles, it takes no request out of the channel by that.
theorem handle_received (rumqttc : Rumqttc) (m : MqttActor) (cmd : Cmd) :
    (m.handle rumqttc cmd).eventLoop.requests.received = m.eventLoop.requests.received := by
  cases cmd <;> simp only [handle]
  case publish =>
    simp only [handlePublish]
    split
    · rfl
    · exact await_received fun _ => rfl
  case subscribe =>
    simp only [handleSubscribe]
    split <;> try rfl
    split <;> try rfl
    exact await_received fun _ => rfl
  case close => exact await_received fun _ => rfl

theorem handleConnack_received (rumqttc : Rumqttc) (m : MqttActor) (topics : List String) :
    (m.handleConnack rumqttc topics).eventLoop.requests.received =
    m.eventLoop.requests.received := by
  simp only [handleConnack]
  split
  · exact await_received fun _ => rfl
  · rfl

theorem handleSuback_eventLoop (rumqttc : Rumqttc) (m : MqttActor)
    (codes : List SubscribeReasonCode) :
    (m.handleSuback rumqttc codes).eventLoop = m.eventLoop := by
  rcases handleSuback_cases rumqttc m codes with ⟨_, he⟩ | ⟨_, _, _, he⟩ <;> simp [he]

-- The requests that the event loop takes in a step have been in the channel.
theorem Step.received (st : Step rumqttc m act m') {req : Request}
    (h : req ∈ m'.eventLoop.requests.received) :
    req ∈ m.eventLoop.requests.received ∨ req ∈ m.eventLoop.requests.queue := by
  cases st
  case call | send | caller | pushTask | drop | closed | ignored => exact .inl h
  case handle  => exact .inl <| by rwa [handle_received] at h
  case connack => exact .inl <| by rwa [handleConnack_received] at h
  case suback codes eventLoop _ answered =>
    rw [handleSuback_eventLoop] at h
    obtain ⟨_, _, _, _, _, rfl⟩ := EventLoop.answer_eq answered
    exact .inl h
  case transmit transmitted =>
    rcases EventLoop.transmit_requests transmitted with he | ⟨req', hq, hr⟩
    · exact .inl <| he ▸ h
    · rw [hr, List.mem_append, List.mem_singleton] at h
      exact h.imp_right fun he => by simp [hq, he]
  case error lost =>
    cases EventLoop.lose_eq lost
    exact List.mem_append.mp h |>.imp_right List.mem_of_mem_take

theorem made_queue {l l' : EventLoop} {reqs : List Request} {req : Request}
    (made : l.Made reqs l') (other : .disconnect ∉ reqs) (h : req ∈ l'.requests.queue) :
    req ∈ l.requests.queue ∨ req ≠ .disconnect := by
  rw [made.queue, List.mem_append] at h
  exact h.imp_right fun h he => other (he ▸ h)

theorem Awaited.queue {reqs : List Request} {next : MqttActor → MqttActor} {req : Request}
    (awaited : Awaited m reqs next m') (keeps : ∀ m, (next m).eventLoop = m.eventLoop)
    (other : .disconnect ∉ reqs) (h : req ∈ m'.eventLoop.requests.queue) :
    req ∈ m.eventLoop.requests.queue ∨ req ≠ .disconnect := by
  cases awaited
  case made made =>
    rw [keeps] at h
    exact made_queue made other h
  case suspended split made _ =>
    refine made_queue made (fun hd => other ?_) h
    exact split ▸ List.mem_append_left _ hd

-- The actor leaves no DISCONNECT in the channel: it ends with the one that it requests.
theorem Step.queue (r : (machine rumqttc).Reachable m) (st : Step rumqttc m act m') {req : Request}
    (h : req ∈ m'.eventLoop.requests.queue) :
    req ∈ m.eventLoop.requests.queue ∨ req ≠ .disconnect := by
  cases st
  case call | send | caller | pushTask | drop | ignored => exact .inl h
  case closed => exact absurd h List.not_mem_nil
  case handle cmd commands selecting _ =>
    have handled := selecting_handled r selecting commands cmd
    generalize MqttActor.handle rumqttc _ cmd = m' at handled h
    cases handled
    case refused           => exact .inl h
    case publish awaited   => exact awaited.queue (fun _ => rfl) (by simp) h
    case subscribe awaited => exact awaited.queue (fun _ => rfl) (by simp) h
    case close awaited =>
      cases awaited
      case made => exact absurd h List.not_mem_nil
      case suspended done _ _ split made _ =>
        obtain rfl : done = [] := by cases done <;> simp_all
        exact made_queue made (by simp) h
  case connack topics selecting _ _ =>
    rcases selecting_connacked r selecting topics with ⟨_, he⟩ | ⟨_, awaited⟩
    · rw [he] at h
      exact .inl h
    · exact awaited.queue (fun _ => rfl) (by simp [resubscribe]) h
  case suback codes eventLoop _ answered =>
    rw [handleSuback_eventLoop] at h
    obtain ⟨_, _, _, _, _, rfl⟩ := EventLoop.answer_eq answered
    exact .inl h
  case transmit transmitted =>
    rcases EventLoop.transmit_requests transmitted with he | ⟨req', hq, _⟩
    · exact .inl <| he ▸ h
    · exact .inl <| hq ▸ List.mem_cons_of_mem _ h
  case error lost =>
    cases EventLoop.lose_eq lost
    exact .inl <| List.mem_of_mem_drop h

-- The event loop never gets hold of a DISCONNECT.
theorem disconnect_never_taken (r : (machine rumqttc).Reachable m) :
    .disconnect ∉ m.eventLoop.requests.received := by
  suffices h : .disconnect ∉ m.eventLoop.requests.received ∧
      .disconnect ∉ m.eventLoop.requests.queue from h.left
  induction m, r using Machine.Reachable.induction_on
  case init => exact ⟨List.not_mem_nil, List.not_mem_nil⟩
  case step m act m' r hn ih =>
    have st := next_step hn
    constructor
    case left  => exact fun h => (st.received h).elim ih.left ih.right
    case right => exact fun h => (st.queue r h).elim ih.right (absurd rfl)

-- With the command of the call, the actor puts the `n`-th request into the channel.
def PutAt (rumqttc : Rumqttc) (as : List Action) (i n : ℕ) : Prop :=
  ∃ xs ys m, as = xs ++ .handle :: ys ∧ (machine rumqttc).Run xs m ∧
    Executes rumqttc m .handle i ∧ m.eventLoop.requests.contents.length = n

-- The event loop has taken the request of the call out of the channel.
def Taken (rumqttc : Rumqttc) (as : List Action) (m : MqttActor) (i : ℕ) : Prop :=
  ∃ n, PutAt rumqttc as i n ∧ n < m.eventLoop.requests.received.length

-- What a run has to have done by its end if the `k`-th call, one of `close`, is to flush what has
-- been accepted before.
structure Flushed (rumqttc : Rumqttc) (k : ℕ) (as : List Action) (m : MqttActor) : Prop where
  publishes  : ∀ xs ys t, as = xs ++ .call .close :: ys → (machine rumqttc).Run xs t →
    t.calls.length = k → ∀ (i : ℕ) (c : MethodCall) env, t.calls[i]? = some c →
      c.method = .publish env → c.phase = .returned (.ok ()) → Taken rumqttc as m i
  disconnect : .disconnect ∈ m.eventLoop.requests.received

theorem PutAt.concat (h : PutAt rumqttc as i n) : PutAt rumqttc (as ++ [act]) i n :=
  have ⟨xs, ys, m, he, r, executes, hl⟩ := h
  ⟨xs, ys ++ [act], m, by simp [he], r, executes, hl⟩

theorem taken_handle (r : (machine rumqttc).Run as m)
    (hn : (machine rumqttc).next m .handle = some m') :
    Taken rumqttc (as ++ [.handle]) m' i ↔ Taken rumqttc as m i := by
  have received : m'.eventLoop.requests.received = m.eventLoop.requests.received := by
    cases next_step hn
    case handle   => rw [handle_received]
    case caller h => cases h
  constructor
  case mp =>
    rintro ⟨n, ⟨xs, ys, t, he, rt, executes, hl⟩, lt⟩
    rw [received] at lt
    rcases List.concat_eq_append_cons_iff.mp he with ⟨zs, rfl, rfl⟩ | ⟨rfl, rfl, _⟩
    · exact ⟨n, ⟨xs, zs, t, rfl, rt, executes, hl⟩, lt⟩
    · cases rt.deterministic r
      rw [Mailbox.contents, List.length_append] at hl
      omega
  case mpr =>
    rintro ⟨n, put, lt⟩
    exact ⟨n, put.concat, received ▸ lt⟩

theorem close_of_stopped (r : (machine rumqttc).Reachable m)
    (hn : (machine rumqttc).next m .handle = some m') (ends : m'.phase = .stopped) :
    ∃ k, m.commands.queue.head? = some (.close k) := by
  cases next_step hn
  case caller h => cases h
  case handle cmd commands selecting received =>
    have hq := (Mailbox.recv_iff.mp received).right.left
    have handled := selecting_handled r selecting commands cmd
    generalize MqttActor.handle rumqttc _ cmd = m' at handled ends
    cases handled
    case close resp _ => exact ⟨resp, by simp [hq]⟩
    case refused => cases selecting.symm.trans ends
    case publish awaited | subscribe awaited =>
      cases awaited
      case made      => cases selecting.symm.trans ends
      case suspended => cases ends

-- The actor ends with the command of a call of `close`, and by then the event loop has taken no
-- more than what it had when the actor received the command.
theorem close_flushes_nothing (r : (machine rumqttc).Run as m)
    (hn : (machine rumqttc).next m .handle = some m') (ends : m'.phase = .stopped) :
    ∃ k, m.commands.queue.head? = some (.close k) ∧ ¬Flushed rumqttc k (as ++ [.handle]) m' ∧
      ∀ i, Taken rumqttc (as ++ [.handle]) m' i ↔ Taken rumqttc as m i := by
  have never := disconnect_never_taken (r.concat hn).reachable
  have ⟨k, hq⟩ := close_of_stopped r.reachable hn ends
  exact ⟨k, hq, fun flushed => never flushed.disconnect, fun _ => taken_handle r hn⟩

-- A publish returns `Ok`, and then the transport is closed.
def loneClose : List Action :=
  lonePublish 0 ++ [.resume 0, .call .close, .send 1]

theorem close_flushes_nothing_lone :
    ∃ m m', (machine loneRumqttc).Run loneClose m ∧
      (machine loneRumqttc).next m .handle = some m' ∧ m'.phase = .stopped ∧
      ∃ k, m.commands.queue.head? = some (.close k) ∧
        ¬Flushed loneRumqttc k (loneClose ++ [.handle]) m' ∧
        ∀ i, Taken loneRumqttc (loneClose ++ [.handle]) m' i ↔ Taken loneRumqttc loneClose m i :=
  have run : (machine loneRumqttc).Run loneClose _ := .of_isSome rfl
  ⟨_, _, run, rfl, rfl, close_flushes_nothing run rfl rfl⟩

-- The publish is dropped with the channel.
theorem accepted_publish_is_lost :
    ∃ m, (machine loneRumqttc).Run (loneClose ++ [.handle]) m ∧ m.phase = .stopped ∧
      m.calls[0]?.map (·.phase) = some (.returned (.ok ())) ∧
      m.eventLoop.requests.received = [] ∧ ¬Flushed loneRumqttc 1 (loneClose ++ [.handle]) m := by
  have run : (machine loneRumqttc).Run (loneClose ++ [.handle]) _ := .of_isSome rfl
  have before : (machine loneRumqttc).Run (lonePublish 0 ++ [.resume 0]) _ := .of_isSome rfl
  refine ⟨_, run, rfl, rfl, rfl, fun flushed => ?_⟩
  have ⟨_, _, lt⟩ :=
    flushed.publishes _ [.send 1, .handle] _ rfl before rfl 0 _ loneEnvelope rfl rfl rfl
  exact absurd lt (Nat.not_lt_zero _)

end MqttActor
end MomRpc
