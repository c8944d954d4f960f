import MomRpc.Transport.Theorems.MqttCalls
import MomRpc.Transport.Theorems.Wedge

namespace MomRpc

namespace EventLoop

variable {l l' : EventLoop} {reqs : List Request} {codes : List SubscribeReasonCode}

def subscribes (reqs : List Request) : List String :=
  reqs.filterMap fun
    | .subscribe topic => some topic
    | _                => none

-- The topics of the SUBSCRIBEs that the broker has yet to answer, in the order in which it will.
def owed (l : EventLoop) : List String :=
  l.session.elim [] Session.unanswered ++ subscribes l.queued

theorem Made.owed (m : Made l reqs l') : l'.owed = l.owed ++ subscribes reqs := by
  simp [EventLoop.owed, m.queued, m.session, subscribes]

theorem answer_owed (h : l.answer codes = some l') :
    ∃ s topic, l.session = some s ∧ s.unanswered.head? = some topic ∧
      l.owed = topic :: l'.owed := by
  obtain ⟨s, topic, unanswered, hs, hu, rfl⟩ := answer_eq h
  exact ⟨s, topic, hs, by simp [hu], by simp [owed, hs, hu, queued]⟩

theorem transmit_owed (h : l.transmit = some l') : l'.owed = l.owed := by
  have ⟨_, req, hs, hs', hq, _⟩ := transmit_eq h
  cases req <;> simp [owed, hs, hs', hq, Session.receive, subscribes]

theorem lose_owed {drained : ℕ} {pending : List Request} (h : l.lose drained pending = some l') :
    l'.owed.Sublist l.owed := by
  have sub := (lose_queued h).filterMap fun
    | .subscribe topic => some topic
    | _                => none
  cases lose_eq h
  exact sub.trans <| List.sublist_append_right ..

end EventLoop

namespace MqttActor

open RumqttcTransport

variable {rumqttc : Rumqttc} {m m' : MqttActor} {act : Action} {as bs : List Action} {i : ℕ}
  {c c' : MethodCall} {topic : String} {codes : List SubscribeReasonCode}
  {result : Except RpcError Unit} {shut gone : Prop}

section Errors

theorem subscriptionFailed_eq (rumqttc : Rumqttc) (topic : String)
    (codes : List SubscribeReasonCode) :
    ∃ text, subscriptionFailed rumqttc topic codes = .transport (text ++ "]") :=
  ⟨_, congrArg RpcError.transport <| String.append_assoc.symm⟩

-- No other error ends with return codes.
theorem subscriptionFailed_ne {text : String} (h : text.toList.getLast? ≠ some ']') :
    subscriptionFailed rumqttc topic codes ≠ .transport text := by
  intro he
  have ⟨_, he'⟩ := subscriptionFailed_eq rumqttc topic codes
  cases RpcError.transport.inj <| he'.symm.trans he
  simp at h

theorem subscriptionFailed_ne_send {filter err : String} :
    subscriptionFailed rumqttc topic codes ≠ .transport
      s!"{rumqttc.transportId}: failed to send subscribe for topic {filter}: {err}" := by
  intro he
  have he := congrArg String.toList <| RpcError.transport.inj he
  simp [String.toList_append, toString] at he

end Errors

-- The call has returned the result, or it will do so as the actor has told it to.
def Concluded (c : MethodCall) (result : Except RpcError Unit) : Prop :=
  c.phase = .returned result ∨
    (c.phase = .awaiting ∧ ∃ ack, c.reply = some ack ∧ (c.receive ack).phase = .returned result)

-- The next SUBACK answers a SUBSCRIBE for the topic.
def Answers (m : MqttActor) (topic : String) : Prop :=
  ∃ s, m.eventLoop.session = some s ∧ s.unanswered.head? = some topic

-- In the run, a SUBACK with these codes has completed the call, and it has answered a SUBSCRIBE for
-- the topic.
def AnsweredBy (rumqttc : Rumqttc) (as : List Action) (i : ℕ) (topic : String)
    (codes : List SubscribeReasonCode) : Prop :=
  ∃ xs ys m, as = xs ++ .poll (.suback codes) :: ys ∧ (machine rumqttc).Run xs m ∧
    m.pendingSubscribe = some (topic, i) ∧ m.Answers topic

structure Correlated (rumqttc : Rumqttc) (as : List Action) (m : MqttActor) : Prop where
  ok : ∀ (i : ℕ) (c : MethodCall) topic, m.calls[i]? = some c → c.method = .subscribe topic →
    Concluded c (.ok ()) → ∃ codes, accepted codes ∧ AnsweredBy rumqttc as i topic codes
  failed : ∀ (i : ℕ) (c : MethodCall) topic codes, m.calls[i]? = some c →
    c.method = .subscribe topic → Concluded c (.error (subscriptionFailed rumqttc topic codes)) →
    ∃ codes, ¬accepted codes ∧ AnsweredBy rumqttc as i topic codes

-- If a SUBACK arrives while a call of `subscribe` awaits its own, then the oldest SUBSCRIBE which
-- the broker has not answered on this connection is one for the topic of that call.
def Matches (m : MqttActor) : Action → Prop
  | .poll (.suback _) => ∀ topic i (c : MethodCall), m.pendingSubscribe = some (topic, i) →
    m.calls[i]? = some c → c.phase = .awaiting → m.Answers topic
  | _ => True

-- The results that only a SUBACK should lead to.
def Decided (rumqttc : Rumqttc) (topic : String) (result : Except RpcError Unit) : Prop :=
  result = .ok () ∨ ∃ codes, result = .error (subscriptionFailed rumqttc topic codes)

theorem Decided.ne_error {text : String} (d : Decided rumqttc topic result)
    (h : text.toList.getLast? ≠ some ']') : result ≠ .error (.transport text) := by
  rcases d with rfl | ⟨codes, rfl⟩
  · simp
  · exact fun he => subscriptionFailed_ne h <| Except.error.inj he

theorem AnsweredBy.append (h : AnsweredBy rumqttc as i topic codes) :
    AnsweredBy rumqttc (as ++ bs) i topic codes := by
  have ⟨xs, ys, m, he, h⟩ := h
  exact ⟨xs, ys ++ bs, m, by simp [he], h⟩

theorem not_concluded_of_asking (asking : c.Asking) : ¬Concluded c result := by
  rcases asking with h | h | h <;> simp [Concluded, h]

-- By itself, a call comes to such a result only if it has been told so.
theorem concluded_of_step (st : CallStep RumqttcTransport.caller shut gone c c')
    (hm : c.method = .subscribe topic)
    (decided : Decided rumqttc topic result) (h : Concluded c' result) : Concluded c result := by
  cases st
  case await => exact h
  case register | cancel | retry => simp [Concluded] at h
  case joined method _ => simp [hm] at method
  case receive ack awaiting reply =>
    refine .inr ⟨awaiting, ack, reply, ?_⟩
    rcases h with h | ⟨h, _⟩
    · exact h
    · simp only [RumqttcTransport.caller, MethodCall.receive, hm] at h
      split at h <;> simp at h
  case closed =>
    have ne : result ≠ .error (.transport "actor command channel closed:channel closed") :=
      decided.ne_error (by decide)
    simp [Concluded, RumqttcTransport.caller, MethodCall.closed, hm, ne.symm] at h
  case disconnected =>
    have ne : result ≠ .error (.transport "actor resp_rx channel read failed:channel closed") :=
      decided.ne_error (by decide)
    simp [Concluded, RumqttcTransport.caller, MethodCall.disconnected, hm, ne.symm] at h

theorem concluded_of_change (r : (machine rumqttc).Reachable m) (handle : m.calls[i]? = some c)
    (ch : CallChange rumqttc m act i c c') (hm : c.method = .subscribe topic)
    (decided : Decided rumqttc topic result) (h : Concluded c' result) :
    Concluded c result ∨ (c.phase = .awaiting ∧ ∃ codes, act = .poll (.suback codes) ∧
      m.pendingSubscribe = some (topic, i) ∧
      result = (subackResult rumqttc topic codes).map fun _ => ()) := by
  have ow := owned r
  cases ch
  case same    => exact .inl h
  case step st => exact .inl <| concluded_of_step st hm decided h
  case send sending =>
    have hr := ow.asking i c handle <| .inr <| .inl sending
    simp [Concluded, hr] at h
  case reply ack replies =>
    have ⟨_, handle', w⟩ := ow.waiting i replies.mem_responders
    cases handle.symm.trans handle'
    rcases w with hd | ⟨awaiting, _⟩
    · simp [Concluded, hd] at h
    · refine .inr ⟨awaiting, ?_⟩
      have h : (MethodCall.receive { c with reply := some ack } ack).phase = .returned result := by
        simpa [Concluded, awaiting] using h
      rcases replies.subscribe (consistent r) handle hm with ⟨codes, action, hp, rfl⟩ | ⟨_, refusal⟩
      · refine ⟨codes, action, hp, ?_⟩
        cases ha : accepted codes
        all_goals
          simp only [subackResult, ha, MethodCall.receive, hm] at h ⊢
          exact (Phase.returned.inj h).symm
      · cases refusal
        case pending => simp [MethodCall.receive, hm] at h
        case subscribe err =>
          simp only [MethodCall.receive, hm, Phase.returned.injEq] at h
          rcases decided with rfl | ⟨_, rfl⟩
          · cases h
          · exact absurd (Except.error.inj h).symm subscriptionFailed_ne_send

-- The call has got an answer that is not `Ack::Retry`, or it is gone.
def Settled (c : MethodCall) : Prop :=
  c.phase = .dropped ∨ ∃ ack, c.reply = some ack ∧ ack ≠ .ok .retry

theorem settled_of_step (st : CallStep RumqttcTransport.caller shut gone c c')
    (hm : c.method = .subscribe topic)
    (h : Settled c) : Settled c' := by
  cases st
  case cancel => exact .inl rfl
  case await => exact h
  case joined method _ => simp [hm] at method
  case disconnected awaiting reply => simp [Settled, awaiting, reply] at h
  case closed sending =>
    simpa [Settled, RumqttcTransport.caller, MethodCall.closed, hm, sending] using h
  case register h' | retry h' => simpa [Settled, h'] using h
  case receive ack awaiting reply =>
    have ne : ack ≠ .ok .retry := by simpa [Settled, awaiting, reply] using h
    refine .inr ⟨ack, ?_, ne⟩
    cases ack
    case error => simpa [RumqttcTransport.caller, MethodCall.receive, hm] using reply
    case ok ack =>
      cases ack
      case ok    => simpa [RumqttcTransport.caller, MethodCall.receive, hm] using reply
      case retry => exact absurd rfl ne

theorem dropped_of_settled (w : c.Waiting) (h : Settled c) : c.phase = .dropped := by
  rcases w with hd | ⟨_, hr⟩
  · exact hd
  · simpa [Settled, hr] using h

theorem Step.settled (r : (machine rumqttc).Reachable m) (st : Step rumqttc m act m')
    (handle : m.calls[i]? = some c) (hm : c.method = .subscribe topic) (h : Settled c) :
    ∃ c', m'.calls[i]? = some c' ∧ c'.method = .subscribe topic ∧ Settled c' := by
  have ⟨c', handle', ch⟩ := st.change_of_call r handle
  refine ⟨c', handle', ch.method.trans hm, ?_⟩
  cases ch
  case same    => exact h
  case send sending => simpa [Settled, sending] using h
  case step st => exact settled_of_step st hm h
  case reply replies =>
    have ⟨_, handle', w⟩ := (owned r).waiting i replies.mem_responders
    cases handle.symm.trans handle'
    exact .inl <| dropped_of_settled (c := c) w h

theorem subackResult_ne_retry : subackResult rumqttc topic codes ≠ .ok .retry := by
  simp only [subackResult]
  split <;> simp

theorem next_suback (hn : (machine rumqttc).next m (.poll (.suback codes)) = some m') :
    m.phase = .selecting ∧ ∃ eventLoop, m.eventLoop.answer codes = some eventLoop ∧
      m' = { m with eventLoop }.handleSuback rumqttc codes := by
  cases next_step hn
  case caller caller => cases caller
  case ignored quiet => simp at quiet
  case suback selecting answered => exact ⟨selecting, _, answered, rfl⟩

-- The step in which a SUBACK completes a call.
theorem suback_completes (hp : m.pendingSubscribe = some (topic, i))
    (handle : m.calls[i]? = some c)
    (hn : (machine rumqttc).next m (.poll (.suback codes)) = some m') :
    m'.calls[i]? = some { c with reply := some (subackResult rumqttc topic codes) } := by
  obtain ⟨_, eventLoop, _, rfl⟩ := next_suback hn
  rcases handleSuback_cases rumqttc { m with eventLoop } codes with ⟨hp', _⟩ | ⟨_, _, hp', he⟩
  · cases hp.symm.trans hp'
  · cases hp.symm.trans hp'
    simp [he, reply, handle]

-- A SUBACK answers a call once and for all.
theorem AnsweredBy.settled (r : (machine rumqttc).Run as m)
    (h : AnsweredBy rumqttc as i topic codes) :
    ∃ c, m.calls[i]? = some c ∧ c.method = .subscribe topic ∧ Settled c := by
  obtain ⟨xs, ys, s, rfl, rs, hp, _⟩ := h
  have ⟨c, handle, hm⟩ := (consistent rs.reachable).pending topic i hp
  have ⟨t, hn, he⟩ := r.next rs
  have handle' := suback_completes hp handle hn
  let P (u : MqttActor) : Prop := (machine rumqttc).Reachable u ∧
    ∃ c, u.calls[i]? = some c ∧ c.method = .subscribe topic ∧ Settled c
  have start : P t :=
    ⟨rs.reachable.next hn, _, handle', hm, .inr ⟨_, rfl, subackResult_ne_retry⟩⟩
  refine Machine.exec_stable (P := P) he start ?_ |>.right
  intro u act u' _ ⟨ru, c, handle, hm, h⟩ hn
  exact ⟨ru.next hn, (next_step hn).settled ru handle hm h⟩

theorem matches_of_correlated (r : (machine rumqttc).Run as m)
    (hn : (machine rumqttc).next m act = some m') (h' : Correlated rumqttc (as ++ [act]) m') :
    m.Matches act := by
  cases act <;> try trivial
  case poll event =>
  cases event <;> try trivial
  case suback codes =>
  intro topic i c hp handle awaiting
  obtain ⟨_, handle₀, hm⟩ := (consistent r.reachable).pending topic i hp
  cases handle.symm.trans handle₀
  -- The SUBACK completes the call, so there is one in the run that answers its topic.
  obtain ⟨codes', answered⟩ :
      ∃ codes', AnsweredBy rumqttc (as ++ [.poll (.suback codes)]) i topic codes' := by
    have handle' := suback_completes hp handle hn
    cases ha : accepted codes
    case true =>
      obtain ⟨codes', _, answered⟩ := h'.ok i _ topic handle' hm <| .inr
        ⟨awaiting, _, rfl, by simp [subackResult, ha, MethodCall.receive, hm]⟩
      exact ⟨codes', answered⟩
    case false =>
      obtain ⟨codes', _, answered⟩ := h'.failed i _ topic codes handle' hm <| .inr
        ⟨awaiting, _, rfl, by simp [subackResult, ha, MethodCall.receive, hm]⟩
      exact ⟨codes', answered⟩
  obtain ⟨xs, ys, s, split, rs, hp', answers⟩ := answered
  rcases List.concat_eq_append_cons_iff.mp split with ⟨zs, _, he⟩ | ⟨_, rfl, _⟩
  · have earlier : AnsweredBy rumqttc as i topic codes' := ⟨xs, zs, s, he, rs, hp', answers⟩
    obtain ⟨_, handle₀, _, h⟩ := earlier.settled r
    cases handle.symm.trans handle₀
    obtain ⟨_, handle₀, w⟩ := (owned r.reachable).waiting i (by simp [responders, hp])
    cases handle.symm.trans handle₀
    have dropped := dropped_of_settled w h
    simp [awaiting] at dropped
  · exact r.deterministic rs ▸ answers

-- What a call has come to in a step, a SUBACK has told it then.
theorem concluded_step (r : (machine rumqttc).Run as m) (hc : m.Matches act)
    (hn : (machine rumqttc).next m act = some m') (handle' : m'.calls[i]? = some c')
    (hm : c'.method = .subscribe topic) (decided : Decided rumqttc topic result)
    (h' : Concluded c' result) :
    (∃ c, m.calls[i]? = some c ∧ c.method = .subscribe topic ∧ Concluded c result) ∨
      ∃ codes, AnsweredBy rumqttc (as ++ [act]) i topic codes ∧
        result = (subackResult rumqttc topic codes).map fun _ => () := by
  rcases (next_step hn).change r.reachable handle' with ⟨c, handle, ch⟩ | ⟨_, _, _, rfl⟩
  case inr => exact absurd h' <| not_concluded_of_asking <| .inr <| .inl rfl
  case inl =>
    replace hm := ch.method.symm.trans hm
    have cases := concluded_of_change r.reachable handle ch hm decided h'
    rcases cases with h' | ⟨awaiting, codes, rfl, hp, he⟩
    · exact .inl ⟨c, handle, hm, h'⟩
    · exact .inr ⟨codes, ⟨as, [], m, rfl, r, hp, hc topic i c hp handle awaiting⟩, he⟩

theorem correlated_of_matches (r : (machine rumqttc).Run as m) (h : Correlated rumqttc as m)
    (hc : m.Matches act) (hn : (machine rumqttc).next m act = some m') :
    Correlated rumqttc (as ++ [act]) m' := by
  constructor
  case ok =>
    intro i c' topic handle' hm h'
    rcases concluded_step r hc hn handle' hm (.inl rfl) h' with
      ⟨c, handle, hm, h'⟩ | ⟨codes, answered, he⟩
    · obtain ⟨codes, accepted, answered⟩ := h.ok i c topic handle hm h'
      exact ⟨codes, accepted, answered.append⟩
    · refine ⟨codes, ?_, answered⟩
      by_contra ha
      simp [subackResult, ha, Except.map] at he
  case failed =>
    intro i c' topic codes handle' hm h'
    rcases concluded_step r hc hn handle' hm (.inr ⟨codes, rfl⟩) h' with
      ⟨c, handle, hm, h'⟩ | ⟨codes, answered, he⟩
    · obtain ⟨codes, rejected, answered⟩ := h.failed i c topic codes handle hm h'
      exact ⟨codes, rejected, answered.append⟩
    · refine ⟨codes, fun ha => ?_, answered⟩
      simp [subackResult, ha, Except.map] at he

theorem suback_correlation (r : (machine rumqttc).Run as m) :
    (machine rumqttc).Along as (Correlated rumqttc) ↔ (machine rumqttc).Throughout as Matches :=
  Machine.along_iff_throughout r ⟨by simp [machine], by simp [machine]⟩ fun _ _ _ _ r h hn =>
    ⟨matches_of_correlated r hn, (correlated_of_matches r h · hn)⟩

-- The only SUBSCRIBE on its way is that of the pending call.
def Sole (m : MqttActor) : Prop :=
  m.reconnect = false ∧ m.eventLoop.owed.Sublist (m.pendingSubscribe.toList.map Prod.fst)

theorem sole_step (r : (machine rumqttc).Reachable m) (h : m.phase = .selecting → m.Sole)
    (ok : ∀ err drained pending, act = .poll (.error err drained pending) →
      isDisconnect err = false)
    (hn : (machine rumqttc).next m act = some m') (selecting : m'.phase = .selecting) :
    m'.Sole := by
  have st := next_step hn
  obtain ⟨hr, sub⟩ := h <| st.selecting selecting
  cases st.effect r
  case quiet eventLoop pending reconnect =>
    exact ⟨reconnect.trans hr, by rwa [eventLoop, pending]⟩
  case stop phase _ _ | suspend phase _ _ => simp [selecting] at phase
  case publish made pending reconnect =>
    exact ⟨reconnect.trans hr, by simpa [made.owed, EventLoop.subscribes, pending] using sub⟩
  case subscribe free _ _ made pending reconnect =>
    have none : m.eventLoop.owed = [] := by simpa [free] using sub
    exact ⟨reconnect.trans hr, by simp [made.owed, none, EventLoop.subscribes, pending]⟩
  case connack lost _ made pending reconnect =>
    refine ⟨reconnect.trans hr, ?_⟩
    simp only [hr, Bool.false_eq_true, if_false] at made
    rw [made.owed, pending]
    simpa [EventLoop.owed, EventLoop.queued, lost, EventLoop.subscribes] using sub
  case suback answered pending reconnect =>
    refine ⟨reconnect.trans hr, ?_⟩
    obtain ⟨_, _, _, _, ho⟩ := EventLoop.answer_owed answered
    rw [ho] at sub
    cases hp : m.pendingSubscribe <;> simp [hp] at sub
    simp [sub]
  case transmit transmitted pending reconnect =>
    exact ⟨reconnect.trans hr, by rwa [EventLoop.transmit_owed transmitted, pending]⟩
  case error action lost pending reconnect =>
    refine ⟨by simp [reconnect, hr, ok _ _ _ action], ?_⟩
    exact pending ▸ (EventLoop.lose_owed lost).trans sub

-- Without a reconnect, the actor never subscribes to a topic again.
theorem matches_of_no_disconnect (r : (machine rumqttc).Run as m)
    (ok : ∀ err drained pending, .poll (.error err drained pending) ∈ as →
      isDisconnect err = false) :
    (machine rumqttc).Throughout as Matches := by
  let C (_ : MqttActor) (act : Action) : Prop :=
    ∀ err drained pending, act = .poll (.error err drained pending) → isDisconnect err = false
  have sole : (machine rumqttc).Always as fun m => m.phase = .selecting → m.Sole :=
    Machine.always_of_throughout (C := C)
      (fun xs act ys s he _ err drained pending ha => ok err drained pending (by simp [he, ha]))
      (fun _ => ⟨rfl, List.nil_sublist _⟩) fun s act s' r h hc hn => sole_step r h hc hn
  intro xs act ys s he rs
  cases act <;> try trivial
  case poll event =>
  cases event <;> try trivial
  case suback codes =>
  intro topic i c hp handle awaiting
  have ⟨_, hn, _⟩ := Machine.Run.next (he ▸ r) rs
  have ⟨selecting, _, answered, _⟩ := next_suback hn
  have ⟨_, sub⟩ := sole xs _ s he rs selecting
  have ⟨session, topic', hs, hu, ho⟩ := EventLoop.answer_owed answered
  simp only [ho, hp, Option.toList, List.map] at sub
  have eq : topic' = topic := by simpa using sub.subset (List.mem_cons_self ..)
  exact ⟨session, hs, eq ▸ hu⟩

-- A subscribed topic, a reconnect, and a second call while the first topic is subscribed again.
def loneResubscribe : List Action :=
  [.call (.subscribe "x"), .send 0, .handle, .poll (.connack ["x"]), .poll .transmit,
    .poll (.suback [.success .atMostOnce]), .resume 0, .poll (.error .io 0 []),
    .poll (.connack ["x"]), .call (.subscribe "y"), .send 1, .handle, .poll .transmit,
    .poll .transmit]

theorem suback_correlation_lone :
    (machine loneRumqttc).Along loneResubscribe (Correlated loneRumqttc) ↔
      (machine loneRumqttc).Throughout loneResubscribe Matches :=
  suback_correlation (Machine.Run.of_isSome rfl)

-- The SUBACK answers the second SUBSCRIBE for `x`, but completes the call for `y`.
theorem resubscription_confirms_other_topic :
    let as := loneResubscribe ++ [.poll (.suback [.success .atMostOnce]), .resume 1]
    ∃ m c, (machine loneRumqttc).Run as m ∧ m.calls[1]? = some c ∧ c.method = .subscribe "y" ∧
      c.phase = .returned (.ok ()) ∧ ¬(machine loneRumqttc).Along as (Correlated loneRumqttc) := by
  intro as
  have run : (machine loneRumqttc).Run loneResubscribe _ := Machine.Run.of_isSome rfl
  have run' : (machine loneRumqttc).Run
      (loneResubscribe ++ [.poll (.suback [.success .atMostOnce])]) _ := Machine.Run.of_isSome rfl
  have run'' : (machine loneRumqttc).Run as _ := Machine.Run.of_isSome rfl
  refine ⟨_, _, run'', rfl, rfl, rfl, fun h => ?_⟩
  have correlated := h _ [.resume 1] _ rfl run'
  have ⟨_, hn, he⟩ := run'.next  run
  cases he
  have ⟨_, hs, answers⟩ := matches_of_correlated run hn correlated "y" 1 _ rfl rfl rfl
  cases hs
  have answers : some "x" = some "y" := answers
  simp at answers

end MqttActor
end MomRpc
