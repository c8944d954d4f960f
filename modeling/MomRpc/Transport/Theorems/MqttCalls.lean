import MomRpc.Transport.Theorems.Mqtt

namespace MomRpc.MqttActor

open RumqttcTransport

variable {rumqttc : Rumqttc} {m m' : MqttActor} {act : Action} {i : ℕ} {c c' : MethodCall}
  {topic : String} {shut gone : Prop}

-- The call has returned a handle, or the actor has told it to.
def Confirmed (c : MethodCall) (topic : String) : Prop :=
  c.method = .subscribe topic ∧ (c.phase = .returned (.ok ()) ∨ c.reply = some (.ok .ok))

theorem confirmed_of_step (st : CallStep RumqttcTransport.caller shut gone c c')
    (h : Confirmed c' topic) : Confirmed c topic := by
  have ⟨hm, hc⟩ := h
  replace hm := st.method.symm.trans hm
  refine ⟨hm, ?_⟩
  cases st
  case closed => exact .inr <| by simpa [RumqttcTransport.caller, MethodCall.closed, hm] using hc
  case receive result _ reply =>
    match result with
    | .ok .ok    => exact .inr reply
    | .ok .retry => simp [RumqttcTransport.caller, MethodCall.receive, hm] at hc
    | .error _   => simp [RumqttcTransport.caller, MethodCall.receive, hm, reply] at hc
  case disconnected reply =>
    simp [RumqttcTransport.caller, MethodCall.disconnected, hm, reply] at hc
  case register | retry | cancel => exact .inr <| by simpa using hc
  case await => exact hc
  case joined method _ =>
    replace hm : c.method = .subscribe topic := hm
    simp [method] at hm

-- In the step, the actor makes the request that the command of the call asks for.
def Executes (rumqttc : Rumqttc) (m : MqttActor) (act : Action) (i : ℕ) : Prop :=
  act = .handle ∧ ∃ cmd, m.commands.queue.head? = some cmd ∧ cmd.resp = i ∧
    cmdDemand rumqttc m cmd = 1

theorem executes_handle {cmd : Cmd} {commands : Mailbox Cmd commandCapacity}
    (received : m.commands.recv = some (cmd, commands))
    (demand : cmdDemand rumqttc { m with commands } cmd = 1) :
    Executes rumqttc m .handle cmd.resp := by
  have hq := (Mailbox.recv_iff.mp received).right.left
  refine ⟨rfl, cmd, by simp [hq], rfl, ?_⟩
  cases cmd <;> exact demand

-- What the actor tells the call, and on account of what.
inductive Replies (rumqttc : Rumqttc) (m : MqttActor) (act : Action) (i : ℕ) :
    Except RpcError Ack → Prop
  | suback {codes topic} (action : act = .poll (.suback codes))
    (pending : m.pendingSubscribe = some (topic, i)) :
    Replies rumqttc m act i (subackResult rumqttc topic codes)
  | refused {cmd result} (queued : cmd ∈ m.commands.queue) (resp : cmd.resp = i)
    (refusal : Refusal rumqttc cmd result) : Replies rumqttc m act i result
  | publish {env} (queued : .publish env i ∈ m.commands.queue)
    (executes : Executes rumqttc m act i) :
    Replies rumqttc m act i (.ok .ok)
  | close (queued : .close i ∈ m.commands.queue) : Replies rumqttc m act i (.ok .ok)

-- The calls whose responders the actor keeps or finds in its queue.
def responders (m : MqttActor) : List ℕ :=
  m.pendingSubscribe.toList.map Prod.snd ++ m.commands.queue.map Cmd.resp

-- The call that the action begins.
def Begins (act : Action) (c : MethodCall) : Prop :=
  ∃ method, act = .call method ∧ c = { method }

def CallsChange (rumqttc : Rumqttc) (m : MqttActor) (act : Action) (m' : MqttActor) : Prop :=
  CallsStep RumqttcTransport.caller (m.commands.held = false) (fun _ => m.phase = .stopped)
    act.call? (Begins act)
    (Replies rumqttc m act) m.calls m.responders m'.calls m'.responders

def CallChange (rumqttc : Rumqttc) (m : MqttActor) (act : Action) (i : ℕ) (c c' : MethodCall) :
    Prop :=
  RumqttcTransport.CallChange RumqttcTransport.caller (m.commands.held = false)
    (m.phase = .stopped) (act.call? = some i)
    (Replies rumqttc m act i) c c'

theorem responders_perm {cmd : Cmd} {commands : Mailbox Cmd commandCapacity}
    (received : m.commands.recv = some (cmd, commands)) :
    m.responders.Perm (cmd.resp :: { m with commands }.responders) := by
  have ⟨_, hq, _⟩ := Mailbox.recv_iff.mp received
  simp only [responders, hq, List.map_cons]
  exact List.perm_middle

theorem Step.calls (r : (machine rumqttc).Reachable m) (st : Step rumqttc m act m') :
    CallsChange rumqttc m act m' := by
  cases st
  case pushTask | drop | transmit | ignored | error => exact .same <| .refl _
  case closed => exact .same <| List.nil_sublist _
  case call => exact .call ⟨_, rfl, rfl⟩
  case send i c commands handle sending sent =>
    have hq := (Mailbox.trySend_iff.mp sent).right.right.left
    have hr : { m with commands }.responders = m.responders ++ [i] := by
      simp [responders, hq, MethodCall.cmd_resp]
    exact (congrArg (CallsStep _ _ _ _ _ _ _ _ _) hr).mpr <| .send rfl handle sending
  case caller handle step _ caller => exact .step caller handle step
  case handle cmd commands selecting received =>
    have hq := (Mailbox.recv_iff.mp received).right.left
    have queued : cmd ∈ m.commands.queue := by simp [hq]
    have perm := responders_perm received
    have sub : { m with commands }.responders.Sublist m.responders := by
      simp [responders, hq]
    have handled := selecting_handled r selecting commands cmd
    generalize MqttActor.handle rumqttc _ cmd = m' at handled
    cases handled
    case refused refusal => exact .reply (.refused queued rfl refusal) perm <| .refl _
    case publish demand awaited =>
      cases awaited
      case made      =>
        exact .reply (.publish queued <| executes_handle received demand) perm <| .refl _
      case suspended => exact .same sub
    case subscribe topic resp _ free _ awaited =>
      have free : m.pendingSubscribe = none := free
      have hr : m.responders = resp :: commands.queue.map Cmd.resp := by
        simp [responders, free, hq, Cmd.resp]
      cases awaited <;> exact .same <| hr ▸ .refl _
    case close awaited =>
      cases awaited
      case made      => exact .reply (.close queued) perm <| List.nil_sublist _
      case suspended => exact .same sub
  case connack topics selecting _ _ =>
    rcases selecting_connacked r selecting topics with ⟨_, he⟩ | ⟨_, awaited⟩
    · rw [he]; exact .same <| .refl _
    · generalize handleConnack rumqttc _ topics = m' at awaited
      cases awaited <;> exact .same <| .refl _
  case suback codes eventLoop _ _ =>
    rcases handleSuback_cases rumqttc { m with eventLoop } codes with
      ⟨_, he⟩ | ⟨_, resp, hp, he⟩
    · rw [he]; exact .same <| .refl _
    · have hp : m.pendingSubscribe = some (_, resp) := hp
      have perm : m.responders.Perm (resp :: m.commands.queue.map Cmd.resp) := by
        simp [responders, hp]
      rw [he]; exact .reply (.suback rfl hp) perm <| .refl _

theorem Step.change (r : (machine rumqttc).Reachable m) (st : Step rumqttc m act m')
    (h' : m'.calls[i]? = some c') :
    (∃ c, m.calls[i]? = some c ∧ CallChange rumqttc m act i c c') ∨
      (i = m.calls.length ∧ Begins act c') :=
  CallsStep.change (st.calls r) h'

-- The calls keep their places.
theorem Step.change_of_call (r : (machine rumqttc).Reachable m) (st : Step rumqttc m act m')
    (h : m.calls[i]? = some c) :
    ∃ c', m'.calls[i]? = some c' ∧ CallChange rumqttc m act i c c' :=
  CallsStep.change_of_call (st.calls r) h

-- The commands on their way and the pending subscribe belong to calls, and the topics of all calls
-- are keys of the subscriber map.
structure Consistent (m : MqttActor) : Prop where
  commands : ∀ cmd ∈ m.commands.queue, ∃ i, ∃ c : MethodCall, m.calls[i]? = some c ∧ c.cmd i = cmd
  pending  : ∀ topic i, m.pendingSubscribe = some (topic, i) →
    ∃ c : MethodCall, m.calls[i]? = some c ∧ c.method = .subscribe topic
  keys     : ∀ (i : ℕ) (c : MethodCall) topic, m.calls[i]? = some c →
    c.method = .subscribe topic → topic ∈ m.subscribers

theorem await_commands {reqs : List Request} {next : MqttActor → MqttActor}
    (h : ∀ m, (next m).commands.queue ⊆ m.commands.queue) :
    (m.await reqs next).commands.queue ⊆ m.commands.queue := by
  simp only [await]
  split
  · exact h _
  · exact List.Subset.refl _

theorem handle_commands (cmd : Cmd) : (m.handle rumqttc cmd).commands.queue ⊆ m.commands.queue := by
  cases cmd <;> simp only [handle]
  case publish =>
    simp only [handlePublish]
    split
    · exact List.Subset.refl _
    · exact await_commands fun _ => List.Subset.refl _
  case subscribe =>
    simp only [handleSubscribe]
    split <;> try exact List.Subset.refl _
    split <;> try exact List.Subset.refl _
    exact await_commands fun _ => List.Subset.refl _
  case close => exact await_commands fun _ => List.nil_subset _

theorem handleConnack_commands (topics : List String) :
    (m.handleConnack rumqttc topics).commands.queue ⊆ m.commands.queue := by
  simp only [handleConnack]
  split
  · exact await_commands fun _ => List.Subset.refl _
  · exact List.Subset.refl _

theorem Step.commands (st : Step rumqttc m act m') {cmd : Cmd} (h : cmd ∈ m'.commands.queue) :
    cmd ∈ m.commands.queue ∨ ∃ i, ∃ c : MethodCall, m.calls[i]? = some c ∧ cmd = c.cmd i := by
  cases st
  case call | caller | pushTask | drop | transmit | ignored | error => exact .inl h
  case closed => simp [stop, Mailbox.drop] at h
  case send i c commands handle sending sent =>
    have hq := (Mailbox.trySend_iff.mp sent).right.right.left
    simp only [hq, List.mem_append, List.mem_singleton] at h
    exact h.imp_right fun h => ⟨i, c, handle, h⟩
  case handle cmd' commands selecting received =>
    have hq := (Mailbox.recv_iff.mp received).right.left
    exact .inl <| hq ▸ List.mem_cons_of_mem _ (handle_commands cmd' h)
  case connack topics _ _ _ =>
    have h := handleConnack_commands topics h
    exact .inl h
  case suback codes eventLoop _ _ =>
    rcases handleSuback_cases rumqttc { m with eventLoop } codes with ⟨_, he⟩ | ⟨_, _, _, he⟩
    all_goals exact .inl <| by simpa [he] using h

theorem consistent (r : (machine rumqttc).Reachable m) : m.Consistent := by
  induction m, r using Machine.Reachable.induction_on
  case init => constructor <;> simp [machine]
  case step m act m' r hn ih =>
    have st := next_step hn
    obtain ⟨commands, pending, keys⟩ := ih
    have keep {i c} (h : m.calls[i]? = some c) := st.change_of_call r h
    have subscribed {topic i} (queued : .subscribe topic i ∈ m.commands.queue) :
        ∃ c : MethodCall, m.calls[i]? = some c ∧ c.method = .subscribe topic := by
      obtain ⟨i, c, h, he⟩ := commands _ queued
      obtain ⟨hm, rfl⟩ := MethodCall.cmd_subscribe he
      exact ⟨c, h, hm⟩
    constructor
    case commands =>
      intro cmd hc
      obtain ⟨i, c, h, he⟩ : ∃ i, ∃ c : MethodCall, m.calls[i]? = some c ∧ c.cmd i = cmd := by
        rcases st.commands hc with hc | ⟨i, c, h, he⟩
        · exact commands cmd hc
        · exact ⟨i, c, h, he.symm⟩
      obtain ⟨c', h', ch⟩ := keep h
      exact ⟨i, c', h', by rw [← he, MethodCall.cmd, MethodCall.cmd, ch.method]⟩
    case pending =>
      intro topic i hp
      obtain ⟨c, h, hm⟩ : ∃ c : MethodCall, m.calls[i]? = some c ∧ c.method = .subscribe topic := by
        cases st.effect r
        case quiet hp' _ | publish hp' _ | connack hp' _ | transmit hp' _ | error hp' _ =>
          exact pending topic i (hp' ▸ hp)
        case stop hp' _ | suback hp' _ => simp [hp'] at hp
        case suspend hp' _ =>
          rcases hp' with hp' | ⟨topic', resp, queued, hp'⟩
          · exact pending topic i (hp' ▸ hp)
          · cases hp'.symm.trans hp
            exact subscribed queued
        case subscribe queued _ _ hp' _ =>
          cases hp'.symm.trans hp
          exact subscribed queued
      obtain ⟨c', h', ch⟩ := keep h
      exact ⟨c', h', ch.method.trans hm⟩
    case keys =>
      intro i c' topic h' hm
      rcases st.change r h' with ⟨c, h, ch⟩ | ⟨_, method, hact, rfl⟩
      · exact st.subscribers topic |>.mpr <| .inl <| keys i c topic h <| ch.method.symm.trans hm
      · exact st.subscribers topic |>.mpr <| .inr <| hact.trans <| congrArg _ hm

theorem Consistent.of_queued {cmd : Cmd} (con : m.Consistent) (queued : cmd ∈ m.commands.queue)
    (h : m.calls[cmd.resp]? = some c) : c.cmd cmd.resp = cmd := by
  have ⟨i, _, h', he⟩ := con.commands cmd queued
  have hi : i = cmd.resp := by rw [← he, MethodCall.cmd_resp]
  subst hi
  cases h.symm.trans h'
  exact he

-- What a call of `subscribe` is told.
theorem Replies.subscribe {result : Except RpcError Ack} (con : m.Consistent)
    (replies : Replies rumqttc m act i result) (h : m.calls[i]? = some c)
    (hm : c.method = .subscribe topic) :
    (∃ codes, act = .poll (.suback codes) ∧ m.pendingSubscribe = some (topic, i) ∧
      result = subackResult rumqttc topic codes) ∨
      ∃ resp, Refusal rumqttc (.subscribe topic resp) result := by
  cases replies
  case suback topic' action hp =>
    have ⟨_, h', hm'⟩ := con.pending topic' i hp
    cases h.symm.trans h'
    cases hm.symm.trans hm'
    exact .inl ⟨_, action, hp, rfl⟩
  case refused cmd queued resp refusal =>
    subst resp
    have he := con.of_queued queued h
    rw [MethodCall.cmd, hm] at he
    exact .inr ⟨cmd.resp, he ▸ refusal⟩
  case publish queued _ | close queued =>
    have he := con.of_queued queued h
    simp [MethodCall.cmd, hm] at he

-- A call of `subscribe` is confirmed only by the SUBACK that completes it.
theorem Step.confirmed (r : (machine rumqttc).Reachable m) (st : Step rumqttc m act m')
    (h' : m'.calls[i]? = some c') (hc : Confirmed c' topic) :
    (∃ c, m.calls[i]? = some c ∧ Confirmed c topic) ∨
      ∃ codes, act = .poll (.suback codes) ∧ m.pendingSubscribe = some (topic, i) := by
  rcases st.change r h' with ⟨c, h, ch⟩ | ⟨_, _, _, rfl⟩
  case inr => simp [Confirmed] at hc
  case inl =>
    cases ch
    case same    => exact .inl ⟨c', h, hc⟩
    case send => exact .inl ⟨c, h, hc.left, .inr <| by simpa using hc.right⟩
    case step st => exact .inl ⟨c, h, confirmed_of_step st hc⟩
    case reply result replies =>
      have ⟨hm, hr⟩ := hc
      rcases replies.subscribe (consistent r) h hm with ⟨codes, action, hp, _⟩ | ⟨_, refusal⟩
      · exact .inr ⟨codes, action, hp⟩
      · refine .inl ⟨c, h, hm, .inl ?_⟩
        cases refusal <;> simpa using hr

-- The actor stops only in `stop`.
theorem Step.stop (r : (machine rumqttc).Reachable m) (st : Step rumqttc m act m')
    (h : m'.phase = .stopped) :
    m.phase = .stopped ∨ (m'.responders = [] ∧ m'.commands.held = false) := by
  cases st
  case call | send | caller | pushTask | drop | transmit | ignored | error => exact .inl h
  case closed => exact .inr ⟨rfl, rfl⟩
  case suback codes eventLoop _ _ =>
    rcases handleSuback_cases rumqttc { m with eventLoop } codes with ⟨_, he⟩ | ⟨_, _, _, he⟩
    all_goals exact .inl <| by simpa [he] using h
  case connack topics selecting _ _ =>
    rcases selecting_connacked r selecting topics with ⟨_, he⟩ | ⟨_, awaited⟩
    · exact .inl <| by simpa [he] using h
    · generalize handleConnack rumqttc _ topics = m' at awaited h
      cases awaited
      case made      => exact .inl h
      case suspended => cases h
  case handle cmd commands selecting received =>
    have handled := selecting_handled r selecting commands cmd
    generalize MqttActor.handle rumqttc _ cmd = m' at handled h ⊢
    cases handled
    case refused => exact .inl h
    case publish awaited | subscribe awaited =>
      cases awaited
      case made      => exact .inl h
      case suspended => cases h
    case close awaited =>
      cases awaited
      case made      => exact .inr ⟨rfl, rfl⟩
      case suspended => cases h

theorem Step.dropped (st : Step rumqttc m act m') (h : m.phase = .stopped)
    (hr : m.responders = [] ∧ m.commands.held = false) :
    m'.responders = [] ∧ m'.commands.held = false := by
  cases st
  case call | caller | pushTask | drop => exact hr
  case send sent => simp [Mailbox.trySend_held sent] at hr
  all_goals simp [‹m.phase = .selecting›] at h

theorem Replies.mem_responders {result : Except RpcError Ack}
    (replies : Replies rumqttc m act i result) : i ∈ m.responders := by
  simp only [responders, List.mem_append, List.mem_map]
  cases replies
  case suback topic _ pending => exact .inl ⟨(topic, i), by simp [pending], rfl⟩
  case refused queued hr _ => exact .inr ⟨_, queued, hr⟩
  case publish queued _ | close queued => exact .inr ⟨_, queued, rfl⟩

-- All responders are dropped with the actor.
theorem dropped (r : (machine rumqttc).Reachable m) (h : m.phase = .stopped) :
    m.responders = [] ∧ m.commands.held = false := by
  induction m, r using Machine.Reachable.induction_on
  case init => simp [machine] at h
  case step m act m' r hn ih =>
    have st := next_step hn
    rcases st.stop r h with h | h
    · exact st.dropped h <| ih h
    · exact h

theorem owned (r : (machine rumqttc).Reachable m) : Owned m.calls m.responders := by
  induction m, r using Machine.Reachable.induction_on
  case init => constructor <;> simp [machine, responders]
  case step m act m' r hn ih =>
    refine (next_step hn).calls r |>.owned ih ?_ ?_ ?_
    · intro i hi stopped
      simp [(dropped r stopped).left] at hi
    · rintro c ⟨_, _, rfl⟩
      exact ⟨.inr <| .inl rfl, rfl⟩
    · exact fun i result replies => replies.mem_responders

end MomRpc.MqttActor
