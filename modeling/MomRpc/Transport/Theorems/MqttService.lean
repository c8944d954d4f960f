import MomRpc.Transport.Theorems.MqttCalls
import MomRpc.Transport.Theorems.Service
import MomRpc.Transport.Theorems.Wedge

namespace MomRpc.MqttActor

open RumqttcTransport

variable {rumqttc : Rumqttc} {m m' : MqttActor} {act : Action} {as : List Action} {i : ℕ}
  {c : MethodCall} {topic : String}

def service (rumqttc : Rumqttc) : Service MqttActor Action where
  machine   := machine rumqttc
  caller    := RumqttcTransport.caller
  calls     := MqttActor.calls
  stopped m := m.phase = .stopped
  gone m _  := m.phase = .stopped
  executes  := Executes rumqttc
  cancel    := .cancel

theorem patient (h : ∀ i, act ≠ .cancel i) : ∀ i, act ≠ (service rumqttc).cancel i :=
  h

section
variable {P : _ → Prop} (hn : (machine rumqttc).next m act = some m')
    (patient : ∀ i, act ≠ .cancel i)
include hn patient

theorem leads_step (h : (service rumqttc).Leads m' P) : (service rumqttc).Leads m P :=
  .step patient hn h

theorem leads_single (h : P m') : (service rumqttc).Leads m P :=
  .single patient hn h

theorem leads_set {c c' : MethodCall} (h : m.calls[i]? = some c)
    (calls : m'.calls = m.calls.set i c') :
    (service rumqttc).Leads m fun t => t.calls[i]? = some c' := by
  obtain ⟨hl, _⟩ := List.getElem?_eq_some_iff.mp h
  apply leads_single hn patient
  rw [calls, List.getElem?_set_self hl]

end

-- A subscribe becomes pending only by its execution.
theorem Step.pending (r : (machine rumqttc).Reachable m) (st : Step rumqttc m act m')
    (h : m'.pendingSubscribe = some (topic, i)) :
    m.pendingSubscribe = some (topic, i) ∨ Executes rumqttc m act i := by
  cases st
  case call | send | caller | pushTask | drop | transmit | ignored | error => exact .inl h
  case closed => cases h
  case suback codes eventLoop _ _ =>
    rcases handleSuback_cases rumqttc { m with eventLoop } codes with ⟨hp, he⟩ | ⟨_, _, _, he⟩
    · exact .inl <| by simpa [he] using h
    · simp [he] at h
  case connack topics selecting _ _ =>
    rcases selecting_connacked r selecting topics with ⟨_, he⟩ | ⟨_, awaited⟩
    · exact .inl <| by simpa [he] using h
    · generalize handleConnack rumqttc _ topics = m' at awaited h
      cases awaited <;> exact .inl h
  case handle cmd commands selecting received =>
    have handled := selecting_handled r selecting commands cmd
    generalize MqttActor.handle rumqttc _ cmd = m' at handled h
    cases handled
    case refused => exact .inl h
    case publish awaited => cases awaited <;> exact .inl h
    case close awaited =>
      cases awaited
      case made      => cases h
      case suspended => exact .inl h
    case subscribe demand _ _ awaited =>
      refine .inr ?_
      cases awaited <;> cases h <;> exact executes_handle received demand

theorem pending_executed (r : (machine rumqttc).Run as m)
    (h : m.pendingSubscribe = some (topic, i)) : (service rumqttc).Executed as i := by
  induction as, m, r using Machine.Run.induction_on
  case init => cases h
  case step as m act m' r hn ih =>
    rcases (next_step hn).pending r.reachable h with h | h
    · exact (ih h).concat
    · exact ⟨as, act, [], m, rfl, r, h⟩

-- An answer that lets a call succeed comes after the execution of its command.
theorem Replies.executed {result : Except RpcError Ack} (r : (machine rumqttc).Run as m)
    (replies : Replies rumqttc m act i result) (h : m.calls[i]? = some c) (hm : c.method ≠ .close)
    (hs : RumqttcTransport.caller.Succeeds c.method result) :
    (service rumqttc).Executed (as ++ [act]) i := by
  have con := consistent r.reachable
  obtain ⟨d, hd, hs⟩ := hs
  cases replies
  case suback pending => exact (pending_executed r pending).concat
  case publish executes => exact ⟨as, act, [], m, rfl, r, executes⟩
  case close queued =>
    have he := con.of_queued queued h
    simp only [MethodCall.cmd] at he
    split at he <;> cases he
    exact absurd ‹_› hm
  case refused cmd queued resp refusal =>
    subst resp
    have he := con.of_queued queued h
    cases refusal
    case pending =>
      obtain ⟨hm, _⟩ := MethodCall.cmd_subscribe he
      simp [RumqttcTransport.caller.receive_retry d _ (hd.trans hm)] at hs
    all_goals
      simp only [RumqttcTransport.caller, MethodCall.receive] at hs
      split at hs <;> simp_all

theorem lawful (rumqttc : Rumqttc) :
    (service rumqttc).Lawful (·.commands.held = false) responders Action.call? Begins
    (Replies rumqttc) where
  init                         := rfl
  step _ _ _ r hn              := (next_step hn).calls r
  begins _ _ b                 := by obtain ⟨_, _, rfl⟩ := b; exact ⟨.inr <| .inl rfl, rfl⟩
  owned _ r                    := owned r
  told _ _ _ _ _ replies       := replies.mem_responders
  success _ _ _ _ _ _ _ r _    := Replies.executed r
  stays _ _ _ h hn             := (next_step hn).stopped h
  dropped _ r h                := (dropped r h).left

theorem not_registering (r : (machine rumqttc).Reachable m) (h : m.calls[i]? = some c) :
    c.phase ≠ .registering := by
  induction m, r using Machine.Reachable.induction_on generalizing c
  case init => simp [machine] at h
  case step m act m' r hn ih =>
    rcases (next_step hn).change r h with ⟨c₀, h₀, ch⟩ | ⟨_, _, _, rfl⟩
    case inr => simp
    case inl =>
      cases ch
      case same    => exact ih h₀
      case send    => simp
      case step st => exact st.not_registering (ih h₀)
      case reply   => exact ih (c := c₀) h₀

theorem joins (rumqttc : Rumqttc) : (service rumqttc).Joins tasks .join := by
  intro m i c left done hs h hm hp hj
  have hs : m.phase = .stopped := hs
  have h : m.calls[i]? = some c := h
  let next := if done then { c with phase := .returned (.ok ()) } else c
  have hn : (machine rumqttc).next m (.join i) =
      some { m with tasks := left, calls := m.calls.set i next } := by
    simp [machine, MqttActor.next, join, h, hm, hp, hs, hj, next]
  exact ⟨_, hn, rfl, rfl⟩

theorem Handled.frame {cmd : Cmd} (h : Handled rumqttc m cmd m') :
    m'.tasks = m.tasks ∧ m'.held = m.held := by
  cases h
  case refused => exact ⟨rfl, rfl⟩
  case publish awaited | subscribe awaited | close awaited => cases awaited <;> exact ⟨rfl, rfl⟩

-- What the actor itself does concerns neither the list of tasks nor who holds the transport.
theorem Step.frame (r : (machine rumqttc).Reachable m) (st : Step rumqttc m act m')
    (own : act = .handle ∨ act = .closed ∨ ∃ event, act = .poll event) :
    m'.tasks = m.tasks ∧ m'.held = m.held := by
  cases st
  case handle cmd commands selecting received =>
    exact selecting_handled r selecting commands cmd |>.frame
  case connack topics selecting _ _ =>
    rcases selecting_connacked r selecting topics with ⟨_, he⟩ | ⟨_, awaited⟩
    · rw [he]
      exact ⟨rfl, rfl⟩
    · generalize handleConnack rumqttc _ topics = m' at awaited
      cases awaited <;> exact ⟨rfl, rfl⟩
  case suback codes eventLoop _ _ =>
    rcases handleSuback_cases rumqttc { m with eventLoop } codes with ⟨_, he⟩ | ⟨_, _, _, he⟩
    all_goals
      rw [he]
      exact ⟨rfl, rfl⟩
  case caller caller => rcases own with rfl | rfl | ⟨_, rfl⟩ <;> cases caller
  case call | send | pushTask | drop => simp at own
  all_goals exact ⟨rfl, rfl⟩

theorem awaited (r : (machine rumqttc).Reachable m) : m.tasks.Awaited m.calls := by
  induction m, r using Machine.Reachable.induction_on
  case init => nofun
  case step m act m' r hn ih =>
    have st := next_step hn
    have ch := st.calls r
    have frame := st.frame r
    cases st
    case caller handle _ list _ => exact ih.step handle list
    case pushTask => nofun
    case send handle sending _ =>
      exact ih.keep ch fun _ hi => ⟨_, Option.some.inj hi ▸ handle, by simp [sending]⟩
    case call | drop => exact ih.keep ch nofun
    all_goals
      rw [(frame <| by simp).left]
      exact ih.keep ch nofun

section Calls

variable (h : m.calls[i]? = some c)

include h

theorem leads_send (held : m.commands.held = false) (hp : c.phase = .sending) :
    (service rumqttc).Leads m fun t => t.calls[i]? = some c.closed := by
  have hn : (machine rumqttc).next m (.send i) =
      some { m with calls := m.calls.set i c.closed } := by
    simp [machine, next, send, h, hp, held]
  exact leads_set hn (by simp) h rfl

theorem leads_receive {reply : Except RpcError Ack} (hp : c.phase = .awaiting)
    (hr : c.reply = some reply) :
    (service rumqttc).Leads m fun t => t.calls[i]? = some (c.receive reply) := by
  have hn : (machine rumqttc).next m (.resume i) =
      some { m with calls := m.calls.set i (c.receive reply) } := by
    simp [machine, next, resume, h, hp, hr]
  exact leads_set hn (by simp) h rfl

theorem leads_disconnected (hs : m.phase = .stopped) (hc : c.Unanswered) :
    (service rumqttc).Leads m fun t => t.calls[i]? = some c.disconnected := by
  have hn : (machine rumqttc).next m (.resume i) =
      some { m with calls := m.calls.set i c.disconnected } := by
    simp [machine, next, resume, h, hc.left, hc.right, hs]
  exact leads_set hn (by simp) h rfl

theorem leads_retry (hp : c.phase = .delaying) :
    (service rumqttc).Leads m fun t => t.calls[i]? = some { c with phase := .sending } := by
  have hn : (machine rumqttc).next m (.retry i) =
      some { m with calls := m.calls.set i { c with phase := .sending } } := by
    simp [machine, next, retry, h, hp]
  exact leads_set hn (by simp) h rfl

end Calls

theorem returning (rumqttc : Rumqttc) : (service rumqttc).Returning where
  register _ _ _ r _ h hp      := absurd hp <| not_registering r h
  send _ _ _ r hs h hp         := leads_send h (dropped r hs).right hp
  receive _ _ _ _ _ _ h hp hr  := leads_receive h hp hr
  disconnected _ _ _ _ hs h hc := leads_disconnected h hs hc
  retry _ _ _ _ _ h hp         := leads_retry h hp
  join _ _ _ r hs h hm hp      :=
    Service.canReturn_join (joins rumqttc) (fun _ => patient nofun) hs h hm hp
      (lawful rumqttc).stays (awaited r)

section Stop

theorem commands_held (r : (machine rumqttc).Reachable m) (h : m.phase ≠ .stopped) :
    m.commands.held := by
  induction m, r using Machine.Reachable.induction_on
  case init => rfl
  case step m act m' r hn ih =>
    cases next_step hn
    case call | caller | pushTask | drop | transmit | ignored | error => exact ih h
    case closed => exact absurd rfl h
    case send sent => exact (Mailbox.trySend_held sent).right
    case suback codes eventLoop _ _ =>
      rcases handleSuback_cases rumqttc { m with eventLoop } codes with ⟨_, he⟩ | ⟨_, _, _, he⟩
      all_goals
        rw [he] at h ⊢
        exact ih h
    case connack topics selecting _ _ =>
      rcases selecting_connacked r selecting topics with ⟨_, he⟩ | ⟨_, awaited⟩
      · rw [he] at h ⊢
        exact ih h
      · generalize handleConnack rumqttc _ topics = m' at awaited
        cases awaited <;> exact ih (by simp [selecting])
    case handle cmd commands selecting received =>
      have held' := (Mailbox.recv_held received).right
      have handled := selecting_handled r selecting commands cmd
      generalize MqttActor.handle rumqttc _ cmd = m' at handled h
      cases handled
      case refused => exact held'
      case publish awaited | subscribe awaited => cases awaited <;> exact held'
      case close awaited =>
        cases awaited
        case made      => exact absurd rfl h
        case suspended => exact held'

-- The transport is held while a call is active.
theorem held_of_active (r : (machine rumqttc).Reachable m) (h : m.calls[i]? = some c)
    (active : c.active) : m.held := by
  induction m, r using Machine.Reachable.induction_on generalizing c
  case init => simp [machine] at h
  case step m act m' r hn ih =>
    have st := next_step hn
    have frame := st.frame r
    rcases st.change r h with ⟨c₀, h₀, ch⟩ | ⟨_, _, rfl, _⟩
    case inr =>
      cases st
      case call held _     => exact held
      case caller caller => cases caller
    case inl =>
      have held : m.held := by
        apply ih h₀
        cases ch
        case same | reply => exact active
        case send sending => simp [MethodCall.active, sending]
        case step st => exact st.active
      cases st
      case call | send | caller | pushTask => exact held
      case drop idle =>
        simp only [List.any_eq_true, not_exists, not_and] at idle
        exact absurd active <| idle c <| List.mem_of_getElem? h
      all_goals
        rw [(frame <| by simp).right]
        exact held

def Event.lost (m : MqttActor) : Event :=
  .error .io m.eventLoop.requests.queue.length []

-- An error of the connection makes room for requests.
def lost (m : MqttActor) : MqttActor :=
  { m with
    eventLoop := { requests := m.eventLoop.requests.drain m.eventLoop.requests.queue.length }
    reconnect := true
  }

theorem lost_next (hp : m.phase = .selecting) :
    (machine rumqttc).next m (.poll <| .lost m) = some m.lost := by
  simp [machine, next, step, hp, poll, Event.lost, EventLoop.lose, lost, isDisconnect]

theorem Awaited.made_of_room {reqs : List Request} {next : MqttActor → MqttActor}
    (aw : Awaited m reqs next m') (hr : m.eventLoop.requests.queue = [])
    (hl : reqs.length ≤ requestCapacity) :
    ∃ eventLoop, m' = next { m with eventLoop } := by
  cases aw
  case made => exact ⟨_, rfl⟩
  case suspended done req rest split made full =>
    refine absurd ?_ full
    simp only [split, List.length_append, List.length_cons] at hl
    simp only [Mailbox.HasRoom, made.queue, hr, List.nil_append]
    omega

theorem Handled.next {cmd : Cmd} (h : Handled rumqttc m cmd m')
    (hr : m.eventLoop.requests.queue = []) :
    m'.phase = .stopped ∨
      (cmd ≠ .close cmd.resp ∧ m'.phase = m.phase ∧ m'.held = m.held ∧
        m'.commands = m.commands) := by
  cases h
  case refused refusal => exact .inr ⟨by cases refusal <;> simp, rfl, rfl, rfl⟩
  case publish awaited =>
    obtain ⟨_, rfl⟩ := awaited.made_of_room hr (by simp [requestCapacity])
    exact .inr ⟨by simp, rfl, rfl, rfl⟩
  case subscribe awaited =>
    obtain ⟨_, rfl⟩ := awaited.made_of_room hr (by simp [requestCapacity])
    exact .inr ⟨by simp, rfl, rfl, rfl⟩
  case close awaited =>
    obtain ⟨_, rfl⟩ := awaited.made_of_room hr (by simp [requestCapacity])
    exact .inl rfl

-- After an error, the actor handles the next command at once.
theorem leads_handle {cmd : Cmd} {queue : List Cmd} (r : (machine rumqttc).Reachable m)
    (hp : m.phase = .selecting) (hq : m.commands.queue = cmd :: queue) :
    (service rumqttc).Leads m fun t => t.phase = .stopped ∨ (cmd ≠ .close cmd.resp ∧
      t.phase = .selecting ∧ t.held = m.held ∧ t.commands.queue = queue) := by
  have hn : (machine rumqttc).next m (.poll <| .lost m) = some m.lost := lost_next hp
  apply leads_step hn (by simp)
  replace r := r.next hn
  have hp : m.lost.phase = .selecting := hp
  have held := requests_held r (by simp [hp])
  obtain ⟨commands, received⟩ := Mailbox.recv_of_queue (commands_held r (by simp [hp])) hq
  have hn : (machine rumqttc).next m.lost .handle =
      some ({ m.lost with commands }.handle rumqttc cmd) := by
    simp [machine, next, step, hp, received]
  apply leads_single hn (by simp)
  have handled := handle_handled rumqttc (m := { m.lost with commands }) held cmd
  have hq' := (Mailbox.recv_iff.mp received).right.left
  rcases handled.next (by simp [lost, Mailbox.drain]) with h | ⟨hc, hp', hh, hcs⟩
  · exact .inl h
  · refine .inr ⟨hc, hp'.trans hp, hh, ?_⟩
    simpa [hcs] using (List.cons.inj <| hq'.symm.trans hq).right

theorem leads_emptied (r : (machine rumqttc).Reachable m) (hp : m.phase = .selecting)
    (held : m.held) : (service rumqttc).Leads m fun t =>
      t.phase = .stopped ∨ (t.phase = .selecting ∧ t.held ∧ t.commands.queue = []) := by
  generalize hq : m.commands.queue = queue
  induction queue generalizing m
  case nil => exact .here <| .inr ⟨hp, held, hq⟩
  case cons cmd queue ih =>
    refine Machine.Leads.trans r (leads_handle r hp hq) fun t rt ht => ?_
    rcases ht with hp | ⟨_, hp, hh, hq⟩
    · exact .here <| .inl hp
    · exact ih rt hp (hh.trans held) hq

theorem send_eq {commands : Mailbox Cmd commandCapacity} (h : m.calls[i]? = some c)
    (hp : c.phase = .sending) (sent : m.commands.trySend (c.cmd i) = some commands) :
    m.send i = some { m with commands, calls := m.calls.set i { c with phase := .awaiting } } := by
  simp [send, h, hp, (Mailbox.trySend_held sent).left, sent]

-- A call of `close` stops the actor.
theorem leads_stopped (r : (machine rumqttc).Reachable m) (hp : m.phase = .selecting)
    (held : m.held) : (service rumqttc).Leads m fun t => t.phase = .stopped := by
  refine Machine.Leads.trans r (leads_emptied r hp held) fun m r hm => ?_
  rcases hm with hp | ⟨hp, held, hq⟩
  case inl => exact .here hp
  case inr =>
    let i := m.calls.length
    let c : MethodCall := { method := .close }
    let m₁ := { m with calls := m.calls ++ [c] }
    have hn : (machine rumqttc).next m (.call .close) = some m₁ := by
      simp [machine, next, call, held, m₁, c]
    apply leads_step hn (by simp)
    replace r := r.next hn
    obtain ⟨commands, sent⟩ : ∃ commands, m₁.commands.trySend (.close i) = some commands :=
      Option.ne_none_iff_exists'.mp fun h => Mailbox.trySend_eq_none_iff.mp h
        (commands_held r (by simp [m₁, hp])) (by simp [Mailbox.HasRoom, m₁, hq, commandCapacity])
    have hq := (Mailbox.trySend_iff.mp sent).right.right.left.trans <| congrArg (· ++ _) hq
    let m₂ := { m₁ with commands, calls := m₁.calls.set i { c with phase := .awaiting } }
    have hn : (machine rumqttc).next m₁ (.send i) = some m₂ :=
      send_eq (c := c) (by simp [m₁, i]) rfl sent
    apply leads_step hn (by simp)
    refine Machine.Leads.mono (leads_handle (r.next hn) hp hq) fun t ht => ?_
    rcases ht with h | ⟨hc, _⟩
    · exact h
    · exact absurd rfl hc

end Stop

end MomRpc.MqttActor
