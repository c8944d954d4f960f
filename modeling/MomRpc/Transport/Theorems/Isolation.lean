import MomRpc.Transport.Theorems.Live
import MomRpc.Transport.Theorems.Turns

namespace MomRpc

namespace AmqpActor

open RumqttcTransport (MethodCall)

variable {amqp : Amqp} {m m' t : Actor (kind amqp)} {act : Actor.Action Event Outcome}
  {s s' : AmqpActor} {v w i k : ℕ} {c : Consumer} {env : Envelope} {lock : List Actor.Waiter}
  {P Q : Actor (kind amqp) → Prop}

-- The steps by which the callers, the actor and its tasks get done with what they have begun.
def Serving : Actor.Action Event Outcome → Prop
  | .register _ | .send _ | .resume _ | .handle | .execute _
  | .task (.lock _) | .task (.send _ _) | .task (.unlock _) => True
  | _ => False

theorem Flowing.serve (fl : Flowing m) (serving : Serving act)
    (hn : (Actor.machine (kind amqp)).next m act = some m') : Flowing m' := by
  refine fl.next ?_ hn
  simp only [Serving] at serving
  split at serving
  case h_9 => exact serving.elim
  all_goals exact trivial

-- Some continuation of what has been begun leads to a state with `P`.
def Serves (m : Actor (kind amqp)) (P : Actor (kind amqp) → Prop) : Prop :=
  (Actor.machine (kind amqp)).Leads Serving m P

theorem Serves.trans (fl : Flowing m) (h : Serves m P) (k : ∀ t, Flowing t → P t → Serves t Q) :
    Serves m Q :=
  Machine.Leads.trans_of (fun _ _ _ serving fl => Flowing.serve fl serving) fl h k

theorem set_set {c' : Consumer} : (s.set w c).set w c' = s.set w c' := by
  simp [set]

-- A task that has got the lock sends to all inboxes and releases it.
theorem serves_sent {senders : List ℕ} (fl : Flowing m) (h : m.state.consumers[w]? = some c)
    (hp : c.phase = .sending env senders) :
    Serves m fun t => ∃ subscribers,
      t = { m with state := m.state.set w { c with phase := .waiting }, subscribers } ∧
      m.subscribers.Grown subscribers ∧
      ∀ j ∈ senders, ∃ more, env ∈ more ∧ m.subscribers.Receives subscribers j more := by
  have running := not_stopped fl.reachable h <| by simp [hp]
  induction senders generalizing m c
  case nil =>
    have hn : (Actor.machine (kind amqp)).next m (.task (.unlock w)) =
        some { m with state := m.state.set w { c with phase := .waiting } } := by
      simp [task_eq running, task, unlock, h, hp]
    exact .single (a := .task (.unlock w)) (by trivial) hn ⟨_, rfl, .refl _, by simp⟩
  case cons j senders ih =>
    let next : Consumer := { c with phase := .sending env senders }
    obtain ⟨hl, _⟩ := List.getElem?_eq_some_iff.mp h
    have due : j ∈ c.owes m.subscribers := by simp [Consumer.owes, hp]
    obtain ⟨handle, hh, _⟩ := (addressed fl.reachable).senders w c h |>.hasTopic j due
    -- Whether or not somebody holds the inbox, the send does not wait.
    obtain ⟨subscribers, hn, grown, sent⟩ : ∃ subscribers,
        (Actor.machine (kind amqp)).next m (.task (.send w j)) =
          some { m with state := m.state.set w next, subscribers } ∧
        m.subscribers.Grown subscribers ∧ m.subscribers.Receives subscribers j [env] := by
      cases held : handle.inbox.held
      case false =>
        refine ⟨m.subscribers, ?_, .refl _, fun h' hh' held' => ?_⟩
        · simp [task_eq running, task, AmqpActor.send, h, hp, hh, held, next]
        · cases hh.symm.trans hh'
          simp [held] at held'
      case true =>
        have room := fl.roomy w c h j due handle hh held
        cases sent : handle.inbox.trySend env
        case none => exact absurd room <| Mailbox.trySend_eq_none_iff.mp sent held
        case some inbox =>
          refine ⟨_, ?_, .send hh sent, Fanout.receives_send hh sent⟩
          simp [task_eq running, task, AmqpActor.send, h, hp, hh, held, sent, next]
    refine .step (a := .task (.send w j)) (by trivial) hn ?_
    refine Machine.Leads.mono (ih (fl.serve (by trivial) hn) (c := next) ?_ rfl running) ?_
    · exact List.getElem?_set_self hl
    · rintro t ⟨subscribers', rfl, grown', sent'⟩
      refine ⟨subscribers', by rw [set_set], grown.trans grown', fun k hk => ?_⟩
      rcases List.mem_cons.mp hk with rfl | hk
      · obtain ⟨more, r⟩ := grown'.inboxes k
        exact ⟨_, by simp, sent.trans r⟩
      · obtain ⟨more, r⟩ := grown.inboxes k
        obtain ⟨more', he, r'⟩ := sent' k hk
        exact ⟨_, List.mem_append_right _ he, r.trans r'⟩

-- What the tasks and the calls that have had their turn leave to those behind them in the queue.
structure Passed (m t : Actor (kind amqp)) : Prop where
  grown   : m.subscribers.Grown t.subscribers
  queue   : t.lock <:+ m.lock
  waiting : ∀ w, .task w ∈ t.lock → t.state.consumers[w]? = m.state.consumers[w]?

theorem Passed.refl (m : Actor (kind amqp)) : Passed m m :=
  ⟨.refl _, List.suffix_rfl, fun _ _ => rfl⟩

theorem Passed.trans {u : Actor (kind amqp)} (p : Passed m t) (p' : Passed t u) : Passed m u where
  grown        := p.grown.trans p'.grown
  queue        := p'.queue.trans p.queue
  waiting w hw := (p'.waiting w hw).trans <| p.waiting w <| p'.queue.subset hw

theorem Serves.passed (fl : Flowing m) (h : Serves m fun t => P t ∧ Passed m t)
    (k : ∀ t, Flowing t → P t → Serves t fun u => Q u ∧ Passed t u) :
    Serves m fun u => Q u ∧ Passed m u :=
  h.trans fl fun t fl ⟨hp, passed⟩ => (k t fl hp).mono fun _ ⟨hq, passed'⟩ =>
    ⟨hq, passed.trans passed'⟩

-- All tasks that have got the lock release it.
theorem serves_free (fl : Flowing m) :
    Serves m fun t => ((kind amqp).free t.state ∧ t.lock = m.lock) ∧ Passed m t := by
  induction hn : m.state.consumers.countP (isSending ·.phase) generalizing m
  case zero =>
    refine .here ⟨⟨?_, rfl⟩, .refl m⟩
    simpa [kind, List.countP_eq_zero] using hn
  case succ n ih =>
    have pos : 0 < m.state.consumers.countP (isSending ·.phase) := by omega
    obtain ⟨c, hc, sending⟩ := List.countP_pos_iff.mp pos
    obtain ⟨w, h⟩ := List.mem_iff_getElem?.mp hc
    cases hp : c.phase <;> simp only [hp, isSending, Bool.false_eq_true] at sending
    case sending env senders =>
      refine (serves_sent fl h hp).trans fl fun t fl' sent => ?_
      obtain ⟨subscribers, ht, grown, _⟩ := sent
      have passed : Passed m t := by
        subst ht
        refine ⟨grown, List.suffix_rfl, fun v hv => ?_⟩
        obtain ⟨d, _, hd, locking⟩ := locking_of_mem fl.reachable hv
        refine List.getElem?_set_ne ?_
        rintro rfl
        cases h.symm.trans hd
        simp [hp] at locking
      obtain ⟨hl, eq⟩ := List.getElem?_eq_some_iff.mp h
      have fewer : t.state.consumers.countP (isSending ·.phase) = n := by
        subst ht
        rw [set_consumers, List.countP_set hl, hn]
        simp [eq, hp, isSending]
      refine (ih fl' fewer).mono fun u hu => ?_
      obtain ⟨⟨free, lock⟩, passed'⟩ := hu
      exact ⟨⟨free, lock.trans <| by rw [ht]⟩, passed.trans passed'⟩

theorem registered_step (r : (Actor.machine (kind amqp)).Reachable m) {rest : List Actor.Waiter}
    (free : (kind amqp).free m.state) (turn : m.lock = .call i :: rest) :
    ∃ t, (Actor.machine (kind amqp)).next m (.register i) = some t ∧ t.lock = rest ∧ Passed m t ∧
      ∃ (c : MethodCall) (topic : String), c.method = .subscribe topic ∧
        t.calls[i]? = some { c with phase := .sending } := by
  have hw : i ∈ m.waiters := by simp [Actor.waiters, turn, Actor.Waiter.call?]
  obtain ⟨c, topic, h, hm, hp⟩ := (Actor.waiters_iff r).right i |>.mp hw
  obtain ⟨hl, _⟩ := List.getElem?_eq_some_iff.mp h
  refine ⟨_, Actor.register_eq h hm hp turn free, rfl, ?_, c, topic, hm, List.getElem?_set_self hl⟩
  exact ⟨.subscribe, turn ▸ List.suffix_cons .., fun _ _ => rfl⟩

theorem locked_step (r : (Actor.machine (kind amqp)).Reachable m) {rest : List Actor.Waiter}
    (turn : m.lock = .task w :: rest) :
    ∃ t, (Actor.machine (kind amqp)).next m (.task (.lock w)) = some t ∧ t.lock = rest ∧
      Passed m t ∧ ∃ (c : Consumer) (env : Envelope), m.state.consumers[w]? = some c ∧
        c.phase = .locking env ∧ t.subscribers = m.subscribers ∧
        t.state.consumers[w]? = some { c with phase := .sending env (c.owes m.subscribers) } := by
  have ⟨c, env, h, hp⟩ := locking_of_mem r <| turn ▸ List.mem_cons_self ..
  have running := not_stopped r h <| by simp [hp]
  have ⟨hl, _⟩ := List.getElem?_eq_some_iff.mp h
  have once : .task w ∉ rest := by
    have count := queued r w
    rw [turn, locks_eq h, hp] at count
    simpa [isLocking, List.count_eq_zero] using count
  have hn : (Actor.machine (kind amqp)).next m (.task (.lock w)) = some { m with
      state := m.state.set w { c with phase := .sending env (c.owes m.subscribers) }
      lock  := rest
    } := by
    simp [task_eq running, task, AmqpActor.lock, h, hp, turn, Consumer.owes]
  refine ⟨_, hn, rfl, ⟨.refl _, turn ▸ List.suffix_cons .., fun v hv => ?_⟩, c, env, h, hp, rfl, ?_⟩
  · refine List.getElem?_set_ne ?_
    rintro rfl
    exact once hv
  · exact List.getElem?_set_self hl

-- Whoever waits for the lock gets its turn, since those before it get and release it one after the
-- other.
theorem serves_turn {before rest : List Actor.Waiter} {x : Actor.Waiter} (fl : Flowing m)
    (hl : m.lock = before ++ x :: rest) :
    Serves m fun t => ((kind amqp).free t.state ∧ t.lock = x :: rest) ∧ Passed m t := by
  induction before generalizing m
  case nil =>
    exact (serves_free fl).mono fun t ⟨⟨free, lock⟩, passed⟩ => ⟨⟨free, lock.trans hl⟩, passed⟩
  case cons y before ih =>
    refine (serves_free fl).passed fl fun t fl ⟨free, lock⟩ => ?_
    have turn : t.lock = y :: (before ++ x :: rest) := lock.trans hl
    have after {act : Actor.Action Event Outcome} {u : Actor (kind amqp)} (serving : Serving act)
        (hn : (Actor.machine (kind amqp)).next t act = some u) (hl : u.lock = before ++ x :: rest)
        (passed : Passed t u) : Serves t fun u =>
          ((kind amqp).free u.state ∧ u.lock = x :: rest) ∧ Passed t u := by
      refine .step serving hn <| Machine.Leads.mono (ih (fl.serve serving hn) hl) ?_
      exact fun _ ⟨h, passed'⟩ => ⟨h, passed.trans passed'⟩
    cases y
    case call i =>
      have ⟨u, hn, hl, passed, _⟩ := registered_step fl.reachable free turn
      exact after (by trivial) hn hl passed
    case task w =>
      have ⟨u, hn, hl, passed, _⟩ := locked_step fl.reachable turn
      exact after (by trivial) hn hl passed

-- What the task has in hand.
def env? : Consumer.Phase → Option Envelope
  | .locking env | .sending env _ => some env
  | _                             => none

-- The task gets done with what it has been given, which comes to each inbox that it owes it to.
def FansOut (m : Actor (kind amqp)) (w : ℕ) (c : Consumer) (env : Envelope)
    (t : Actor (kind amqp)) : Prop :=
  (∃ d, t.state.consumers[w]? = some d ∧ d.phase = .waiting) ∧
    ∀ j ∈ c.owes m.subscribers, ∃ more, env ∈ more ∧ m.subscribers.Receives t.subscribers j more

theorem serves_fansOut_of_sending {senders : List ℕ} (fl : Flowing m)
    (h : m.state.consumers[w]? = some c) (hp : c.phase = .sending env senders) :
    Serves m (FansOut m w c env) := by
  apply Machine.Leads.mono (serves_sent fl h hp)
  rintro t ⟨subscribers, rfl, _, sent⟩
  have ⟨hl, _⟩ := List.getElem?_eq_some_iff.mp h
  exact ⟨⟨_, List.getElem?_set_self hl, rfl⟩, fun j hj => sent j <| owes_of_sending hp ▸ hj⟩

theorem serves_fansOut (fl : Flowing m) (h : m.state.consumers[w]? = some c)
    (hp : env? c.phase = some env) : Serves m (FansOut m w c env) := by
  cases phase : c.phase <;> simp only [phase, env?, reduceCtorEq, Option.some.injEq] at hp
  case sending senders =>
    subst hp
    exact serves_fansOut_of_sending fl h phase
  case locking =>
    subst hp
    obtain ⟨before, rest, hl⟩ := List.append_of_mem <| mem_of_locking fl.reachable h phase
    refine (serves_turn fl hl).trans fl fun t fl ⟨⟨_, turn⟩, passed⟩ => ?_
    have ⟨u, hn, _, _, d, env', hd, locking, same, hu⟩ := locked_step fl.reachable turn
    cases h.symm.trans <| (passed.waiting w <| turn ▸ List.mem_cons_self ..).symm.trans hd
    cases phase.symm.trans locking
    have serving : Serving (.task (.lock w)) := trivial
    refine .step serving hn ?_
    refine Machine.Leads.mono (serves_fansOut_of_sending (fl.serve serving hn) hu rfl) ?_
    intro _ ⟨waiting, sent⟩
    refine ⟨waiting, fun j hj => ?_⟩
    -- The map has only grown since.
    rw [owes_of_locking phase] at hj
    have ⟨_, r⟩ := passed.grown.inboxes j
    have ⟨more, he, r'⟩ := sent j <| owes_of_locking phase ▸ passed.grown.map _ j hj
    exact ⟨_, List.mem_append_right _ he, r.trans <| same ▸ r'⟩

section Calls

variable {d : MethodCall} {topic : String}

-- The actor does not leave its loop before it has handled the last command.
theorem queue_of_finishing (r : (Actor.machine (kind amqp)).Reachable m)
    (h : m.phase = .finishing) : m.commands.queue = [] ∧ (m.closing ∨ m.held = false) := by
  induction m, r using Machine.Reachable.induction_on
  case init => cases h
  case step m act m' r hn ih =>
    cases Actor.next_step hn <;> try exact ih h
    case send handle sending opened _ =>
      have held := Actor.held_of_active r handle <| by simp [MethodCall.active, sending]
      rcases (ih h).right with closing | dropped
      · exact absurd closing opened
      · simp [held] at dropped
    case drop => exact ⟨(ih h).left, .inr rfl⟩
    case ended empty done => exact ⟨empty, done⟩
    case leave breaks _ => cases breaks
    case drain receiving _ _ => exact absurd (receiving.symm.trans h) (by simp)
    case defer receiving _ _ _ => exact absurd (receiving.symm.trans h) (by simp)
    all_goals cases h

-- The actor puts no command off.
theorem never_retries (r : (Actor.machine (kind amqp)).Reachable m) (h : m.calls[i]? = some d) :
    d.reply ≠ some (.ok .retry) ∧ d.phase ≠ .delaying := by
  induction m, r using Machine.Reachable.induction_on generalizing d
  case init => simp [Actor.machine] at h
  case step m act m' r hn ih =>
    rcases (Actor.next_step hn).change h with ⟨d₀, h₀, ch⟩ | ⟨_, begun⟩
    case inr => cases begun <;> simp
    case inl =>
      obtain ⟨unretried, undelayed⟩ := ih h₀
      cases ch
      case same => exact ⟨unretried, undelayed⟩
      case send => exact ⟨unretried, by simp⟩
      case reply result told =>
        refine ⟨?_, undelayed⟩
        cases told
        case close => simp
        case defer deferred => cases deferred
        case execute result _ _ _ _ => cases result <;> simp [Except.map]
      case step step =>
        cases step
        case register | retry | joined | cancel => exact ⟨unretried, by simp⟩
        case await => exact ⟨unretried, undelayed⟩
        case closed =>
          rcases (kind amqp).caller.closed_cases d₀ with ⟨_, _, he⟩ | ⟨_, he⟩
          all_goals exact he ▸ ⟨unretried, by simp⟩
        case disconnected =>
          rcases (kind amqp).caller.disconnected_cases d₀ with ⟨_, _, he⟩ | ⟨_, he⟩
          all_goals exact he ▸ ⟨unretried, by simp⟩
        case receive reply _ answered =>
          rcases (kind amqp).caller.receive_cases d₀ reply with ⟨_, _, he⟩ | ⟨_, rfl, _⟩ | ⟨_, he⟩
          · exact he ▸ ⟨unretried, by simp⟩
          · exact absurd answered unretried
          · exact he ▸ ⟨unretried, by simp⟩

-- What is left for the actor: to take each command out of its channel and to execute it.
def backlog (m : Actor (kind amqp)) : ℕ :=
  match m.phase with
  | .handling _ => 2 * m.pending.length
  | _           => 2 * m.pending.length + 1

theorem backlog_le : backlog m ≤ 2 * m.pending.length + 1 := by
  simp only [backlog]
  split
  · exact Nat.le_succ _
  · exact Nat.le_refl _

theorem handled_step (r : (Actor.machine (kind amqp)).Reachable m) (h : m.pending ≠ []) :
    ∃ act t, Serving act ∧ act.call? = none ∧ (Actor.machine (kind amqp)).next m act = some t ∧
      backlog t < backlog m := by
  cases hp : m.phase
  case stopped   => exact absurd (Actor.stopped r hp).pending h
  case finishing =>
    refine absurd ?_ h
    rw [Actor.pending_of_other (by simp [hp]), (queue_of_finishing r hp).left]
  case handling cmd =>
    have ⟨outcome, t, hn, he⟩ := Actor.execute_pending (live amqp) (Actor.consistent r) hp
    refine ⟨.execute outcome, t, trivial, rfl, hn, Nat.lt_of_le_of_lt backlog_le ?_⟩
    simp [backlog, he, hp]
    omega
  case receiving =>
    have held := Actor.commands_held r (by simp [hp])
    have ⟨cmd, queue, hq⟩ := List.exists_cons_of_ne_nil <| Actor.pending_of_receiving hp ▸ h
    have ⟨commands, received⟩ := Mailbox.recv_of_queue held hq
    obtain ⟨t, hn⟩ : ∃ t, (Actor.machine (kind amqp)).next m .handle = some t := by
      simpa [Actor.machine, Actor.next, Actor.handle, hp, kind] using ⟨cmd, commands, received⟩
    refine ⟨.handle, t, trivial, rfl, hn, ?_⟩
    rcases (Actor.next_step hn).handled with ⟨_, he⟩ | ⟨cmd, handling, he⟩
    · apply Nat.lt_of_le_of_lt backlog_le
      simp [backlog, he, hp]
    · simp [backlog, he, hp, handling]

-- The actor gets to all commands. Only the answers to them become of the calls.
theorem serves_drained (fl : Flowing m) (h : m.calls[i]? = some d) :
    Serves m fun t => t.pending = [] ∧
      ∃ d', t.calls[i]? = some d' ∧ d'.phase = d.phase ∧ d'.method = d.method := by
  induction hn : backlog m using Nat.strongRecOn generalizing m d
  case ind n ih =>
    by_cases hp : m.pending = []
    case pos => exact .here ⟨hp, d, h, rfl, rfl⟩
    case neg =>
      have ⟨act, t, serving, other, hs, lt⟩ := handled_step fl.reachable hp
      obtain ⟨d', h', phase, method⟩ :
          ∃ d', t.calls[i]? = some d' ∧ d'.phase = d.phase ∧ d'.method = d.method := by
        have ⟨d', h', ch⟩ := (Actor.next_step hs).change_of_call h
        refine ⟨d', h', ?_, ch.method⟩
        cases ch
        case same | reply => rfl
        case send mine _ | step mine _ => exact absurd (other.symm.trans mine) nofun
      refine .step serving hs ?_
      refine Machine.Leads.mono (ih _ (hn ▸ lt) (fl.serve serving hs) h' rfl) ?_
      rintro u ⟨hp, d'', h'', phase', method'⟩
      exact ⟨hp, d'', h'', phase'.trans phase, method'.trans method⟩

def Returned (i : ℕ) (t : Actor (kind amqp)) : Prop :=
  ∃ (d : MethodCall) (result : _), t.calls[i]? = some d ∧ d.phase = .returned result

-- A call whose command the actor does not have anymore returns.
theorem serves_resumed (fl : Flowing m) (h : m.calls[i]? = some d)
    (method : d.method = .subscribe topic) (hp : d.phase = .awaiting) (gone : i ∉ m.responders) :
    Serves m (Returned i) := by
  obtain ⟨hl, _⟩ := List.getElem?_eq_some_iff.mp h
  have open' : d.method ≠ .close := by simp [method]
  cases hr : d.reply
  case none =>
    have hn : (Actor.machine (kind amqp)).next m (.resume i) =
        some (m.conclude i ((kind amqp).caller.disconnected d)) := by
      simp [Actor.machine, Actor.next, Actor.resume, h, hp, hr, gone]
    obtain ⟨_, he⟩ := (kind amqp).caller.disconnected_fails d open'
    exact .single (a := .resume i) (by trivial) hn
      ⟨_, _, List.getElem?_set_self hl, congrArg MethodCall.phase he⟩
  case some reply =>
    have hn : (Actor.machine (kind amqp)).next m (.resume i) =
        some (m.conclude i ((kind amqp).caller.receive d reply)) := by
      simp [Actor.machine, Actor.next, Actor.resume, h, hp, hr]
    rcases (kind amqp).caller.receive_returns d reply open' with ⟨_, he⟩ | ⟨rfl, _⟩
    · exact .single (a := .resume i) (by trivial) hn
        ⟨_, _, List.getElem?_set_self hl, congrArg MethodCall.phase he⟩
    · exact absurd hr (never_retries fl.reachable h).left

theorem serves_awaiting (fl : Flowing m) (h : m.calls[i]? = some d)
    (method : d.method = .subscribe topic) (hp : d.phase = .awaiting) : Serves m (Returned i) := by
  refine (serves_drained fl h).trans fl fun t fl ⟨drained, d', h', phase, method'⟩ => ?_
  exact serves_resumed fl h' (method'.trans method) (phase.trans hp) <| by
    simp [Actor.responders, drained]

theorem serves_sending (fl : Flowing m) (h : m.calls[i]? = some d)
    (method : d.method = .subscribe topic) (hp : d.phase = .sending) : Serves m (Returned i) := by
  -- An actor that is still there makes room for the command.
  refine (serves_drained fl h).trans fl fun t fl ht => ?_
  obtain ⟨drained, d', h', phase, method'⟩ := ht
  replace hp := phase.trans hp
  replace method := method'.trans method
  obtain ⟨hl, _⟩ := List.getElem?_eq_some_iff.mp h'
  by_cases opened : t.commands.held ∧ ¬t.closing
  case neg =>
    have hn : (Actor.machine (kind amqp)).next t (.send i) =
        some (t.conclude i ((kind amqp).caller.closed d')) := by
      simp only [Actor.machine, Actor.next, Actor.send, h', hp, if_neg opened]
    obtain ⟨_, he⟩ := (kind amqp).caller.closed_fails d' (by simp [method])
    exact .single (a := .send i) (by trivial) hn
      ⟨_, _, List.getElem?_set_self hl, congrArg MethodCall.phase he⟩
  case pos =>
    have queue : t.commands.queue = [] := by
      have := drained
      simp only [Actor.pending] at this
      split at this
      · cases this
      · exact this
    have room : t.commands.HasRoom := by simp [Mailbox.HasRoom, queue, kind]
    cases sent : t.commands.trySend (d'.cmd i)
    case none => exact absurd room <| Mailbox.trySend_eq_none_iff.mp sent opened.left
    case some commands =>
      have hn : (Actor.machine (kind amqp)).next t (.send i) =
          some { t with commands, calls := t.calls.set i { d' with phase := .awaiting } } := by
        simp [Actor.machine, Actor.next, Actor.send, h', hp, opened, sent]
      refine .step (a := .send i) (by trivial) hn ?_
      exact serves_awaiting (fl.serve (by trivial) hn) (List.getElem?_set_self hl) method rfl

theorem serves_registering (fl : Flowing m) (h : m.Registering i) : Serves m (Returned i) := by
  have hw := (Actor.waiters_iff fl.reachable).right i |>.mpr h
  obtain ⟨x, hx, call⟩ := List.mem_filterMap.mp hw
  obtain rfl : x = .call i := by cases x <;> cases call; rfl
  obtain ⟨before, rest, hl⟩ := List.append_of_mem hx
  refine (serves_turn fl hl).trans fl fun t fl ⟨⟨free, turn⟩, _⟩ => ?_
  have ⟨u, hn, _, _, d, topic, method, hu⟩ := registered_step fl.reachable free turn
  have serving : Serving (.register i) := trivial
  exact .step serving hn <| serves_sending (fl.serve serving hn) hu method rfl

theorem serves_returned (fl : Flowing m) (h : m.calls[i]? = some d)
    (method : d.method = .subscribe topic) (active : d.active) : Serves m (Returned i) := by
  cases hp : d.phase <;> simp [MethodCall.active, hp] at active
  case registering => exact serves_registering fl ⟨d, topic, h, method, hp⟩
  case sending     => exact serves_sending fl h method hp
  case awaiting    => exact serves_awaiting fl h method hp
  case delaying    => exact absurd hp (never_retries fl.reachable h).right
  case joining     =>
    have close := (Actor.lawful (kind amqp)).joining_close fl.reachable h hp
    cases close.symm.trans method

end Calls

-- The subscription to the queue has been returned by its call and is held, but its inbox is full.
structure Stalled (m : Actor (kind amqp)) (queue : String) (k : ℕ) : Prop where
  inbox    : ∃ h ∈ m.subscribers.handles[k]?, h.subscription = ⟨queue⟩ ∧ h.inbox.held ∧
    ¬h.inbox.HasRoom
  returned : ∃ (i : ℕ) (d : MethodCall), m.owners[k]? = some i ∧ m.calls[i]? = some d ∧
    d.phase = .returned (.ok ())

-- Whatever happens, nobody touches the inbox, gives up a call or ends the actor.
def Avoids (k : ℕ) : Actor.Action Event Outcome → Prop
  | .recv j | .dropInbox j => j ≠ k
  | .cancel _ | .finish    => False
  | _                      => True

-- What does not need the reader of the inbox, which belongs to a subscription to the queue.
structure Isolated (m : Actor (kind amqp)) (queue : String) (k : ℕ) : Prop where
  fansOut    : ∀ (w : ℕ) (c : Consumer) (env : Envelope), m.state.consumers[w]? = some c →
    c.queue ≠ queue → env? c.phase = some env →
    (Actor.machine (kind amqp)).Leads (Avoids k) m (FansOut m w c env)
  subscribes : ∀ (i : ℕ) (d : MethodCall) (topic : String), m.calls[i]? = some d →
    d.method = .subscribe topic → d.active →
    (Actor.machine (kind amqp)).Leads (Avoids k) m (Returned i)

def Isolates (m : Actor (kind amqp)) : Prop :=
  ∀ queue k, Stalled m queue k → Isolated m queue k

theorem Serving.avoids (serving : Serving act) : Avoids k act := by
  simp only [Serving] at serving
  split at serving
  case h_9 => exact serving.elim
  all_goals exact trivial

theorem Flowing.isolated (fl : Flowing m) {queue : String} : Isolated m queue k where
  fansOut _ _ _ h _ hp             := (serves_fansOut fl h hp).weaken fun _ => Serving.avoids
  subscribes _ _ _ h method active :=
    (serves_returned fl h method active).weaken fun _ => Serving.avoids

-- No task takes a delivery that it cannot hand on, so no full inbox stands in anybody's way.
theorem queues_are_isolated (amqp : Amqp) (as : List (Actor.Action Event Outcome))
    (keeps : (Actor.machine (kind amqp)).Throughout as KeepsRoom) :
    (Actor.machine (kind amqp)).Always as Isolates := by
  have roomy : (Actor.machine (kind amqp)).Always as fun m => Roomy m.state m.subscribers := by
    refine Machine.always_of_throughout keeps ?_ fun m act m' r h keeps hn => ?_
    · simp [Roomy, Actor.machine, kind]
    · exact Flowing.next ⟨r, h⟩ keeps hn |>.roomy
  exact fun xs ys m he r _ _ _ => Flowing.isolated ⟨r.reachable, roomy xs ys m he r⟩

def loneDecoder : Amqp :=
  { loneAmqp with fromSlice := fun _ => some MqttActor.loneEnvelope }

-- A delivery that goes to a single inbox.
def loneDelivery (w k : ℕ) : List (Actor.Action Event Outcome) :=
  [.task (.deliver w [] true), .task (.lock w), .task (.send w k), .task (.unlock w)]

-- The subscription to "a" is never read, and its inbox is full.
def loneFull : List (Actor.Action Event Outcome) :=
  loneSubscribe 0 "a" (.ok ()) ++ .resume 0 :: (List.replicate 16 (loneDelivery 0 0)).flatten ++
    .task (.cancelled 0) :: loneSubscribe 1 "b" (.ok ()) ++ [.resume 1]

-- Neither a call for "c" nor a delivery from "b" needs its reader.
def loneTraffic : List (Actor.Action Event Outcome) :=
  loneFull ++ [.call (.subscribe "c"), .task (.deliver 1 [] true)]

theorem queues_are_isolated_lone :
    ∃ m, (Actor.machine (kind loneDecoder)).Run loneTraffic m ∧ Stalled m "a" 0 ∧
      Isolated m "a" 0 := by
  obtain ⟨m, run, stalled⟩ :
      ∃ m, (Actor.machine (kind loneDecoder)).Run loneTraffic m ∧ Stalled m "a" 0 :=
    ⟨_, .of_isSome rfl, ⟨_, rfl, rfl, rfl, by decide⟩, 0, _, rfl, rfl, rfl⟩
  have keeps : (Actor.machine (kind loneDecoder)).Throughout loneTraffic KeepsRoom :=
    Machine.throughout_of_meets <| by decide +kernel
  exact ⟨m, run, stalled, queues_are_isolated _ _ keeps _ [] m (by simp) run "a" 0 stalled⟩

-- One task has the lock and sends to a full inbox, a call waits for the lock, and another task
-- waits behind it.
structure Jam (m : Actor (kind amqp)) (v w i k : ℕ) : Prop where
  sending : ∃ env rest, m.state.consumers[v]?.map Consumer.phase = some (.sending env (k :: rest))
  locking : ∃ env, m.state.consumers[w]?.map Consumer.phase = some (.locking env)
  turn    : ∃ rest, m.lock = .call i :: rest
  stalled : ∃ queue, Stalled m queue k

theorem Executed.phase {cmd : Cmd} {result : Except RpcError Unit}
    (executed : Executed amqp s cmd s' result) {phase : Consumer.Phase}
    (h : s.consumers[v]?.map Consumer.phase = some phase) :
    s'.consumers[v]?.map Consumer.phase = some phase := by
  cases executed
  case publish | undeclared | known | refused => exact h
  case closed => simpa [closeChannel, Function.comp_def] using h
  case consumed =>
    obtain ⟨c, hc, _⟩ := Option.map_eq_some_iff.mp h
    obtain ⟨hl, _⟩ := List.getElem?_eq_some_iff.mp hc
    rwa [List.getElem?_append_left hl]

-- A task that neither awaits a delivery nor can go on stays where it is.
theorem Worked.phase {event : Event} {f f' : Fanout Empty} {lock' : List Actor.Waiter}
    (worked : Worked amqp s f lock event s' f' lock') {phase : Consumer.Phase}
    (h : s.consumers[v]?.map Consumer.phase = some phase) (busy : phase ≠ .waiting)
    (locking : ∀ env, phase = .locking env → lock.head? ≠ some (.task v))
    (sending : ∀ env senders, phase = .sending env senders → ∃ k ∈ senders.head?,
      ∃ h ∈ f.handles[k]?, h.inbox.held ∧ ¬h.inbox.HasRoom) :
    s'.consumers[v]?.map Consumer.phase = some phase := by
  have set {u : ℕ} {c : Consumer} (c' : Consumer) (consumer : s.consumers[u]? = some c)
      (same : u = v → c.phase = phase → c'.phase = phase) :
      (s.set u c').consumers[v]?.map Consumer.phase = some phase := by
    by_cases hu : u = v
    case neg => simpa [List.getElem?_set_ne hu] using h
    case pos =>
      subst hu
      have ⟨hl, _⟩ := List.getElem?_eq_some_iff.mp consumer
      rw [consumer] at h
      simpa [hl] using same rfl <| Option.some.inj h
  cases worked
  case skip => exact h
  case closed => simpa [closeChannel, Function.comp_def] using h
  case cancelled consumer => exact set _ consumer fun _ hp => hp
  case deliver consumer waiting _ | error consumer waiting | ended consumer waiting _ =>
    exact set _ consumer fun _ hp => absurd (hp.symm.trans waiting) busy
  case lock consumer hp turn =>
    refine set _ consumer fun hu he => absurd ?_ <| locking _ (he.symm.trans hp)
    simp [turn, hu]
  case unlock consumer sent =>
    refine set _ consumer fun _ he => ?_
    obtain ⟨k, hk, _⟩ := sending _ _ (he.symm.trans sent)
    cases hk
  case send consumer hp handle accepted =>
    refine set _ consumer fun _ he => ?_
    obtain ⟨k, hk, h, hh, _, full⟩ := sending _ _ (he.symm.trans hp)
    cases hk
    cases handle.symm.trans hh
    exact absurd (Mailbox.trySend_iff.mp accepted).right.left full
  case failed consumer hp handle dropped =>
    refine set _ consumer fun _ he => ?_
    obtain ⟨k, hk, h, hh, held, _⟩ := sending _ _ (he.symm.trans hp)
    cases hk
    cases handle.symm.trans hh
    simp [dropped] at held

-- Nobody can send to a full inbox.
theorem Worked.full {event : Event} {f f' : Fanout Empty} {lock' : List Actor.Waiter}
    {h : SubscriptionHandle} (worked : Worked amqp s f lock event s' f' lock')
    (hh : f.handles[k]? = some h) (full : ¬h.inbox.HasRoom) : f'.handles[k]? = some h := by
  cases worked <;> try exact hh
  case send handle accepted =>
    refine (List.getElem?_set_ne ?_).trans hh
    rintro rfl
    cases handle.symm.trans hh
    exact absurd (Mailbox.trySend_iff.mp accepted).right.left full

-- It stays full as long as nobody touches it.
theorem Stalled.step {queue : String} (h : Stalled m queue k) (avoids : Avoids k act)
    (st : Actor.Step m act m') : Stalled m' queue k := by
  obtain ⟨⟨h, hh, topic, held, full⟩, j, d, owner, hd, returned⟩ := h
  obtain ⟨hl, _⟩ := List.getElem?_eq_some_iff.mp hh
  constructor
  case inbox =>
    refine ⟨h, ?_, topic, held, full⟩
    cases st <;> try exact hh
    case register => exact (List.getElem?_append_left hl).trans hh
    case task acted => exact (task_worked acted).full hh full
    case recv received => exact (Fanout.recv_other received avoids).trans hh
    case dropInbox dropped => exact (Fanout.drop_other dropped avoids).trans hh
    case caller c c' handle step _ _ _ =>
      refine (Fanout.conclude_other fun mine => ?_).trans hh
      cases owner.symm.trans mine
      cases hd.symm.trans handle
      simpa [MethodCall.active, returned] using step.active
  case returned =>
    obtain ⟨d', hd', ch⟩ := st.change_of_call hd
    refine ⟨j, d', ?_, hd', ?_⟩
    · cases st <;> try exact owner
      case register =>
        obtain ⟨hl, _⟩ := List.getElem?_eq_some_iff.mp owner
        exact (List.getElem?_append_left hl).trans owner
    · cases ch
      case same | reply => exact returned
      case send hp      => cases returned.symm.trans hp
      case step step    => simpa [MethodCall.active, returned] using step.active

theorem Worked.turn {event : Event} {f f' : Fanout Empty} {lock' rest : List Actor.Waiter}
    (worked : Worked amqp s f lock event s' f' lock') (h : lock = .call i :: rest) :
    ∃ rest, lock' = .call i :: rest := by
  cases worked <;> try exact ⟨rest, h⟩
  case deliver => exact ⟨_, by rw [h, List.cons_append]⟩
  case lock turn => cases h.symm.trans turn

theorem Jam.not_free (jam : Jam m v w i k) : (kind amqp).free m.state = false := by
  have ⟨env, rest, sending⟩ := jam.sending
  obtain ⟨c, hc, hp⟩ := Option.map_eq_some_iff.mp sending
  refine List.all_eq_false.mpr ⟨c, List.mem_of_getElem? hc, ?_⟩
  simp [hp, isSending]

theorem Jam.register_eq_none (jam : Jam m v w i k) {j : ℕ} : m.register j = none := by
  simp only [Actor.register, jam.not_free]
  split <;> try rfl
  split <;> simp

-- No call but one that registers or is given up leaves the queue for the lock.
theorem lock_of_call {j : ℕ} (hn : (Actor.machine (kind amqp)).next m act = some m')
    (mine : act.call? = some j) (locked : act ≠ .register j) (patient : act ≠ .cancel j) :
    m'.lock = m.lock := by
  cases act <;> cases mine <;> simp only [Actor.machine, Actor.next] at hn
  case register => exact absurd rfl locked
  case cancel   => exact absurd rfl patient
  case send =>
    simp only [Actor.send] at hn
    split at hn <;> try cases hn
    split at hn <;> try cases hn
    split at hn
    · obtain ⟨_, _, rfl⟩ := Option.map_eq_some_iff.mp hn
      rfl
    · cases hn; rfl
  case resume =>
    simp only [Actor.resume] at hn
    split at hn <;> try cases hn
    split at hn <;> try cases hn
    · rfl
    · split at hn <;> cases hn
      rfl
  case retry =>
    simp only [Actor.retry] at hn
    split at hn <;> try cases hn
    split at hn <;> cases hn
    rfl
  case join =>
    simp only [Actor.join] at hn
    split at hn <;> try cases hn
    split at hn <;> try cases hn
    obtain ⟨⟨_, _⟩, _, rfl⟩ := Option.map_eq_some_iff.mp hn
    rfl

theorem Jam.step (jam : Jam m v w i k) (avoids : Avoids k act)
    (hn : (Actor.machine (kind amqp)).next m act = some m') : Jam m' v w i k := by
  have st := Actor.next_step hn
  have ⟨⟨env, rest, sending⟩, ⟨env', locking⟩, ⟨queue, turn⟩, ⟨topic, stalled⟩⟩ := jam
  have phase {v : ℕ} {phase : Consumer.Phase}
      (h : m.state.consumers[v]?.map Consumer.phase = some phase) (busy : phase ≠ .waiting)
      (locking : ∀ env, phase = .locking env → m.lock.head? ≠ some (.task v))
      (sending : ∀ env senders, phase = .sending env senders → ∃ k ∈ senders.head?,
        ∃ h ∈ m.subscribers.handles[k]?, h.inbox.held ∧ ¬h.inbox.HasRoom) :
      m'.state.consumers[v]?.map Consumer.phase = some phase := by
    cases step_works st
    case same state         => rwa [state]
    case execute executed   => exact (execute_executed executed).phase h
    case finish action _ _  => subst action; exact avoids.elim
    case task worked        => exact worked.phase h busy locking sending
  constructor
  case sending =>
    refine ⟨env, rest, phase sending (by simp) (by simp) ?_⟩
    rintro _ _ ⟨⟩
    have ⟨h, hh, _, full⟩ := stalled.inbox
    exact ⟨k, rfl, h, hh, full⟩
  case locking => exact ⟨env', phase locking (by simp) (by simp [turn]) (by simp)⟩
  case stalled => exact ⟨topic, stalled.step avoids st⟩
  case turn =>
    cases st <;> try exact ⟨queue, turn⟩
    case subscribe => exact ⟨_, by rw [turn, List.cons_append]⟩
    case register => cases jam.register_eq_none.symm.trans hn
    case finish => exact avoids.elim
    case task acted => exact (task_worked acted).turn turn
    case caller caller =>
      refine ⟨queue, (lock_of_call hn caller ?_ ?_).trans turn⟩ <;> rintro rfl
      · cases jam.register_eq_none.symm.trans hn
      · exact avoids

theorem Jam.exec {as : List (Actor.Action Event Outcome)} (jam : Jam m v w i k)
    (avoids : ∀ act ∈ as, Avoids k act) (he : (Actor.machine (kind amqp)).exec m as = some t) :
    Jam t v w i k :=
  Machine.exec_stable (P := fun t => Jam t v w i k) he jam fun _ act _ ha jam hn =>
    jam.step (avoids act ha) hn

-- Nothing gets the task that waits on, nor does the call return.
theorem Jam.not_waiting (jam : Jam m v w i k) :
    ¬(Actor.machine (kind amqp)).Leads (Avoids k) m fun t =>
      ∃ d, t.state.consumers[w]? = some d ∧ d.phase = .waiting := by
  intro ⟨as, t, avoids, he, d, hd, waiting⟩
  have jam : Jam t v w i k := jam.exec avoids he
  have ⟨_, locking⟩ := jam.locking
  simp [hd, waiting] at locking

theorem Jam.not_returned (r : (Actor.machine (kind amqp)).Reachable m) (jam : Jam m v w i k) :
    ¬(Actor.machine (kind amqp)).Leads (Avoids k) m (Returned i) := by
  rintro ⟨as, t, avoids, he, d, result, hd, returned⟩
  have jam : Jam t v w i k := jam.exec avoids he
  obtain ⟨rest, turn⟩ := jam.turn
  have hw : i ∈ t.waiters := by simp [Actor.waiters, turn, Actor.Waiter.call?]
  obtain ⟨_, _, h, _, registering⟩ := (Actor.waiters_iff (r.exec he)).right i |>.mp hw
  cases hd.symm.trans h
  cases returned.symm.trans registering

-- One more delivery from "a" stops the tasks of all queues and the calls.
def loneStalled : List (Actor.Action Event Outcome) :=
  loneFull ++ [.task (.deliver 0 [] true), .task (.lock 0), .call (.subscribe "c"),
    .task (.deliver 1 [] true)]

theorem stalled_reader_blocks_other_queue :
    ∃ m, (Actor.machine (kind loneDecoder)).Run loneStalled m ∧ Stalled m "a" 0 ∧
      (∃ (c : Consumer) (env : Envelope), m.state.consumers[1]? = some c ∧ c.queue = "b" ∧
        env? c.phase = some env ∧
        ¬(Actor.machine (kind loneDecoder)).Leads (Avoids 0) m (FansOut m 1 c env)) ∧
      (∃ d : MethodCall, m.calls[2]? = some d ∧ d.method = .subscribe "c" ∧ d.active ∧
        ¬(Actor.machine (kind loneDecoder)).Leads (Avoids 0) m (Returned 2)) ∧
      ¬Isolates m := by
  obtain ⟨m, run, jam, stalled, ⟨c, env, hc, queue, hp⟩, d, hd, method, active⟩ :
      ∃ m, (Actor.machine (kind loneDecoder)).Run loneStalled m ∧ Jam m 0 1 2 0 ∧
        Stalled m "a" 0 ∧
        (∃ (c : Consumer) (env : Envelope), m.state.consumers[1]? = some c ∧ c.queue = "b" ∧
          env? c.phase = some env) ∧
        ∃ d : MethodCall, m.calls[2]? = some d ∧ d.method = .subscribe "c" ∧ d.active := by
    refine ⟨_, .of_isSome rfl, ⟨⟨_, [], rfl⟩, ⟨_, rfl⟩, ⟨_, rfl⟩, "a", ?stalled⟩, ?stalled,
      ⟨_, _, rfl, rfl, rfl⟩, _, rfl, rfl, rfl⟩
    exact ⟨⟨_, rfl, rfl, rfl, by decide⟩, 0, _, rfl, rfl, rfl⟩
  have waits : ¬(Actor.machine (kind loneDecoder)).Leads (Avoids 0) m (FansOut m 1 c env) :=
    fun h => jam.not_waiting <| h.mono fun _ h => h.left
  refine ⟨m, run, stalled, ⟨c, env, hc, queue, hp, waits⟩, ⟨d, hd, method, active, ?_⟩, fun h => ?_⟩
  · exact jam.not_returned run.reachable
  · exact waits <| (h "a" 0 stalled).fansOut 1 c env hc (by simp [queue]) hp

end AmqpActor
end MomRpc
