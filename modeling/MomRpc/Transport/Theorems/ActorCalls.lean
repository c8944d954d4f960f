import MomRpc.Transport.Theorems.Actor

namespace MomRpc.Actor

open RumqttcTransport

variable {ι σ α τ : Type} {kind : ActorKind ι σ α τ} {m m' : Actor kind} {act : Action α τ}
  {i : ℕ} {c c' : MethodCall}

-- What the actor tells the call, and on account of what.
inductive Replies (m : Actor kind) (act : Action α τ) (i : ℕ) : Except RpcError Ack → Prop
  | close (queued : .close i ∈ m.pending) : Replies m act i (.ok .ok)
  | defer {cmd state} (queued : cmd ∈ m.pending) (resp : cmd.resp = i)
    (deferred : kind.start m.state cmd = (state, true)) : Replies m act i (.ok .retry)
  | execute {cmd outcome state result} (action : act = .execute outcome)
    (handling : m.phase = .handling cmd) (resp : cmd.resp = i)
    (executed : kind.execute m.state cmd outcome = some (state, result)) :
    Replies m act i (result.map fun _ => .ok)

-- The call that the action begins.
inductive Begins : Action α τ → MethodCall → Prop
  | call {method} (other : ∀ topic, method ≠ .subscribe topic) : Begins (.call method) { method }
  | subscribe {topic} :
    Begins (.call (.subscribe topic)) { method := .subscribe topic, phase := .registering }

def CallsChange (m : Actor kind) (act : Action α τ) (m' : Actor kind) : Prop :=
  CallsStep kind.caller m.Shut (· ∉ m.responders) act.call? (Begins act) (Replies m act) m.calls
    m.responders m'.calls m'.responders

def CallChange (m : Actor kind) (act : Action α τ) (i : ℕ) (c c' : MethodCall) : Prop :=
  RumqttcTransport.CallChange kind.caller m.Shut (i ∉ m.responders) (act.call? = some i)
    (Replies m act i)
    c c'

theorem pending_of_handling {cmd : Cmd} (h : m.phase = .handling cmd) :
    m.pending = cmd :: m.commands.queue := by
  simp [pending, h]

theorem pending_of_other (h : ∀ cmd, m.phase ≠ .handling cmd) : m.pending = m.commands.queue := by
  unfold pending
  split
  · exact absurd ‹_› <| h _
  · rfl

theorem pending_of_receiving (h : m.phase = .receiving) : m.pending = m.commands.queue :=
  pending_of_other <| by simp [h]

theorem pending_send {commands : Mailbox Cmd kind.capacity} {cmd : Cmd}
    (sent : m.commands.trySend cmd = some commands) :
    { m with commands }.pending = m.pending ++ [cmd] := by
  have hq := (Mailbox.trySend_iff.mp sent).right.right.left
  simp only [pending]
  split <;> simp [hq]

theorem pending_recv {commands : Mailbox Cmd kind.capacity} {cmd : Cmd}
    (h : m.phase = .receiving) (received : m.commands.recv = some (cmd, commands)) :
    m.pending = cmd :: commands.queue := by
  rw [pending_of_receiving h]
  exact (Mailbox.recv_iff.mp received).right.left

theorem Step.calls (st : Step m act m') : CallsChange m act m' := by
  cases st
  case call other => exact .call <| .call other
  case subscribe => exact .call .subscribe
  case register handle method registering _ _ =>
    exact .step rfl handle <| .register method registering
  case send i commands c handle sending _ sent =>
    have hr : { m with commands }.responders = m.responders ++ [i] := by
      simp [responders, pending_send sent, MethodCall.cmd_resp]
    exact (congrArg (CallsStep _ _ _ _ _ _ _ _ _) hr).mpr <| .send rfl handle sending
  case caller handle step _ _ caller => exact .step caller handle step
  case recv | dropInbox | pushTask | drop | task => exact .same <| .refl _
  case ended receiving _ _ =>
    exact .same <| by simp [responders, pending, receiving]
  case drain resp commands receiving _ received | leave resp commands receiving _ received =>
    have hp := pending_recv receiving received
    have hr : m.responders = resp :: commands.queue.map Cmd.resp := by
      simp [responders, hp, Cmd.resp]
    refine .reply (.close <| by simp [hp]) (.of_eq hr) ?_
    simp [responders, pending, receiving, reply]
  case defer cmd commands state receiving received _ deferred =>
    have hp := pending_recv receiving received
    have hr : m.responders = cmd.resp :: commands.queue.map Cmd.resp := by simp [responders, hp]
    refine .reply (.defer (by simp [hp]) rfl deferred) (.of_eq hr) ?_
    simp [responders, pending, receiving, reply]
  case begin cmd commands state receiving received _ _ =>
    have hr : m.responders = cmd.resp :: commands.queue.map Cmd.resp := by
      simp [responders, pending_recv receiving received]
    exact .same <| hr ▸ .refl _
  case execute cmd outcome state result handling executed =>
    have hp := pending_of_handling handling
    have hr : m.responders = cmd.resp :: m.commands.queue.map Cmd.resp := by simp [responders, hp]
    refine .reply (.execute rfl handling rfl executed) (.of_eq hr) ?_
    simp [responders, pending, reply]
  case finish => exact .same <| List.nil_sublist _

theorem Step.change (st : Step m act m') (h' : m'.calls[i]? = some c') :
    (∃ c, m.calls[i]? = some c ∧ CallChange m act i c c') ∨ (i = m.calls.length ∧ Begins act c') :=
  CallsStep.change st.calls h'

-- The calls keep their places.
theorem Step.change_of_call (st : Step m act m') (h : m.calls[i]? = some c) :
    ∃ c', m'.calls[i]? = some c' ∧ CallChange m act i c c' :=
  CallsStep.change_of_call st.calls h

theorem Begins.asking (b : Begins act c) : c.Asking ∧ c.reply = none := by
  cases b
  case call      => exact ⟨.inr <| .inl rfl, rfl⟩
  case subscribe => exact ⟨.inl rfl, rfl⟩

theorem Replies.mem_responders {result : Except RpcError Ack} (replies : Replies m act i result) :
    i ∈ m.responders := by
  simp only [responders, List.mem_map]
  cases replies
  case close queued         => exact ⟨_, queued, rfl⟩
  case defer queued hr _    => exact ⟨_, queued, hr⟩
  case execute handling hr _ => exact ⟨_, by simp [pending_of_handling handling], hr⟩

theorem owned (r : (machine kind).Reachable m) : Owned m.calls m.responders := by
  induction m, r using Machine.Reachable.induction_on
  case init => constructor <;> simp [machine, responders, pending]
  case step m act m' r hn ih =>
    refine (next_step hn).calls.owned ih (fun _ hi hg => hg hi) ?_ ?_
    · exact fun _ b => b.asking
    · exact fun _ _ replies => replies.mem_responders

theorem unreplied (r : (machine kind).Reachable m) (hi : i ∈ m.responders)
    (h : m.calls[i]? = some c) : c.reply = none := by
  induction m, r using Machine.Reachable.induction_on generalizing i c
  case init => simp [machine] at h
  case step m act m' r hn ih =>
    exact (next_step hn).calls.unreplied (owned r) (fun _ hi _ h => ih hi h) i hi c h

-- The commands on their way belong to calls.
structure Consistent (m : Actor kind) : Prop where
  pending  : ∀ cmd ∈ m.pending, ∃ c : MethodCall, m.calls[cmd.resp]? = some c ∧
    c.cmd cmd.resp = cmd
  handling : ∀ resp, m.phase ≠ .handling (.close resp)

theorem Step.pending (st : Step m act m') {cmd : Cmd} (h : cmd ∈ m'.pending) :
    cmd ∈ m.pending ∨ ∃ i, ∃ c : MethodCall, m.calls[i]? = some c ∧ cmd = c.cmd i := by
  cases st
  case call | subscribe | register | caller | recv | dropInbox | pushTask | drop | task =>
    exact .inl h
  case send i commands c handle _ _ sent =>
    have h : cmd ∈ { m with commands }.pending := h
    rw [pending_send sent, List.mem_append, List.mem_singleton] at h
    exact h.imp_right fun h => ⟨i, c, handle, h⟩
  case drain receiving _ received | leave receiving _ received | defer receiving received _ _ =>
    refine .inl <| pending_recv receiving received ▸ List.mem_cons_of_mem _ ?_
    simpa [Actor.pending, receiving, reply] using h
  case begin receiving received _ _ => exact .inl <| pending_recv receiving received ▸ h
  case execute handling _ => exact .inl <| pending_of_handling handling ▸ List.mem_cons_of_mem _ h
  case ended receiving _ _ => exact .inl <| pending_of_receiving receiving ▸ h
  case finish => cases h

theorem Step.handling (st : Step m act m') {resp : ℕ} (h : m'.phase = .handling (.close resp)) :
    m.phase = .handling (.close resp) := by
  cases st <;> try exact h
  case begin other _ => cases h; exact absurd rfl <| other resp
  all_goals cases h

theorem consistent (r : (machine kind).Reachable m) : m.Consistent := by
  induction m, r using Machine.Reachable.induction_on
  case init => constructor <;> simp [machine, pending]
  case step m act m' r hn ih =>
    have st := next_step hn
    constructor
    case pending =>
      intro cmd hc
      obtain ⟨c, h, he⟩ : ∃ c : MethodCall, m.calls[cmd.resp]? = some c ∧ c.cmd cmd.resp = cmd := by
        rcases st.pending hc with hc | ⟨i, c, h, rfl⟩
        · exact ih.pending cmd hc
        · exact ⟨c, MethodCall.cmd_resp ▸ h, by rw [MethodCall.cmd_resp]⟩
      obtain ⟨c', h', ch⟩ := st.change_of_call h
      exact ⟨c', h', by rw [← he, MethodCall.cmd_resp, MethodCall.cmd, MethodCall.cmd, ch.method]⟩
    case handling => exact fun resp h => ih.handling resp <| st.handling h

-- The calls that wait for the lock, in this order.
def waiters (m : Actor kind) : List ℕ :=
  m.lock.filterMap Waiter.call?

theorem waiters_erase {lock : List Waiter} :
    (lock.erase (.call i)).filterMap Waiter.call? = (lock.filterMap Waiter.call?).erase i := by
  induction lock
  case nil => rfl
  case cons w lock ih =>
    cases w
    case task   => simpa [List.filterMap_cons, Waiter.call?] using ih
    case call j => by_cases hj : j = i <;> simp [Waiter.call?, hj, ih]

def Registering (m : Actor kind) (i : ℕ) : Prop :=
  ∃ (c : MethodCall) (topic : String), m.calls[i]? = some c ∧ c.method = .subscribe topic ∧
    c.phase = .registering

-- What becomes of the calls that wait for the lock.
inductive Turn (m m' : Actor kind) : Prop
  | same (waiters : m'.waiters = m.waiters) (calls : ∀ i, m'.Registering i ↔ m.Registering i)
  | join (waiters : m'.waiters = m.waiters ++ [m.calls.length])
    (calls : ∀ i, m'.Registering i ↔ m.Registering i ∨ i = m.calls.length)
  | leave {i : ℕ} (waiters : m'.waiters = m.waiters.erase i)
    (calls : ∀ j, m'.Registering j ↔ j ≠ i ∧ m.Registering j)

theorem registering_set (h : m.calls[i]? = some c) (hc : c'.phase ≠ .registering) (j : ℕ) :
    { m with calls := m.calls.set i c' }.Registering j ↔ j ≠ i ∧ m.Registering j := by
  have ⟨hl, _⟩ := List.getElem?_eq_some_iff.mp h
  by_cases hj : j = i
  case pos =>
    subst hj
    simpa [Registering, hl] using fun _ _ hp => hc hp
  case neg => simp [Registering, hj, List.getElem?_set_ne (Ne.symm hj)]

theorem registering_append (j : ℕ) :
    { m with calls := m.calls ++ [c] }.Registering j ↔ m.Registering j ∨
      (j = m.calls.length ∧ ∃ topic, c.method = .subscribe topic ∧ c.phase = .registering) := by
  rcases Nat.lt_trichotomy j m.calls.length with hj | hj | hj
  case inl => simp [Registering, List.getElem?_append_left hj, Nat.ne_of_lt hj]
  case inr.inl => subst hj; simp [Registering]
  case inr.inr =>
    have hl : (m.calls ++ [c]).length ≤ j := by rw [List.length_append]; exact hj
    simp [Registering, List.getElem?_eq_none hl, List.getElem?_eq_none (Nat.le_of_lt hj),
      Nat.ne_of_gt hj]

theorem reply_registering {resp : ℕ} {result : Except RpcError Ack} (j : ℕ) :
    (m.reply resp result).Registering j ↔ m.Registering j := by
  cases h : m.calls[j]? <;> by_cases hj : resp = j <;> simp [Registering, reply, h, hj]

theorem Step.turn (st : Step m act m') : Turn m m' := by
  cases st
  case recv | dropInbox | pushTask | drop | begin | ended => exact .same rfl fun _ => .rfl
  case drain | leave | defer | execute => exact .same rfl reply_registering
  case task acted => exact .same (kind.task_calls _ _ _ _ _ _ _ _ acted) fun _ => .rfl
  case finish =>
    refine .same ?_ fun _ => .rfl
    simp only [waiters, List.filterMap_filter]
    congr 1
    funext w
    cases w <;> rfl
  case call method other =>
    refine .same rfl fun j => (registering_append j).trans ?_
    simp
  case subscribe topic =>
    refine .join (by simp [waiters, Waiter.call?]) fun j => (registering_append j).trans ?_
    simp
  case register i topic lock c handle method registering turn free =>
    exact .leave (by simp [waiters, turn, Waiter.call?]) <| registering_set handle (by simp)
  case send handle sending _ _ =>
    refine .same rfl fun j => (registering_set handle (by simp) j).trans ?_
    refine and_iff_right_of_imp fun ⟨_, _, h, _, hp⟩ hj => ?_
    cases handle.symm.trans (hj ▸ h)
    simp [hp] at sending
  case caller handle step _ waiters caller =>
    rcases waiters with ⟨rfl, hc⟩ | ⟨hp, rfl⟩
    case inl =>
      refine .same rfl fun j => (registering_set handle (step.not_registering hc) j).trans ?_
      refine and_iff_right_of_imp fun ⟨_, _, h, _, hp⟩ hj => ?_
      cases handle.symm.trans (hj ▸ h)
      exact hc hp
    case inr => exact .leave waiters_erase <| registering_set handle (by simp [hp])

-- Exactly those calls wait for the lock that are about to register their senders, each once.
theorem waiters_iff (r : (machine kind).Reachable m) :
    m.waiters.Nodup ∧ ∀ i, i ∈ m.waiters ↔ m.Registering i := by
  induction m, r using Machine.Reachable.induction_on
  case init => simp [machine, waiters, Registering]
  case step m act m' r hn ih =>
    have nodup := ih.left
    have hi := ih.right
    have lt {i} (h : m.Registering i) : i < m.calls.length := by
      obtain ⟨_, _, h, _⟩ := h
      exact (List.getElem?_eq_some_iff.mp h).choose
    cases (next_step hn).turn
    case same hw hc => simpa [hw, hc] using ih
    case join hw hc =>
      rw [hw]
      refine ⟨nodup.append (List.nodup_singleton _) ?_, fun i => ?_⟩
      · simpa [hi] using fun h => Nat.lt_irrefl _ <| lt h
      · simp [hc, hi]
    case leave i hw hc =>
      rw [hw]
      exact ⟨nodup.erase i, fun j => by rw [nodup.mem_erase_iff, hi, hc]⟩

theorem awaited (r : (machine kind).Reachable m) : m.tasks.Awaited m.calls := by
  induction m, r using Machine.Reachable.induction_on
  case init => nofun
  case step m act m' r hn ih =>
    have st := next_step hn
    have ch := st.calls
    cases st
    case caller handle _ list _ _ => exact ih.step handle list
    case pushTask => nofun
    case register handle _ registering _ _ =>
      exact ih.keep ch fun _ hi => ⟨_, Option.some.inj hi ▸ handle, by simp [registering]⟩
    case send handle sending _ _ =>
      exact ih.keep ch fun _ hi => ⟨_, Option.some.inj hi ▸ handle, by simp [sending]⟩
    all_goals exact ih.keep ch nofun

-- What the actor leaves behind.
structure Stopped (m : Actor kind) : Prop where
  phase : m.phase = .stopped
  queue : m.commands.queue = []
  held  : m.commands.held = false
  free  : kind.free m.state
  lock  : ∀ w ∈ m.lock, w.call?.isSome

theorem Stopped.pending (h : m.Stopped) : m.pending = [] := by
  rw [pending_of_other <| by simp [h.phase], h.queue]

theorem Step.stopped (st : Step m act m') (h : m.Stopped) : m'.Stopped := by
  have ⟨phase, queue, held, free, lock⟩ := h
  cases st
  case call | recv | dropInbox | pushTask | drop => exact ⟨phase, queue, held, free, lock⟩
  case subscribe =>
    refine ⟨phase, queue, held, free, fun w hw => ?_⟩
    rcases List.mem_append.mp hw with hw | hw
    · exact lock w hw
    · cases List.mem_singleton.mp hw; rfl
  case register turn _ =>
    exact ⟨phase, queue, held, free, fun w hw => lock w <| turn ▸ List.mem_cons_of_mem _ hw⟩
  case send sent => simp [Mailbox.trySend_held sent] at held
  case caller waiters _ =>
    refine ⟨phase, queue, held, free, fun w hw => ?_⟩
    rcases waiters with ⟨rfl, _⟩ | ⟨_, rfl⟩
    · exact lock w hw
    · exact lock w <| List.mem_of_mem_erase hw
  case task acted => simp [phase, kind.task_stopped] at acted
  all_goals simp_all

theorem stopped (r : (machine kind).Reachable m) (h : m.phase = .stopped) : m.Stopped := by
  induction m, r using Machine.Reachable.induction_on
  case init => simp [machine] at h
  case step m act m' r hn ih =>
    have st := next_step hn
    by_cases hs : m.phase = .stopped
    case pos => exact st.stopped (ih hs)
    case neg =>
      cases st
      case finish finished => exact ⟨rfl, rfl, rfl, kind.finish_free _ _ finished, by simp⟩
      all_goals first | exact absurd h hs | cases h

-- The transport is held while a call is active.
theorem held_of_active (r : (machine kind).Reachable m) (h : m.calls[i]? = some c)
    (active : c.active) : m.held := by
  induction m, r using Machine.Reachable.induction_on generalizing c
  case init => simp [machine] at h
  case step m act m' r hn ih =>
    have st := next_step hn
    rcases st.change h with ⟨c₀, h₀, ch⟩ | ⟨_, begun⟩
    case inr =>
      have held : m.held := by
        cases begun <;> exact (Option.ite_none_right_eq_some.mp hn).left
      cases st <;> first | exact held | cases begun
    case inl =>
      have held : m.held := by
        apply ih h₀
        cases ch
        case same | reply => exact active
        case send sending => simp [MethodCall.active, sending]
        case step st      => exact st.active
      cases st <;> try exact held
      case drop idle =>
        simp only [List.any_eq_true, not_exists, not_and] at idle
        exact absurd active <| idle c <| List.mem_of_getElem? h

end MomRpc.Actor
