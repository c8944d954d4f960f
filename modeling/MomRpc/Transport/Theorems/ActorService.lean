import MomRpc.Transport.Theorems.ActorCalls
import MomRpc.Transport.Theorems.Service

namespace MomRpc.Actor

open RumqttcTransport

variable {ι σ α τ : Type} {kind : ActorKind ι σ α τ} {m m' : Actor kind} {act : Action α τ}
  {as : List (Action α τ)} {i : ℕ} {c : MethodCall}

def service (kind : ActorKind ι σ α τ) : Service (Actor kind) (Action α τ) where
  machine          := machine kind
  caller           := kind.caller
  calls            := Actor.calls
  stopped m        := m.phase = .stopped
  gone m i         := i ∉ m.responders
  executes m act i := ∃ cmd outcome, m.phase = .handling cmd ∧ cmd.resp = i ∧ act = .execute outcome
  cancel           := .cancel

theorem patient (h : ∀ i, act ≠ .cancel i) : ∀ i, act ≠ (service kind).cancel i :=
  h

section
variable {P : _ → Prop} (hn : (machine kind).next m act = some m') (patient : ∀ i, act ≠ .cancel i)
include hn patient

theorem leads_step (h : (service kind).Leads m' P) : (service kind).Leads m P :=
  .step patient hn h

theorem leads_single (h : P m') : (service kind).Leads m P :=
  .single patient hn h

theorem leads_set {c c' : MethodCall} (h : m.calls[i]? = some c)
    (calls : m'.calls = m.calls.set i c') :
    (service kind).Leads m fun t => t.calls[i]? = some c' := by
  obtain ⟨hl, _⟩ := List.getElem?_eq_some_iff.mp h
  apply leads_single hn patient
  rw [calls, List.getElem?_set_self hl]

end

theorem Step.stays (st : Step m act m') (h : m.phase = .stopped) : m'.phase = .stopped := by
  cases st <;> try exact h
  all_goals simp [h] at *

theorem Consistent.of_pending {cmd : Cmd} (con : m.Consistent) (queued : cmd ∈ m.pending)
    (h : m.calls[cmd.resp]? = some c) : c.cmd cmd.resp = cmd := by
  have ⟨_, h', he⟩ := con.pending cmd queued
  cases h.symm.trans h'
  exact he

-- An answer that lets a call succeed comes from the execution of its command.
theorem Replies.executed {result : Except RpcError Ack} (con : m.Consistent)
    (replies : Replies m act i result) (h : m.calls[i]? = some c) (hm : c.method ≠ .close)
    (hs : kind.caller.Succeeds c.method result) : (service kind).executes m act i := by
  cases replies
  case execute cmd outcome _ _ action handling resp _ =>
    exact ⟨cmd, outcome, handling, resp, action⟩
  case close queued =>
    have he := con.of_pending queued h
    simp only [MethodCall.cmd] at he
    split at he <;> cases he
    exact absurd ‹_› hm
  case defer cmd state queued resp deferred =>
    subst resp
    obtain ⟨topic, resp, rfl⟩ := kind.start_defers _ _ _ deferred
    obtain ⟨hm, _⟩ := MethodCall.cmd_subscribe <| con.of_pending queued h
    obtain ⟨d, hd, hs⟩ := hs
    simp [kind.caller.receive_retry d topic (hd.trans hm)] at hs

theorem lawful (kind : ActorKind ι σ α τ) :
    (service kind).Lawful Shut responders Action.call? Begins Replies where
  init                     := rfl
  step _ _ _ _ hn          := (next_step hn).calls
  begins _ _ b             := b.asking
  owned _ r                := owned r
  told _ _ _ _ _ replies   := replies.mem_responders
  stays _ _ _ h hn         := (next_step hn).stays h
  dropped _ r h            := by simp [responders, (stopped r h).pending]
  success as m act m' i c result r _ replies h hm hs :=
    ⟨as, act, [], m, rfl, r, replies.executed (consistent r.reachable) h hm hs⟩

theorem registering_subscribe (r : (machine kind).Reachable m) (h : m.calls[i]? = some c)
    (hp : c.phase = .registering) : ∃ topic, c.method = .subscribe topic := by
  induction m, r using Machine.Reachable.induction_on generalizing c
  case init => simp [machine] at h
  case step m act m' r hn ih =>
    rcases (next_step hn).change h with ⟨c₀, h₀, ch⟩ | ⟨_, begun⟩
    case inr =>
      cases begun
      case call      => cases hp
      case subscribe => exact ⟨_, rfl⟩
    case inl =>
      apply ch.method ▸ ih h₀
      cases ch
      case same | reply => exact hp
      case send => cases hp
      case step st =>
        by_contra hp₀
        exact st.not_registering hp₀ hp

theorem register_eq {topic : String} {lock : List Waiter} (h : m.calls[i]? = some c)
    (hm : c.method = .subscribe topic) (hp : c.phase = .registering) (hl : m.lock = .call i :: lock)
    (free : kind.free m.state) :
    m.register i = some { m with
      calls       := m.calls.set i { c with phase := .sending }
      lock
      subscribers := m.subscribers.subscribe topic
      owners      := m.owners ++ [i]
    } := by
  simp [register, h, hl, hm, hp, free]

section Stopped

-- No task holds the lock anymore, so that the calls get it one after the other.
theorem leads_register (r : (machine kind).Reachable m) (hs : m.Stopped)
    (h : m.calls[i]? = some c) (hp : c.phase = .registering) :
    (service kind).Leads m fun t => t.calls[i]? = some { c with phase := .sending } := by
  generalize hl : m.lock = lock
  induction lock generalizing m
  case nil =>
    obtain ⟨topic, hm⟩ := registering_subscribe r h hp
    have hw := (waiters_iff r).right i |>.mpr ⟨c, topic, h, hm, hp⟩
    simp [waiters, hl] at hw
  case cons w lock ih =>
    cases w
    case task w => simpa [Waiter.call?] using hs.lock (.task w) (by simp [hl])
    case call j =>
      have hw : j ∈ m.waiters := by simp [waiters, hl, Waiter.call?]
      obtain ⟨d, topic, h', hm, hp'⟩ := (waiters_iff r).right j |>.mp hw
      have hn : (machine kind).next m (.register j) = _ := register_eq h' hm hp' hl hs.free
      apply leads_step hn (by simp)
      by_cases hj : j = i
      case pos =>
        subst hj
        cases h.symm.trans h'
        obtain ⟨hl, _⟩ := List.getElem?_eq_some_iff.mp h
        exact .here <| List.getElem?_set_self hl
      case neg =>
        refine ih (r.next hn) ((next_step hn).stopped hs) ?_ rfl
        simpa [List.getElem?_set_ne hj] using h

theorem Stopped.responders (hs : m.Stopped) : m.responders = [] := by
  simp [Actor.responders, hs.pending]

variable (h : m.calls[i]? = some c)

include h

theorem leads_send (hs : m.Stopped) (hp : c.phase = .sending) :
    (service kind).Leads m fun t => t.calls[i]? = some (kind.caller.closed c) := by
  have hn : (machine kind).next m (.send i) = some (m.conclude i (kind.caller.closed c)) := by
    simp [machine, next, send, h, hp, hs.held]
  exact leads_set hn (by simp) h rfl

theorem leads_receive {reply : Except RpcError Ack} (hp : c.phase = .awaiting)
    (hr : c.reply = some reply) :
    (service kind).Leads m fun t => t.calls[i]? = some (kind.caller.receive c reply) := by
  have hn : (machine kind).next m (.resume i) =
      some (m.conclude i (kind.caller.receive c reply)) := by
    simp [machine, next, resume, h, hp, hr]
  exact leads_set hn (by simp) h rfl

theorem leads_disconnected (hs : m.Stopped) (hc : c.Unanswered) :
    (service kind).Leads m fun t => t.calls[i]? = some (kind.caller.disconnected c) := by
  have hn : (machine kind).next m (.resume i) =
      some (m.conclude i (kind.caller.disconnected c)) := by
    simp [machine, next, resume, h, hc.left, hc.right, hs.responders]
  exact leads_set hn (by simp) h rfl

theorem leads_retry (hp : c.phase = .delaying) :
    (service kind).Leads m fun t => t.calls[i]? = some { c with phase := .sending } := by
  have hn : (machine kind).next m (.retry i) =
      some { m with calls := m.calls.set i { c with phase := .sending } } := by
    simp [machine, next, retry, h, hp]
  exact leads_set hn (by simp) h rfl

end Stopped

theorem joins (kind : ActorKind ι σ α τ) : (service kind).Joins tasks .join := by
  intro m i c left done hs h hm hp hj
  have hs : m.phase = .stopped := hs
  have h : m.calls[i]? = some c := h
  let next := if done then { c with phase := .returned (.ok ()) } else c
  have hn : (machine kind).next m (.join i) =
      some { m with tasks := left, calls := m.calls.set i next } := by
    simp [machine, Actor.next, join, h, hm, hp, hs, hj, next]
  exact ⟨_, hn, rfl, rfl⟩

theorem returning (kind : ActorKind ι σ α τ) : (service kind).Returning where
  register _ _ _ r hs h hp     := leads_register r (stopped r hs) h hp
  send _ _ _ r hs h hp         := leads_send h (stopped r hs) hp
  receive _ _ _ _ _ _ h hp hr  := leads_receive h hp hr
  disconnected _ _ _ r hs h hc := leads_disconnected h (stopped r hs) hc
  retry _ _ _ _ _ h hp         := leads_retry h hp
  join _ _ _ r hs h hm hp      :=
    Service.canReturn_join (joins kind) (fun _ => patient nofun) hs h hm hp (lawful kind).stays
      (awaited r)

-- Steps of the tasks alone lead to a state with `P`.
def Tasks (m : Actor kind) (P : σ → Fanout ι → Prop) : Prop :=
  ∃ (events : List α) (state : σ) (subscribers : Fanout ι) (lock : List Waiter),
    P state subscribers ∧
    (machine kind).exec m (events.map .task) = some { m with state, subscribers, lock }

-- Nothing that the actor awaits besides commands is out of reach.
structure Live (kind : ActorKind ι σ α τ) : Prop where
  ready   : ∀ m : Actor kind, (machine kind).Reachable m → m.phase = .receiving →
    m.Tasks fun _ subscribers => kind.ready subscribers
  execute : ∀ state cmd, (∀ resp, cmd ≠ .close resp) →
    ∃ outcome result, kind.execute state cmd outcome = some result
  finish  : ∀ m : Actor kind, (machine kind).Reachable m → m.phase = .finishing →
    m.Tasks fun state _ => (kind.finish state).isSome

theorem commands_held (r : (machine kind).Reachable m) (h : m.phase ≠ .stopped) :
    m.commands.held := by
  induction m, r using Machine.Reachable.induction_on
  case init => rfl
  case step m act m' r hn ih =>
    cases next_step hn <;> try exact ih h
    case send sent => exact (Mailbox.trySend_held sent).right
    case drain received | leave received | begin received _ _ | defer received _ _ =>
      exact (Mailbox.recv_held received).right
    case execute handling _ => exact ih <| by simp [handling]
    case ended receiving _ _ => exact ih <| by simp [receiving]
    case finish => exact absurd rfl h

theorem execute_pending (live : Live kind) {cmd : Cmd} (con : m.Consistent)
    (h : m.phase = .handling cmd) :
    ∃ outcome m', (machine kind).next m (.execute outcome) = some m' ∧
      m.pending = cmd :: m'.pending := by
  have ⟨outcome, ⟨state, result⟩, he⟩ :=
    live.execute m.state cmd fun resp hc => con.handling resp <| hc ▸ h
  have hn : (machine kind).next m (.execute outcome) =
      some { m.reply cmd.resp (result.map fun _ => .ok) with state, phase := .receiving } := by
    simp [machine, next, execute, h, he]
  exact ⟨outcome, _, hn, pending_of_handling h⟩

theorem Step.handled (st : Step m .handle m') :
    (∃ cmd, m.pending = cmd :: m'.pending) ∨
      ∃ cmd, m'.phase = .handling cmd ∧ m'.pending = m.pending := by
  cases st
  case caller caller => cases caller
  case drain receiving _ received | defer receiving received _ _ =>
    refine .inl ⟨_, (pending_recv receiving received).trans <| congrArg _ ?_⟩
    refine Eq.symm <| pending_of_receiving ?_
    exact receiving
  case leave receiving _ received => exact .inl ⟨_, pending_recv receiving received⟩
  case begin cmd _ _ receiving received _ _ =>
    exact .inr ⟨cmd, rfl, (pending_recv receiving received).symm⟩

theorem leads_shorter (live : Live kind) (r : (machine kind).Reachable m) (h : m.pending ≠ []) :
    (service kind).Leads m fun t => t.pending.length < m.pending.length := by
  have con := consistent r
  cases hp : m.phase
  case stopped => exact absurd (stopped r hp).pending h
  case handling cmd =>
    obtain ⟨outcome, m', hn, he⟩ := execute_pending live con hp
    exact leads_single hn (by simp) <| by simp [he]
  case finishing =>
    obtain ⟨events, state, subscribers, lock, hf, he⟩ := live.finish m r hp
    obtain ⟨state', hf⟩ := Option.isSome_iff_exists.mp hf
    refine .exec (by simp [service]) he ?_
    obtain ⟨m', hn, hp'⟩ : ∃ m', (machine kind).next { m with state, subscribers, lock } .finish =
        some m' ∧ m'.pending = [] := by
      simp [machine, next, finish, hp, hf, pending, Mailbox.drop]
    exact leads_single hn (by simp) <| by simpa [hp'] using List.length_pos_iff.mpr h
  case receiving =>
    obtain ⟨events, state, subscribers, lock, ready, he⟩ := live.ready m r hp
    refine .exec (by simp [service]) he ?_
    replace r := r.exec he
    have held := commands_held r (by simp [hp])
    obtain ⟨cmd, queue, hq⟩ := List.exists_cons_of_ne_nil <| pending_of_receiving hp ▸ h
    obtain ⟨commands, received⟩ := Mailbox.recv_of_queue held hq
    obtain ⟨m₁, hn⟩ : ∃ m₁, (machine kind).next { m with state, subscribers, lock } .handle =
        some m₁ := by simp [machine, next, handle, hp, ready, received]
    rcases (next_step hn).handled with ⟨_, he⟩ | ⟨cmd, handling, he⟩
    · have he : m.pending = _ := he
      exact leads_single hn (by simp) <| by simp [he]
    · replace he : m₁.pending = m.pending := he
      apply leads_step hn (by simp)
      obtain ⟨outcome, m₂, hn, he'⟩ := execute_pending live (consistent <| r.next hn) handling
      exact leads_single hn (by simp) <| by simp [← he, he']

-- The actor gets to all commands, unless it drops them.
theorem leads_drained (live : Live kind) (r : (machine kind).Reachable m) :
    (service kind).Leads m fun t => t.pending = [] := by
  induction hn : m.pending.length using Nat.strongRecOn generalizing m
  case ind n ih =>
    by_cases hp : m.pending = []
    case pos => exact .here hp
    case neg =>
      exact Machine.Leads.trans r (leads_shorter live r hp) fun t rt ht => ih _ (hn ▸ ht) rt rfl

theorem noCallerLeft_along (live : Live kind) (as : List (Action α τ)) :
    (machine kind).Along as (service kind).NoCallerLeft := by
  intro xs ys m _ r
  refine Service.noCallerLeft (lawful kind) (returning kind) r fun i c _ _ => ?_
  refine Machine.Leads.mono (leads_drained live r.reachable) fun t ht => .inl ?_
  simp [service, responders, ht]

end MomRpc.Actor
