import Mathlib.Data.List.Nodup
import MomRpc.Lib.History
import MomRpc.Transport.Mqtt

namespace MomRpc

namespace RumqttcTransport

-- How the calls of a transport go on when their command cannot be sent, when it is answered, and
-- when it is dropped with its responder. A call of `close` goes on in any case.
structure Caller where
  closed             : MethodCall → MethodCall
  receive            : MethodCall → Except RpcError Ack → MethodCall
  disconnected       : MethodCall → MethodCall
  closed_fails       : ∀ c, c.method ≠ .close →
    ∃ err, closed c = { c with phase := .returned (.error err) }
  closed_close       : ∀ c, c.method = .close → closed c = { c with phase := .awaiting }
  receive_returns    : ∀ c reply, c.method ≠ .close →
    (∃ result, receive c reply = { c with phase := .returned result }) ∨
      (reply = .ok .retry ∧ receive c reply = { c with phase := .delaying, reply := none })
  receive_retry      : ∀ c topic, c.method = .subscribe topic →
    receive c (.ok .retry) = { c with phase := .delaying, reply := none }
  receive_close      : ∀ c reply, c.method = .close → receive c reply = { c with phase := .joining }
  disconnected_fails : ∀ c, c.method ≠ .close →
    ∃ err, disconnected c = { c with phase := .returned (.error err) }
  disconnected_close : ∀ c, c.method = .close → disconnected c = { c with phase := .joining }

def caller : Caller where
  closed       := MethodCall.closed
  receive      := MethodCall.receive
  disconnected := MethodCall.disconnected
  closed_fails c hm := by
    cases h : c.method
    case close => exact absurd h hm
    all_goals simp [MethodCall.closed, h]
  closed_close c hm := by simp [MethodCall.closed, hm]
  receive_returns c reply hm := by
    simp only [MethodCall.receive]
    split
    · exact absurd ‹_› hm
    · exact .inr ⟨rfl, rfl⟩
    · exact .inl ⟨_, rfl⟩
    · exact .inl ⟨_, rfl⟩
  receive_retry c topic hm := by simp [MethodCall.receive, hm]
  receive_close c reply hm := by simp [MethodCall.receive, hm]
  disconnected_fails c hm := by
    cases h : c.method
    case close => exact absurd h hm
    all_goals simp [MethodCall.disconnected, h]
  disconnected_close c hm := by simp [MethodCall.disconnected, hm]

namespace MethodCall

variable {i : ℕ} {c : MethodCall}

-- The call awaits an answer that it has not been given, or nobody looks for that answer anymore.
def Waiting (c : MethodCall) : Prop :=
  c.phase = .dropped ∨ (c.phase = .awaiting ∧ c.reply = none)

-- The caller gets no subscription, whatever the call was for.
def fails (c : MethodCall) : Bool :=
  c.phase matches .returned (.error _) | .dropped

-- The call will ask the actor (again).
def Asking (c : MethodCall) : Prop :=
  c.phase = .registering ∨ c.phase = .sending ∨ c.phase = .delaying

theorem Waiting.not_asking (w : c.Waiting) : ¬c.Asking := by
  rcases w with h | ⟨h, _⟩ <;> simp [Asking, h]

theorem cmd_resp : (c.cmd i).resp = i := by
  simp only [cmd]
  split <;> rfl

theorem cmd_subscribe {topic : String} {resp : ℕ} (h : c.cmd i = .subscribe topic resp) :
    c.method = .subscribe topic ∧ i = resp := by
  simp only [cmd] at h
  split at h <;> simp_all

end MethodCall

-- How a call goes on by itself. `shut` tells that the command channel is closed, and `gone` that
-- the responder of the call has been dropped.
inductive CallStep (caller : Caller) (shut gone : Prop) : MethodCall → MethodCall → Prop
  | register {c topic} (method : c.method = .subscribe topic)
    (registering : c.phase = .registering) :
    CallStep caller shut gone c { c with phase := .sending }
  | closed {c} (refused : shut) (sending : c.phase = .sending) :
    CallStep caller shut gone c (caller.closed c)
  | receive {c reply} (awaiting : c.phase = .awaiting) (answered : c.reply = some reply) :
    CallStep caller shut gone c (caller.receive c reply)
  | disconnected {c} (dropped : gone) (awaiting : c.phase = .awaiting)
    (unanswered : c.reply = none) :
    CallStep caller shut gone c (caller.disconnected c)
  | retry {c} (delaying : c.phase = .delaying) :
    CallStep caller shut gone c { c with phase := .sending }
  | await {c} (method : c.method = .close) (joining : c.phase = .joining) :
    CallStep caller shut gone c c
  | joined {c} (method : c.method = .close) (joining : c.phase = .joining) :
    CallStep caller shut gone c { c with phase := .returned (.ok ()) }
  | cancel {c} (active : c.active) : CallStep caller shut gone c { c with phase := .dropped }

variable {caller : Caller} {shut gone : Prop} {i : ℕ} {c c' : MethodCall}

theorem Caller.closed_cases (caller : Caller) (c : MethodCall) :
    (c.method ≠ .close ∧ ∃ err, caller.closed c = { c with phase := .returned (.error err) }) ∨
      (c.method = .close ∧ caller.closed c = { c with phase := .awaiting }) := by
  by_cases hm : c.method = .close
  · exact .inr ⟨hm, caller.closed_close c hm⟩
  · exact .inl ⟨hm, caller.closed_fails c hm⟩

theorem Caller.receive_cases (caller : Caller) (c : MethodCall) (reply : Except RpcError Ack) :
    (c.method ≠ .close ∧ ∃ result, caller.receive c reply = { c with phase := .returned result }) ∨
      (c.method ≠ .close ∧ reply = .ok .retry ∧
        caller.receive c reply = { c with phase := .delaying, reply := none }) ∨
      (c.method = .close ∧ caller.receive c reply = { c with phase := .joining }) := by
  by_cases hm : c.method = .close
  · exact .inr <| .inr ⟨hm, caller.receive_close c reply hm⟩
  · rcases caller.receive_returns c reply hm with h | h
    · exact .inl ⟨hm, h⟩
    · exact .inr <| .inl ⟨hm, h⟩

theorem Caller.disconnected_cases (caller : Caller) (c : MethodCall) :
    (c.method ≠ .close ∧
      ∃ err, caller.disconnected c = { c with phase := .returned (.error err) }) ∨
      (c.method = .close ∧ caller.disconnected c = { c with phase := .joining }) := by
  by_cases hm : c.method = .close
  · exact .inr ⟨hm, caller.disconnected_close c hm⟩
  · exact .inl ⟨hm, caller.disconnected_fails c hm⟩

theorem CallStep.method (st : CallStep caller shut gone c c') : c'.method = c.method := by
  cases st <;> try rfl
  case closed =>
    rcases caller.closed_cases c with ⟨_, _, he⟩ | ⟨_, he⟩ <;> rw [he]
  case receive reply _ _ =>
    rcases caller.receive_cases c reply with ⟨_, _, he⟩ | ⟨_, _, he⟩ | ⟨_, he⟩ <;> rw [he]
  case disconnected =>
    rcases caller.disconnected_cases c with ⟨_, _, he⟩ | ⟨_, he⟩ <;> rw [he]

theorem CallStep.waiting (st : CallStep caller shut gone c c') (hg : ¬gone) (w : c.Waiting) :
    c'.Waiting := by
  cases st
  case cancel => exact .inl rfl
  case await => exact w
  case disconnected h _ _ => exact absurd h hg
  case receive awaiting answered => simp [MethodCall.Waiting, awaiting, answered] at w
  case register h | closed h | retry h | joined h => simp [MethodCall.Waiting, h] at w

theorem CallStep.asking (st : CallStep caller shut gone c c') (h : c.Asking → c.reply = none)
    (asking : c'.Asking) : c'.reply = none := by
  cases st
  case register registering => exact h <| .inl registering
  case retry delaying => exact h <| .inr <| .inr delaying
  case await => exact h asking
  case closed =>
    rcases caller.closed_cases c with ⟨_, _, he⟩ | ⟨_, he⟩
    all_goals simp [he, MethodCall.Asking] at asking
  case receive reply _ _ =>
    rcases caller.receive_cases c reply with ⟨_, _, he⟩ | ⟨_, _, he⟩ | ⟨_, he⟩
    · simp [he, MethodCall.Asking] at asking
    · simp [he]
    · simp [he, MethodCall.Asking] at asking
  case disconnected =>
    rcases caller.disconnected_cases c with ⟨_, _, he⟩ | ⟨_, he⟩ <;>
      simp [he, MethodCall.Asking] at asking
  case joined | cancel => simp [MethodCall.Asking] at asking

theorem CallStep.active (st : CallStep caller shut gone c c') : c.active := by
  cases st
  case cancel active => exact active
  case register h | closed h | receive h _ | disconnected h _ | retry h | await h | joined h =>
    simp [MethodCall.active, h]

theorem CallStep.unanswered (st : CallStep caller shut gone c c') (h : c.reply = none) :
    c'.reply = none := by
  cases st
  case receive answered => simp [h] at answered
  case closed => rcases caller.closed_cases c with ⟨_, _, he⟩ | ⟨_, he⟩ <;> simp [he, h]
  case disconnected => rcases caller.disconnected_cases c with ⟨_, _, he⟩ | ⟨_, he⟩ <;> simp [he, h]
  all_goals exact h

-- A call that does not wait for the lock will not do so.
theorem CallStep.not_registering (st : CallStep caller shut gone c c')
    (h : c.phase ≠ .registering) :
    c'.phase ≠ .registering := by
  cases st
  case register | retry | joined | cancel => nofun
  case await => exact h
  case closed =>
    rcases caller.closed_cases c with ⟨_, _, he⟩ | ⟨_, he⟩ <;> simp [he]
  case receive reply _ _ =>
    rcases caller.receive_cases c reply with ⟨_, _, he⟩ | ⟨_, _, he⟩ | ⟨_, he⟩ <;> simp [he]
  case disconnected =>
    rcases caller.disconnected_cases c with ⟨_, _, he⟩ | ⟨_, he⟩ <;> simp [he]

-- What one step does to the calls and to the responders that the actor holds. `gone` are the calls
-- whose responders have been dropped, `own` is the call whose step it is, `begins` are those that
-- it may begin, and `replies` are the answers that the actor may give in it.
inductive CallsStep (caller : Caller) (shut : Prop) (gone : ℕ → Prop) (own : Option ℕ)
    (begins : MethodCall → Prop) (replies : ℕ → Except RpcError Ack → Prop)
    (calls : List MethodCall) (responders : List ℕ) :
    List MethodCall → List ℕ → Prop
  | same {rest : List ℕ} (sub : rest.Sublist responders) :
    CallsStep caller shut gone own begins replies calls responders calls rest
  | call {c : MethodCall} (begun : begins c) :
    CallsStep caller shut gone own begins replies calls responders (calls ++ [c]) responders
  | send {i : ℕ} {c : MethodCall} (mine : own = some i) (handle : calls[i]? = some c)
    (sending : c.phase = .sending) :
    CallsStep caller shut gone own begins replies calls responders
      (calls.set i { c with phase := .awaiting }) (responders ++ [i])
  | step {i : ℕ} {c next : MethodCall} (mine : own = some i) (handle : calls[i]? = some c)
    (step : CallStep caller shut (gone i) c next) :
    CallsStep caller shut gone own begins replies calls responders (calls.set i next) responders
  | reply {resp : ℕ} {result : Except RpcError Ack} {others rest : List ℕ}
    (told : replies resp result) (perm : responders.Perm (resp :: others))
    (sub : rest.Sublist others) :
    CallsStep caller shut gone own begins replies calls responders
      (calls.modify resp fun c => { c with reply := some result }) rest

-- What becomes of one call.
inductive CallChange (caller : Caller) (shut gone owns : Prop)
    (replies : Except RpcError Ack → Prop)
    (c : MethodCall) : MethodCall → Prop
  | same : CallChange caller shut gone owns replies c c
  | send (mine : owns) (sending : c.phase = .sending) :
    CallChange caller shut gone owns replies c { c with phase := .awaiting }
  | step {next : MethodCall} (mine : owns) (step : CallStep caller shut gone c next) :
    CallChange caller shut gone owns replies c next
  | reply {result : Except RpcError Ack} (told : replies result) :
    CallChange caller shut gone owns replies c { c with reply := some result }

-- Each responder belongs to another call, which waits for it.
structure Owned (calls : List MethodCall) (responders : List ℕ) : Prop where
  nodup   : responders.Nodup
  waiting : ∀ i ∈ responders, ∃ c : MethodCall, calls[i]? = some c ∧ c.Waiting
  asking  : ∀ (i : ℕ) (c : MethodCall), calls[i]? = some c → c.Asking → c.reply = none

variable {gone : ℕ → Prop} {own : Option ℕ} {begins : MethodCall → Prop}
  {replies : ℕ → Except RpcError Ack → Prop} {calls calls' : List MethodCall} {rs rs' : List ℕ}

theorem CallChange.method {gone owns : Prop} {replies : Except RpcError Ack → Prop}
    (ch : CallChange caller shut gone owns replies c c') : c'.method = c.method := by
  cases ch
  case step st => exact st.method
  all_goals rfl

theorem CallsStep.change (st : CallsStep caller shut gone own begins replies calls rs calls' rs')
    (h' : calls'[i]? = some c') :
    (∃ c, calls[i]? = some c ∧ CallChange caller shut (gone i) (own = some i) (replies i) c c') ∨
      (i = calls.length ∧ begins c') := by
  cases st
  case same => exact .inl ⟨c', h', .same⟩
  case call c begun =>
    by_cases hl : i < calls.length
    case pos => exact .inl ⟨c', (List.getElem?_append_left hl).symm.trans h', .same⟩
    case neg =>
      rw [List.getElem?_append_right (Nat.le_of_not_lt hl), List.getElem?_singleton] at h'
      obtain ⟨hi, rfl⟩ := by simpa using h'
      exact .inr ⟨by omega, begun⟩
  case send c mine handle sending =>
    rcases List.getElem?_set_cases h' with ⟨rfl, rfl⟩ | ⟨_, h'⟩
    · exact .inl ⟨c, handle, .send mine sending⟩
    · exact .inl ⟨c', h', .same⟩
  case step c _ mine handle step =>
    rcases List.getElem?_set_cases h' with ⟨rfl, rfl⟩ | ⟨_, h'⟩
    · exact .inl ⟨c, handle, .step mine step⟩
    · exact .inl ⟨c', h', .same⟩
  case reply resp result _ told _ _ =>
    simp only [List.getElem?_modify, Option.map_eq_map, Option.map_eq_some_iff] at h'
    obtain ⟨c, hc, rfl⟩ := h'
    refine .inl ⟨c, hc, ?_⟩
    split
    case isTrue hi => exact .reply <| hi ▸ told
    case isFalse => exact .same

theorem CallsStep.length_le
    (st : CallsStep caller shut gone own begins replies calls rs calls' rs') :
    calls.length ≤ calls'.length := by
  cases st <;> simp

-- The calls keep their places.
theorem CallsStep.change_of_call
    (st : CallsStep caller shut gone own begins replies calls rs calls' rs')
    (h : calls[i]? = some c) :
    ∃ c', calls'[i]? = some c' ∧
      CallChange caller shut (gone i) (own = some i) (replies i) c c' := by
  have ⟨hl, _⟩ := List.getElem?_eq_some_iff.mp h
  have h' := List.getElem?_eq_getElem <| Nat.lt_of_lt_of_le hl st.length_le
  rcases st.change h' with ⟨_, h₀, ch⟩ | ⟨rfl, _⟩
  · cases h.symm.trans h₀
    exact ⟨_, h', ch⟩
  · simp at hl

theorem CallsStep.waiting (ow : Owned calls rs) (hg : ∀ i ∈ rs, ¬gone i)
    (st : CallsStep caller shut gone own begins replies calls rs calls' rs') :
    rs'.Nodup ∧ ∀ i ∈ rs', ∃ c : MethodCall, calls'[i]? = some c ∧ c.Waiting := by
  have ⟨nodup, waiting, asking⟩ := ow
  cases st
  case same sub => exact ⟨nodup.sublist sub, fun i hi => waiting i <| sub.subset hi⟩
  case call =>
    refine ⟨nodup, fun i hi => ?_⟩
    have ⟨c, h, w⟩ := waiting i hi
    have ⟨hl, _⟩ := List.getElem?_eq_some_iff.mp h
    exact ⟨c, by rwa [List.getElem?_append_left hl], w⟩
  case send j c _ handle sending =>
    have hj : j ∉ rs := by
      intro hj
      have ⟨_, h, w⟩ := waiting j hj
      cases handle.symm.trans h
      exact w.not_asking <| .inr <| .inl sending
    refine ⟨?_, fun i hi => ?_⟩
    · exact nodup.append (List.nodup_singleton j) (by simpa using hj)
    rcases List.mem_append.mp hi with hi | hi
    · have ⟨c', h, w⟩ := waiting i hi
      have ne : j ≠ i := fun he => hj (he ▸ hi)
      exact ⟨c', by rwa [List.getElem?_set_ne ne], w⟩
    · cases List.mem_singleton.mp hi
      have ⟨hl, _⟩ := List.getElem?_eq_some_iff.mp handle
      exact ⟨_, List.getElem?_set_self hl, .inr ⟨rfl, asking _ c handle <| .inr <| .inl sending⟩⟩
  case step j c next _ handle step =>
    refine ⟨nodup, fun i hi => ?_⟩
    refine List.exists_getElem?_set handle (waiting i hi) fun hj w => ?_
    subst hj
    exact step.waiting (hg j hi) w
  case reply j result others told perm sub =>
    have ⟨hj, nodup⟩ := List.nodup_cons.mp <| perm.nodup nodup
    refine ⟨nodup.sublist sub, fun i hi => ?_⟩
    have hi := sub.subset hi
    have ⟨c, h, w⟩ := waiting i <| perm.mem_iff.mpr <| List.mem_cons_of_mem _ hi
    have ne : j ≠ i := fun he => hj (he ▸ hi)
    exact ⟨c, by simp [ne, h], w⟩

theorem CallsStep.owned (ow : Owned calls rs) (hg : ∀ i ∈ rs, ¬gone i)
    (hb : ∀ c, begins c → c.Asking ∧ c.reply = none) (hr : ∀ i result, replies i result → i ∈ rs)
    (st : CallsStep caller shut gone own begins replies calls rs calls' rs') :
    Owned calls' rs' := by
  have ⟨nodup, waiting⟩ := st.waiting ow hg
  refine ⟨nodup, waiting, fun i c' h' asking => ?_⟩
  rcases st.change h' with ⟨c, h, ch⟩ | ⟨_, begun⟩
  case inr => exact (hb c' begun).right
  case inl =>
    cases ch
    case same    => exact ow.asking i c' h asking
    case send _  => simp [MethodCall.Asking] at asking
    case step st => exact st.asking (ow.asking i c h) asking
    case reply told =>
      have ⟨_, h₀, w⟩ := ow.waiting i <| hr i _ told
      cases h.symm.trans h₀
      exact absurd asking w.not_asking

-- No call whose responder is on its way has been answered.
theorem CallsStep.unreplied (ow : Owned calls rs)
    (st : CallsStep caller shut gone own begins replies calls rs calls' rs')
    (h : ∀ i ∈ rs, ∀ c, calls[i]? = some c → c.reply = none) :
    ∀ i ∈ rs', ∀ c, calls'[i]? = some c → c.reply = none := by
  intro i hi c' h'
  cases st
  case same sub => exact h i (sub.subset hi) c' h'
  case call =>
    have ⟨_, hc, _⟩ := ow.waiting i hi
    have ⟨hl, _⟩ := List.getElem?_eq_some_iff.mp hc
    exact h i hi c' <| (List.getElem?_append_left hl).symm.trans h'
  case send j c _ handle sending =>
    rcases List.getElem?_set_cases h' with ⟨rfl, rfl⟩ | ⟨ne, h'⟩
    · exact ow.asking i c handle <| .inr <| .inl sending
    · exact h i (by simpa [ne] using hi) c' h'
  case step j c next _ handle step =>
    rcases List.getElem?_set_cases h' with ⟨rfl, rfl⟩ | ⟨_, h'⟩
    · exact step.unanswered <| h i hi c handle
    · exact h i hi c' h'
  case reply resp result others told perm sub =>
    have ⟨hr, _⟩ := List.nodup_cons.mp <| perm.nodup ow.nodup
    have hi := sub.subset hi
    have ne : resp ≠ i := fun he => hr (he ▸ hi)
    apply h i (perm.mem_iff.mpr <| List.mem_cons_of_mem _ hi) c'
    simpa [ne] using h'

end RumqttcTransport

namespace TaskList

open RumqttcTransport (MethodCall CallsStep CallChange)

variable {tasks tasks' : TaskList} {i : ℕ} {c c' : MethodCall} {calls : List MethodCall}
  {stopped done : Bool}

-- What a step of the `i`-th call does to the list.
inductive Step (tasks : TaskList) (i : ℕ) (c c' : MethodCall) : TaskList → Prop
  | same (other : c.phase ≠ .joining) : Step tasks i c c' tasks
  | await (method : c'.method = .close) (joining : c'.phase = .joining) :
    Step tasks i c c' (.joining i)
  | leave {next : TaskList} (left : ∀ j, next = .joining j → j ≠ i ∧ tasks = .joining j) :
    Step tasks i c c' next

theorem join_step (h : tasks.join i stopped = some (tasks', done)) (method : c.method = .close)
    (joining : c.phase = .joining) :
    tasks.Step i c (if done then { c with phase := .returned (.ok ()) } else c) tasks' := by
  cases tasks <;> simp only [join] at h
  case spawned | empty => cases h; exact .leave nofun
  case pushed => cases h; exact .await method joining
  case joining j =>
    split at h <;> cases h
    exact .leave nofun

theorem cancel_step : tasks.Step i c c' (tasks.cancel i) := by
  refine .leave fun j h => ?_
  simp only [cancel] at h
  split at h
  case isTrue => cases h
  case isFalse hi => exact ⟨fun hj => hi (hj ▸ h), h⟩

-- Whoever awaits the handle is a call of `close` that has come that far.
def Awaited (tasks : TaskList) (calls : List MethodCall) : Prop :=
  ∀ j, tasks = .joining j →
    ∃ c : MethodCall, calls[j]? = some c ∧ c.method = .close ∧ c.phase = .joining

theorem Awaited.step (aw : tasks.Awaited calls) (handle : calls[i]? = some c)
    (st : tasks.Step i c c' tasks') : tasks'.Awaited (calls.set i c') := by
  intro j hj
  have others (ne : j ≠ i) (h : tasks = .joining j) : ∃ c : MethodCall,
      (calls.set i c')[j]? = some c ∧ c.method = .close ∧ c.phase = .joining := by
    rw [List.getElem?_set_ne ne.symm]
    exact aw j h
  cases st
  case same other =>
    refine others (fun he => ?_) hj
    subst he
    have ⟨_, h, _, hp⟩ := aw j hj
    cases handle.symm.trans h
    exact other hp
  case await method joining =>
    cases hj
    have ⟨hl, _⟩ := List.getElem?_eq_some_iff.mp handle
    exact ⟨c', List.getElem?_set_self hl, method, joining⟩
  case leave left => exact others (left j hj).left (left j hj).right

-- No other step touches a call that awaits the handle.
theorem Awaited.keep {caller : RumqttcTransport.Caller} {shut : Prop} {gone : ℕ → Prop}
    {own : Option ℕ}
    {begins : MethodCall → Prop} {replies : ℕ → Except RpcError Ack → Prop}
    {calls' : List MethodCall} {rs rs' : List ℕ} (aw : tasks.Awaited calls)
    (st : CallsStep caller shut gone own begins replies calls rs calls' rs')
    (other : ∀ i, own = some i → ∃ c, calls[i]? = some c ∧ c.phase ≠ .joining) :
    tasks.Awaited calls' := by
  intro j hj
  have ⟨c, h, method, hp⟩ := aw j hj
  have ⟨c', h', ch⟩ := st.change_of_call h
  refine ⟨c', h', ch.method.trans method, ?_⟩
  have other (mine : own = some j) : c'.phase = .joining := by
    have ⟨_, h₀, ne⟩ := other j mine
    cases h.symm.trans h₀
    exact absurd hp ne
  cases ch
  case same | reply => exact hp
  case send mine _ | step mine _ => exact other mine

end MomRpc.TaskList
