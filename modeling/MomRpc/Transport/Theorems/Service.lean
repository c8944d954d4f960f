import MomRpc.Transport.Service

namespace MomRpc.Service

open RumqttcTransport

variable {S A : Type} {sv : Service S A} {shut : S → Prop} {responders : S → List ℕ}
    {own : A → Option ℕ}
  {begins : A → MethodCall → Prop} {replies : S → A → ℕ → Except RpcError Ack → Prop}
  {s s' t : S} {as bs : List A} {i : ℕ} {c c' : MethodCall} {P : S → Prop}

theorem Executed.concat {a : A} (h : sv.Executed as i) : sv.Executed (as ++ [a]) i :=
  let ⟨xs, b, ys, t, he, r, hx⟩ := h
  ⟨xs, b, ys ++ [a], t, by simp [he], r, hx⟩

section CallStep

variable {caller : Caller} {shut gone : Prop}

-- How a call can come to succeed.
theorem success_of_step (st : CallStep caller shut gone c c') (hm : c.method ≠ .close)
    (h : c'.phase = .returned (.ok ()) ∨ ∃ reply, c'.reply = some reply ∧
      caller.Succeeds c'.method reply) :
    c.phase = .returned (.ok ()) ∨ ∃ reply, c.reply = some reply ∧
      caller.Succeeds c.method reply := by
  have method := st.method
  cases st
  case register | retry | cancel => exact .inr <| by simpa using h
  case await => exact h
  case joined hc _ => exact absurd hc hm
  case closed =>
    have ⟨_, he⟩ := caller.closed_fails c hm
    exact .inr <| by simpa [he] using h
  case disconnected =>
    have ⟨_, he⟩ := caller.disconnected_fails c hm
    exact .inr <| by simpa [he] using h
  case receive reply _ answered =>
    refine .inr ⟨reply, answered, ?_⟩
    rcases caller.receive_returns c reply hm with ⟨_, he⟩ | ⟨_, he⟩
    · rcases h with h | ⟨told, hr, h⟩
      · exact ⟨c, rfl, h⟩
      · replace hr : c.reply = some told := by simpa [he] using hr
        cases answered.symm.trans hr
        exact method ▸ h
    · simp [he] at h

-- A call that nobody has answered and that will not be answered fails, unless it is to close.
theorem later_of_step (st : CallStep caller shut gone c c') (hr : c.reply = none)
    (h : ∀ result, c.phase = .returned result → (result = .ok () ↔ c.method = .close)) :
    c'.reply = none ∧
      ∀ result, c'.phase = .returned result → (result = .ok () ↔ c'.method = .close) := by
  cases st
  case register | retry | cancel => exact ⟨hr, nofun⟩
  case await => exact ⟨hr, h⟩
  case receive answered => simp [hr] at answered
  case joined hm _ => exact ⟨hr, fun _ h => by cases h; simp [hm]⟩
  case closed =>
    rcases caller.closed_cases c with ⟨hm, _, he⟩ | ⟨_, he⟩
    · exact ⟨by simp [he, hr], fun _ h => by simp [he] at h; simp [he, hm, ← h]⟩
    · exact ⟨by simp [he, hr], fun _ h => by simp [he] at h⟩
  case disconnected =>
    rcases caller.disconnected_cases c with ⟨hm, _, he⟩ | ⟨_, he⟩
    · exact ⟨by simp [he, hr], fun _ h => by simp [he] at h; simp [he, hm, ← h]⟩
    · exact ⟨by simp [he, hr], fun _ h => by simp [he] at h⟩

theorem joining_of_step (st : CallStep caller shut gone c c')
    (h : c.phase = .joining → c.method = .close) : c'.phase = .joining → c'.method = .close := by
  cases st
  case register | retry | cancel | joined => simp
  case await => exact h
  case closed =>
    rcases caller.closed_cases c with ⟨_, _, he⟩ | ⟨_, he⟩ <;> simp [he]
  case receive reply _ _ =>
    rcases caller.receive_cases c reply with ⟨_, _, he⟩ | ⟨_, _, he⟩ | ⟨hm, he⟩
    · simp [he]
    · simp [he]
    · simp [he, hm]
  case disconnected =>
    rcases caller.disconnected_cases c with ⟨_, _, he⟩ | ⟨hm, he⟩
    · simp [he]
    · simp [he, hm]

end CallStep

namespace Lawful

variable (law : sv.Lawful shut responders own begins replies)

include law in
theorem stopped_exec (h : sv.machine.exec s bs = some t) (hs : sv.stopped s) : sv.stopped t :=
  Machine.exec_stable h hs fun s a s' _ hs hn => law.stays s a s' hs hn

include law in
theorem joining_close (r : sv.machine.Reachable s) (h : (sv.calls s)[i]? = some c)
    (hp : c.phase = .joining) : c.method = .close := by
  induction s, r using Machine.Reachable.induction_on generalizing c
  case init => simp [law.init] at h
  case step s a s' r hn ih =>
    rcases (law.step s a s' r hn).change h with ⟨c₀, h₀, ch⟩ | ⟨_, begun⟩
    case inr =>
      have ⟨asking, _⟩ := law.begins a c begun
      simp [MethodCall.Asking, hp] at asking
    case inl =>
      cases ch
      case same => exact ih h₀ hp
      case send => simp at hp
      case step st => exact joining_of_step st (ih h₀) hp
      case reply => exact ih (c := c₀) h₀ hp

-- Whatever lets a call succeed has been preceded by the execution of its command.
include law in
theorem executed (r : sv.machine.Run as s) (h : (sv.calls s)[i]? = some c)
    (hm : c.method ≠ .close)
    (hc : c.phase = .returned (.ok ()) ∨ ∃ reply, c.reply = some reply ∧
      sv.caller.Succeeds c.method reply) : sv.Executed as i := by
  induction as, s, r using Machine.Run.induction_on generalizing c
  case init => simp [law.init] at h
  case step as s a s' r hn ih =>
    rcases (law.step s a s' r.reachable hn).change h with ⟨c₀, h₀, ch⟩ | ⟨_, begun⟩
    case inr =>
      have ⟨asking, hr⟩ := law.begins a c begun
      rcases hc with hp | ⟨_, hc, _⟩
      · simp [MethodCall.Asking, hp] at asking
      · simp [hr] at hc
    case inl =>
      replace hm : c₀.method ≠ .close := ch.method ▸ hm
      cases ch
      case same => exact ih h₀ hm hc |>.concat
      case send => exact ih h₀ hm (.inr <| by simpa using hc) |>.concat
      case step st => exact ih h₀ hm (success_of_step st hm hc) |>.concat
      case reply result told =>
        rcases hc with hp | ⟨_, hr, hc⟩
        · exact ih h₀ hm (.inl hp) |>.concat
        · cases hr
          exact law.success as s a s' i c₀ result r hn told h₀ hm hc

include law in
theorem later (r : sv.machine.Reachable s) (hs : sv.stopped s) (he : sv.machine.exec s bs = some t)
    (hl : (sv.calls s).length ≤ i) (h : (sv.calls t)[i]? = some c) :
    c.reply = none ∧
      ∀ result, c.phase = .returned result → (result = .ok () ↔ c.method = .close) := by
  induction bs using List.reverseRecOn generalizing t c
  case nil =>
    cases he
    rw [List.getElem?_eq_none hl] at h
    cases h
  case append_singleton bs a ih =>
    obtain ⟨u, he, hn⟩ := Machine.exec_concat_iff.mp he
    have ru := r.exec he
    rcases (law.step u a t ru hn).change h with ⟨c₀, h₀, ch⟩ | ⟨_, begun⟩
    case inr =>
      obtain ⟨asking, hr⟩ := law.begins a c begun
      exact ⟨hr, fun _ hp => by simp [MethodCall.Asking, hp] at asking⟩
    case inl =>
      obtain ⟨hr, hp⟩ := ih he h₀
      cases ch
      case same => exact ⟨hr, hp⟩
      case send => exact ⟨hr, by simp⟩
      case step st => exact later_of_step st hr hp
      case reply result told =>
        have hi := law.told u a i result ru told
        simp [law.dropped u ru <| law.stopped_exec he hs] at hi

end Lawful

section Returning

variable (law : sv.Lawful shut responders own begins replies) (ret : sv.Returning)
  (r : sv.machine.Reachable s) (hs : sv.stopped s) (h : (sv.calls s)[i]? = some c)

include law in
theorem CanReturn.after (r : sv.machine.Reachable s) (hs : sv.stopped s) (hl : sv.Leads s P)
    (k : ∀ t, sv.machine.Reachable t → sv.stopped t → P t → sv.CanReturn t i) :
    sv.CanReturn s i := by
  have ⟨as, t, hA, he, hp⟩ := hl
  have hl : sv.Leads s fun t => sv.stopped t ∧ P t :=
    ⟨as, t, hA, he, law.stopped_exec he hs, hp⟩
  exact Machine.Leads.trans r hl fun t rt ⟨hs, hp⟩ => k t rt hs hp

theorem CanReturn.here {result : Except RpcError Unit} (h : (sv.calls s)[i]? = some c)
    (hp : c.phase = .returned result) : sv.CanReturn s i :=
  Machine.Leads.here ⟨c, result, h, hp⟩

include law ret r hs h

theorem canReturn_joining (hp : c.phase = .joining) : sv.CanReturn s i :=
  ret.join s i c r hs h (law.joining_close r h hp) hp

theorem canReturn_closing (hm : c.method = .close) (hp : c.phase = .awaiting) :
    sv.CanReturn s i := by
  cases hr : c.reply
  case none =>
    refine .after law r hs (ret.disconnected s i c r hs h ⟨hp, hr⟩) fun t rt hs h => ?_
    exact canReturn_joining law ret rt hs h <| by simp [sv.caller.disconnected_close c hm]
  case some reply =>
    refine .after law r hs (ret.receive s i c reply r hs h hp hr) fun t rt hs h => ?_
    exact canReturn_joining law ret rt hs h <| by simp [sv.caller.receive_close c reply hm]

theorem canReturn_sending (hp : c.phase = .sending) : sv.CanReturn s i := by
  refine .after law r hs (ret.send s i c r hs h hp) fun t rt hs h => ?_
  rcases sv.caller.closed_cases c with ⟨_, _, he⟩ | ⟨hm, he⟩
  · exact .here h <| by rw [he]
  · exact canReturn_closing law ret rt hs h (by simp [he, hm]) (by simp [he])

theorem canReturn_delaying (hp : c.phase = .delaying) : sv.CanReturn s i := by
  refine .after law r hs (ret.retry s i c r hs h hp) fun t rt hs h => ?_
  exact canReturn_sending law ret rt hs h rfl

theorem canReturn_awaiting (hp : c.phase = .awaiting) : sv.CanReturn s i := by
  by_cases hm : c.method = .close
  case pos => exact canReturn_closing law ret r hs h hm hp
  case neg =>
    cases hr : c.reply
    case none =>
      refine .after law r hs (ret.disconnected s i c r hs h ⟨hp, hr⟩) fun t rt hs h => ?_
      have ⟨_, he⟩ := sv.caller.disconnected_fails c hm
      exact .here h <| by rw [he]
    case some reply =>
      refine .after law r hs (ret.receive s i c reply r hs h hp hr) fun t rt hs h => ?_
      rcases sv.caller.receive_returns c reply hm with ⟨_, he⟩ | ⟨_, he⟩
      · exact .here h <| by rw [he]
      · exact canReturn_delaying law ret rt hs h <| by rw [he]

theorem canReturn (active : c.active) : sv.CanReturn s i := by
  cases hp : c.phase <;> simp [MethodCall.active, hp] at active
  case registering =>
    refine .after law r hs (ret.register s i c r hs h hp) fun t rt hs h => ?_
    exact canReturn_sending law ret rt hs h rfl
  case sending  => exact canReturn_sending law ret r hs h hp
  case awaiting => exact canReturn_awaiting law ret r hs h hp
  case delaying => exact canReturn_delaying law ret r hs h hp
  case joining  => exact canReturn_joining law ret r hs h hp

end Returning

section Join

variable {tasks : S → TaskList} {join : ℕ → A}

-- The step of `close` in which a call takes the actor's handle or returns. The actor has stopped.
def Joins (sv : Service S A) (tasks : S → TaskList) (join : ℕ → A) : Prop :=
  ∀ s (i : ℕ) (c : MethodCall) left done, sv.stopped s → (sv.calls s)[i]? = some c →
    c.method = .close → c.phase = .joining → (tasks s).join i true = some (left, done) →
    ∃ t, sv.machine.next s (join i) = some t ∧ tasks t = left ∧
      sv.calls t = (sv.calls s).set i (if done then { c with phase := .returned (.ok ()) } else c)

variable (joins : sv.Joins tasks join) (other : ∀ i j, join i ≠ sv.cancel j) (hs : sv.stopped s)
  (h : (sv.calls s)[i]? = some c) (hm : c.method = .close) (hp : c.phase = .joining)

include joins other hs h hm hp

theorem canReturn_done {left : TaskList} (hj : (tasks s).join i true = some (left, true)) :
    sv.CanReturn s i := by
  have ⟨t, hn, _, hc⟩ := joins s i c left true hs h hm hp hj
  have ⟨hl, _⟩ := List.getElem?_eq_some_iff.mp h
  have h' : (sv.calls t)[i]? = some { c with phase := .returned (.ok ()) } := by
    rw [hc, if_pos rfl, List.getElem?_set_self hl]
  exact .single (other i) hn ⟨_, _, h', rfl⟩

-- A call waits for at most one other, which can return at once.
theorem canReturn_join (stays : ∀ s a s', sv.stopped s → sv.machine.next s a = some s' →
    sv.stopped s') (awaited : (tasks s).Awaited (sv.calls s)) : sv.CanReturn s i := by
  have ⟨hl, _⟩ := List.getElem?_eq_some_iff.mp h
  cases ht : tasks s
  case spawned | empty => exact canReturn_done joins other hs h hm hp <| by rw [ht]; rfl
  case pushed =>
    have ⟨t, hn, ht, hc⟩ := joins s i c (.joining i) false hs h hm hp <| by rw [ht]; rfl
    have h : (sv.calls t)[i]? = some c := by simpa [hc] using List.getElem?_set_self hl
    refine .step (other i) hn ?_
    exact canReturn_done joins other (stays s _ t hs hn) h hm hp <| by
      rw [ht]; exact if_pos ⟨rfl, rfl⟩
  case joining j =>
    by_cases hj : j = i
    case pos =>
      subst hj
      exact canReturn_done joins other hs h hm hp <| by rw [ht]; exact if_pos ⟨rfl, rfl⟩
    case neg =>
      have ⟨d, h', hm', hp'⟩ := awaited j ht
      have ⟨t, hn, ht, hc⟩ := joins s j d .empty true hs h' hm' hp' <| by
        rw [ht]; exact if_pos ⟨rfl, rfl⟩
      replace h : (sv.calls t)[i]? = some c := by rwa [hc, List.getElem?_set_ne hj]
      refine .step (other j) hn ?_
      exact canReturn_done joins other (stays s _ t hs hn) h hm hp <| by rw [ht]; rfl

end Join

theorem noCallerLeft (law : sv.Lawful shut responders own begins replies) (ret : sv.Returning)
    (r : sv.machine.Run as s)
    (waiting : ∀ (i : ℕ) (c : MethodCall), (sv.calls s)[i]? = some c → c.Unanswered →
      sv.CanSettle s i) :
    sv.NoCallerLeft as s where
  resolved hs i c h active := canReturn law ret r.reachable hs h active
  executed i c h hm hp := law.executed r h hm <| .inl hp
  later xs ys t he rt hs i c result hl h := by
    subst he
    have ⟨t', rt', he⟩ := r.split
    cases rt.deterministic rt'
    exact (law.later rt.reachable hs he hl h).right result
  waiting := waiting

end MomRpc.Service
