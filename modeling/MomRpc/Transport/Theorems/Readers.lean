import MomRpc.Transport.Dds
import MomRpc.Transport.Theorems.ActorCalls

theorem Except.bind_eq_ok_iff {ε α β : Type} {x : Except ε α} {f : α → Except ε β} {b : β} :
    (x >>= f) = .ok b ↔ ∃ a, x = .ok a ∧ f a = .ok b := by
  cases x <;> simp [bind, Except.bind]

namespace MomRpc

namespace RumqttcTransport.MethodCall

def subscribes (c : MethodCall) (topic : String) : Bool :=
  match c.method with
  | .subscribe topic' => topic' = topic
  | _                 => false

-- The actor has told the call that its topic is subscribed.
def served (c : MethodCall) (topic : String) : Bool :=
  c.subscribes topic && c.reply matches some (.ok .ok)

end RumqttcTransport.MethodCall

namespace DdsActor

open RumqttcTransport

variable {dds : Dds} {m m' : Actor (kind dds)} {act : Actor.Action Event Outcome} {topic : String}

def readersOn (s : DdsActor) (topic : String) : ℕ :=
  s.readers.countP (·.topic = topic)

theorem subscribes_iff {c : MethodCall} : c.subscribes topic ↔ c.method = .subscribe topic := by
  simp only [MethodCall.subscribes]
  split <;> simp_all

theorem served_of_unreplied {c : MethodCall} (h : c.reply = none) : c.served topic = false := by
  simp [MethodCall.served, h]

-- A call by itself never comes to be served.
theorem served_step {tid : String} {shut gone : Prop} {c c' : MethodCall}
    (st : CallStep (DustddsTransport.caller tid) shut gone c c') :
    c'.served topic = c.served topic := by
  cases st <;> try rfl
  case closed =>
    rcases (DustddsTransport.caller tid).closed_cases c with ⟨_, _, he⟩ | ⟨_, he⟩
    all_goals rw [he]; rfl
  case receive reply _ answered =>
    rcases (DustddsTransport.caller tid).receive_cases c reply with
      ⟨_, _, he⟩ | ⟨_, rfl, he⟩ | ⟨_, he⟩ <;> rw [he]
    · rfl
    · simp [MethodCall.served, answered]
    · rfl
  case disconnected =>
    rcases (DustddsTransport.caller tid).disconnected_cases c with ⟨_, _, he⟩ | ⟨_, he⟩ <;>
      rw [he] <;> rfl

theorem served_of_method {c : MethodCall} (h : ∀ topic, c.method ≠ .subscribe topic) :
    c.served topic = false := by
  cases hs : c.subscribes topic
  case false => simp [MethodCall.served, hs]
  case true  => exact absurd (subscribes_iff.mp hs) <| h topic

-- All that one event can do to the readers and to the subscribers.
inductive Worked (dds : Dds) (s : DdsActor) (f : Fanout ℕ) : Event → DdsActor → Fanout ℕ → Prop
  | sample {topic data} : Worked dds s f (.sample topic data) (s.sample topic data) f
  | take {r reader data samples f'} (handle : s.readers[r]? = some reader)
    (waiting : reader.samples = data :: samples) (alive : reader.ended = false)
    (taken : f.handleIncoming dds.fromSlice r reader.topic data = some f') :
    Worked dds s f (.take r) { s with readers := s.readers.set r { reader with samples } } f'
  | trySend {r i f'} (sent : f.trySend r i = some f') : Worked dds s f (.trySend r i) s f'
  | writeBack {r f'} (written : f.writeBack r = some f') : Worked dds s f (.writeBack r) s f'
  | ended {r reader} (handle : s.readers[r]? = some reader) (idle : f.incoming r = .idle) :
    Worked dds s f (.ended r) { s with readers := s.readers.set r { reader with ended := true } } f

theorem task_worked {phase : Actor.Phase} {s s' : DdsActor} {f f' : Fanout ℕ}
    {lock lock' : List Actor.Waiter} {event : Event}
    (h : (kind dds).task phase s f lock event = some (s', f', lock')) :
    Worked dds s f event s' f' := by
  replace h : s.task dds f event = some (s', f') := by
    cases phase <;> simp only [kind, Option.map_eq_some_iff, reduceCtorEq] at h
    all_goals
      obtain ⟨⟨_, _⟩, h, he⟩ := h
      cases he
      exact h
  cases event <;> simp only [task, Option.map_eq_some_iff] at h
  case sample => cases h; exact .sample
  case take r =>
    simp only [take] at h
    split at h <;> try cases h
    case _ handle =>
      split at h <;> try cases h
      case _ waiting =>
        split at h <;> try cases h
        case _ alive =>
          obtain ⟨_, taken, he⟩ := Option.map_eq_some_iff.mp h
          cases he
          exact .take handle waiting (by simpa using alive) taken
  case trySend =>
    obtain ⟨_, sent, he⟩ := h
    cases he
    exact .trySend sent
  case writeBack =>
    obtain ⟨_, written, he⟩ := h
    cases he
    exact .writeBack written
  case ended r =>
    obtain ⟨_, h, he⟩ := h
    cases he
    simp only [endReader] at h
    split at h <;> cases h
    case _ handle idle => exact .ended handle idle

def give (topic : String) (data : Bytes) (r : DdsReader) : DdsReader :=
  if r.topic = topic ∧ ¬r.ended then { r with samples := r.samples ++ [data] } else r

theorem sample_eq {s : DdsActor} {data : Bytes} :
    s.sample topic data = { s with readers := s.readers.map (give topic data) } :=
  rfl

@[simp]
theorem give_topic {topic' : String} {data : Bytes} {r : DdsReader} :
    (give topic' data r).topic = r.topic := by
  simp only [give]
  split <;> rfl

-- The tasks leave the readers' topics as they are.
theorem Worked.readersOn {s s' : DdsActor} {f f' : Fanout ℕ} {event : Event}
    (w : Worked dds s f event s' f') : s'.readersOn topic = s.readersOn topic := by
  cases w <;> try rfl
  case sample           => simp [DdsActor.readersOn, sample_eq, List.countP_map, Function.comp_def]
  case take handle _ _ _ => exact List.countP_set_eq handle rfl
  case ended handle _    => exact List.countP_set_eq handle rfl

theorem ensureWriter_same {s s' : DdsActor} {calls : WriterCalls}
    (h : s.ensureWriter topic calls = .ok s') :
    s'.readers = s.readers ∧ s'.written = s.written := by
  simp only [ensureWriter] at h
  split at h
  case isTrue => cases h; exact ⟨rfl, rfl⟩
  case isFalse =>
    obtain ⟨_, _, h⟩ := Except.bind_eq_ok_iff.mp h
    obtain ⟨_, _, h⟩ := Except.bind_eq_ok_iff.mp h
    obtain ⟨_, _, h⟩ := Except.bind_eq_ok_iff.mp h
    obtain ⟨_, _, h⟩ := Except.bind_eq_ok_iff.mp h
    cases h
    exact ⟨rfl, rfl⟩

-- All that the handling of a command can do.
inductive Executed (dds : Dds) (s : DdsActor) : Cmd → DdsActor → Except RpcError Unit → Prop
  | published {env resp s' ddsEnv} (serialized : tryFrom dds env = .ok ddsEnv)
    (readers : s'.readers = s.readers) (written : s'.written = s.written ++ [ddsEnv]) :
    Executed dds s (.publish env resp) s' (.ok ())
  | subscribed {topic resp} : Executed dds s (.subscribe topic resp)
    { s with readers := s.readers ++ [{ topic }] } (.ok ())
  | failed {cmd s' err} (readers : s'.readers = s.readers) (written : s'.written = s.written) :
    Executed dds s cmd s' (.error err)

theorem handlePublish_executed {s : DdsActor} {env : Envelope} {resp : ℕ} {writer : WriterCalls}
    {reader : MatchCalls} {write : Except String Unit} :
    Executed dds s (.publish env resp) (s.handlePublish dds topic env writer reader write).1
      (s.handlePublish dds topic env writer reader write).2 := by
  simp only [handlePublish]
  split
  case h_1 => exact .failed rfl rfl
  case h_2 s' ensured =>
    have ⟨readers, written⟩ := ensureWriter_same ensured
    split
    case h_1 => exact .failed readers written
    case h_2 ddsEnv prepared =>
      refine .published ?_ readers <| congrArg (· ++ [ddsEnv]) written
      split at prepared <;> try cases prepared
      obtain ⟨_, _, h⟩ := Except.bind_eq_ok_iff.mp prepared
      obtain ⟨_, serialized, h⟩ := Except.bind_eq_ok_iff.mp h
      obtain ⟨_, _, h⟩ := Except.bind_eq_ok_iff.mp h
      cases h
      exact serialized

theorem execute_executed {s s' : DdsActor} {cmd : Cmd} {outcome : Outcome}
    {result : Except RpcError Unit} (h : s.execute dds cmd outcome = some (s', result)) :
    Executed dds s cmd s' result := by
  simp only [execute] at h
  split at h <;> simp only [Option.some.injEq, reduceCtorEq] at h
  case h_1 =>
    obtain ⟨rfl, rfl⟩ := Prod.ext_iff.mp h
    exact handlePublish_executed
  case h_2 =>
    simp only [createReader] at h
    split at h <;> cases h
    · exact .failed rfl rfl
    · exact .subscribed

-- There is a reader for each call of `subscribe` that the actor has answered with `Ok`.
theorem readersOn_eq (r : (Actor.machine (kind dds)).Reachable m) :
    m.state.readersOn topic = m.calls.countP (·.served topic) := by
  induction m, r using Machine.Reachable.induction_on
  case init => rfl
  case step m act m' r hn ih =>
    have pending {cmd} (hc : cmd ∈ m.pending) := (Actor.consistent r).pending cmd hc
    cases Actor.next_step hn <;> try exact ih
    case call | subscribe => simpa [MethodCall.served] using ih
    case register handle _ _ _ _ => exact ih.trans <| Eq.symm <| List.countP_set_eq handle rfl
    case send handle _ _ _ => exact ih.trans <| Eq.symm <| List.countP_set_eq handle rfl
    case caller handle step _ _ _ =>
      exact ih.trans <| Eq.symm <| List.countP_set_eq handle <| served_step step
    case drain drains _ => cases drains
    case leave resp commands receiving _ received =>
      obtain ⟨c, h, hc⟩ := pending <| Actor.pending_recv receiving received ▸ List.mem_cons_self ..
      refine ih.trans <| Eq.symm <| List.countP_modify_eq fun c₀ h₀ => ?_
      have other topic : c₀.method ≠ .subscribe topic := by
        cases h.symm.trans h₀
        intro hm
        simp [MethodCall.cmd, hm] at hc
      rw [served_of_method other]
      exact served_of_method other
    case defer deferred => cases deferred
    case begin started => cases started; exact ih
    case execute cmd outcome state result handling executed =>
      have hp := Actor.pending_of_handling handling ▸ List.mem_cons_self ..
      obtain ⟨c, h, hc⟩ := pending hp
      have unreplied := Actor.unreplied r (List.mem_map_of_mem (f := Cmd.resp) hp) h
      have unserved {reply : Except RpcError Ack}
          (hr : { c with reply := some reply }.served topic = false) :
          m.calls.countP (·.served topic) =
            (m.reply cmd.resp reply).calls.countP (·.served topic) := by
        refine Eq.symm <| List.countP_modify_eq fun c₀ h₀ => ?_
        cases h.symm.trans h₀
        rw [served_of_unreplied unreplied]
        exact hr
      cases execute_executed executed
      case published readers _ =>
        refine (congrArg _ readers).trans <| ih.trans <| unserved ?_
        refine served_of_method fun topic hm => ?_
        simp [MethodCall.cmd, show c.method = .subscribe topic from hm] at hc
      case failed readers _ =>
        refine (congrArg _ readers).trans <| ih.trans <| unserved ?_
        simp [MethodCall.served, Except.map]
      case subscribed topic' resp =>
        obtain ⟨hm, _⟩ := MethodCall.cmd_subscribe hc
        by_cases ht : topic' = topic
        case pos =>
          have told : MethodCall.served { c with reply := some (.ok .ok) } topic := by
            simp [MethodCall.served, MethodCall.subscribes, hm, ht]
          refine .trans ?_ <| Eq.symm <|
            List.countP_modify_succ h (served_of_unreplied unreplied) told
          simpa [DdsActor.readersOn, ht] using ih
        case neg =>
          refine .trans ?_ <| ih.trans <| unserved ?_
          · simp [DdsActor.readersOn, ht]
          · simp [MethodCall.served, MethodCall.subscribes, hm, ht]
    case finish finished =>
      simp only [kind] at finished
      split at finished <;> cases finished
      exact ih
    case task acted => exact (task_worked acted).readersOn.trans ih

-- A call of `subscribe` returns `Ok` only on the actor's answer.
theorem served_of_returned (r : (Actor.machine (kind dds)).Reachable m) {i : ℕ} {c : MethodCall}
    (h : m.calls[i]? = some c) (method : c.method = .subscribe topic)
    (ok : c.phase = .returned (.ok ())) : c.served topic := by
  induction m, r using Machine.Reachable.induction_on generalizing i c
  case init => simp [Actor.machine] at h
  case step m act m' r hn ih =>
    rcases (Actor.next_step hn).change h with ⟨c₀, h₀, ch⟩ | ⟨_, begun⟩
    case inr => cases begun <;> cases ok
    case inl =>
      have method₀ := ch.method.symm.trans method
      cases ch
      case same => exact ih h₀ method ok
      case send => cases ok
      case reply told =>
        obtain ⟨_, hc, waiting⟩ := (Actor.owned r).waiting i told.mem_responders
        cases h₀.symm.trans hc
        have ok : c₀.phase = .returned (.ok ()) := ok
        simp [MethodCall.Waiting, ok] at waiting
      case step st =>
        have hs : c.served topic = _ := served_step st
        cases st
        case await => exact ih h₀ method ok
        case register | retry | cancel => cases ok
        case joined close _ => cases method.symm.trans close
        case closed =>
          rcases (kind dds).caller.closed_cases c₀ with ⟨_, _, he⟩ | ⟨_, he⟩ <;> simp [he] at ok
        case disconnected =>
          rcases (kind dds).caller.disconnected_cases c₀ with ⟨_, _, he⟩ | ⟨_, he⟩ <;>
            simp [he] at ok
        case receive reply _ answered =>
          apply hs.trans
          have received : (kind dds).caller.receive c₀ reply = c₀.receive reply := by
            simp [kind, DustddsTransport.caller, DustddsTransport.receive, method₀]
          rw [received] at ok
          rcases reply with _ | ack
          case error => simp [MethodCall.receive, method₀] at ok
          case ok =>
            cases ack
            case ok    => simp [MethodCall.served, subscribes_iff.mpr method₀, answered]
            case retry => simp [MethodCall.receive, method₀] at ok

end DdsActor
end MomRpc
