import MomRpc.Transport.Actor

namespace MomRpc

namespace Fanout

open RumqttcTransport

variable {ι : Type} {f f' : Fanout ι} {j k : ℕ}

-- The receiver of an inbox does nothing to the map.
theorem recv_same (h : f.recv k = some f') :
    f'.subscribers = f.subscribers ∧ f'.handles.length = f.handles.length := by
  simp only [recv, Option.bind_eq_bind, Option.bind_eq_some_iff] at h
  obtain ⟨_, _, _, _, he⟩ := h
  cases he
  exact ⟨rfl, by simp⟩

theorem drop_same (h : f.drop k = some f') :
    f'.subscribers = f.subscribers ∧ f'.handles.length = f.handles.length := by
  obtain ⟨_, _, rfl⟩ := Option.map_eq_some_iff.mp h
  exact ⟨rfl, by simp⟩

-- A call that ends drops at most its own receiver.
theorem conclude_cases {owners : List ℕ} {i : ℕ} {c : MethodCall} :
    f.conclude owners i c = f ∨ ∃ k, f.drop k = some (f.conclude owners i c) := by
  simp only [conclude]
  split
  case _ => exact .inl rfl
  case _ k _ =>
    split
    case isFalse => exact .inl rfl
    case isTrue =>
      cases h : f.drop k
      case none => exact .inl rfl
      case some => exact .inr ⟨k, h⟩

theorem conclude_same {owners : List ℕ} {i : ℕ} {c : MethodCall} :
    (f.conclude owners i c).subscribers = f.subscribers ∧
      (f.conclude owners i c).handles.length = f.handles.length := by
  rcases conclude_cases (f := f) (i := i) (c := c) with he | ⟨_, h⟩
  · rw [he]; exact ⟨rfl, rfl⟩
  · exact drop_same h

theorem recv_other (received : f.recv j = some f') (ne : j ≠ k) :
    f'.handles[k]? = f.handles[k]? := by
  simp only [Fanout.recv, Option.bind_eq_bind, Option.bind_eq_some_iff] at received
  obtain ⟨_, _, _, _, he⟩ := received
  cases he
  exact List.getElem?_set_ne ne

theorem drop_other (dropped : f.drop j = some f') (ne : j ≠ k) :
    f'.handles[k]? = f.handles[k]? := by
  obtain ⟨_, _, rfl⟩ := Option.map_eq_some_iff.mp dropped
  exact List.getElem?_set_ne ne

-- A call that ends leaves the receivers of the others alone.
theorem conclude_other {owners : List ℕ} {i : ℕ} {c : MethodCall}
    (other : owners[k]? ≠ some i) : (f.conclude owners i c).handles[k]? = f.handles[k]? := by
  simp only [conclude]
  split
  case h_1 => rfl
  case h_2 l hl =>
    split
    case isFalse => rfl
    case isTrue =>
      obtain ⟨lt, hi, _⟩ := List.findIdx?_eq_some_iff_getElem.mp hl
      have ne : l ≠ k := by
        rintro rfl
        exact other <| (List.getElem?_eq_getElem lt).trans <| congrArg some <| by simpa using hi
      cases h : f.drop l
      case none => rfl
      case some => exact drop_other h ne

-- A call that does not fail keeps the receiver that it may have.
theorem conclude_of_ok {owners : List ℕ} {i : ℕ} {c : MethodCall} (ok : c.fails = false) :
    f.conclude owners i c = f := by
  simp only [conclude, ok, Bool.false_eq_true, if_false]
  split <;> rfl

end Fanout

namespace Actor

open RumqttcTransport

variable {ι σ α τ : Type} {kind : ActorKind ι σ α τ} {m m' : Actor kind} {act : Action α τ}
  {i : ℕ} {c c' : MethodCall}

def Action.call? : Action α τ → Option ℕ
  | .register i | .send i | .resume i | .retry i | .join i | .cancel i => some i
  | _                                                                  => none

-- The command channel is closed.
def Shut (m : Actor kind) : Prop :=
  ¬(m.commands.held ∧ ¬m.closing)

-- All that one action can do.
inductive Step (m : Actor kind) : Action α τ → Actor kind → Prop
  | call {method} (other : ∀ topic, method ≠ .subscribe topic) :
    Step m (.call method) { m with calls := m.calls ++ [{ method }] }
  | subscribe {topic} :
    Step m (.call (.subscribe topic)) { m with
      calls := m.calls ++ [{ method := .subscribe topic, phase := .registering }]
      lock  := m.lock ++ [.call m.calls.length]
    }
  | register {i topic lock} {c : MethodCall} (handle : m.calls[i]? = some c)
    (method : c.method = .subscribe topic) (registering : c.phase = .registering)
    (turn : m.lock = .call i :: lock) (free : kind.free m.state) :
    Step m (.register i) { m with
      calls       := m.calls.set i { c with phase := .sending }
      lock
      subscribers := m.subscribers.subscribe topic
      owners      := m.owners ++ [i]
    }
  | send {i commands} {c : MethodCall} (handle : m.calls[i]? = some c)
    (sending : c.phase = .sending) (opened : ¬m.closing)
    (sent : m.commands.trySend (c.cmd i) = some commands) :
    Step m (.send i) { m with commands, calls := m.calls.set i { c with phase := .awaiting } }
  | caller {act i tasks lock} {c c' : MethodCall} (caller : act.call? = some i)
    (handle : m.calls[i]? = some c) (step : CallStep kind.caller m.Shut (i ∉ m.responders) c c')
    (list : m.tasks.Step i c c' tasks)
    (waiters : (lock = m.lock ∧ c.phase ≠ .registering) ∨
      (c'.phase = .dropped ∧ lock = m.lock.erase (.call i))) :
    Step m act ({ m with tasks, lock }.conclude i c')
  | recv {k subscribers} (received : m.subscribers.recv k = some subscribers) :
    Step m (.recv k) { m with subscribers }
  | dropInbox {k subscribers} (dropped : m.subscribers.drop k = some subscribers) :
    Step m (.dropInbox k) { m with subscribers }
  | pushTask : Step m .pushTask { m with tasks := .pushed }
  | drop (idle : ¬m.calls.any (·.active)) : Step m .drop { m with held := false }
  | drain {resp commands} (receiving : m.phase = .receiving) (drains : kind.drains)
    (received : m.commands.recv = some (.close resp, commands)) :
    Step m .handle { ({ m with commands } : Actor kind).reply resp (.ok .ok) with closing := true }
  | leave {resp commands} (receiving : m.phase = .receiving) (breaks : kind.drains = false)
    (received : m.commands.recv = some (.close resp, commands)) :
    Step m .handle
      { ({ m with commands } : Actor kind).reply resp (.ok .ok) with phase := .finishing }
  | defer {cmd commands state} (receiving : m.phase = .receiving)
    (received : m.commands.recv = some (cmd, commands)) (other : ∀ resp, cmd ≠ .close resp)
    (deferred : kind.start m.state cmd = (state, true)) :
    Step m .handle { ({ m with commands } : Actor kind).reply cmd.resp (.ok .retry) with state }
  | begin {cmd commands state} (receiving : m.phase = .receiving)
    (received : m.commands.recv = some (cmd, commands)) (other : ∀ resp, cmd ≠ .close resp)
    (started : kind.start m.state cmd = (state, false)) :
    Step m .handle { m with commands, state, phase := .handling cmd }
  | execute {cmd outcome state result} (handling : m.phase = .handling cmd)
    (executed : kind.execute m.state cmd outcome = some (state, result)) :
    Step m (.execute outcome)
      { m.reply cmd.resp (result.map fun _ => .ok) with state, phase := .receiving }
  | ended (receiving : m.phase = .receiving) (empty : m.commands.queue = [])
    (done : m.closing ∨ m.held = false) : Step m .ended { m with phase := .finishing }
  | finish {state} (finishing : m.phase = .finishing)
    (finished : kind.finish m.state = some state) :
    Step m .finish { m with
      state
      lock     := m.lock.filter (·.call?.isSome)
      commands := m.commands.drop
      phase    := .stopped
    }
  | task {a state subscribers lock}
    (acted : kind.task m.phase m.state m.subscribers m.lock a = some (state, subscribers, lock)) :
    Step m (.task a) { m with state, subscribers, lock }

@[simp]
theorem conclude_calls : (m.conclude i c).calls = m.calls.set i c :=
  rfl

@[simp]
theorem conclude_pending : (m.conclude i c).pending = m.pending :=
  rfl

@[simp]
theorem conclude_responders : (m.conclude i c).responders = m.responders :=
  rfl

theorem conclude_eq (h : c.fails = false) :
    m.conclude i c = { m with calls := m.calls.set i c } := by
  simp only [conclude, Fanout.conclude_of_ok h]

-- A step by which a call does not fail needs no more than the call.
theorem Step.of_call {tasks : TaskList} (caller : act.call? = some i)
    (handle : m.calls[i]? = some c) (step : CallStep kind.caller m.Shut (i ∉ m.responders) c c')
    (list : m.tasks.Step i c c' tasks) (other : c.phase ≠ .registering) (ok : c'.fails = false) :
    Step m act { m with calls := m.calls.set i c', tasks } := by
  have st := Step.caller caller handle step list (.inl ⟨rfl, other⟩)
  rwa [conclude_eq ok] at st

theorem inbox_eq_some {k : ℕ} {use : Fanout ι → ℕ → Option (Fanout ι)}
    (h : m.inbox k use = some m') :
    ∃ subscribers, use m.subscribers k = some subscribers ∧ m' = { m with subscribers } := by
  simp only [inbox, Option.bind_eq_bind, Option.bind_eq_some_iff] at h
  obtain ⟨_, _, _, _, h⟩ := h
  split at h <;> try cases h
  obtain ⟨subscribers, hu, rfl⟩ := Option.map_eq_some_iff.mp h
  exact ⟨subscribers, hu, rfl⟩

theorem next_step (h : (machine kind).next m act = some m') : Step m act m' := by
  cases act <;> simp only [machine, next] at h
  case call method =>
    simp only [call] at h
    split at h <;> try cases h
    split at h <;> cases h
    · exact .subscribe
    · exact .call <| by simp_all
  case register i =>
    simp only [register] at h
    split at h <;> try cases h
    split at h <;> try cases h
    split at h <;> cases h
    case _ hi =>
      obtain ⟨rfl, free⟩ := hi
      exact .register ‹_› ‹_› ‹_› ‹_› free
  case send i =>
    simp only [send] at h
    split at h <;> try cases h
    split at h <;> try cases h
    split at h
    case isTrue ho =>
      obtain ⟨_, hs, rfl⟩ := Option.map_eq_some_iff.mp h
      exact .send ‹_› ‹_› ho.right hs
    case isFalse shut =>
      cases h
      exact .caller rfl ‹_› (.closed shut ‹_›) (.same <| by simp_all) (.inl <| by simp_all)
  case resume i =>
    simp only [resume] at h
    split at h <;> try cases h
    split at h <;> try cases h
    · exact .caller rfl ‹_› (.receive ‹_› ‹_›) (.same <| by simp_all) (.inl <| by simp_all)
    · split at h <;> cases h
      exact .caller rfl ‹_› (.disconnected ‹_› ‹_› ‹_›) (.same <| by simp_all) (.inl <| by simp_all)
  case retry i =>
    simp only [retry] at h
    split at h <;> try cases h
    split at h <;> cases h
    exact .of_call rfl ‹_› (.retry ‹_›) (.same <| by simp_all) (by simp_all) rfl
  case join i =>
    simp only [join] at h
    split at h <;> try cases h
    split at h <;> try cases h
    case _ joining =>
      obtain ⟨⟨tasks, done⟩, hj, rfl⟩ := Option.map_eq_some_iff.mp h
      have list := TaskList.join_step hj ‹_› joining
      cases done
      case false =>
        exact .of_call rfl ‹_› (.await ‹_› joining) list (by simp [joining])
          (by simp [MethodCall.fails, joining])
      case true => exact .of_call rfl ‹_› (.joined ‹_› joining) list (by simp [joining]) rfl
  case cancel i =>
    simp only [cancel] at h
    split at h <;> try cases h
    split at h <;> cases h
    exact .caller rfl ‹_› (.cancel ‹_›) TaskList.cancel_step (.inr ⟨rfl, rfl⟩)
  case recv k =>
    obtain ⟨subscribers, received, rfl⟩ := inbox_eq_some h
    exact .recv received
  case dropInbox k =>
    obtain ⟨subscribers, dropped, rfl⟩ := inbox_eq_some h
    exact .dropInbox dropped
  case pushTask =>
    simp only [pushTask] at h
    split at h <;> cases h
    exact .pushTask
  case drop =>
    simp only [drop] at h
    split at h <;> cases h
    exact .drop ‹_›
  case handle =>
    simp only [handle] at h
    split at h <;> try cases h
    case _ receiving _ =>
      obtain ⟨⟨cmd, commands⟩, received, rfl⟩ := Option.map_eq_some_iff.mp h
      split
      case _ resp hc =>
        obtain rfl : cmd = .close resp := hc
        split
        case isTrue drains  => exact .drain receiving drains received
        case isFalse breaks => exact .leave receiving (by simpa using breaks) received
      case _ other =>
        split
        case _ deferred => exact .defer receiving received other deferred
        case _ started  => exact .begin receiving received other started
  case execute outcome =>
    simp only [execute] at h
    split at h <;> try cases h
    obtain ⟨⟨state, result⟩, he, rfl⟩ := Option.map_eq_some_iff.mp h
    exact .execute ‹_› he
  case ended =>
    simp only [ended] at h
    split at h <;> try cases h
    split at h <;> cases h
    exact .ended ‹_› ‹_› (by simp_all)
  case finish =>
    simp only [finish] at h
    split at h <;> try cases h
    obtain ⟨state, hf, rfl⟩ := Option.map_eq_some_iff.mp h
    exact .finish ‹_› hf
  case task a =>
    obtain ⟨⟨state, subscribers, lock⟩, ha, rfl⟩ := Option.map_eq_some_iff.mp h
    exact .task ha

end Actor
end MomRpc
