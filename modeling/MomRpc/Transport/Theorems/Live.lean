import MomRpc.Transport.Amqp
import MomRpc.Transport.SubscriberMap
import MomRpc.Transport.Theorems.ActorService
import MomRpc.Transport.Theorems.Fanout

namespace MomRpc

namespace Actor

variable {ι σ α τ : Type} {kind : ActorKind ι σ α τ} {m m' : Actor kind} {act : Action α τ}
  {P Q : σ → Fanout ι → Prop}

theorem Tasks.here (h : P m.state m.subscribers) : m.Tasks P :=
  ⟨[], m.state, m.subscribers, m.lock, h, rfl⟩

theorem Tasks.single {a : α} {state : σ} {subscribers : Fanout ι} {lock : List Waiter}
    (h : kind.task m.phase m.state m.subscribers m.lock a = some (state, subscribers, lock))
    (hp : P state subscribers) : m.Tasks P := by
  refine ⟨[a], state, subscribers, lock, hp, ?_⟩
  simp [machine, next, task, h]

theorem Tasks.trans (r : (machine kind).Reachable m) (h : m.Tasks P)
    (k : ∀ state subscribers lock, (machine kind).Reachable { m with state, subscribers, lock } →
      P state subscribers → Tasks { m with state, subscribers, lock } Q) : m.Tasks Q := by
  have ⟨events, state, subscribers, lock, hp, he⟩ := h
  have ⟨events', state', subscribers', lock', hq, he'⟩ :=
    k state subscribers lock (r.exec he) hp
  refine ⟨events ++ events', state', subscribers', lock', hq, ?_⟩
  rw [List.map_append]
  exact Machine.exec_append_iff.mpr ⟨_, he, he'⟩

section Fanout

variable [DecidableEq ι] {decode : Bytes → Option Envelope}

-- Whatever the tasks do to the subscribers is a step of the fan-out.
def FansOut (kind : ActorKind ι σ α τ) (decode : Bytes → Option Envelope) : Prop :=
  ∀ phase s f lock a s' f' lock', kind.task phase s f lock a = some (s', f', lock') →
    ∃ act, (Fanout.machine ι decode).next? f act = some f'

-- The case where it is known which step that is.
def Fans (kind : ActorKind ι σ α τ) (decode : Bytes → Option Envelope)
    (fan : σ → α → Option (Fanout.Action ι)) : Prop :=
  ∀ phase s f lock a s' f' lock', kind.task phase s f lock a = some (s', f', lock') →
    (Fanout.machine ι decode).next? f (fan s a) = some f'

theorem Fans.fansOut {fan : σ → α → Option (Fanout.Action ι)} (fans : Fans kind decode fan) :
    FansOut kind decode :=
  fun _ _ _ _ _ _ _ _ h => ⟨_, fans _ _ _ _ _ _ _ _ h⟩

theorem conclude_fanout {f : Fanout ι} {owners : List ℕ} {i : ℕ}
    {c : RumqttcTransport.MethodCall} :
    ∃ act, (Fanout.machine ι decode).next? f act = some (f.conclude owners i c) :=
  ⟨_, Fanout.next?_concludes⟩

theorem Step.fanout (fan : FansOut kind decode) (st : Step m act m') :
    ∃ act, (Fanout.machine ι decode).next? m.subscribers act = some m'.subscribers := by
  cases st
  case register topic _ _ _ _ _ _ _ => exact ⟨some (.subscribe topic), rfl⟩
  case caller          => exact conclude_fanout
  case recv received   => exact ⟨some (.recv _), received⟩
  case dropInbox dropped => exact ⟨some (.drop _), dropped⟩
  case task acted      => exact fan _ _ _ _ _ _ _ _ acted
  all_goals exact ⟨none, rfl⟩

theorem fanout_reachable (fan : FansOut kind decode) (r : (machine kind).Reachable m) :
    (Fanout.machine ι decode).Reachable m.subscribers := by
  induction m, r using Machine.Reachable.induction_on
  case init => exact .init
  case step m act m' r hn ih =>
    have ⟨act, h⟩ := (next_step hn).fanout fan
    rcases Machine.next?_cases h with ⟨_, he⟩ | ⟨_, _, hn⟩
    · exact he ▸ ih
    · exact ih.next hn

-- Tasks which can take the worker's steps in the current phase complete its call.
theorem tasks_idle {w : ι} (fan : FansOut kind decode) (r : (machine kind).Reachable m)
    (task : ∀ act f f', Fanout.Action.Completes w act → Fanout.next decode f act = some f' →
      ∃ a, ∀ lock, kind.task m.phase m.state f lock a = some (m.state, f', lock)) :
    m.Tasks fun s f => s = m.state ∧ f.incoming w = .idle := by
  have ⟨acts, f', hA, he, hi⟩ := Fanout.leads_idle (fanout_reachable fan r) w
  clear r
  induction acts generalizing m
  case nil => cases he; exact .here ⟨rfl, hi⟩
  case cons act acts ih =>
    have ⟨hc, hA⟩ := List.forall_mem_cons.mp hA
    have ⟨f, hn, he⟩ := Option.bind_eq_some_iff.mp he
    have ⟨a, ha⟩ := task act m.subscribers f hc hn
    have ⟨events, state, subscribers, lock, hp, he⟩ :=
      ih (m := { m with subscribers := f }) task hA he
    refine ⟨a :: events, state, subscribers, lock, hp, ?_⟩
    refine Option.bind_eq_some_iff.mpr ⟨{ m with subscribers := f }, ?_, he⟩
    simp [machine, next, Actor.task, ha]

end Fanout

theorem Tasks.mono (h : m.Tasks P) (k : ∀ state subscribers, P state subscribers →
    Q state subscribers) : m.Tasks Q :=
  let ⟨events, state, subscribers, lock, hp, he⟩ := h
  ⟨events, state, subscribers, lock, k state subscribers hp, he⟩

end Actor

namespace RedisActor

variable {redis : Redis}

theorem fans (redis : Redis) : Actor.Fans (kind redis) (decode redis) fan := by
  intro phase s f lock event s' f' lock' h
  cases phase <;> simp only [kind, Option.map_eq_some_iff, reduceCtorEq] at h
  case receiving =>
    obtain ⟨⟨_, _⟩, h, he⟩ := h
    cases he
    cases event <;> simp only [select, Option.map_eq_some_iff] at h
    case message | trySend | writeBack =>
      obtain ⟨_, h, he⟩ := h
      cases he
      exact h
    case ended =>
      split at h <;> cases h
      rfl

theorem fansOut (redis : Redis) : Actor.FansOut (kind redis) (decode redis) :=
  (fans redis).fansOut

theorem live (redis : Redis) : Actor.Live (kind redis) where
  ready m r hp := by
    refine (Actor.tasks_idle (w := ()) (fansOut redis) r ?_).mono fun _ f h => ?_
    · rintro act f f' (rfl | ⟨i, rfl⟩) hn
      · refine ⟨.writeBack, fun lock => ?_⟩
        have hn : f.writeBack () = some f' := hn
        simp [kind, hp, select, hn]
      · refine ⟨.trySend i, fun lock => ?_⟩
        have hn : f.trySend () i = some f' := hn
        simp [kind, hp, select, hn]
    · simp [kind, idle, h.right]
  execute s cmd hc := by
    cases cmd
    case publish env resp     => exact ⟨.ok (), _, rfl⟩
    case subscribe topic resp => exact ⟨.ok (), _, rfl⟩
    case close resp           => exact absurd rfl <| hc resp
  finish m _ _ := .here rfl

end RedisActor

theorem AmqpActor.live (amqp : Amqp) : Actor.Live (kind amqp) where
  ready m _ _ := .here rfl
  execute s cmd hc := by
    cases cmd
    case publish env resp     => exact ⟨.publish (.error ""), _, rfl⟩
    case subscribe queue resp => exact ⟨.subscribe (.error "") (.ok ()), _, rfl⟩
    case close resp           => exact absurd rfl <| hc resp
  finish m _ _ := .here rfl

namespace DdsActor

variable {dds : Dds}

theorem fans (dds : Dds) : Actor.Fans (kind dds) dds.fromSlice fan := by
  intro phase s f lock event s' f' lock' h
  replace h : ∃ s₀ f₀, s.task dds f event = some (s₀, f₀) ∧ f₀ = f' := by
    cases phase <;> simp only [kind, Option.map_eq_some_iff, reduceCtorEq] at h
    all_goals
      obtain ⟨⟨s₀, f₀⟩, h, he⟩ := h
      cases he
      exact ⟨s₀, f₀, h, rfl⟩
  obtain ⟨s₀, f₀, h, rfl⟩ := h
  cases event <;> simp only [task, Option.map_eq_some_iff] at h
  case sample => cases h; rfl
  case take r =>
    simp only [take] at h
    split at h <;> try cases h
    case _ reader hr =>
      split at h <;> try cases h
      case _ data _ samples =>
        split at h <;> try cases h
        obtain ⟨_, h, he⟩ := Option.map_eq_some_iff.mp h
        cases he
        have taken : fan s (.take r) = some (.incoming r reader.topic data) := by
          simp [fan, hr, samples]
        rw [taken]
        exact h
  case trySend | writeBack =>
    obtain ⟨_, h, he⟩ := h
    cases he
    exact h
  case ended r =>
    obtain ⟨_, _, he⟩ := h
    cases he
    rfl

theorem fansOut (dds : Dds) : Actor.FansOut (kind dds) dds.fromSlice :=
  (fans dds).fansOut

-- The task of one reader after the other can end.
theorem tasks_ended {m : Actor (kind dds)} (r : (Actor.machine (kind dds)).Reachable m)
    (hp : m.phase = .finishing) (n : ℕ) (hn : n ≤ m.state.readers.length) :
    m.Tasks fun s _ => s.readers.length = m.state.readers.length ∧
      ∀ (k : ℕ) (reader : DdsReader), k < n → s.readers[k]? = some reader → reader.ended := by
  induction n
  case zero => exact .here ⟨rfl, nofun⟩
  case succ n ih =>
    refine .trans r (ih <| Nat.le_of_succ_le hn) fun s f lock r ⟨hl, he⟩ => ?_
    -- The task completes its call of `handle_incoming` before it ends.
    have idle := Actor.tasks_idle (w := n) (fansOut dds) r ?_
    case refine_1 =>
      rintro act f f' (rfl | ⟨i, rfl⟩) hn
      · refine ⟨.writeBack n, fun lock => ?_⟩
        have hn : f.writeBack n = some f' := hn
        simp [kind, hp, task, hn]
      · refine ⟨.trySend n i, fun lock => ?_⟩
        have hn : f.trySend n i = some f' := hn
        simp [kind, hp, task, hn]
    refine .trans r idle fun s' f' lock' _ ⟨hs, hi⟩ => ?_
    obtain rfl : s' = s := hs
    have hn : n < s'.readers.length := hl ▸ hn
    have hr := List.getElem?_eq_getElem hn
    let readers := s'.readers.set n { s'.readers[n] with ended := true }
    have acted : (kind dds).task m.phase s' f' lock' (.ended n) =
        some ({ s' with readers }, f', lock') := by
      simp [kind, hp, task, endReader, hr, hi, readers]
    refine .single acted ⟨?_, ?_⟩
    · simpa [readers] using hl
    · intro k reader hk h
      rcases List.getElem?_set_cases h with ⟨_, rfl⟩ | ⟨ne, h⟩
      · rfl
      · exact he k reader (Nat.lt_of_le_of_ne (Nat.le_of_lt_succ hk) ne) h

theorem live (dds : Dds) : Actor.Live (kind dds) where
  ready m _ _ := .here rfl
  execute s cmd hc := by
    cases cmd
    case publish env resp     => exact ⟨.publish {} {} (.ok ()), _, rfl⟩
    case subscribe topic resp => exact ⟨.subscribe {}, _, rfl⟩
    case close resp           => exact absurd rfl <| hc resp
  finish m r hp := by
    refine (tasks_ended r hp _ (Nat.le_refl _)).mono fun s _ h => ?_
    have ⟨hl, h⟩ := h
    have all : s.readers.all (·.ended) := by
      refine List.all_eq_true.mpr fun reader hr => ?_
      have ⟨k, hk⟩ := List.mem_iff_getElem?.mp hr
      have ⟨hlt, _⟩ := List.getElem?_eq_some_iff.mp hk
      exact h k reader (hl ▸ hlt) hk
    exact Option.isSome_iff_exists.mpr ⟨s, if_pos all⟩

end DdsActor
end MomRpc
