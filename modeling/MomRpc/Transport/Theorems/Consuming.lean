import MomRpc.Transport.Theorems.ActorService
import MomRpc.Transport.Theorems.Consumers

namespace MomRpc.AmqpActor

variable {amqp : Amqp} {m m' : Actor (kind amqp)} {act : Actor.Action Event Outcome}
  {as : List (Actor.Action Event Outcome)} {s s' : AmqpActor} {f f' : Fanout Empty}
  {lock lock' : List Actor.Waiter} {queue : String} {resp w : ℕ} {c : Consumer}

-- A task for the queue is running. If the server has not cancelled its consumer, the task is given
-- what is published to the queue.
def Running (s : AmqpActor) (queue : String) : Prop :=
  ∃ c ∈ s.consumers, c.queue = queue ∧ c.phase ≠ .ended

def Consuming (s : AmqpActor) (queue : String) : Prop :=
  ∃ c ∈ s.consumers, c.queue = queue ∧ c.phase ≠ .ended ∧ c.active

-- The stream of the consumer has yielded an error or come to its end, so its task has ended.
def Broken (as : List (Actor.Action Event Outcome)) (w : ℕ) : Prop :=
  .task (.error w) ∈ as ∨ .task (.ended w) ∈ as

def Cancelled (as : List (Actor.Action Event Outcome)) (w : ℕ) : Prop :=
  .task (.cancelled w) ∈ as

theorem broken_concat : Broken (as ++ [act]) w ↔
    Broken as w ∨ act = .task (.error w) ∨ act = .task (.ended w) := by
  simp only [Broken, List.mem_append, List.mem_singleton, eq_comm (a := act)]
  exact or_or_or_comm ..

theorem cancelled_concat :
    Cancelled (as ++ [act]) w ↔ Cancelled as w ∨ act = .task (.cancelled w) := by
  simp only [Cancelled, List.mem_append, List.mem_singleton, eq_comm (a := act)]

theorem Worked.queues {event : Event} (worked : Worked amqp s f lock event s' f' lock') :
    s'.consumers.map Consumer.queue = s.consumers.map Consumer.queue ∧
      s'.consumerHandles = s.consumerHandles := by
  have set {v : ℕ} {d d' : Consumer} (consumer : s.consumers[v]? = some d)
      (queue : d'.queue = d.queue) :
      (s.consumers.set v d').map Consumer.queue = s.consumers.map Consumer.queue :=
    List.ext_getElem? fun i => by
      simpa only [List.getElem?_map] using List.map_getElem?_set consumer queue i
  cases worked
  case skip                  => exact ⟨rfl, rfl⟩
  case closed                => exact ⟨by simp [closeChannel], rfl⟩
  case error consumer _      => exact ⟨set consumer rfl, rfl⟩
  case ended consumer _ _    => exact ⟨set consumer rfl, rfl⟩
  case cancelled consumer    => exact ⟨set consumer rfl, rfl⟩
  case deliver consumer _ _  => exact ⟨set consumer rfl, rfl⟩
  case lock consumer _ _     => exact ⟨set consumer rfl, rfl⟩
  case send consumer _ _ _   => exact ⟨set consumer rfl, rfl⟩
  case failed consumer _ _ _ => exact ⟨set consumer rfl, rfl⟩
  case unlock consumer _     => exact ⟨set consumer rfl, rfl⟩

-- The queues in `consumer_handles` are those for which a task has ever been spawned, each once.
theorem handles_eq (r : (Actor.machine (kind amqp)).Reachable m) :
    m.state.consumerHandles = m.state.consumers.map Consumer.queue ∧
      m.state.consumerHandles.Nodup := by
  induction m, r using Machine.Reachable.induction_on
  case init => exact ⟨rfl, List.nodup_nil⟩
  case step m act m' r hn ih =>
    have ⟨eq, nodup⟩ := ih
    cases step_works <| Actor.next_step hn
    case same state   => rwa [state]
    case finish ended => simpa [ended, Function.comp_def] using ih
    case task worked  =>
      have ⟨queues, handles⟩ := worked.queues
      rw [handles, queues]
      exact ih
    case execute executed =>
      have executed := execute_executed executed
      generalize m'.state = s' at executed
      cases executed
      case publish | undeclared | known | refused => exact ih
      case closed => simpa [closeChannel, Function.comp_def] using ih
      case consumed unknown _ _ =>
        refine ⟨by simp [eq], nodup.append (List.nodup_singleton _) ?_⟩
        simpa using unknown

-- What becomes of a consumer in a step of its own or of another one's task.
structure Acts (s : AmqpActor) (event : Event) (s' : AmqpActor) (w : ℕ) (c c' : Consumer) :
    Prop where
  ended  : c'.phase = .ended ↔ c.phase = .ended ∨ event = .error w ∨ event = .ended w
  active : s'.channelOpen → s.channelOpen ∧ (c'.active ↔ c.active ∧ event ≠ .cancelled w)

theorem Worked.acts {event : Event} (worked : Worked amqp s f lock event s' f' lock')
    {c' : Consumer}
    (h' : s'.consumers[w]? = some c') : ∃ c, s.consumers[w]? = some c ∧ Acts s event s' w c c' := by
  have set {v : ℕ} {d d' : Consumer} (consumer : s.consumers[v]? = some d)
      (h' : (s.consumers.set v d')[w]? = some c') (opened : s'.channelOpen = s.channelOpen)
      (ended : d'.phase = .ended ↔ d.phase = .ended ∨ event = .error v ∨ event = .ended v)
      (active : d'.active ↔ d.active ∧ event ≠ .cancelled v)
      (other : ∀ w, w ≠ v → event ≠ .error w ∧ event ≠ .ended w ∧ event ≠ .cancelled w) :
      ∃ c, s.consumers[w]? = some c ∧ Acts s event s' w c c' := by
    rcases List.getElem?_set_cases h' with ⟨rfl, rfl⟩ | ⟨hw, h'⟩
    · exact ⟨d, consumer, ended, fun open' => ⟨opened ▸ open', active⟩⟩
    · have ⟨_, _, _⟩ := other w hw
      exact ⟨c', h', by simp [*], fun open' => ⟨opened ▸ open', by simp [*]⟩⟩
  cases worked
  case skip                   => exact ⟨c', h', by simp, fun opened => ⟨opened, by simp⟩⟩
  case closed                 =>
    obtain ⟨c, h, rfl⟩ := by simpa [closeChannel] using h'
    exact ⟨c, h, by simp, by simp [closeChannel]⟩
  case error consumer _       => exact set consumer h' rfl (by simp) (by simp) (by simp [eq_comm])
  case ended consumer _ _     => exact set consumer h' rfl (by simp) (by simp) (by simp [eq_comm])
  case cancelled consumer     => exact set consumer h' rfl (by simp) (by simp) (by simp [eq_comm])
  case deliver consumer hp _  => exact set consumer h' rfl (by simp [hp]) (by simp) (by simp)
  case lock consumer hp _     => exact set consumer h' rfl (by simp [hp]) (by simp) (by simp)
  case send consumer hp _ _   => exact set consumer h' rfl (by simp [hp]) (by simp) (by simp)
  case failed consumer hp _ _ => exact set consumer h' rfl (by simp [hp]) (by simp) (by simp)
  case unlock consumer hp     => exact set consumer h' rfl (by simp [hp]) (by simp) (by simp)

theorem Worked.lt {event : Event} (worked : Worked amqp s f lock event s' f' lock')
    (h : event = .error w ∨ event = .ended w ∨ event = .cancelled w) :
    w < s'.consumers.length := by
  have length := congrArg List.length worked.queues.left
  rw [List.length_map, List.length_map] at length
  rw [length]
  have lt {c : Consumer} (consumer : s.consumers[w]? = some c) :=
    (List.getElem?_eq_some_iff.mp consumer).choose
  rcases h with rfl | rfl | rfl <;> cases worked
  case inl.error _ consumer       => exact lt consumer
  case inr.inl.ended _ _ consumer => exact lt consumer
  case inr.inr.cancelled consumer => exact lt consumer

-- What the consumers show of the run.
structure Tracks (as : List (Actor.Action Event Outcome)) (s : AmqpActor) : Prop where
  bound  : ∀ w, Broken as w ∨ Cancelled as w → w < s.consumers.length
  ended  : ∀ (w : ℕ) (c : Consumer), s.consumers[w]? = some c → (c.phase = .ended ↔ Broken as w)
  active : ∀ (w : ℕ) (c : Consumer), s.consumers[w]? = some c → s.channelOpen →
    (c.active ↔ ¬Cancelled as w)

theorem Tracks.quiet (tracks : Tracks as s) (h : ∀ event, act ≠ .task event) :
    Tracks (as ++ [act]) s := by
  have quiet (w : ℕ) :
      (Broken (as ++ [act]) w ↔ Broken as w) ∧ (Cancelled (as ++ [act]) w ↔ Cancelled as w) := by
    simp [broken_concat, cancelled_concat, h]
  have ⟨bound, ended, active⟩ := tracks
  constructor <;> simpa only [quiet]

theorem Tracks.executed {cmd : Cmd} {result : Except RpcError Unit} (tracks : Tracks as s)
    (executed : Executed amqp s cmd s' result) : Tracks as s' := by
  have ⟨bound, ended, active⟩ := tracks
  cases executed
  case publish | undeclared | known | refused => exact tracks
  case closed =>
    refine ⟨by simpa [closeChannel] using bound, fun w c h => ?_, by simp [closeChannel]⟩
    obtain ⟨c, hc, rfl⟩ := by simpa [closeChannel] using h
    exact ended w c hc
  case consumed =>
    have new {w : ℕ} {d c : Consumer} (h : (s.consumers ++ [d])[w]? = some c) :
        s.consumers[w]? = some c ∨ (c = d ∧ ¬Broken as w ∧ ¬Cancelled as w) := by
      by_cases hw : w < s.consumers.length
      case pos => exact .inl <| (List.getElem?_append_left hw).symm.trans h
      case neg =>
        rw [List.getElem?_append_right (Nat.le_of_not_lt hw), List.getElem?_singleton] at h
        obtain ⟨_, rfl⟩ := by simpa using h
        exact .inr ⟨rfl, fun h => hw <| bound w <| .inl h, fun h => hw <| bound w <| .inr h⟩
    constructor
    case bound =>
      intro w hw
      rw [List.length_append]
      exact Nat.lt_add_right _ <| bound w hw
    case ended =>
      intro w c h
      rcases new h with h | ⟨rfl, unbroken, _⟩
      · exact ended w c h
      · simpa using unbroken
    case active =>
      intro w c h opened
      rcases new h with h | ⟨rfl, _, uncancelled⟩
      · exact active w c h opened
      · simpa using uncancelled

theorem Tracks.worked {event : Event} (tracks : Tracks as s)
    (worked : Worked amqp s f lock event s' f' lock') : Tracks (as ++ [.task event]) s' := by
  have ⟨bound, ended, active⟩ := tracks
  have length := congrArg List.length worked.queues.left
  rw [List.length_map, List.length_map] at length
  constructor
  case bound =>
    intro w h
    simp only [broken_concat, cancelled_concat, Actor.Action.task.injEq] at h
    rcases h with (h | h) | (h | h)
    · exact length ▸ bound w (.inl h)
    · exact worked.lt <| h.imp_right .inl
    · exact length ▸ bound w (.inr h)
    · exact worked.lt <| .inr <| .inr h
  case ended =>
    intro w c' h'
    have ⟨c, h, acts⟩ := worked.acts h'
    simp only [broken_concat, Actor.Action.task.injEq, acts.ended, ended w c h]
  case active =>
    intro w c' h' opened
    have ⟨c, h, acts⟩ := worked.acts h'
    have ⟨opened, acts⟩ := acts.active opened
    simp only [cancelled_concat, Actor.Action.task.injEq, not_or, acts, active w c h opened, ne_eq]

theorem tracks (r : (Actor.machine (kind amqp)).Run as m) (alive : m.phase ≠ .stopped) :
    Tracks as m.state := by
  induction as, m, r using Machine.Run.induction_on
  case init => constructor <;> simp [Broken, Cancelled, Actor.machine, kind]
  case step as m act m' r hn ih =>
    have st := Actor.next_step hn
    have tracks := ih fun h => alive <| st.stays h
    cases step_works st
    case finish phase _                   => exact absurd phase alive
    case same quiet state                 => exact state ▸ tracks.quiet quiet
    case execute action handling executed =>
      exact (tracks.executed <| execute_executed executed).quiet <| by simp [action]
    case task action worked => exact action ▸ tracks.worked worked

-- A subscribed queue has a running task if and only if the task that has once been spawned for it
-- has not ended, and is consumed if and only if its consumer has not been cancelled either.
theorem subscribed_queue_is_consumed (declared consumed : Except String Unit)
    (r : (Actor.machine (kind amqp)).Run as m)
    (handling : m.phase = .handling (.subscribe queue resp))
    (ok : m.state.doSubscribe amqp queue declared consumed = some (s', .ok ())) :
    (Running s' queue ↔ ∀ (w : ℕ) (c : Consumer), m.state.consumers[w]? = some c →
      c.queue = queue → ¬Broken as w) ∧
    (Consuming s' queue ↔ ∀ (w : ℕ) (c : Consumer), m.state.consumers[w]? = some c →
      c.queue = queue → ¬Broken as w ∧ ¬Cancelled as w) := by
  have ⟨_, ended, active⟩ := tracks r <| by simp [handling]
  have ⟨eq, nodup⟩ := handles_eq r.reachable
  have executed : Executed amqp m.state (.subscribe queue resp) s' (.ok ()) :=
    doSubscribe_executed ok
  cases executed
  case known opened known =>
    -- It is the only consumer that there has ever been for the queue.
    obtain ⟨c, hc, rfl⟩ := List.mem_map.mp <| eq ▸ known
    have ⟨w, h⟩ := List.mem_iff_getElem?.mp hc
    have only {v : ℕ} {d : Consumer} (h' : m.state.consumers[v]? = some d)
        (queue : d.queue = c.queue) : v = w ∧ d = c := by
      have ⟨hl, _⟩ := List.getElem?_eq_some_iff.mp h'
      obtain rfl : v = w := by
        refine (List.getElem?_inj (by simpa using hl) (eq ▸ nodup)).mp ?_
        simp [h', h, queue]
      exact ⟨rfl, Option.some.inj <| h'.symm.trans h⟩
    have ended := ended w c h
    have active := active w c h opened
    constructor <;> constructor
    case left.mp =>
      intro ⟨d, hd, queue, running⟩ v e he queue'
      have ⟨_, hd⟩ := List.mem_iff_getElem?.mp hd
      obtain ⟨_, rfl⟩ := only hd queue
      obtain ⟨rfl, _⟩ := only he queue'
      exact mt ended.mpr running
    case left.mpr => exact fun h' => ⟨c, hc, rfl, mt ended.mp <| h' w c h rfl⟩
    case right.mp =>
      intro ⟨d, hd, queue, running, consumed⟩ v e he queue'
      have ⟨_, hd⟩ := List.mem_iff_getElem?.mp hd
      obtain ⟨_, rfl⟩ := only hd queue
      obtain ⟨rfl, _⟩ := only he queue'
      exact ⟨mt ended.mpr running, active.mp consumed⟩
    case right.mpr =>
      intro h'
      have ⟨unbroken, uncancelled⟩ := h' w c h rfl
      exact ⟨c, hc, rfl, mt ended.mp unbroken, active.mpr uncancelled⟩
  case consumed _ _ unknown =>
    have fresh (w : ℕ) (c : Consumer) (h : m.state.consumers[w]? = some c) : c.queue ≠ queue := by
      rintro rfl
      exact unknown <| eq ▸ List.mem_map_of_mem <| List.mem_of_getElem? h
    refine ⟨iff_of_true ?_ fun w c h hq => absurd hq <| fresh w c h,
      iff_of_true ?_ fun w c h hq => absurd hq <| fresh w c h⟩
    · exact ⟨_, List.mem_append_right _ <| List.mem_singleton_self _, rfl, by simp⟩
    · exact ⟨_, List.mem_append_right _ <| List.mem_singleton_self _, rfl, by simp, rfl⟩

theorem subscribed_queue_is_consumed_lone :
    ∃ m s', (Actor.machine (kind loneAmqp)).Run ((loneSubscribe 0 "q" (.ok ())).take 4) m ∧
      m.state.doSubscribe loneAmqp "q" (.ok ()) (.ok ()) = some (s', .ok ()) ∧ Running s' "q" ∧
      Consuming s' "q" := by
  have run : (Actor.machine (kind loneAmqp)).Run ((loneSubscribe 0 "q" (.ok ())).take 4) _ :=
    .of_isSome rfl
  have ⟨running, consuming⟩ := subscribed_queue_is_consumed (.ok ()) (.ok ()) run rfl rfl
  have none {P : Prop} (w : ℕ) (c : Consumer) (h : ([] : List Consumer)[w]? = some c) : P := by
    simp at h
  exact ⟨_, _, run, rfl, running.mpr fun w c h => none w c h, consuming.mpr fun w c h => none w c h⟩

-- After an error of the stream, its queue can be subscribed to without being consumed.
theorem resubscribed_queue_is_not_consumed :
    ∃ m, (Actor.machine (kind loneAmqp)).Run (loneSubscribe 0 "q" (.ok ()) ++
        .task (.error 0) :: (loneSubscribe 1 "q" (.ok ())).take 4) m ∧
      m.phase = .handling (.subscribe "q" 1) ∧
      m.state.doSubscribe loneAmqp "q" (.ok ()) (.ok ()) = some (m.state, .ok ()) ∧
      ¬Running m.state "q" := by
  have run : (Actor.machine (kind loneAmqp)).Run (loneSubscribe 0 "q" (.ok ()) ++
      .task (.error 0) :: (loneSubscribe 1 "q" (.ok ())).take 4) _ := .of_isSome rfl
  refine ⟨_, run, rfl, rfl, ?_⟩
  rintro ⟨c, hc, _, running⟩
  cases List.mem_singleton.mp hc
  exact running rfl

end MomRpc.AmqpActor
