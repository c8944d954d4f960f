import MomRpc.Transport.Theorems.Callers

namespace MomRpc.AmqpActor

variable {amqp : Amqp} {m m' : Actor (kind amqp)} {act : Actor.Action Event Outcome}
  {as : List (Actor.Action Event Outcome)} {s s' : AmqpActor} {f f' : Fanout Empty}
  {lock lock' : List Actor.Waiter}

@[simp]
theorem set_consumers {w : ℕ} {c : Consumer} : (s.set w c).consumers = s.consumers.set w c :=
  rfl

@[simp]
theorem set_consumerHandles {w : ℕ} {c : Consumer} :
    (s.set w c).consumerHandles = s.consumerHandles :=
  rfl

@[simp]
theorem set_channelOpen {w : ℕ} {c : Consumer} : (s.set w c).channelOpen = s.channelOpen :=
  rfl

-- All that one event can do.
inductive Worked (amqp : Amqp) (s : AmqpActor) (f : Fanout Empty) (lock : List Actor.Waiter) :
    Event → AmqpActor → Fanout Empty → List Actor.Waiter → Prop
  | deliver {w data env} {c : Consumer} (consumer : s.consumers[w]? = some c)
    (waiting : c.phase = .waiting) (decoded : amqp.fromSlice data = some env) :
    Worked amqp s f lock (.deliver w data true) (s.set w { c with phase := .locking env }) f
      (lock ++ [.task w])
  | skip {w data acked} {c : Consumer} (consumer : s.consumers[w]? = some c)
    (waiting : c.phase = .waiting) : Worked amqp s f lock (.deliver w data acked) s f lock
  | lock {w env rest} {c : Consumer} (consumer : s.consumers[w]? = some c)
    (locking : c.phase = .locking env) (turn : lock = .task w :: rest) :
    Worked amqp s f lock (.lock w)
      (s.set w { c with phase := .sending env <| (f.subscribers c.queue).getD [] }) f rest
  | send {w i env senders h inbox} {c : Consumer} (consumer : s.consumers[w]? = some c)
    (sending : c.phase = .sending env (i :: senders)) (handle : f.handles[i]? = some h)
    (accepted : h.inbox.trySend env = some inbox) :
    Worked amqp s f lock (.send w i) (s.set w { c with phase := .sending env senders })
      { f with handles := f.handles.set i { h with inbox } } lock
  | failed {w i env senders h} {c : Consumer} (consumer : s.consumers[w]? = some c)
    (sending : c.phase = .sending env (i :: senders)) (handle : f.handles[i]? = some h)
    (dropped : h.inbox.held = false) :
    Worked amqp s f lock (.send w i) (s.set w { c with phase := .sending env senders }) f lock
  | unlock {w env} {c : Consumer} (consumer : s.consumers[w]? = some c)
    (sent : c.phase = .sending env []) :
    Worked amqp s f lock (.unlock w) (s.set w { c with phase := .waiting }) f lock
  | error {w} {c : Consumer} (consumer : s.consumers[w]? = some c) (waiting : c.phase = .waiting) :
    Worked amqp s f lock (.error w) (s.set w { c with phase := .ended }) f lock
  | ended {w} {c : Consumer} (consumer : s.consumers[w]? = some c) (waiting : c.phase = .waiting)
    (inactive : c.active = false) :
    Worked amqp s f lock (.ended w) (s.set w { c with phase := .ended }) f lock
  | cancelled {w} {c : Consumer} (consumer : s.consumers[w]? = some c) :
    Worked amqp s f lock (.cancelled w) (s.set w { c with active := false }) f lock
  | closed : Worked amqp s f lock .closed s.closeChannel f lock

theorem task_worked {phase : Actor.Phase} {event : Event}
    (h : (kind amqp).task phase s f lock event = some (s', f', lock')) :
    Worked amqp s f lock event s' f' lock' := by
  replace h : s.task amqp f lock event = some (s', f', lock') := by
    cases phase <;> simp only [kind, reduceCtorEq] at h
    all_goals exact h
  cases event <;> simp only [task, Option.map_eq_some_iff, Prod.mk.injEq] at h
  case deliver w data acked =>
    obtain ⟨⟨_, _⟩, h, rfl, rfl, rfl⟩ := h
    simp only [deliver] at h
    split at h <;> try cases h
    case _ consumer =>
      split at h <;> try cases h
      case _ waiting =>
        split at h <;> cases h
        · exact .deliver consumer waiting ‹_›
        · exact .skip consumer waiting
  case lock w =>
    obtain ⟨⟨_, _⟩, h, rfl, rfl, rfl⟩ := h
    simp only [AmqpActor.lock] at h
    split at h <;> try cases h
    case _ c v rest consumer =>
      split at h <;> try cases h
      case _ locking =>
        split at h <;> cases h
        case _ turn =>
          subst turn
          exact .lock consumer locking rfl
  case send w i =>
    obtain ⟨⟨_, _⟩, h, rfl, rfl, rfl⟩ := h
    simp only [send] at h
    split at h <;> try cases h
    case _ consumer =>
      split at h <;> try cases h
      case _ sending =>
        split at h <;> try cases h
        case _ handle =>
          split at h <;> try cases h
          case _ same =>
            obtain rfl := Classical.not_not.mp same
            split at h
            case isTrue =>
              obtain ⟨_, accepted, he⟩ := Option.map_eq_some_iff.mp h
              cases he
              exact .send consumer sending handle accepted
            case isFalse dropped =>
              cases h
              exact .failed consumer sending handle <| by simpa using dropped
  case unlock w =>
    obtain ⟨_, h, rfl, rfl, rfl⟩ := h
    simp only [unlock] at h
    split at h <;> try cases h
    split at h <;> cases h
    exact .unlock ‹_› ‹_›
  case error w =>
    obtain ⟨_, h, rfl, rfl, rfl⟩ := h
    simp only [endTask] at h
    split at h <;> try cases h
    split at h <;> cases h
    exact .error ‹_› ‹_›
  case ended w =>
    obtain ⟨_, h, rfl, rfl, rfl⟩ := h
    simp only [endTask] at h
    split at h <;> try cases h
    split at h <;> try cases h
    obtain ⟨inactive, he⟩ := Option.ite_none_right_eq_some.mp h
    cases he
    exact .ended ‹_› ‹_› <| by simpa using inactive
  case cancelled w =>
    obtain ⟨_, h, rfl, rfl, rfl⟩ := h
    obtain ⟨_, consumer, rfl⟩ := Option.map_eq_some_iff.mp h
    exact .cancelled consumer
  case closed =>
    obtain ⟨rfl, rfl, rfl⟩ := by simpa using h
    exact .closed

-- All that the handling of a command can do.
inductive Executed (amqp : Amqp) (s : AmqpActor) : Cmd → AmqpActor → Except RpcError Unit → Prop
  | publish {env resp result} : Executed amqp s (.publish env resp) s result
  | undeclared {queue resp err} : Executed amqp s (.subscribe queue resp) s (.error err)
  | known {queue resp} (opened : s.channelOpen) (known : queue ∈ s.consumerHandles) :
    Executed amqp s (.subscribe queue resp) s (.ok ())
  | consumed {queue resp} (opened : s.channelOpen) (unknown : queue ∉ s.consumerHandles)
    (unused : ∀ c ∈ s.consumers, c.active → c.tag ≠ consumerTag amqp) :
    Executed amqp s (.subscribe queue resp) { s with
      consumers       := s.consumers ++ [{ queue, tag := consumerTag amqp }]
      consumerHandles := s.consumerHandles ++ [queue]
    } (.ok ())
  | refused {queue resp err} (unknown : queue ∉ s.consumerHandles) :
    Executed amqp s (.subscribe queue resp) s (.error err)
  | closed {queue resp err} (unknown : queue ∉ s.consumerHandles) {c : Consumer}
    (consumer : c ∈ s.consumers) (active : c.active) (used : c.tag = consumerTag amqp) :
    Executed amqp s (.subscribe queue resp) s.closeChannel (.error err)

theorem doSubscribe_executed {queue : String} {resp : ℕ} {declared consumed : Except String Unit}
    {result : Except RpcError Unit}
    (h : s.doSubscribe amqp queue declared consumed = some (s', result)) :
    Executed amqp s (.subscribe queue resp) s' result := by
  simp only [doSubscribe] at h
  split at h
  case h_1 => cases h; exact .undeclared
  case h_2 =>
    split at h <;> try cases h
    case isFalse opened =>
      replace opened : s.channelOpen := by simpa using opened
      split at h
      case isTrue known => cases h; exact .known opened known
      case isFalse unknown =>
        obtain ⟨⟨_, _⟩, h, he⟩ := Option.map_eq_some_iff.mp h
        cases consumed <;> simp only [basicConsume] at h <;> split at h <;> cases h <;> cases he
        case error.isTrue used =>
          obtain ⟨c, consumer, active, used⟩ := by simpa using used
          exact .closed unknown consumer active used
        case error.isFalse => exact .refused unknown
        case ok.isFalse unused => exact .consumed opened unknown <| by simpa using unused

theorem execute_executed {cmd : Cmd} {outcome : Outcome} {result : Except RpcError Unit}
    (h : s.execute amqp cmd outcome = some (s', result)) : Executed amqp s cmd s' result := by
  simp only [execute] at h
  split at h <;> try cases h
  case h_1 =>
    split at h <;> cases h
    exact .publish
  case h_2 => exact doSubscribe_executed h

-- All that one action can do to the consumers.
inductive Works (m : Actor (kind amqp)) (act : Actor.Action Event Outcome)
    (m' : Actor (kind amqp)) :
    Prop
  | same (quiet : ∀ event, act ≠ .task event) (state : m'.state = m.state)
  | execute {cmd outcome result} (action : act = .execute outcome)
    (handling : m.phase = .handling cmd)
    (executed : m.state.execute amqp cmd outcome = some (m'.state, result))
  | finish (action : act = .finish) (phase : m'.phase = .stopped)
    (ended : m'.state = { m.state with
      channelOpen := false
      consumers   := m.state.consumers.map fun c => { c with active := false, phase := .ended } })
  | task {event} (action : act = .task event)
    (worked : Worked amqp m.state m.subscribers m.lock event m'.state m'.subscribers m'.lock)

theorem step_works (st : Actor.Step m act m') : Works m act m' := by
  cases st
  case caller caller =>
    refine .same ?_ rfl
    rintro event rfl
    cases caller
  case defer deferred => cases deferred
  case begin started => cases started; exact .same (by simp) rfl
  case execute handling executed => exact .execute rfl handling executed
  case finish finished => cases finished; exact .finish rfl rfl rfl
  case task acted => exact .task rfl <| task_worked acted
  all_goals exact .same (by simp) rfl

-- What becomes of a consumer. Neither a consumer that is gone nor a task that has ended comes back.
structure Changes (c c' : Consumer) : Prop where
  queue  : c'.queue = c.queue
  tag    : c'.tag = c.tag
  active : c'.active → c.active
  ended  : c.phase = .ended → c'.phase = .ended

theorem Changes.refl (c : Consumer) : Changes c c :=
  ⟨rfl, rfl, id, id⟩

theorem closeChannel_changes {w : ℕ} {c' : Consumer} (h' : s.closeChannel.consumers[w]? = some c') :
    ∃ c, s.consumers[w]? = some c ∧ Changes c c' := by
  simp only [closeChannel, List.getElem?_map, Option.map_eq_some_iff] at h'
  obtain ⟨c, h, rfl⟩ := h'
  exact ⟨c, h, rfl, rfl, by simp, id⟩

theorem Worked.changes {event : Event} (worked : Worked amqp s f lock event s' f' lock') {w : ℕ}
    {c' : Consumer} (h' : s'.consumers[w]? = some c') :
    ∃ c, s.consumers[w]? = some c ∧ Changes c c' := by
  have set {v : ℕ} {d d' : Consumer} (consumer : s.consumers[v]? = some d)
      (h' : (s.consumers.set v d')[w]? = some c') (changes : Changes d d') :
      ∃ c, s.consumers[w]? = some c ∧ Changes c c' := by
    rcases List.getElem?_set_cases h' with ⟨rfl, rfl⟩ | ⟨_, h'⟩
    · exact ⟨d, consumer, changes⟩
    · exact ⟨c', h', .refl c'⟩
  cases worked
  case skip                   => exact ⟨c', h', .refl c'⟩
  case closed                 => exact closeChannel_changes h'
  case error consumer _       => exact set consumer h' ⟨rfl, rfl, id, fun _ => rfl⟩
  case ended consumer _ _     => exact set consumer h' ⟨rfl, rfl, id, fun _ => rfl⟩
  case cancelled consumer     => exact set consumer h' ⟨rfl, rfl, by simp, id⟩
  case deliver consumer hp _  => exact set consumer h' ⟨rfl, rfl, id, by simp [hp]⟩
  case lock consumer hp _     => exact set consumer h' ⟨rfl, rfl, id, by simp [hp]⟩
  case send consumer hp _ _   => exact set consumer h' ⟨rfl, rfl, id, by simp [hp]⟩
  case failed consumer hp _ _ => exact set consumer h' ⟨rfl, rfl, id, by simp [hp]⟩
  case unlock consumer hp     => exact set consumer h' ⟨rfl, rfl, id, by simp [hp]⟩

-- The step makes the actor ask for a consumer of the queue.
def Consumes (m : Actor (kind amqp)) (act : Actor.Action Event Outcome) (queue : String) : Prop :=
  ∃ resp consumed, m.phase = .handling (.subscribe queue resp) ∧
    act = .execute (.subscribe (.ok ()) consumed) ∧ m.state.channelOpen ∧
    queue ∉ m.state.consumerHandles

-- Where a consumer comes from.
inductive Stems (m : Actor (kind amqp)) (act : Actor.Action Event Outcome) (w : ℕ) (c' : Consumer) :
    Prop
  | old {c : Consumer} (consumer : m.state.consumers[w]? = some c) (changes : Changes c c')
  | new (last : w = m.state.consumers.length)
    (made : c' = { queue := c'.queue, tag := consumerTag amqp })
    (unused : ∀ c ∈ m.state.consumers, c.active → c.tag ≠ consumerTag amqp)

theorem Works.stems (works : Works m act m') {w : ℕ} {c' : Consumer}
    (h' : m'.state.consumers[w]? = some c') : Stems m act w c' := by
  cases works
  case same state => exact .old (state ▸ h') (.refl c')
  case finish ended =>
    rw [ended] at h'
    obtain ⟨c, h, rfl⟩ := by simpa using h'
    exact .old h ⟨rfl, rfl, by simp, fun _ => rfl⟩
  case task worked =>
    obtain ⟨c, h, changes⟩ := worked.changes h'
    exact .old h changes
  case execute executed =>
    have executed := execute_executed executed
    generalize m'.state = s' at executed h'
    cases executed
    case publish | undeclared | known | refused => exact .old h' (.refl c')
    case closed =>
      obtain ⟨c, h, changes⟩ := closeChannel_changes h'
      exact .old h changes
    case consumed unused _ =>
      by_cases hw : w < m.state.consumers.length
      case pos =>
        rw [List.getElem?_append_left hw] at h'
        exact .old h' (.refl c')
      case neg =>
        rw [List.getElem?_append_right (Nat.le_of_not_lt hw)] at h'
        obtain ⟨hw, rfl⟩ := by simpa [List.getElem?_singleton] using h'
        exact .new (by omega) rfl unused

-- All consumers are asked for by the same tag.
theorem tagged (r : (Actor.machine (kind amqp)).Reachable m) {w : ℕ} {c : Consumer}
    (h : m.state.consumers[w]? = some c) : c.tag = consumerTag amqp := by
  induction m, r using Machine.Reachable.induction_on generalizing c
  case init => simp [Actor.machine, kind] at h
  case step m act m' r hn ih =>
    cases (step_works <| Actor.next_step hn).stems h
    case old h changes => exact changes.tag.trans <| ih h
    case new made _    => rw [made]

-- So no more than one of them is active.
theorem active_unique (r : (Actor.machine (kind amqp)).Reachable m) {v w : ℕ} {c d : Consumer}
    (hc : m.state.consumers[v]? = some c) (hd : m.state.consumers[w]? = some d) (ac : c.active)
    (ad : d.active) : v = w := by
  induction m, r using Machine.Reachable.induction_on generalizing c d
  case init => simp [Actor.machine, kind] at hc
  case step m act m' r hn ih =>
    have works := step_works <| Actor.next_step hn
    have clash {w : ℕ} {c d : Consumer} (h : m.state.consumers[w]? = some c) (changes : Changes c d)
        (active : d.active)
        (unused : ∀ c ∈ m.state.consumers, c.active → c.tag ≠ consumerTag amqp) : False :=
      unused c (List.mem_of_getElem? h) (changes.active active) <| tagged r h
    cases works.stems hc <;> cases works.stems hd
    case old.old hc cc _ hd cd          => exact ih hc hd (cc.active ac) (cd.active ad)
    case old.new hc cc _ _ unused       => exact (clash hc cc ac unused).elim
    case new.old _ _ unused _ hd cd     => exact (clash hd cd ad unused).elim
    case new.new hv _ _ hw _ _          => exact hv.trans hw.symm

def activeTags (s : AmqpActor) : List String :=
  s.consumers.filter (·.active) |>.map Consumer.tag

-- The tags of the active consumers are distinct, and so is the tag by which the actor asks for
-- another one.
structure TagsDistinct (m : Actor (kind amqp)) (act : Actor.Action Event Outcome) : Prop where
  active : m.state.activeTags.Nodup
  asked  : ∀ queue, Consumes m act queue → consumerTag amqp ∉ m.state.activeTags

theorem activeTags_nodup (r : (Actor.machine (kind amqp)).Reachable m) :
    m.state.activeTags.Nodup := by
  rw [activeTags, List.Nodup, List.pairwise_map, List.pairwise_filter, List.pairwise_iff_getElem]
  intro v w hv hw lt ac ad
  have eq := active_unique r (List.getElem?_eq_getElem hv) (List.getElem?_eq_getElem hw) ac ad
  exact absurd eq <| Nat.ne_of_lt lt

theorem mem_activeTags_iff (r : (Actor.machine (kind amqp)).Reachable m) :
    consumerTag amqp ∈ m.state.activeTags ↔ ∃ c ∈ m.state.consumers, c.active := by
  simp only [activeTags, List.mem_map, List.mem_filter]
  constructor
  case mp  => exact fun ⟨c, ⟨hc, active⟩, _⟩ => ⟨c, hc, active⟩
  case mpr =>
    intro ⟨c, hc, active⟩
    have ⟨_, h⟩ := List.mem_iff_getElem?.mp hc
    exact ⟨c, ⟨hc, active⟩, tagged r h⟩

-- The tags stay distinct if and only if the actor never asks for a consumer while it has another.
theorem consumer_tags_distinct (amqp : Amqp) (as : List (Actor.Action Event Outcome))
    (m : Actor (kind amqp)) (r : (Actor.machine (kind amqp)).Run as m) :
    (Actor.machine (kind amqp)).Throughout as TagsDistinct ↔
      (Actor.machine (kind amqp)).Throughout as fun m act => ∀ queue, Consumes m act queue →
        ∀ c ∈ m.state.consumers, ¬c.active := by
  refine Machine.Throughout.congr r fun m act m' r _ => ?_
  have asked : consumerTag amqp ∉ m.state.activeTags ↔ ∀ c ∈ m.state.consumers, ¬c.active := by
    simp [mem_activeTags_iff r]
  constructor
  case mp  => exact fun h queue consumes => asked.mp <| h.asked queue consumes
  case mpr =>
    exact fun h => ⟨activeTags_nodup r, fun queue consumes => asked.mpr <| h queue consumes⟩

-- A call of `subscribe` up to the step in which the actor handles its command.
def loneSubscribe (i : ℕ) (queue : String) (consumed : Except String Unit) :
    List (Actor.Action Event Outcome) :=
  [.call (.subscribe queue), .register i, .send i, .handle, .execute (.subscribe (.ok ()) consumed)]

theorem consumer_tags_distinct_lone :
    (Actor.machine (kind loneAmqp)).Throughout (loneSubscribe 0 "q" (.ok ())) TagsDistinct ↔
      (Actor.machine (kind loneAmqp)).Throughout (loneSubscribe 0 "q" (.ok ()))
        fun m act => ∀ queue, Consumes m act queue → ∀ c ∈ m.state.consumers, ¬c.active :=
  consumer_tags_distinct loneAmqp _ _ (.of_isSome rfl)

-- The second subscription of a node that is both client and server ends the connection.
theorem second_queue_closes_connection :
    ∃ m, (Actor.machine (kind loneAmqp)).Run (loneSubscribe 0 "responses/n" (.ok ()) ++
        loneSubscribe 1 "requests/n" (.error "NOT_ALLOWED")) m ∧
      m.state.channelOpen = false ∧ (∀ c ∈ m.state.consumers, ¬c.active) ∧
      ¬(Actor.machine (kind loneAmqp)).Throughout (loneSubscribe 0 "responses/n" (.ok ()) ++
        loneSubscribe 1 "requests/n" (.error "NOT_ALLOWED")) TagsDistinct := by
  have run : (Actor.machine (kind loneAmqp)).Run (loneSubscribe 0 "responses/n" (.ok ()) ++
      loneSubscribe 1 "requests/n" (.error "NOT_ALLOWED")) _ := .of_isSome rfl
  have handling : (Actor.machine (kind loneAmqp)).Run (loneSubscribe 0 "responses/n" (.ok ()) ++
      (loneSubscribe 1 "requests/n" (.error "NOT_ALLOWED")).take 4) _ := .of_isSome rfl
  refine ⟨_, run, rfl, by decide, fun h => ?_⟩
  have distinct := h _ _ [] _ rfl handling
  exact distinct.asked "requests/n" ⟨_, _, rfl, rfl, rfl, by decide⟩ <| by decide

end MomRpc.AmqpActor
