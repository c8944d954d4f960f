import MomRpc.Transport.Theorems.Conservation
import MomRpc.Transport.Theorems.Consuming
import MomRpc.Transport.Theorems.Failing

namespace MomRpc

namespace Fanout

variable {ι : Type} {f f' f'' : Fanout ι} {topic topic' : String} {j k : ℕ}
  {more more' : List Envelope}

-- A send to the inbox does not wait.
def Accepts (f : Fanout ι) (j : ℕ) : Prop :=
  ∀ h ∈ f.handles[j]?, h.inbox.held → h.inbox.HasRoom

instance : Decidable (f.Accepts j) :=
  inferInstanceAs (Decidable (∀ h ∈ f.handles[j]?, h.inbox.held → h.inbox.HasRoom))

-- What has come to the inbox since, unless nobody holds it.
def Receives (f f' : Fanout ι) (j : ℕ) (more : List Envelope) : Prop :=
  ∀ h ∈ f.handles[j]?, h.inbox.held → ∃ h' ∈ f'.handles[j]?, h'.inbox.held ∧
    h'.inbox.contents = h.inbox.contents ++ more

theorem Receives.refl : f.Receives f j [] :=
  fun h hh held => ⟨h, hh, held, (List.append_nil _).symm⟩

theorem Receives.trans (r : f.Receives f' j more) (r' : f'.Receives f'' j more') :
    f.Receives f'' j (more ++ more') := by
  intro h hh held
  have ⟨h', hh', held', he⟩ := r h hh held
  have ⟨h'', hh'', held'', he'⟩ := r' h' hh' held'
  exact ⟨h'', hh'', held'', by rw [he', he, List.append_assoc]⟩

-- The inboxes are kept, and nothing is lost from them.
structure Grown (f f' : Fanout ι) : Prop where
  inboxes : ∀ j, ∃ more, f.Receives f' j more
  map     : ∀ topic, ∀ j ∈ (f.subscribers topic).getD [], j ∈ (f'.subscribers topic).getD []

theorem Grown.refl (f : Fanout ι) : f.Grown f where
  inboxes _  := ⟨[], .refl⟩
  map _ _ hj := hj

theorem Grown.trans (g : f.Grown f') (g' : f'.Grown f'') : f.Grown f'' where
  inboxes j :=
    let ⟨_, r⟩ := g.inboxes j
    let ⟨_, r'⟩ := g'.inboxes j
    ⟨_, r.trans r'⟩
  map topic j hj := g'.map topic j <| g.map topic j hj

theorem Grown.subscribe : f.Grown (f.subscribe topic) where
  inboxes j := by
    refine ⟨[], fun h hh held => ⟨h, ?_, held, (List.append_nil _).symm⟩⟩
    have ⟨hl, _⟩ := List.getElem?_eq_some_iff.mp hh
    exact (List.getElem?_append_left hl).trans hh
  map topic' j hj := by
    by_cases ht : topic' = topic
    case neg => simpa [Fanout.subscribe, ht] using hj
    case pos =>
      subst ht
      simpa [Fanout.subscribe] using Or.inl hj

-- A send puts an envelope into its inbox and does nothing to the others.
theorem receives_send {h : SubscriptionHandle} {inbox : Mailbox Envelope inboxCapacity}
    {env : Envelope} (handle : f.handles[k]? = some h) (sent : h.inbox.trySend env = some inbox) :
    f.Receives { f with handles := f.handles.set k { h with inbox } } k [env] := by
  intro h' hh' _
  cases handle.symm.trans hh'
  have ⟨hl, _⟩ := List.getElem?_eq_some_iff.mp handle
  have ⟨_, held⟩ := Mailbox.trySend_held sent
  exact ⟨_, List.getElem?_set_self hl, held, Mailbox.trySend_contents sent⟩

theorem receives_set {h : SubscriptionHandle} (ne : k ≠ j) :
    f.Receives { f with handles := f.handles.set k h } j [] :=
  fun h' hh' held => ⟨h', (List.getElem?_set_ne ne).trans hh', held, (List.append_nil _).symm⟩

theorem Grown.send {h : SubscriptionHandle} {inbox : Mailbox Envelope inboxCapacity}
    {env : Envelope} (handle : f.handles[k]? = some h) (sent : h.inbox.trySend env = some inbox) :
    f.Grown { f with handles := f.handles.set k { h with inbox } } where
  inboxes j := by
    by_cases hj : k = j
    case pos => exact hj ▸ ⟨_, receives_send handle sent⟩
    case neg => exact ⟨[], receives_set hj⟩
  map _ _ hj := hj

theorem Listed.mono {senders : List ℕ} (h : f.Listed topic senders)
    (keeps : ∀ k, f.HasTopic topic k → f'.HasTopic topic k) : f'.Listed topic senders where
  nodup         := h.nodup
  hasTopic k hk := keeps k <| h.hasTopic k hk

theorem Accepts.set_of_ne {h : SubscriptionHandle} (ne : k ≠ j) (accepts : f.Accepts j) :
    { f with handles := f.handles.set k h }.Accepts j :=
  fun h' hh' => accepts h' <| (List.getElem?_set_ne ne).symm.trans hh'

theorem Accepts.subscribe (accepts : f.Accepts j) : (f.subscribe topic).Accepts j := by
  intro h hh held
  by_cases hl : j < f.handles.length
  case pos => exact accepts h ((List.getElem?_append_left hl).symm.trans hh) held
  case neg =>
    have hh : (f.handles ++ [{ subscription := ⟨topic⟩ }])[j]? = some h := hh
    rw [List.getElem?_append_right (Nat.le_of_not_lt hl), List.getElem?_singleton] at hh
    obtain ⟨_, rfl⟩ := by simpa using hh
    simp [Mailbox.HasRoom]

theorem accepts_fresh : (f.subscribe topic).Accepts f.handles.length := by
  refine Accepts.subscribe fun h hh => ?_
  simp at hh

-- The receiver of an inbox only makes room.
theorem Accepts.recv (received : f.recv k = some f') (accepts : f.Accepts j) : f'.Accepts j := by
  simp only [Fanout.recv, Option.bind_eq_bind, Option.bind_eq_some_iff] at received
  obtain ⟨h, hh, ⟨env, inbox⟩, hr, he⟩ := received
  cases he
  by_cases hj : k = j
  case neg => exact accepts.set_of_ne hj
  case pos =>
    subst hj
    intro h' hh' _
    rcases List.getElem?_set_cases hh' with ⟨_, rfl⟩ | ⟨ne, _⟩
    · obtain ⟨held, hq, _⟩ := Mailbox.recv_iff.mp hr
      have room := accepts h hh held
      simp only [Mailbox.HasRoom, hq, List.length_cons] at room ⊢
      omega
    · exact absurd rfl ne

theorem Accepts.drop (dropped : f.drop k = some f') (accepts : f.Accepts j) : f'.Accepts j := by
  obtain ⟨h, hh, rfl⟩ := Option.map_eq_some_iff.mp dropped
  intro h' hh' held
  rcases List.getElem?_set_cases hh' with ⟨_, rfl⟩ | ⟨_, hh'⟩
  · cases held
  · exact accepts h' hh' held

theorem Accepts.conclude {owners : List ℕ} {i : ℕ} {c : RumqttcTransport.MethodCall}
    (accepts : f.Accepts j) : (f.conclude owners i c).Accepts j := by
  rcases conclude_cases (f := f) (i := i) (c := c) with he | ⟨_, h⟩
  · rwa [he]
  · exact accepts.drop h

end Fanout

-- The inboxes that the task of the consumer has still to send to.
def Consumer.owes (f : Fanout Empty) (c : Consumer) : List ℕ :=
  match c.phase with
  | .locking _         => (f.subscribers c.queue).getD []
  | .sending _ senders => senders
  | _                  => []

namespace AmqpActor

open RumqttcTransport (MethodCall)

variable {amqp : Amqp} {m m' t : Actor (kind amqp)} {act : Actor.Action Event Outcome}
  {s s' : AmqpActor} {f f' : Fanout Empty} {lock lock' : List Actor.Waiter} {event : Event}
  {v w i : ℕ} {c : Consumer} {env : Envelope}

def isLocking : Consumer.Phase → Bool
  | .locking _ => true
  | _          => false

def locks (s : AmqpActor) (w : ℕ) : Bool :=
  s.consumers[w]?.any (isLocking ·.phase)

theorem locks_set (h : s.consumers[v]? = some c) {c' : Consumer} :
    (s.set v c').locks w = if v = w then isLocking c'.phase else s.locks w := by
  have ⟨hl, _⟩ := List.getElem?_eq_some_iff.mp h
  by_cases hw : v = w
  case pos => subst hw; simp [locks, hl]
  case neg => simp [locks, hw, List.getElem?_set_ne hw]

theorem locks_eq (h : s.consumers[w]? = some c) : s.locks w = isLocking c.phase := by
  simp [locks, h]

theorem locks_closeChannel : s.closeChannel.locks w = s.locks w := by
  simp [locks, closeChannel, Option.any_map]

-- A consumer task waits for the lock as often as it is due.
def Queued (s : AmqpActor) (lock : List Actor.Waiter) : Prop :=
  ∀ w, lock.count (.task w) = (s.locks w).toNat

theorem Worked.queued (worked : Worked amqp s f lock event s' f' lock') (h : Queued s lock) :
    Queued s' lock' := by
  intro w
  have hw := h w
  -- The tasks keep their places but for those that begin or stop to wait.
  have keep {v : ℕ} {c : Consumer} (c' : Consumer) (consumer : s.consumers[v]? = some c)
      (same : isLocking c'.phase = isLocking c.phase) : (s.set v c').locks w = s.locks w := by
    rw [locks_set consumer]
    split
    case isTrue hv => rw [← hv, locks_eq consumer, same]
    case isFalse   => rfl
  cases worked
  case deliver v _ _ c consumer waiting _ =>
    have hv := locks_eq consumer
    rw [waiting] at hv
    rw [locks_set consumer, List.count_append, hw]
    by_cases he : v = w
    case pos => subst he; simp [hv, isLocking]
    case neg => simp [he]
  case lock v env c consumer locking turn =>
    have hv := locks_eq consumer
    rw [locking] at hv
    rw [turn, List.count_cons] at hw
    rw [locks_set consumer]
    by_cases he : v = w
    case pos => subst he; simpa [hv, isLocking] using hw
    case neg => simpa [he] using hw
  case skip                        => exact hw
  case closed                      => rw [locks_closeChannel, hw]
  case cancelled consumer          => rw [keep _ consumer (by rfl), hw]
  case send consumer sending _ _   => rw [keep _ consumer (by simp [isLocking, sending]), hw]
  case failed consumer sending _ _ => rw [keep _ consumer (by simp [isLocking, sending]), hw]
  case unlock consumer sent        => rw [keep _ consumer (by simp [isLocking, sent]), hw]
  case error consumer waiting      => rw [keep _ consumer (by simp [isLocking, waiting]), hw]
  case ended consumer waiting _    => rw [keep _ consumer (by simp [isLocking, waiting]), hw]

theorem Executed.locks {cmd : Cmd} {result : Except RpcError Unit}
    (executed : Executed amqp s cmd s' result) : s'.locks w = s.locks w := by
  cases executed
  case publish | undeclared | known | refused => rfl
  case closed => exact locks_closeChannel
  case consumed queue _ _ _ _ =>
    simp only [AmqpActor.locks]
    rcases Nat.lt_or_ge w s.consumers.length with hw | hw
    · rw [List.getElem?_append_left hw]
    · rw [List.getElem?_append_right hw, List.getElem?_eq_none hw, List.getElem?_singleton]
      split <;> rfl

theorem queued (r : (Actor.machine (kind amqp)).Reachable m) : Queued m.state m.lock := by
  induction m, r using Machine.Reachable.induction_on
  case init => simp [Queued, Actor.machine, kind, locks]
  case step m act m' r hn ih =>
    have st := Actor.next_step hn
    intro w
    cases st <;> try exact ih w
    case subscribe => simpa using ih w
    case register turn _ => simpa [turn] using ih w
    case caller waiters _ =>
      rcases waiters with ⟨rfl, _⟩ | ⟨_, rfl⟩
      · exact ih w
      · exact (List.count_erase_of_ne <| by simp).trans <| ih w
    case defer deferred => cases deferred
    case begin started => cases started; exact ih w
    case execute executed => exact (ih w).trans <| congrArg _ (execute_executed executed).locks.symm
    case finish finished =>
      cases finished
      have none : (m.lock.filter (·.call?.isSome)).count (.task w) = 0 :=
        List.count_eq_zero.mpr <| by simp [Actor.Waiter.call?]
      simp [none, locks, Option.any_map, isLocking]
    case task acted => exact (task_worked acted).queued ih w

theorem locking_of_mem (r : (Actor.machine (kind amqp)).Reachable m) (h : .task w ∈ m.lock) :
    ∃ c env, m.state.consumers[w]? = some c ∧ c.phase = .locking env := by
  have due : m.state.locks w := by
    have pos := List.count_pos_iff.mpr h
    cases hw : m.state.locks w
    case true  => rfl
    case false => simp [queued r w, hw] at pos
  obtain ⟨c, hc, locking⟩ := Option.any_eq_true _ _ |>.mp due
  cases hp : c.phase <;> simp [hp, isLocking] at locking
  case locking env => exact ⟨c, env, hc, hp⟩

theorem mem_of_locking (r : (Actor.machine (kind amqp)).Reachable m)
    (h : m.state.consumers[w]? = some c) (hp : c.phase = .locking env) : .task w ∈ m.lock := by
  apply List.count_pos_iff.mp
  simp [queued r w, locks_eq h, hp, isLocking]

-- The actor takes its tasks with it.
theorem ended_of_stopped (r : (Actor.machine (kind amqp)).Reachable m) (h : m.phase = .stopped) :
    ∀ c ∈ m.state.consumers, c.phase = .ended := by
  induction m, r using Machine.Reachable.induction_on
  case init => cases h
  case step m act m' r hn ih =>
    have st := Actor.next_step hn
    cases st <;> try exact ih h
    case finish finished => cases finished; simp
    case defer deferred => cases deferred
    case task acted =>
      have h : m.phase = .stopped := h
      simp [h, (kind amqp).task_stopped] at acted
    all_goals cases h

theorem not_stopped (r : (Actor.machine (kind amqp)).Reachable m)
    (h : m.state.consumers[w]? = some c) (hp : c.phase ≠ .ended) : m.phase ≠ .stopped :=
  fun hs => hp <| ended_of_stopped r hs c <| List.mem_of_getElem? h

theorem task_eq (h : m.phase ≠ .stopped) :
    (Actor.machine (kind amqp)).next m (.task event) =
      (m.state.task amqp m.subscribers m.lock event).map fun (state, subscribers, lock) =>
        { m with state, subscribers, lock } := by
  cases hp : m.phase <;> simp_all [Actor.machine, Actor.next, Actor.task, kind]

theorem owes_of_locking (hp : c.phase = .locking env) :
    c.owes f = (f.subscribers c.queue).getD [] := by
  simp [Consumer.owes, hp]

theorem owes_of_sending {senders : List ℕ} (hp : c.phase = .sending env senders) :
    c.owes f = senders := by
  simp [Consumer.owes, hp]

theorem owes_congr (map : f'.subscribers = f.subscribers) : c.owes f' = c.owes f := by
  simp [Consumer.owes, map]

theorem owes_eq {c' : Consumer} (queue : c'.queue = c.queue) (phase : c'.phase = c.phase) :
    c'.owes f = c.owes f := by
  simp [Consumer.owes, queue, phase]

-- A command makes no task send.
theorem Executed.consumer {cmd : Cmd} {result : Except RpcError Unit}
    (executed : Executed amqp s cmd s' result) {c' : Consumer}
    (h' : s'.consumers[w]? = some c') :
    (∃ c, s.consumers[w]? = some c ∧ c'.queue = c.queue ∧ c'.phase = c.phase) ∨
      c'.phase = .waiting := by
  cases executed
  case publish | undeclared | known | refused => exact .inl ⟨c', h', rfl, rfl⟩
  case closed =>
    obtain ⟨c, hc, rfl⟩ := by simpa [closeChannel] using h'
    exact .inl ⟨c, hc, rfl, rfl⟩
  case consumed =>
    rcases Nat.lt_or_ge w s.consumers.length with hw | hw
    · exact .inl ⟨c', (List.getElem?_append_left hw).symm.trans h', rfl, rfl⟩
    · rw [List.getElem?_append_right hw, List.getElem?_singleton] at h'
      obtain ⟨_, rfl⟩ := by simpa using h'
      exact .inr rfl

-- Each sender belongs to the queue under which it stands in the map or for which a task has it.
structure Addressed (s : AmqpActor) (f : Fanout Empty) : Prop where
  map     : ∀ queue, f.Listed queue ((f.subscribers queue).getD [])
  senders : ∀ (w : ℕ) (c : Consumer), s.consumers[w]? = some c → f.Listed c.queue (c.owes f)

theorem Addressed.mono (h : Addressed s f) (map : f'.subscribers = f.subscribers)
    (keeps : ∀ queue k, f.HasTopic queue k → f'.HasTopic queue k) : Addressed s f' where
  map queue       := map ▸ (h.map queue).mono (keeps queue)
  senders w c hc  := owes_congr map ▸ (h.senders w c hc).mono (keeps c.queue)

theorem Addressed.set {v : ℕ} (h : Addressed s f) (consumer : s.consumers[v]? = some c)
    {c' : Consumer} (queue : c'.queue = c.queue) (owes : (c'.owes f).Sublist (c.owes f)) :
    Addressed (s.set v c') f where
  map             := h.map
  senders w d hd  := by
    rcases List.getElem?_set_cases hd with ⟨rfl, rfl⟩ | ⟨_, hd⟩
    · exact queue ▸ (h.senders w c consumer).sublist owes
    · exact h.senders w d hd

theorem Addressed.subscribe (h : Addressed s f) {queue : String} :
    Addressed s (f.subscribe queue) := by
  have keeps (queue' : String) (k : ℕ) (ht : f.HasTopic queue' k) :
      (f.subscribe queue).HasTopic queue' k :=
    Fanout.Step.hasTopic (Fanout.Step.subscribe : Fanout.Step (fun _ => none) ..) ht
  have map (queue' : String) :
      (f.subscribe queue).Listed queue' (((f.subscribe queue).subscribers queue').getD []) := by
    by_cases hq : queue' = queue
    case neg => simpa [Fanout.subscribe, hq] using (h.map queue').mono (keeps queue')
    case pos =>
      subst hq
      simpa [Fanout.subscribe] using (h.map queue').subscribe
  refine ⟨map, fun w c hc => ?_⟩
  cases hp : c.phase
  case locking => exact owes_of_locking hp ▸ map c.queue
  case sending =>
    have := h.senders w c hc
    rw [owes_of_sending hp] at this ⊢
    exact this.mono (keeps c.queue)
  all_goals exact ⟨by simp [Consumer.owes, hp], by simp [Consumer.owes, hp]⟩

theorem Worked.addressed (worked : Worked amqp s f lock event s' f' lock') (h : Addressed s f) :
    Addressed s' f' := by
  cases worked
  case skip => exact h
  case closed =>
    refine ⟨h.map, fun w c hc => ?_⟩
    obtain ⟨d, hd, rfl⟩ := by simpa [closeChannel] using hc
    exact h.senders w d hd
  case deliver consumer _ _ =>
    refine ⟨h.map, fun w d hd => ?_⟩
    rcases List.getElem?_set_cases hd with ⟨rfl, rfl⟩ | ⟨_, hd⟩
    · exact h.map _
    · exact h.senders w d hd
  case lock consumer locking _     => exact h.set consumer rfl <| by simp [Consumer.owes, locking]
  case failed consumer sending _ _ => exact h.set consumer rfl <| by simp [Consumer.owes, sending]
  case unlock consumer sent        => exact h.set consumer rfl <| by simp [Consumer.owes]
  case error consumer _            => exact h.set consumer rfl <| by simp [Consumer.owes]
  case ended consumer _ _          => exact h.set consumer rfl <| by simp [Consumer.owes]
  case cancelled consumer          => exact h.set consumer rfl <| .refl _
  case send i _ _ h₀ inbox _ consumer sending handle _ =>
    have h : Addressed s { f with handles := f.handles.set i { h₀ with inbox } } :=
      h.mono rfl fun _ _ => Fanout.HasTopic.set handle
    exact h.set consumer rfl <| by simp [Consumer.owes, sending]

theorem Executed.addressed {cmd : Cmd} {result : Except RpcError Unit}
    (executed : Executed amqp s cmd s' result) (h : Addressed s f) : Addressed s' f := by
  refine ⟨h.map, fun w c' hc' => ?_⟩
  rcases executed.consumer hc' with ⟨c, hc, queue, phase⟩ | waiting
  · exact queue ▸ owes_eq queue phase ▸ h.senders w c hc
  · exact ⟨by simp [Consumer.owes, waiting], by simp [Consumer.owes, waiting]⟩

theorem addressed (r : (Actor.machine (kind amqp)).Reachable m) :
    Addressed m.state m.subscribers := by
  induction m, r using Machine.Reachable.induction_on
  case init =>
    exact ⟨fun _ => ⟨List.nodup_nil, by simp [Actor.machine]⟩, by simp [Actor.machine, kind]⟩
  case step m act m' r hn ih =>
    have keep {f : Fanout Empty} (o : Option (Fanout.Action Empty))
        (hf : (Fanout.machine Empty fun _ => none).next? m.subscribers o = some f)
        (map : f.subscribers = m.subscribers.subscribers) : Addressed m.state f := by
      refine ih.mono map fun queue k ht => ?_
      rcases Machine.next?_cases hf with ⟨_, rfl⟩ | ⟨_, _, hf⟩
      · exact ht
      · exact (Fanout.next_step hf).hasTopic ht
    cases Actor.next_step hn <;> try exact ih
    case register => exact ih.subscribe
    case caller i _ _ _ c' _ _ _ _ _ =>
      obtain ⟨o, hf⟩ : ∃ o, (Fanout.machine Empty fun _ => none).next? m.subscribers o =
          some (m.subscribers.conclude m.owners i c') := Actor.conclude_fanout
      exact keep o hf Fanout.conclude_same.left
    case recv k _ received     =>
      exact keep (some (.recv k)) received (Fanout.recv_same received).left
    case dropInbox k _ dropped =>
      exact keep (some (.drop k)) dropped (Fanout.drop_same dropped).left
    case defer deferred => cases deferred
    case begin started => cases started; exact ih
    case execute executed => exact (execute_executed executed).addressed ih
    case finish finished =>
      cases finished
      refine ⟨ih.map, fun w c hc => ?_⟩
      obtain ⟨_, _, rfl⟩ := by simpa using hc
      exact ⟨List.nodup_nil, by simp [Consumer.owes]⟩
    case task acted => exact (task_worked acted).addressed ih

-- No task will have to wait for a reader in order to get done with what it has been given.
def Roomy (s : AmqpActor) (f : Fanout Empty) : Prop :=
  ∀ (w : ℕ) (c : Consumer), s.consumers[w]? = some c → ∀ j ∈ c.owes f, f.Accepts j

-- A task that is given a delivery finds room in all inboxes of its queue.
def KeepsRoom (m : Actor (kind amqp)) : Actor.Action Event Outcome → Prop
  | .task (.deliver w data true) => (amqp.fromSlice data).isSome →
    ∀ c ∈ m.state.consumers[w]?, ∀ j ∈ (m.subscribers.subscribers c.queue).getD [],
      m.subscribers.Accepts j
  | _ => True

instance : DecidablePred (KeepsRoom m)
  | .task (.deliver w data true) => inferInstanceAs <| Decidable ((amqp.fromSlice data).isSome →
    ∀ c ∈ m.state.consumers[w]?, ∀ j ∈ (m.subscribers.subscribers c.queue).getD [],
      m.subscribers.Accepts j)
  | .task (.deliver _ _ false) | .task (.lock _) | .task (.send _ _) | .task (.unlock _)
  | .task (.error _) | .task (.ended _) | .task (.cancelled _) | .task .closed
  | .call _ | .register _ | .send _ | .resume _ | .retry _ | .join _ | .cancel _ | .recv _
  | .dropInbox _ | .pushTask | .drop | .handle | .execute _ | .ended | .finish =>
    inferInstanceAs <| Decidable True

theorem Roomy.mono (h : Roomy s f) (map : f'.subscribers = f.subscribers)
    (keeps : ∀ j, f.Accepts j → f'.Accepts j) : Roomy s f' :=
  fun w c hc j hj => keeps j <| h w c hc j <| owes_congr map ▸ hj

theorem Roomy.set {v : ℕ} (h : Roomy s f) (consumer : s.consumers[v]? = some c) {c' : Consumer}
    (owes : ∀ j ∈ c'.owes f, j ∈ c.owes f) : Roomy (s.set v c') f := by
  intro w d hd j hj
  rcases List.getElem?_set_cases hd with ⟨rfl, rfl⟩ | ⟨_, hd⟩
  · exact h w c consumer j <| owes j hj
  · exact h w d hd j hj

theorem Roomy.subscribe (h : Roomy s f) {queue : String} : Roomy s (f.subscribe queue) := by
  intro w c hc j hj
  have old (hj : j ∈ c.owes f) : (f.subscribe queue).Accepts j := (h w c hc j hj).subscribe
  cases hp : c.phase
  case locking =>
    rw [owes_of_locking hp] at hj old
    by_cases hq : c.queue = queue
    case neg => exact old <| by simpa [Fanout.subscribe, hq] using hj
    case pos =>
      subst hq
      obtain hj | rfl : j ∈ (f.subscribers c.queue).getD [] ∨ j = f.handles.length := by
        simpa [Fanout.subscribe] using hj
      · exact old hj
      · exact Fanout.accepts_fresh
  case sending => exact old <| by simpa [Consumer.owes, hp] using hj
  all_goals simp [Consumer.owes, hp] at hj

-- No two tasks send to the same inbox.
theorem disjoint_owes (ad : Addressed s f) (distinct : (s.consumers.map Consumer.queue).Nodup)
    {c d : Consumer} {j : ℕ} (ne : w ≠ v) (hc : s.consumers[v]? = some c)
    (hd : s.consumers[w]? = some d) (hj : j ∈ c.owes f) : j ∉ d.owes f := by
  intro hj'
  have queue := ((ad.senders v c hc).hasTopic j hj).unique <| (ad.senders w d hd).hasTopic j hj'
  have hv : (s.consumers.map Consumer.queue)[v]? = some c.queue := by simp [hc]
  have hw : (s.consumers.map Consumer.queue)[w]? = some c.queue := by simp [hd, queue]
  have ⟨hl, _⟩ := List.getElem?_eq_some_iff.mp hw
  exact ne <| (List.getElem?_inj hl distinct).mp <| hw.trans hv.symm

theorem Worked.roomy (worked : Worked amqp s f lock event s' f' lock') (ad : Addressed s f)
    (distinct : (s.consumers.map Consumer.queue).Nodup) (h : Roomy s f)
    (keeps : ∀ w data c, event = .deliver w data true → (amqp.fromSlice data).isSome →
      s.consumers[w]? = some c → ∀ j ∈ (f.subscribers c.queue).getD [], f.Accepts j) :
    Roomy s' f' := by
  cases worked
  case skip => exact h
  case closed =>
    intro w c hc
    obtain ⟨d, hd, rfl⟩ := by simpa [closeChannel] using hc
    exact h w d hd
  case deliver v data env c consumer _ decoded =>
    intro w d hd j hj
    rcases List.getElem?_set_cases hd with ⟨rfl, rfl⟩ | ⟨_, hd⟩
    · exact keeps w data c rfl (by simp [decoded]) consumer j hj
    · exact h w d hd j hj
  case lock consumer locking _     => exact h.set consumer <| by simp [Consumer.owes, locking]
  case failed consumer sending _ _ => exact h.set consumer <| by simp_all [Consumer.owes]
  case unlock consumer sent        => exact h.set consumer <| by simp [Consumer.owes]
  case error consumer _            => exact h.set consumer <| by simp [Consumer.owes]
  case ended consumer _ _          => exact h.set consumer <| by simp [Consumer.owes]
  case cancelled consumer          => exact h.set consumer fun _ => id
  case send v i env senders h₀ inbox c consumer sending handle _ =>
    -- The inbox belongs to no other task, and this one is done with it.
    have owes : c.owes f = i :: senders := owes_of_sending sending
    have nodup := (ad.senders v c consumer).nodup
    rw [owes, List.nodup_cons] at nodup
    intro w d hd j hj
    rcases List.getElem?_set_cases hd with ⟨rfl, rfl⟩ | ⟨ne, hd⟩
    · refine (h w c consumer j ?_).set_of_ne ?_
      · rw [owes]; exact List.mem_cons_of_mem _ hj
      · exact fun hi => nodup.left <| hi ▸ hj
    · refine (h w d hd j hj).set_of_ne fun hi => ?_
      refine disjoint_owes ad distinct ne consumer hd ?_ hj
      rw [owes, hi]
      exact List.mem_cons_self ..

theorem Executed.roomy {cmd : Cmd} {result : Except RpcError Unit}
    (executed : Executed amqp s cmd s' result) (h : Roomy s f) : Roomy s' f := by
  intro w c' hc' j hj
  rcases executed.consumer hc' with ⟨c, hc, queue, phase⟩ | waiting
  · exact h w c hc j <| owes_eq queue phase ▸ hj
  · simp [Consumer.owes, waiting] at hj

-- The states of the runs whose tasks find room.
structure Flowing (m : Actor (kind amqp)) : Prop where
  reachable : (Actor.machine (kind amqp)).Reachable m
  roomy     : Roomy m.state m.subscribers

theorem Flowing.next (fl : Flowing m) (keeps : KeepsRoom m act)
    (hn : (Actor.machine (kind amqp)).next m act = some m') : Flowing m' := by
  have ⟨r, h⟩ := fl
  refine ⟨r.next hn, ?_⟩
  cases Actor.next_step hn <;> try exact h
  case register => exact h.subscribe
  case caller => exact h.mono Fanout.conclude_same.left fun _ => .conclude
  case recv received => exact h.mono (Fanout.recv_same received).left fun _ => .recv received
  case dropInbox dropped => exact h.mono (Fanout.drop_same dropped).left fun _ => .drop dropped
  case defer deferred => cases deferred
  case begin started => cases started; exact h
  case finish finished =>
    cases finished
    intro w c hc
    obtain ⟨_, _, rfl⟩ := by simpa using hc
    simp [Consumer.owes]
  case task acted =>
    have ⟨eq, nodup⟩ := handles_eq r
    apply (task_worked acted).roomy (addressed r) (eq ▸ nodup) h
    rintro w data c rfl decoded hc
    exact keeps decoded c hc
  case execute executed => exact (execute_executed executed).roomy h

end AmqpActor
end MomRpc
