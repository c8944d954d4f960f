import MomRpc.Transport.Ordering
import MomRpc.Transport.Theorems.Carriers
import MomRpc.Transport.Theorems.Isolation
import MomRpc.Transport.Theorems.Ordering

namespace MomRpc

namespace Actor

variable {ι σ α τ : Type} [DecidableEq ι] {kind : ActorKind ι σ α τ} {m m' : Actor kind}
  {act : Action α τ} {decode : Bytes → Option Envelope} {takes : String → σ → α → Option Envelope}
  {InCharge : σ → ι → String → Prop}

-- The tasks fan out what they take up, and none of them is relieved of its topic.
structure TakesUp (kind : ActorKind ι σ α τ) (decode : Bytes → Option Envelope)
    (takes : String → σ → α → Option Envelope) (InCharge : σ → ι → String → Prop) : Prop where
  task    : ∀ phase s f lock a s' f' lock', kind.task phase s f lock a = some (s', f', lock') →
    Fanout.TakesUp decode f f' (takes · s a) (InCharge s) ∧
      ∀ w topic, InCharge s w topic → InCharge s' w topic
  start   : ∀ s cmd s' deferred w topic, kind.start s cmd = (s', deferred) →
    InCharge s w topic → InCharge s' w topic
  execute : ∀ s cmd outcome s' result w topic, kind.execute s cmd outcome = some (s', result) →
    InCharge s w topic → InCharge s' w topic
  finish  : ∀ s s' w topic, kind.finish s = some s' → InCharge s w topic → InCharge s' w topic

theorem Step.takesUp (up : TakesUp kind decode takes InCharge) (st : Step m act m') :
    Fanout.TakesUp decode m.subscribers m'.subscribers (Actor.takes takes · m act)
      (InCharge m.state) := by
  cases st
  case task acted => exact (up.task _ _ _ _ _ _ _ _ acted).left
  case register topic _ _ _ _ _ _ _ =>
    exact .nothing (some (.subscribe topic)) rfl (by simp) fun _ => rfl
  case caller caller =>
    have idle topic : Actor.takes takes topic m act = none := by cases act <;> cases caller <;> rfl
    rcases Fanout.conclude_cases (f := m.subscribers) with he | ⟨k, h⟩
    · exact .nothing none (congrArg some he.symm) (by simp) idle
    · exact .nothing (some (.drop k)) h (by simp) idle
  case recv k _ received   => exact .nothing (some (.recv k)) received (by simp) fun _ => rfl
  case dropInbox k _ dropped =>
    exact .nothing (some (.drop k)) dropped (by simp) fun _ => rfl
  all_goals exact .nothing none rfl (by simp) fun _ => rfl

theorem Step.in_charge (up : TakesUp kind decode takes InCharge) (st : Step m act m') {w : ι}
    {topic : String} (h : InCharge m.state w topic) : InCharge m'.state w topic := by
  cases st
  case task acted         => exact (up.task _ _ _ _ _ _ _ _ acted).right w topic h
  case execute executed   => exact up.execute _ _ _ _ _ w topic executed h
  case finish finished    => exact up.finish _ _ w topic finished h
  case defer deferred     => exact up.start _ _ _ _ w topic deferred h
  case begin started      => exact up.start _ _ _ _ w topic started h
  all_goals exact h

theorem embeds (up : TakesUp kind decode takes InCharge) :
    Fanout.Embeds (machine kind) decode (·.subscribers) (Actor.takes takes)
      (InCharge ·.state) where
  init := rfl
  step _ _ _ _ hn := (next_step hn).takesUp up
  stays _ _ _ _ _ hn := (next_step hn).in_charge up

end Actor

-- With one worker for the topic, the fan-out keeps the order.
theorem Fanout.Embeds.inOrder {ι : Type} [DecidableEq ι] {decode : Bytes → Option Envelope}
    {C : Carrier} {F : C.FanOut} {subscribers : C.State → Fanout ι}
    {InCharge : C.State → ι → String → Prop}
    (emb : Fanout.Embeds C.machine decode subscribers F.takes InCharge)
    (handles : ∀ s, C.handles s = (subscribers s).handles)
    (settled : ∀ s, F.settled s = (subscribers s).settled)
    (sole : ∀ s topic, F.sole s topic → ∃ w, ∀ w', InCharge s w' topic → w' = w) :
    C.InOrder F := by
  intro s a s' as t h r hn pushed he handle alone
  simp only [handles, settled] at pushed handle ⊢
  obtain ⟨w, alone⟩ := sole t h.subscription.name alone
  have stands := emb.in_order r hn pushed he handle alone
  refine ⟨Fanout.given_eq handle ▸ stands.given_prefix, fun held ⟨registered, quiet⟩ => ?_⟩
  cases stands
  case on _ all =>
    have nothing : (subscribers t).owes w (subscribers s).handles.length = [] := by
      unfold Fanout.owes
      split
      case h_1 => rfl
      case h_2 topic _ _ _ _ sending =>
        have rt := emb.reachable <| (r.next hn).exec he
        refine if_neg fun hk => ?_
        obtain rfl := Fanout.topic_of_sending rt ⟨h, handle, rfl⟩ sending <|
          List.mem_append_right _ hk
        exact quiet _ _ _ _ _ sending
    rwa [nothing, List.append_nil, Fanout.given_eq handle] at all
  case off gone _ =>
    obtain ⟨_, _, _, _, sending, _⟩ := gone.leaving registered
    exact absurd sending <| quiet _ _ _ _ _
  case closed dropped _ => exact absurd ⟨h, handle, held⟩ dropped

namespace RedisActor

theorem takesUp (redis : Redis) :
    Actor.TakesUp (kind redis) (decode redis) (takes redis) fun _ _ _ => True where
  task phase s f lock event s' f' lock' h := by
    refine ⟨?_, fun _ _ => id⟩
    cases phase <;> simp only [kind, Option.map_eq_some_iff, reduceCtorEq] at h
    case receiving =>
      obtain ⟨_, h, rfl, rfl⟩ := h
      cases event <;> simp only [select, Option.map_eq_some_iff] at h
      case message topic payload =>
        obtain ⟨_, h, rfl⟩ := h
        exact ⟨some (.incoming () topic payload), h, fun _ => rfl, fun _ _ _ _ => trivial⟩
      case trySend i =>
        obtain ⟨_, h, rfl⟩ := h
        exact .nothing (some (.trySend () i)) h (by simp) fun _ => rfl
      case writeBack =>
        obtain ⟨_, h, rfl⟩ := h
        exact .nothing (some (.writeBack ())) h (by simp) fun _ => rfl
      case ended =>
        split at h <;> cases h
        exact .nothing none rfl (by simp) fun _ => rfl
  start _ _ _ _ _ _ _         := id
  execute _ _ _ _ _ _ _ _     := id
  finish _ _ _ _ _            := id

theorem inOrder (redis : Redis) : (carrier redis).InOrder (fanOut redis) :=
  (Actor.embeds <| takesUp redis).inOrder (fun _ => rfl) (fun _ => rfl) fun _ _ _ => ⟨(), by simp⟩

end RedisActor

namespace DdsActor

variable {s s' : DdsActor} {r w : ℕ} {topic : String}

theorem reads_map {g : DdsReader → DdsReader} (same : ∀ reader, (g reader).topic = reader.topic)
    (h : s.reads r topic) : ({ s with readers := s.readers.map g } : DdsActor).reads r topic := by
  obtain ⟨reader, handle, rfl⟩ := h
  exact ⟨g reader, by simp [handle], same reader⟩

theorem reads_set {reader reader' : DdsReader} (handle : s.readers[w]? = some reader)
    (same : reader'.topic = reader.topic) (h : s.reads r topic) :
    ({ s with readers := s.readers.set w reader' } : DdsActor).reads r topic := by
  exact List.exists_getElem?_set handle h fun _ => (same.trans ·)

theorem takesUp (dds : Dds) :
    Actor.TakesUp (kind dds) dds.fromSlice (takes dds) reads where
  task phase s f lock event s' f' lock' h := by
    cases task_worked h
    case sample topic data =>
      exact ⟨.nothing none rfl (by simp) fun _ => rfl, fun _ _ => reads_map fun _ => give_topic⟩
    case take r reader data samples handle waiting _ taken =>
      refine ⟨⟨some (.incoming r reader.topic data), taken, fun topic => ?_, ?_⟩,
        fun _ _ => reads_set handle rfl⟩
      · simp [takes, handle, waiting, Fanout.Action.taken]
      · rintro _ _ _ ⟨⟩
        exact ⟨reader, handle, rfl⟩
    case trySend r i sent =>
      exact ⟨.nothing (some (.trySend r i)) sent (by simp) fun _ => rfl, fun _ _ => id⟩
    case writeBack r written =>
      exact ⟨.nothing (some (.writeBack r)) written (by simp) fun _ => rfl, fun _ _ => id⟩
    case ended r reader handle _ =>
      exact ⟨.nothing none rfl (by simp) fun _ => rfl, fun _ _ => reads_set handle rfl⟩
  start s cmd s' deferred w topic h reads := by
    cases h
    exact reads
  execute s cmd outcome s' result w topic h reads := by
    obtain ⟨reader, handle, ht⟩ := reads
    cases execute_executed h
    case published readers _ => exact ⟨reader, readers ▸ handle, ht⟩
    case failed readers _    => exact ⟨reader, readers ▸ handle, ht⟩
    case subscribed          =>
      obtain ⟨hl, _⟩ := List.getElem?_eq_some_iff.mp handle
      exact ⟨reader, (List.getElem?_append_left hl).trans handle, ht⟩
  finish s s' w topic h reads := by
    simp only [kind] at h
    split at h <;> cases h
    exact reads

theorem inOrder (dds : Dds) : (carrier dds).InOrder (fanOut dds) := by
  refine (Actor.embeds <| takesUp dds).inOrder (fun _ => rfl) (fun _ => rfl) fun m topic sole => ?_
  by_cases h : ∃ w, m.state.reads w topic
  case pos =>
    obtain ⟨w, h⟩ := h
    exact ⟨w, fun w' h' => sole w' w h' h⟩
  case neg => exact ⟨0, fun w' h' => absurd ⟨w', h'⟩ h⟩

end DdsActor

namespace MqttTransport

variable {rumqttc : Rumqttc} {fromSlice : Bytes → Option Envelope} {t t' : MqttTransport}
  {act : Action} {takes : String → Option Envelope}

theorem conclude_takesUp {actor : MqttActor} {i : ℕ} (none : ∀ topic, takes topic = none) :
    Fanout.TakesUp fromSlice t.subscribers (t.conclude actor i).subscribers takes
      fun _ _ => True := by
  simp only [conclude]
  split
  case h_1 => exact .nothing Option.none rfl (by simp) none
  case h_2 =>
    rcases Fanout.conclude_cases (f := t.subscribers) with he | ⟨k, h⟩
    · exact .nothing Option.none (congrArg some he.symm) (by simp) none
    · exact .nothing (some (.drop k)) h (by simp) none

theorem next_takesUp (h : (machine rumqttc fromSlice).next t act = some t') :
    Fanout.TakesUp fromSlice t.subscribers t'.subscribers ((fanOut rumqttc fromSlice).takes · t act)
      fun _ _ => True := by
  cases act <;> simp only [machine, next] at h
  case actor act =>
    obtain ⟨_, h⟩ := Option.ite_none_left_eq_some.mp h
    obtain ⟨actor, hn, h⟩ := Option.bind_eq_some_iff.mp h
    split at h
    case h_1 topic _ _ _ =>
      cases h
      exact .nothing (some (.subscribe topic)) rfl (by simp) fun _ => rfl
    case h_2 topic payload _ _ _ =>
      obtain ⟨_, taken, rfl⟩ := Option.map_eq_some_iff.mp h
      exact ⟨some (.incoming () topic payload), taken, fun _ => rfl, fun _ _ _ _ => trivial⟩
    case h_3 | h_4 | h_5 =>
      cases h
      exact conclude_takesUp fun _ => rfl
    case h_6 =>
      cases h
      have nothing : arrives (.actor act) = none := by
        unfold arrives
        split <;> simp_all
      exact .nothing none rfl (by simp) fun _ => by simp [fanOut, nothing]
  case trySend i =>
    obtain ⟨_, sent, rfl⟩ := Option.map_eq_some_iff.mp h
    exact .nothing (some (.trySend () i)) sent (by simp) fun _ => rfl
  case writeBack =>
    obtain ⟨_, written, rfl⟩ := Option.map_eq_some_iff.mp h
    exact .nothing (some (.writeBack ())) written (by simp) fun _ => rfl
  case recv k =>
    obtain ⟨_, received, rfl⟩ := inbox_eq_some h
    exact .nothing (some (.recv k)) received (by simp) fun _ => rfl
  case dropInbox k =>
    obtain ⟨_, dropped, rfl⟩ := inbox_eq_some h
    exact .nothing (some (.drop k)) dropped (by simp) fun _ => rfl

theorem inOrder (rumqttc : Rumqttc) (fromSlice : Bytes → Option Envelope) :
    (carrier rumqttc fromSlice).InOrder (fanOut rumqttc fromSlice) := by
  have emb : Fanout.Embeds (machine rumqttc fromSlice) fromSlice (·.subscribers)
      (fanOut rumqttc fromSlice).takes fun _ _ _ => True :=
    ⟨rfl, fun _ _ _ _ => next_takesUp, fun _ _ _ _ _ _ => id⟩
  exact emb.inOrder (fun _ => rfl) (fun _ => rfl) fun _ _ _ => ⟨(), by simp⟩

end MqttTransport

-- What the task of the consumer has still to send to the inbox.
def Consumer.left (c : Consumer) (k : ℕ) : List Envelope :=
  match c.phase with
  | .sending env senders => if k ∈ senders then [env] else []
  | _                    => []

namespace AmqpActor

variable {amqp : Amqp} {s s' : AmqpActor} {f f' : Fanout Empty} {lock lock' : List Actor.Waiter}
  {event : Event} {m m' : Actor (kind amqp)} {act : Actor.Action Event Outcome} {queue : String}
  {w k : ℕ} {c c' : Consumer} {given given' sent sent' : List Envelope}

-- With what the task of its queue has still to send, the inbox has been given what was taken up.
structure Owed (s : AmqpActor) (queue : String) (k : ℕ) (given sent : List Envelope) : Prop where
  task : ∀ c ∈ s.consumers, c.queue = queue → given ++ c.left k = sent
  idle : (∀ c ∈ s.consumers, c.queue ≠ queue) → given = sent

-- No other task is for the queue.
theorem Owed.set_of_eq (distinct : (s.consumers.map Consumer.queue).Nodup)
    (consumer : s.consumers[w]? = some c) (hq : c.queue = queue) (hq' : c'.queue = queue)
    (all : given ++ c'.left k = sent) : (s.set w c').Owed queue k given sent := by
  obtain ⟨hl, _⟩ := List.getElem?_eq_some_iff.mp consumer
  constructor
  case task =>
    intro d hd hdq
    obtain ⟨v, hv⟩ := List.mem_iff_getElem?.mp hd
    rcases List.getElem?_set_cases hv with ⟨_, rfl⟩ | ⟨ne, hv⟩
    · exact all
    · have hw : (s.consumers.map Consumer.queue)[w]? = some queue := by simp [consumer, hq]
      have hv : (s.consumers.map Consumer.queue)[v]? = some queue := by simp [hv, hdq]
      exact absurd ((List.getElem?_inj (by simpa using hl) distinct).mp <| hw.trans hv.symm).symm ne
  case idle => exact fun none => absurd hq' <| none c' <| List.mem_set hl c'

theorem Owed.set_of_ne (consumer : s.consumers[w]? = some c) (ne : c.queue ≠ queue)
    (hq : c'.queue = c.queue) (owed : s.Owed queue k given sent) :
    (s.set w c').Owed queue k given sent := by
  constructor
  case task =>
    intro d hd hdq
    obtain ⟨v, hv⟩ := List.mem_iff_getElem?.mp hd
    rcases List.getElem?_set_cases hv with ⟨_, rfl⟩ | ⟨_, hv⟩
    · exact absurd (hq.symm.trans hdq) ne
    · exact owed.task d (List.mem_of_getElem? hv) hdq
  case idle =>
    refine fun none => owed.idle fun d hd => ?_
    obtain ⟨v, hv⟩ := List.mem_iff_getElem?.mp hd
    by_cases hw : w = v
    case pos =>
      subst hw
      cases consumer.symm.trans hv
      exact ne
    case neg => exact none d <| List.mem_of_getElem? <| (List.getElem?_set_ne hw).trans hv

-- A step that leaves the queue and what is left to send as they are.
theorem Owed.set_same (consumer : s.consumers[w]? = some c) (hq : c'.queue = c.queue)
    (left : c'.left k = c.left k) (distinct : (s.consumers.map Consumer.queue).Nodup)
    (owed : s.Owed queue k given sent) : (s.set w c').Owed queue k given sent := by
  by_cases h : c.queue = queue
  case neg => exact owed.set_of_ne consumer h hq
  case pos =>
    refine .set_of_eq distinct consumer h (hq.trans h) ?_
    exact left ▸ owed.task c (List.mem_of_getElem? consumer) h

theorem Owed.map {g : Consumer → Consumer} (map : s'.consumers = s.consumers.map g)
    (hq : ∀ c, (g c).queue = c.queue) (left : ∀ c, (g c).left k = c.left k)
    (owed : s.Owed queue k given sent) : s'.Owed queue k given sent where
  task d hd h := by
    obtain ⟨c, hc, rfl⟩ := List.mem_map.mp <| map ▸ hd
    rw [left c]
    exact owed.task c hc <| (hq c).symm.trans h
  idle none := owed.idle fun c hc h => none (g c) (map ▸ List.mem_map_of_mem hc) <| (hq c).trans h

-- A subscription misses nothing as long as it holds its inbox and the actor runs.
inductive Standing (m : Actor (kind amqp)) (queue : String) (k : ℕ) (sent : List Envelope) : Prop
  | on (registered : m.subscribers.Registered queue k)
    (owed : m.state.Owed queue k (m.subscribers.given k) sent)
  | off (stopped : m.phase = .stopped) (some : m.subscribers.given k <+: sent)
  | closed (dropped : ¬m.subscribers.Holds k) (some : m.subscribers.given k <+: sent)

theorem Standing.given_prefix (stands : Standing m queue k sent) :
    m.subscribers.given k <+: sent := by
  cases stands
  case on owed =>
    by_cases h : ∃ c ∈ m.state.consumers, c.queue = queue
    case pos =>
      obtain ⟨c, hc, hq⟩ := h
      exact ⟨_, owed.task c hc hq⟩
    case neg => rw [owed.idle fun c hc hq => h ⟨c, hc, hq⟩]
  case off some    => exact some
  case closed some => exact some

theorem Standing.frame (stands : Standing m queue k sent)
    (given : m'.subscribers.given k = m.subscribers.given k)
    (registered : m.subscribers.Registered queue k → m'.subscribers.Registered queue k)
    (holds : m'.subscribers.Holds k → m.subscribers.Holds k)
    (stays : m.phase = .stopped → m'.phase = .stopped)
    (owed : m.state.Owed queue k (m.subscribers.given k) sent →
      m'.state.Owed queue k (m.subscribers.given k) sent) : Standing m' queue k sent := by
  cases stands
  case on on all           => exact .on (registered on) (given ▸ owed all)
  case off stopped some    => exact .off (stays stopped) (given ▸ some)
  case closed dropped some => exact .closed (mt holds dropped) (given ▸ some)

-- What the users do to the subscribers gives nothing to an inbox.
theorem Standing.user {a : Fanout.Action Empty} (stands : Standing m queue k sent)
    (hk : k < m.subscribers.handles.length)
    (hn : Fanout.next (fun _ => none) m.subscribers a = some m'.subscribers)
    (state : m'.state = m.state) (phase : m'.phase = m.phase) : Standing m' queue k sent := by
  have st : Fanout.Step _ _ a _ := Fanout.next_step hn
  have user : a.worker? = none := by
    cases h : a.worker?
    case none   => rfl
    case some w => exact w.elim
  rcases st.user hk user with ⟨given, registered⟩ | ⟨dropped, some⟩
  · exact stands.frame given (registered queue).mpr (st.holds hk) (phase ▸ id) (state ▸ id)
  · exact .closed dropped <| some.trans stands.given_prefix

theorem Owed.executed {cmd : Cmd} {result : Except RpcError Unit}
    (executed : Executed amqp s cmd s' result)
    (eq : s.consumerHandles = s.consumers.map Consumer.queue)
    (owed : s.Owed queue k given sent) : s'.Owed queue k given sent := by
  cases executed <;> try exact owed
  case closed => exact owed.map rfl (fun _ => rfl) fun _ => rfl
  case consumed queue' _ _ unknown _ =>
    constructor
    case task =>
      intro c hc hq
      rcases List.mem_append.mp hc with hc | hc
      · exact owed.task c hc hq
      · cases List.mem_singleton.mp hc
        subst hq
        rw [owed.idle fun c hc hq => unknown <| eq ▸ List.mem_map.mpr ⟨c, hc, hq⟩]
        exact List.append_nil _
    case idle => exact fun none => owed.idle fun c hc => none c <| List.mem_append_left _ hc

theorem Standing.worked (r : (Actor.machine (kind amqp)).Reachable m)
    (running : m.phase ≠ .stopped) (ht : m.subscribers.HasTopic queue k)
    (worked : Worked amqp m.state m.subscribers m.lock event s' f' lock')
    (stands : Standing m queue k sent) :
    Standing { m with state := s', subscribers := f', lock := lock' } queue k
      (sent ++ (takes queue m.state event).toList) := by
  obtain ⟨eq, distinct⟩ := handles_eq r
  rw [eq] at distinct
  have addr := addressed r
  cases stands
  case off stopped _ => exact absurd stopped running
  case closed dropped some =>
    have given : f'.given k = m.subscribers.given k := by
      cases worked <;> try rfl
      case send w i env senders h inbox c consumer sending handle accepted =>
        refine Fanout.given_of_ne rfl ?_
        rintro rfl
        exact dropped ⟨h, handle, (Mailbox.trySend_held accepted).left⟩
    have holds : f'.Holds k → m.subscribers.Holds k := by
      cases worked <;> try exact id
      case send w i env senders h inbox c consumer sending handle accepted =>
        rintro ⟨h', handle', held⟩
        rcases List.getElem?_set_cases handle' with ⟨rfl, _⟩ | ⟨_, handle'⟩
        · exact ⟨h, handle, (Mailbox.trySend_held accepted).left⟩
        · exact ⟨h', handle', held⟩
    exact .closed (mt holds dropped) <| given ▸ some.trans (List.prefix_append ..)
  case on registered owed =>
    have keep {w : ℕ} {c c' : Consumer} (consumer : m.state.consumers[w]? = some c)
        (hq : c'.queue = c.queue) (left : c'.left k = c.left k) :
        (m.state.set w c').Owed queue k (m.subscribers.given k) sent :=
      owed.set_same consumer hq left distinct
    cases worked <;> simp only [takes, Option.toList_none, List.append_nil]
    case skip => exact .on registered owed
    case closed => exact .on registered <| owed.map rfl (fun _ => rfl) fun _ => rfl
    case deliver consumer waiting _ =>
      exact .on registered <| keep consumer rfl <| by simp [Consumer.left, waiting]
    case lock w env c consumer locking turn =>
      by_cases hq : c.queue = queue
      case neg =>
        simpa [consumer, locking, hq] using .on registered <| owed.set_of_ne consumer hq rfl
      case pos =>
        have all := owed.task c (List.mem_of_getElem? consumer) hq
        obtain ⟨senders, found, hk⟩ := registered
        refine .on ⟨senders, found, hk⟩ <| .set_of_eq distinct consumer hq hq ?_
        simp [← all, Consumer.left, consumer, locking, hq, found, hk]
    case send w i env senders h inbox c consumer sending handle accepted =>
      by_cases hi : i = k
      case neg =>
        have same : (m.state.set w { c with phase := .sending env senders }).Owed queue k
            (m.subscribers.given k) sent :=
          keep consumer rfl <| by simp [Consumer.left, sending, Ne.symm hi]
        refine .on registered ?_
        rwa [Fanout.given_of_ne (f := m.subscribers) rfl hi]
      case pos =>
        subst hi
        have listed := addr.senders w c consumer
        have owes : c.owes m.subscribers = i :: senders := by simp [Consumer.owes, sending]
        rw [owes] at listed
        have hq := (listed.hasTopic i <| List.mem_cons_self ..).unique ht
        have hk := (List.nodup_cons.mp listed.nodup).left
        have all := owed.task c (List.mem_of_getElem? consumer) hq
        refine .on registered <| .set_of_eq distinct consumer hq hq ?_
        rw [Fanout.given_of_set rfl handle, Mailbox.trySend_contents accepted, ← all,
          Fanout.given_eq handle]
        simp [Consumer.left, sending, hk]
    case failed w i env senders h c consumer sending handle dropped =>
      by_cases hi : i = k
      case neg =>
        exact .on registered <| keep consumer rfl <| by simp [Consumer.left, sending, Ne.symm hi]
      case pos =>
        subst hi
        refine .closed ?_ <| Standing.given_prefix (m := m) <| .on registered owed
        rintro ⟨h', handle', held⟩
        cases handle.symm.trans handle'
        simp [dropped] at held
    case unlock consumer sent =>
      exact .on registered <| keep consumer rfl <| by simp [Consumer.left, sent]
    case error consumer waiting | ended consumer waiting _ =>
      exact .on registered <| keep consumer rfl <| by simp [Consumer.left, waiting]
    case cancelled consumer => exact .on registered <| keep consumer rfl rfl

theorem Standing.step (r : (Actor.machine (kind amqp)).Reachable m) (st : Actor.Step m act m')
    (ht : m.subscribers.HasTopic queue k) (stands : Standing m queue k sent) :
    Standing m' queue k (sent ++ (Actor.takes takes queue m act).toList) := by
  have same (subscribers : m'.subscribers = m.subscribers) (state : m'.state = m.state) :
      Standing m' queue k sent :=
    stands.frame (by rw [subscribers]) (subscribers ▸ id) (subscribers ▸ id) st.stays (state ▸ id)
  have stays : m.phase = .stopped → m'.phase = .stopped := st.stays
  by_cases task : ∃ event, act = .task event
  case pos =>
    obtain ⟨event, rfl⟩ := task
    cases st
    case caller caller => cases caller
    case task acted =>
      have running : m.phase ≠ .stopped := by
        intro h
        simp [h, (kind amqp).task_stopped] at acted
      exact stands.worked r running ht (task_worked acted)
  case neg =>
    have none : Actor.takes takes queue m act = none := by
      cases act <;> first | rfl | exact absurd ⟨_, rfl⟩ task
    rw [none, Option.toList_none, List.append_nil]
    cases st <;> try exact same rfl rfl
    case register topic _ _ _ _ _ _ _ =>
      exact stands.user (a := .subscribe topic) ht.lt rfl rfl rfl
    case caller =>
      rcases Fanout.conclude_cases (f := m.subscribers) with he | ⟨k, h⟩
      · exact same he rfl
      · exact stands.user (a := .drop k) ht.lt h rfl rfl
    case recv k _ received     => exact stands.user (a := .recv k) ht.lt received rfl rfl
    case dropInbox k _ dropped => exact stands.user (a := .drop k) ht.lt dropped rfl rfl
    case defer deferred        => cases deferred
    case begin started         => cases started; exact same rfl rfl
    case execute executed      =>
      have executed := execute_executed executed
      exact stands.frame rfl id id stays <| .executed executed (handles_eq r).left
    case finish                => exact .off rfl stands.given_prefix
    case task => exact absurd ⟨_, rfl⟩ task

-- Handles come and stay. No task is sending while one comes.
theorem topics_cases (st : Actor.Step m act m') :
    m'.subscribers.topics = m.subscribers.topics ∨ ∃ topic,
      m'.subscribers = m.subscribers.subscribe topic ∧ m'.state = m.state ∧
        (kind amqp).free m.state := by
  cases st <;> try exact .inl rfl
  case register topic _ _ _ _ _ _ free => exact .inr ⟨topic, rfl, rfl, free⟩
  case caller             => exact .inl Fanout.topics_conclude
  case recv received      => exact .inl <| Fanout.topics_recv received
  case dropInbox dropped  => exact .inl <| Fanout.topics_drop dropped
  case task acted         => exact .inl (task_worked acted).topics

theorem hasTopic_step (st : Actor.Step m act m') (ht : m.subscribers.HasTopic queue k) :
    m'.subscribers.HasTopic queue k := by
  rcases topics_cases st with same | ⟨topic, subscribed, _⟩
  · exact Fanout.hasTopic_iff.mpr <| same ▸ Fanout.hasTopic_iff.mp ht
  · have st : Fanout.Step (fun _ => none) m.subscribers (.subscribe topic) _ := .subscribe
    exact subscribed ▸ st.hasTopic ht

theorem Standing.pushed (st : Actor.Step m act m')
    (pushed : m'.subscribers.handles.length = m.subscribers.handles.length + 1) :
    ∃ queue, m'.subscribers.HasTopic queue m.subscribers.handles.length ∧
      Standing m' queue m.subscribers.handles.length [] := by
  rcases topics_cases st with same | ⟨queue, subscribed, state, free⟩
  case inl =>
    have length := congrArg List.length same
    simp only [Fanout.topics, List.length_map] at length
    omega
  case inr =>
    have fresh : m'.subscribers.given m.subscribers.handles.length = [] := by
      simp [subscribed, Fanout.given, Mailbox.contents]
    have free : ∀ c ∈ m.state.consumers, ¬isSending c.phase := by simpa [kind] using free
    refine ⟨queue, ⟨{ subscription := ⟨queue⟩ }, by simp [subscribed], rfl⟩, .on ?_ ?_⟩
    · exact subscribed ▸ Fanout.subscribe_registered.mpr (.inr ⟨rfl, rfl⟩)
    · rw [fresh, state]
      refine ⟨fun c hc _ => ?_, fun _ => rfl⟩
      have idle := free c hc
      cases hp : c.phase <;> simp [Consumer.left, isSending, hp] at idle ⊢

theorem inOrder (amqp : Amqp) : (carrier amqp).InOrder (fanOut amqp) := by
  intro m a m' as t h r hn pushed he handle _
  obtain ⟨queue, ht, stands⟩ := Standing.pushed (Actor.next_step hn) pushed
  let k := m.subscribers.handles.length
  let Stands (m : Actor (kind amqp)) (sent : List Envelope) : Prop :=
    m.subscribers.HasTopic queue k ∧ Standing m queue k sent
  have step s b s' sent (r : (Actor.machine (kind amqp)).Reachable s)
      (hn : (Actor.machine (kind amqp)).next s b = some s') (stands : Stands s sent) :
      Stands s' (sent ++ (Actor.takes takes queue s b).toList) :=
    have st := Actor.next_step hn
    ⟨hasTopic_step st stands.left, stands.right.step r st stands.left⟩
  obtain ⟨⟨_, hh, topic⟩, stands⟩ := Machine.outputs_invariant (Actor.takes takes queue) Stands
    (r.next hn) he ⟨ht, stands⟩ step
  cases handle.symm.trans hh
  have given : t.subscribers.given k = h.inbox.contents := Fanout.given_eq handle
  rw [topic, ← given]
  refine ⟨stands.given_prefix, fun held ⟨running, settled⟩ => ?_⟩
  cases stands
  case off stopped _    => exact absurd stopped running
  case closed dropped _ => exact absurd ⟨h, handle, held⟩ dropped
  case on owed =>
    by_cases consumed : ∃ c ∈ t.state.consumers, c.queue = queue
    case neg => exact owed.idle fun c hc hq => consumed ⟨c, hc, hq⟩
    case pos =>
      obtain ⟨c, hc, hq⟩ := consumed
      have nothing : c.left k = [] := by
        unfold Consumer.left
        split
        case h_1 env senders sending => exact if_neg <| settled c hc hq env senders sending
        case h_2 => rfl
      have all := owed.task c hc hq
      rwa [nothing, List.append_nil] at all

end AmqpActor

-- Over each of the brokered transports, an inbox misses messages only at its end.
theorem Carrier.delivered_in_order :
    (∀ rumqttc fromSlice, (MqttTransport.carrier rumqttc fromSlice).InOrder
      (MqttTransport.fanOut rumqttc fromSlice)) ∧
    (∀ redis, (RedisActor.carrier redis).InOrder (RedisActor.fanOut redis)) ∧
    (∀ amqp, (AmqpActor.carrier amqp).InOrder (AmqpActor.fanOut amqp)) ∧
    ∀ dds, (DdsActor.carrier dds).InOrder (DdsActor.fanOut dds) :=
  ⟨MqttTransport.inOrder, RedisActor.inOrder, AmqpActor.inOrder, DdsActor.inOrder⟩

-- In the run, a subscription that is pushed in the middle of it is given the envelopes `sent`.
def Carrier.Given (C : Carrier) (xs : List C.Action) (a : C.Action) (as : List C.Action)
    (sent : List Envelope) : Prop :=
  ∃ s s' t h, C.machine.Run xs s ∧ C.machine.next s a = some s' ∧ C.machine.exec s' as = some t ∧
    (C.handles t)[(C.handles s).length]? = some h ∧ h.inbox.contents = sent

theorem Carrier.InOrder.given {C : Carrier} {F : C.FanOut} (inOrder : C.InOrder F)
    {xs as : List C.Action} {a : C.Action} {s s' t : C.State} {h : SubscriptionHandle}
    {sent : List Envelope} (r : C.machine.Run xs s) (hn : C.machine.next s a = some s')
    (pushed : (C.handles s').length = (C.handles s).length + 1)
    (he : C.machine.exec s' as = some t)
    (handle : (C.handles t)[(C.handles s).length]? = some h) (held : h.inbox.held)
    (sole : F.sole t h.subscription.name)
    (settled : F.settled t h.subscription.name (C.handles s).length)
    (taken : C.machine.outputs (F.takes h.subscription.name) s' as = sent) :
    C.Given xs a as sent := by
  have all := inOrder s a s' as t h r.reachable hn pushed he handle sole |>.right held settled
  exact ⟨s, s', t, h, r, hn, he, handle, all.trans taken⟩

def loneReader : Redis :=
  { loneRedis with getPayload := fun _ => some "", fromStr := fun _ => some MqttActor.loneEnvelope }

-- Over each of them, one message for a subscriber that has been confirmed.
theorem Carrier.delivered_in_order_lone :
    (MqttTransport.carrier MqttActor.loneRumqttc fun _ => some MqttActor.loneEnvelope).Given []
      (.actor (.call (.subscribe "t")))
      [.actor (.send 0), .actor .handle, .actor (.poll (.connack ["t"])), .actor (.poll .transmit),
        .actor (.poll (.suback [.success .atLeastOnce])), .actor (.resume 0),
        .actor (.poll (.publish "t" [])), .trySend 0, .writeBack] [MqttActor.loneEnvelope] ∧
    (RedisActor.carrier loneReader).Given [.call (.subscribe "t")] (.register 0)
      [.send 0, .handle, .execute (.ok ()), .resume 0, .task (.message "t" []), .task (.trySend 0),
        .task .writeBack] [MqttActor.loneEnvelope] ∧
    (AmqpActor.carrier AmqpActor.loneDecoder).Given [.call (.subscribe "t")] (.register 0)
      ([.send 0, .handle, .execute (.subscribe (.ok ()) (.ok ())), .resume 0] ++
        AmqpActor.loneDelivery 0 0) [MqttActor.loneEnvelope] ∧
    (DdsActor.carrier loneDds).Given [.call (.subscribe "t")] (.register 0)
      [.send 0, .handle, .execute (.subscribe {}), .resume 0, .task (.sample "t" []),
        .task (.take 0), .task (.trySend 0 0), .task (.writeBack 0)] [MqttActor.loneEnvelope] := by
  obtain ⟨mqtt, redis, amqp, dds⟩ := delivered_in_order
  refine ⟨?mqtt, ?redis, ?amqp, ?dds⟩
  case mqtt =>
    refine (mqtt MqttActor.loneRumqttc fun _ => some MqttActor.loneEnvelope).given .nil rfl rfl rfl
      rfl rfl trivial ?_ rfl
    exact ⟨⟨[0], rfl, List.mem_singleton_self 0⟩, fun _ _ _ _ _ sending => by cases sending⟩
  case redis =>
    refine (redis loneReader).given (.of_isSome rfl) rfl rfl rfl rfl rfl trivial ?_ rfl
    exact ⟨⟨[0], rfl, List.mem_singleton_self 0⟩, fun _ _ _ _ _ sending => by cases sending⟩
  case amqp =>
    refine (amqp AmqpActor.loneDecoder).given (.of_isSome rfl) rfl rfl rfl rfl rfl trivial ?_ rfl
    refine ⟨(by rintro ⟨⟩), fun c hc _ env senders sending => ?_⟩
    obtain rfl := List.mem_singleton.mp hc
    cases sending
  case dds =>
    refine (dds loneDds).given (.of_isSome rfl) rfl rfl rfl rfl rfl ?sole ?settled rfl
    case sole =>
      rintro r r' ⟨_, hr, _⟩ ⟨_, hr', _⟩
      have hl : r < 1 := (List.getElem?_eq_some_iff.mp hr).choose
      have hl' : r' < 1 := (List.getElem?_eq_some_iff.mp hr').choose
      omega
    case settled =>
      refine ⟨⟨[0], rfl, List.mem_singleton_self 0⟩, fun w _ _ _ _ sending => ?_⟩
      cases w <;> cases sending

end MomRpc
