import MomRpc.Transport.Theorems.Carrier
import MomRpc.Transport.Theorems.Isolation
import MomRpc.Transport.Theorems.Readers

namespace MomRpc

open RumqttcTransport (MethodCall)

variable {P : String → Envelope → Prop}

namespace RedisActor

variable {redis : Redis} {s s' : RedisActor} {f f' : Fanout Unit} {event : Event}

theorem task_works {phase : Actor.Phase} {lock lock' : List Actor.Waiter}
    (h : (kind redis).task phase s f lock event = some (s', f', lock'))
    (new : ∀ p env, received s event = some p → decode redis p.payload = some env →
      P p.topic env) : Fanout.Works (decode redis) P f f' := by
  cases phase <;> simp only [kind, Option.map_eq_some_iff, reduceCtorEq] at h
  case receiving =>
    obtain ⟨_, h, rfl, rfl⟩ := h
    cases event <;> simp only [select, Option.map_eq_some_iff] at h
    case message topic payload =>
      obtain ⟨_, h, rfl⟩ := h
      exact .incoming (fun env => new { topic, payload } env rfl) h
    case trySend =>
      obtain ⟨_, h, rfl⟩ := h
      exact .trySend h
    case writeBack =>
      obtain ⟨_, h, rfl⟩ := h
      exact .writeBack h
    case ended =>
      split at h <;> cases h
      exact .same

theorem sources (redis : Redis) :
    Actor.Sources (kind redis) (decode redis) received (fun _ _ => True) where
  init _ := trivial
  mono _ _ _ _ _ := trivial
  start _ _ _ _ := trivial
  execute _ _ _ _ _ _ _ _ := trivial
  finish _ _ _ _ _ := trivial
  task _ _ _ _ _ _ r h new _ src :=
    ⟨trivial, (task_works h new).sourced (Actor.fanout_reachable (fansOut redis) r) src⟩
  topics _ _ _ _ _ _ _ _ h :=
    Fanout.Works.topics <| task_works (P := fun _ _ => True) h fun _ _ _ _ => trivial

theorem carrier_lawful (redis : Redis) : (carrier redis).Lawful :=
  Actor.carrier_lawful (sources redis) fun env published _ h =>
    handlePublish_fst redis env published ▸ h

end RedisActor

namespace AmqpActor

variable {amqp : Amqp} {s s' : AmqpActor} {f f' : Fanout Empty} {lock lock' : List Actor.Waiter}
  {event : Event}

-- The envelopes that the tasks have not put into all inboxes.
def Kept (P : String → Envelope → Prop) (s : AmqpActor) : Prop :=
  ∀ c ∈ s.consumers, ∀ env, env? c.phase = some env → P c.queue env

theorem Kept.set {w : ℕ} {c c' : Consumer} (kept : Kept P s) (consumer : s.consumers[w]? = some c)
    (queue : c'.queue = c.queue)
    (new : ∀ env, env? c'.phase = some env → env? c.phase = some env ∨ P c.queue env) :
    Kept P (s.set w c') := by
  intro d hd env he
  rcases List.mem_or_eq_of_mem_set hd with hd | rfl
  · exact kept d hd env he
  · rw [queue]
    exact (new env he).elim (kept c (List.mem_of_getElem? consumer) env) id

theorem Worked.kept (worked : Worked amqp s f lock event s' f' lock')
    (new : ∀ p env, received s event = some p → amqp.fromSlice p.payload = some env →
      P p.topic env)
    (kept : Kept P s) : Kept P s' := by
  cases worked
  case skip => exact kept
  case deliver w data env c consumer waiting decoded =>
    refine kept.set consumer rfl fun env' he => .inr ?_
    cases he
    exact new { topic := c.queue, payload := data } env (by simp [received, consumer]) decoded
  case lock consumer locking _ =>
    exact kept.set consumer rfl fun _ he => .inl <| by simpa [env?, locking] using he
  case send consumer sending _ _ | failed consumer sending _ _ =>
    exact kept.set consumer rfl fun _ he => .inl <| by simpa [env?, sending] using he
  case unlock consumer _ | error consumer _ | ended consumer _ _ =>
    refine kept.set consumer rfl fun _ he => ?_
    cases he
  case cancelled consumer => exact kept.set consumer rfl fun _ => .inl
  case closed =>
    intro c hc env he
    obtain ⟨c, h, rfl⟩ := List.mem_map.mp hc
    exact kept c h env he

theorem Worked.sourced (worked : Worked amqp s f lock event s' f' lock') (addr : Addressed s f)
    (kept : Kept P s) (src : f.Sourced P) : f'.Sourced P := by
  cases worked <;> try exact src
  case send w i env senders h inbox c consumer sending handle accepted =>
    have ht := (addr.senders w c consumer).hasTopic i <| by simp [Consumer.owes, sending]
    refine src.put ht handle accepted ?_
    exact kept c (List.mem_of_getElem? consumer) env <| by simp [env?, sending]

theorem Worked.topics (worked : Worked amqp s f lock event s' f' lock') : f'.topics = f.topics := by
  cases worked <;> try rfl
  case send handle _ => exact Fanout.topics_set handle

theorem sources (amqp : Amqp) : Actor.Sources (kind amqp) amqp.fromSlice received Kept where
  init _ := by simp [Kept, kind]
  mono _ _ _ h kept c hc env he := h _ _ <| kept c hc env he
  start _ _ _ := id
  execute P s cmd outcome s' result h kept := by
    intro c hc env he
    obtain ⟨w, hw⟩ := List.mem_iff_getElem?.mp hc
    rcases (execute_executed h).consumer hw with ⟨c₀, h₀, queue, phase⟩ | waiting
    · exact queue ▸ kept c₀ (List.mem_of_getElem? h₀) env (phase ▸ he)
    · rw [waiting] at he
      cases he
  finish P s s' h kept := by
    cases h
    intro c hc env he
    obtain ⟨c, h, rfl⟩ := List.mem_map.mp hc
    cases he
  task P m event s' f' lock' r h new kept src :=
    have worked := task_worked h
    ⟨worked.kept new kept, worked.sourced (addressed r) kept src⟩
  topics phase s f lock event s' f' lock' h := (task_worked h).topics

theorem carrier_lawful (amqp : Amqp) : (carrier amqp).Lawful :=
  Actor.carrier_lawful (sources amqp) fun env outcome _ h => by
    cases outcome
    case publish published => exact doPublish_fst amqp env published ▸ h
    case subscribe         => cases h

end AmqpActor

namespace DdsActor

variable {dds : Dds} {s s' : DdsActor} {f f' : Fanout ℕ} {event : Event}

-- The samples that the readers have not taken.
def Kept (dds : Dds) (P : String → Envelope → Prop) (s : DdsActor) : Prop :=
  ∀ reader ∈ s.readers, ∀ data ∈ reader.samples, ∀ env, dds.fromSlice data = some env →
    P reader.topic env

theorem Worked.works (worked : Worked dds s f event s' f') (kept : Kept dds P s) :
    Fanout.Works dds.fromSlice P f f' := by
  cases worked
  case sample | ended => exact .same
  case take reader data _ handle waiting _ taken =>
    refine .incoming (fun env => ?_) taken
    exact kept reader (List.mem_of_getElem? handle) data (by simp [waiting]) env
  case trySend sent      => exact .trySend sent
  case writeBack written => exact .writeBack written

theorem Worked.kept (worked : Worked dds s f event s' f')
    (new : ∀ p env, received s event = some p → dds.fromSlice p.payload = some env → P p.topic env)
    (kept : Kept dds P s) : Kept dds P s' := by
  cases worked
  case trySend | writeBack => exact kept
  case sample topic payload =>
    intro reader hr data hd env decoded
    obtain ⟨reader₀, h₀, rfl⟩ := List.mem_map.mp (sample_eq (s := s) ▸ hr)
    rw [give_topic]
    unfold give at hd
    split at hd
    case isFalse => exact kept reader₀ h₀ data hd env decoded
    case isTrue on =>
      rcases List.mem_append.mp hd with hd | hd
      · exact kept reader₀ h₀ data hd env decoded
      · obtain rfl := List.mem_singleton.mp hd
        exact on.left ▸ new { topic, payload := data } env rfl decoded
  case take r reader data samples handle waiting _ _ =>
    intro reader' hr data' hd env decoded
    rcases List.mem_or_eq_of_mem_set hr with hr | rfl
    · exact kept reader' hr data' hd env decoded
    · refine kept reader (List.mem_of_getElem? handle) data' ?_ env decoded
      exact waiting ▸ List.mem_cons_of_mem _ hd
  case ended r reader handle _ =>
    intro reader' hr data hd env decoded
    rcases List.mem_or_eq_of_mem_set hr with hr | rfl
    · exact kept reader' hr data hd env decoded
    · exact kept reader (List.mem_of_getElem? handle) data hd env decoded

theorem sources (dds : Dds) : Actor.Sources (kind dds) dds.fromSlice received (Kept dds) where
  init _ := by simp [Kept, kind]
  mono _ _ _ h kept reader hr data hd env decoded := h _ _ <| kept reader hr data hd env decoded
  start _ _ _ := id
  execute P s cmd outcome s' result h kept := by
    cases execute_executed h
    case published readers _ => rwa [Kept, readers]
    case failed readers _    => rwa [Kept, readers]
    case subscribed =>
      intro reader hr data hd env decoded
      rcases List.mem_append.mp hr with hr | hr
      · exact kept reader hr data hd env decoded
      · cases List.mem_singleton.mp hr
        cases hd
  finish P s s' h kept := by
    simp only [kind] at h
    split at h <;> cases h
    exact kept
  task P m event s' f' lock' r h new kept src :=
    have worked := task_worked h
    ⟨worked.kept new kept,
      (worked.works kept).sourced (Actor.fanout_reachable (fansOut dds) r) src⟩
  topics phase s f lock event s' f' lock' h :=
    Fanout.Works.topics <| (task_worked h).works (P := fun _ _ => True)
      fun _ _ _ _ _ _ => trivial

theorem carrier_lawful (dds : Dds) : (carrier dds).Lawful :=
  Actor.carrier_lawful (sources dds) fun _ _ _ => id

end DdsActor

namespace MqttTransport

variable {rumqttc : Rumqttc} {fromSlice : Bytes → Option Envelope} {t t' : MqttTransport}
  {act : Action} {as : List Action}

-- What one step does to the subscribers and to the owners of the handles.
inductive Fans (rumqttc : Rumqttc) (fromSlice : Bytes → Option Envelope)
    (P : String → Envelope → Prop) (t t' : MqttTransport) : Prop
  | subscribe {topic} (acted : t.actor.next rumqttc (.call (.subscribe topic)) = some t'.actor)
    (map : t'.subscribers = t.subscribers.subscribe topic)
    (owners : t'.owners = t.owners ++ [t.actor.calls.length])
  | works (works : Fanout.Works fromSlice P t.subscribers t'.subscribers)
    (owners : t'.owners = t.owners)
  | recv {k} (received : t.subscribers.recv k = some t'.subscribers) (owners : t'.owners = t.owners)
  | drop {k} (dropped : t.subscribers.drop k = some t'.subscribers) (owners : t'.owners = t.owners)

theorem conclude_fans {actor : MqttActor} {i : ℕ} :
    Fans rumqttc fromSlice P t (t.conclude actor i) := by
  simp only [conclude]
  split
  case h_1 => exact .works .same rfl
  case h_2 c _ =>
    rcases Fanout.conclude_cases (f := t.subscribers) (i := i) (c := c) with he | ⟨k, h⟩
    · have works :
          Fanout.Works fromSlice P t.subscribers (t.subscribers.conclude t.owners i c) := by
        rw [he]
        exact .same
      exact .works works rfl
    · exact .drop h rfl

theorem next_fans (h : (machine rumqttc fromSlice).next t act = some t')
    (new : ∀ p env, arrives act = some p → fromSlice p.payload = some env → P p.topic env) :
    Fans rumqttc fromSlice P t t' := by
  cases act <;> simp only [machine, next] at h
  case actor act =>
    obtain ⟨_, h⟩ := Option.ite_none_left_eq_some.mp h
    obtain ⟨actor, hn, h⟩ := Option.bind_eq_some_iff.mp h
    split at h
    case h_1 => cases h; exact .subscribe hn rfl rfl
    case h_2 topic payload _ _ _ =>
      obtain ⟨_, taken, rfl⟩ := Option.map_eq_some_iff.mp h
      exact .works (.incoming (fun env => new { topic, payload } env rfl) taken) rfl
    case h_3 | h_4 | h_5 => cases h; exact conclude_fans
    case h_6 => cases h; exact .works .same rfl
  case trySend =>
    obtain ⟨_, sent, rfl⟩ := Option.map_eq_some_iff.mp h
    exact .works (.trySend sent) rfl
  case writeBack =>
    obtain ⟨_, written, rfl⟩ := Option.map_eq_some_iff.mp h
    exact .works (.writeBack written) rfl
  case recv =>
    obtain ⟨_, received, rfl⟩ := inbox_eq_some h
    exact .recv received rfl
  case dropInbox =>
    obtain ⟨_, dropped, rfl⟩ := inbox_eq_some h
    exact .drop dropped rfl

theorem Fans.sourced (rf : (Fanout.machine Unit fromSlice).Reachable t.subscribers)
    (fans : Fans rumqttc fromSlice P t t') (src : t.subscribers.Sourced P) :
    t'.subscribers.Sourced P := by
  have user {a : Fanout.Action Unit} (ha : a.worker? = none)
      (h : Fanout.next fromSlice t.subscribers a = some t'.subscribers) :
      t'.subscribers.Sourced P :=
    have st : Fanout.Step _ _ a _ := Fanout.next_step h
    st.sourced_of_user ha src
  cases fans
  case subscribe topic _ map _ => exact user (a := .subscribe topic) rfl (congrArg some map.symm)
  case works works _     => exact works.sourced rf src
  case recv k received _ => exact user (a := .recv k) rfl received
  case drop k dropped _  => exact user (a := .drop k) rfl dropped

def Action.actor? : Action → Option MqttActor.Action
  | .actor act => some act
  | _          => none

theorem actor_next? (h : (machine rumqttc fromSlice).next t act = some t') :
    (MqttActor.machine rumqttc).next? t.actor act.actor? = some t'.actor := by
  cases act <;> simp only [machine, next] at h
  case actor => exact (step_eq_some h).left
  case trySend | writeBack =>
    obtain ⟨_, _, rfl⟩ := Option.map_eq_some_iff.mp h
    rfl
  case recv | dropInbox =>
    obtain ⟨_, _, rfl⟩ := inbox_eq_some h
    rfl

theorem keeps (r : (machine rumqttc fromSlice).Reachable t)
    (h : (machine rumqttc fromSlice).next t act = some t') :
    Fanout.Keeps t.actor.calls t'.actor.calls := by
  intro i c hc
  rcases Machine.next?_cases (actor_next? h) with ⟨_, he⟩ | ⟨a, _, hn⟩
  · exact ⟨c, he ▸ hc, rfl⟩
  · have ⟨c', h', ch⟩ := (MqttActor.next_step hn).change_of_call (actor_reachable r) hc
    exact ⟨c', h', ch.method⟩

theorem stems {i : ℕ} {c' : MethodCall} (r : (machine rumqttc fromSlice).Reachable t)
    (h : (machine rumqttc fromSlice).next t act = some t') (h' : t'.actor.calls[i]? = some c') :
    (∃ c : MethodCall, t.actor.calls[i]? = some c ∧ c'.method = c.method) ∨
      use? act = some (.call c'.method) := by
  rcases Machine.next?_cases (actor_next? h) with ⟨_, he⟩ | ⟨a, ha, hn⟩
  case inl => exact .inl ⟨c', he ▸ h', rfl⟩
  case inr =>
    rcases (MqttActor.next_step hn).change (actor_reachable r) h' with
      ⟨c, hc, ch⟩ | ⟨_, method, rfl, rfl⟩
    · exact .inl ⟨c, hc, ch.method⟩
    · cases act <;> cases ha
      exact .inr rfl

theorem called {method : RumqttcTransport.Method}
    (h : t.actor.next rumqttc (.call method) = some t'.actor) :
    ∃ c : MethodCall, t'.actor.calls[t.actor.calls.length]? = some c ∧ c.method = method := by
  have st : MqttActor.Step rumqttc t.actor (.call method) t'.actor := MqttActor.next_step h
  generalize t'.actor = actor at st ⊢
  cases st
  case call        => exact ⟨_, List.getElem?_concat_length, rfl⟩
  case caller mine => cases mine

theorem publishing_of_departs {p : Packet} (r : (machine rumqttc fromSlice).Reachable t)
    (h : departs rumqttc t act = some p) :
    ∃ (i : ℕ) (c : MethodCall) (env : Envelope), t.actor.calls[i]? = some c ∧
      c.method = .publish env ∧ rumqttc.sends env = some p := by
  unfold departs at h
  split at h
  case h_2 => cases h
  case h_1 =>
    split at h
    case h_2 => cases h
    case h_1 env resp rest queue =>
      have queued : .publish env resp ∈ t.actor.commands.queue := by simp [queue]
      have ⟨i, c, hc, he⟩ := (MqttActor.consistent (actor_reachable r)).commands _ queued
      exact ⟨i, c, env, hc, MethodCall.cmd_publish he, h⟩

theorem owned_handles (r : (machine rumqttc fromSlice).Reachable t) :
    t.subscribers.Owned t.actor.calls t.owners := by
  induction t, r using Machine.Reachable.induction_on
  case init => exact .nil
  case step t act t' r hn ih =>
    have keeps := keeps r hn
    have fans := next_fans (P := fun _ _ => True) hn fun _ _ _ _ => trivial
    cases fans
    case subscribe topic acted map owners =>
      have ⟨c, handle, method⟩ := called acted
      exact map ▸ owners ▸ ih.subscribe keeps handle method
    case works works owners   => exact owners ▸ ih.keep keeps works.topics
    case recv received owners => exact owners ▸ ih.keep keeps (Fanout.topics_recv received)
    case drop dropped owners  => exact owners ▸ ih.keep keeps (Fanout.topics_drop dropped)

theorem sourced (r : (machine rumqttc fromSlice).Run as t) :
    t.subscribers.Sourced ((carrier rumqttc fromSlice).Arrived as) := by
  induction as, t, r using Machine.Run.induction_on
  case init => exact ⟨by simp [machine], by simp [machine]⟩
  case step as t act t' r hn ih =>
    have fans := next_fans (P := (carrier rumqttc fromSlice).Arrived (as ++ [act])) hn
      fun p env => Carrier.Arrived.last (C := carrier rumqttc fromSlice) r
    refine fans.sourced (fanout_reachable r.reachable) ?_
    exact ih.mono fun _ _ => Carrier.Arrived.concat

theorem carrier_lawful (rumqttc : Rumqttc) (fromSlice : Bytes → Option Envelope) :
    (carrier rumqttc fromSlice).Lawful where
  init := rfl
  keeps _ _ _ i c r hn := keeps r hn i c
  called t act t' method hn hu := by
    replace hn := actor_next? hn
    replace hu : use? act = some (.call method) := hu
    cases act <;> try cases hu
    case actor act =>
      cases act <;> cases hu
      have hn : t.actor.next rumqttc (.call method) = some t'.actor := hn
      exact called hn
  stems _ _ _ _ _ r hn := stems r hn
  departs _ _ _ _ r _ := publishing_of_departs r
  arrives _ _ k h env r := (sourced r).inbox k h env
  own _ act _ h := by
    cases act <;> try cases h
    case actor act => cases act <;> first | rfl | cases h
  owned _ _ _ _ r := (owned_handles r).call

end MqttTransport
end MomRpc
