import MomRpc.Broker.Cluster
import MomRpc.Broker.Theorems.Rpc

namespace MomRpc.Cluster

open Network (Publisher Receiver)
open RumqttcTransport (MethodCall)

variable {β ρ ω : Type} [DecidableEq β] {C : β → Carrier} {inner : β → Inner}
  {net net' : Cluster C ρ ω} {act : Action C ρ ω} {as : List (Action C ρ ω)} {rpc : Rpc β ρ ω}
  {b : β} {rx : Receiver β} {env : Envelope} {p : Packet}

-- The parts that the components have in one action.
structure Step (inner : β → Inner) (net : Cluster C ρ ω) (act : Action C ρ ω)
    (net' : Cluster C ρ ω) : Prop where
  allows     : net.Allows inner act
  transports :
    (transportProduct C).next? net.transports (act.transport? inner) = some net'.transports
  clients    : (Rpc.clientFamily ρ inner).next? net.clients act.client? = some net'.clients
  servers    : (Rpc.serverFamily ω inner).next? net.servers act.server? = some net'.servers
  callOf     : net'.callOf = act.caller?.elim net.callOf net.calls
  pool       : net'.pool = net.pool ++ (net.departs inner act).toList
  generated  : net'.generated = net.generated ++ act.correlationId?.toList

theorem next_step (h : (machine C ρ ω inner).next net act = some net') :
    Step inner net act net' := by
  simp only [machine, next, Option.ite_none_right_eq_some, Option.bind_eq_bind,
    Option.bind_eq_some_iff] at h
  obtain ⟨allows, transports, ht, clients, hc, servers, hs, he⟩ := h
  cases he
  exact ⟨allows, ht, hc, hs, rfl, rfl, rfl⟩

def Action.transportOf? (inner : β → Inner) (b : β) (act : Action C ρ ω) : Option (C b).Action :=
  (act.transport? inner).bind (Machine.part b)

theorem transport_component (b : β) :
    Machine.Component (machine C ρ ω inner) (C b).machine (·.transports b)
      (Action.transportOf? inner b) where
  init := rfl
  next _ _ _ h := Machine.product_next? (next_step h).transports b

theorem Step.transport_cases (st : Step inner net act net') (b : β) :
    (act.transportOf? inner b = none ∧ net'.transports b = net.transports b) ∨
      ∃ a, act.transport? inner = some ⟨b, a⟩ ∧
        (C b).machine.next (net.transports b) a = some (net'.transports b) := by
  refine Machine.next?_cases (Machine.product_next? st.transports b) |>.imp_right ?_
  rintro ⟨a, ha, hn⟩
  obtain ⟨_, ht, hp⟩ := Option.bind_eq_some_iff.mp ha
  exact ⟨a, ht.trans <| congrArg some <| Machine.part_eq_some.mp hp, hn⟩

-- What is handed over to the broker's network comes back as it was.
structure Lawful (C : β → Carrier) : Prop where
  carriers : ∀ b, (C b).Lawful
  trips    : ∀ b b' env p, (C b).encode env = some p →
    (C b').decode p.payload = some env ∧ p.topic = env.address.name

theorem Step.keeps (law : ∀ b, (C b).Lawful) (r : (machine C ρ ω inner).Reachable net)
    (st : Step inner net act net') {i : ℕ} {c : MethodCall}
    (h : ((C b).calls (net.transports b))[i]? = some c) :
    ∃ c' : MethodCall, ((C b).calls (net'.transports b))[i]? = some c' ∧ c'.method = c.method := by
  rcases st.transport_cases b with ⟨_, he⟩ | ⟨a, _, hn⟩
  · exact ⟨c, he ▸ h, rfl⟩
  · have ⟨_, r⟩ := r
    have r := ((transport_component b).run r).reachable
    exact (law b).keeps _ a _ i c r hn h

omit [DecidableEq β] in
-- A broker does nothing to a transport but to use it.
theorem transport?_cases {a : (C b).Action} (h : act.transport? inner = some ⟨b, a⟩) :
    act = .transport b a ∨ ∃ u, (C b).use? a = some u := by
  cases act <;> simp only [Action.transport?, reduceCtorEq] at h
  case transport => cases h; exact .inl rfl
  case close | subscribe | receive | inboxClosed | attempt =>
    cases h
    exact .inr ⟨_, (C _).use_use _⟩
  case abandon cancelled =>
    cases cancelled <;> cases h
    exact .inr ⟨_, (C _).use_use _⟩
  case handled answer =>
    cases answer <;> cases h
    exact .inr ⟨_, (C _).use_use _⟩

-- A transport receives nothing but what has been sent before.
theorem Step.arrives (law : Lawful C) (st : Step inner net act net') {a : (C b).Action}
    (ha : act.transport? inner = some ⟨b, a⟩) (h : (C b).arrives (net.transports b) a = some p) :
    p ∈ net.pool := by
  have allows := st.allows
  rcases transport?_cases ha with rfl | ⟨u, hu⟩
  · exact allows.right p h
  · cases hu.symm.trans <| (law.carriers b).own _ a p h

theorem arrived (law : Lawful C) (r : (machine C ρ ω inner).Run as net)
    (h : (C b).machine.Occurs (as.filterMap (Action.transportOf? inner b))
      fun s a => (C b).arrives s a = some p) : p ∈ net.pool := by
  induction as, net, r using Machine.Run.induction_on
  case init => exact absurd h Machine.Occurs.nil
  case step as net act net' r hn ih =>
    have st := next_step hn
    rw [st.pool]
    refine List.mem_append_left _ ?_
    rw [List.filterMap_append] at h
    rcases st.transport_cases b with ⟨hf, _⟩ | ⟨a, ha, _⟩
    case inl => exact ih <| by simpa [hf] using h
    case inr =>
      have hf : act.transportOf? inner b = some a := by simp [Action.transportOf?, ha]
      simp only [List.filterMap_cons, hf, List.filterMap_nil] at h
      rcases Machine.Occurs.cases ((transport_component b).run r) h with h | h
      · exact ih h
      · exact st.arrives law ha h

theorem Step.callOf_cases (st : Step inner net act net') {j : ℕ}
    (h : net'.callOf (.receiver rx) = some j) :
    net.callOf (.receiver rx) = some j ∨
      (act = .subscribe rx ∧ j = ((C rx.home).calls (net.transports rx.home)).length) := by
  rw [st.callOf] at h
  cases act <;> try exact .inl h
  case handled answer => cases answer <;> exact .inl h
  case subscribe rx' =>
    by_cases hrx : rx = rx'
    case neg => exact .inl <| by simpa [Action.caller?, calls, hrx] using h
    case pos =>
      subst hrx
      obtain rfl : _ = j := by simpa [Action.caller?, calls] using h
      exact .inr ⟨rfl, rfl⟩

-- The call that a receive loop has made is for its subscription.
theorem subscribes (law : ∀ b, (C b).Lawful) (r : (machine C ρ ω inner).Reachable net) {j : ℕ}
    (h : net.callOf (.receiver rx) = some j) :
    ∃ c : MethodCall, ((C rx.home).calls (net.transports rx.home))[j]? = some c ∧
      c.method = .subscribe (rx.subscription inner).name := by
  induction net, r using Machine.Reachable.induction_on generalizing j
  case init => simp [machine] at h
  case step net act net' r hn ih =>
    have st := next_step hn
    rcases st.callOf_cases h with h | ⟨rfl, rfl⟩
    case inl =>
      have ⟨c, hc, hm⟩ := ih h
      have ⟨c', hc', hm'⟩ := st.keeps law r hc
      exact ⟨c', hc', hm'.trans hm⟩
    case inr =>
      rcases st.transport_cases rx.home with ⟨ht, _⟩ | ⟨a, ha, hn⟩
      · simp [Action.transportOf?, Action.transport?] at ht
      · cases ha
        exact (law _).called _ _ _ _ hn <| (C _).use_use _

def Action.rpc? (act : Action C ρ ω) : Option (Rpc.Action β ρ ω) :=
  Rpc.Action.of act.client? act.server?

omit [DecidableEq β] in
theorem Action.one (act : Action C ρ ω) : act.client? = none ∨ act.server? = none := by
  cases act <;> try simp [client?, server?]
  case subscribed rx result => cases rx <;> cases result <;> simp
  case receive rx _ _       => cases rx <;> simp
  case inboxClosed rx _     => cases rx <;> simp

-- The protocol has the same brokers, and it knows whatever they have handed to their transports.
structure Protocol (net : Cluster C ρ ω) (rpc : Rpc β ρ ω) : Prop where
  clients   : rpc.clients = net.clients
  servers   : rpc.servers = net.servers
  generated : rpc.generated = net.generated
  called    : ∀ b (i : ℕ) (c : MethodCall) env, ((C b).calls (net.transports b))[i]? = some c →
    c.method = .publish env → env ∈ rpc.published
  pool      : ∀ p ∈ net.pool, ∃ b env, env ∈ rpc.published ∧ (C b).encode env = some p

-- What a receive loop takes has been published to its address.
theorem Protocol.receive {k : ℕ} (law : Lawful C) (r : (machine C ρ ω inner).Run as net)
    (pr : Protocol net rpc) (st : Step inner net (.receive rx k env) net') :
    env ∈ rpc.published ∧ env.address.name = (rx.subscription inner).name := by
  obtain ⟨⟨called, owner⟩, received⟩ := st.allows
  obtain ⟨j, hj⟩ := Option.ne_none_iff_exists'.mp called
  obtain ⟨⟨env', inbox⟩, taken, he⟩ := Option.map_eq_some_iff.mp received
  obtain rfl : env' = env := he
  obtain ⟨_, hi, taken⟩ := Option.bind_eq_some_iff.mp taken
  obtain ⟨h, handle, rfl⟩ := Option.map_eq_some_iff.mp hi
  have mem : env' ∈ h.inbox.contents := by
    obtain ⟨_, hq, _⟩ := Mailbox.recv_iff.mp taken
    simp [Mailbox.contents, hq]
  -- The envelope has been decoded from a message on the topic of the subscription.
  have run := (transport_component rx.home).run r
  have lawful := law.carriers rx.home
  obtain ⟨c, hc, method⟩ := subscribes law.carriers r.reachable hj
  obtain ⟨c', hc', method'⟩ := lawful.owned _ k j h run.reachable (owner.trans hj) handle
  cases hc.symm.trans hc'
  obtain ⟨p, arrival, topic, decoded⟩ := lawful.arrives _ _ k h env' run handle mem
  -- The message has been made of an envelope that has been published.
  obtain ⟨b, sent, published, encoded⟩ := pr.pool p <| arrived law r arrival
  obtain ⟨decoded', topic'⟩ := law.trips b rx.home sent p encoded
  cases decoded.symm.trans decoded'
  have name := RumqttcTransport.Method.subscribe.inj <| method.symm.trans method'
  exact ⟨published, topic'.symm.trans <| topic.trans name.symm⟩

theorem Protocol.allows (law : Lawful C) (r : (machine C ρ ω inner).Run as net)
    (pr : Protocol net rpc) (st : Step inner net act net') {a : Rpc.Action β ρ ω}
    (ha : act.rpc? = some a) : rpc.Allows inner a := by
  have allows := st.allows
  cases act <;> simp [Action.rpc?, Rpc.Action.of, Action.client?, Action.server?] at ha
  case client b c =>
    subst ha
    cases c <;> trivial
  case server b s =>
    subst ha
    cases s <;> trivial
  case subscribed rx result =>
    cases rx <;> cases result <;> simp at ha <;> subst ha <;> trivial
  case inboxClosed rx _ => cases rx <;> simp at ha <;> subst ha <;> trivial
  case receive rx k env =>
    have published := pr.receive law r st
    cases rx <;> simp at ha <;> subst ha <;> exact published
  case attempt =>
    subst ha
    simpa [Rpc.Allows, pr.generated] using allows.left
  all_goals
    subst ha
    trivial

theorem Step.rpc?_correlationId? (st : Step inner net act net') :
    act.rpc?.bind Rpc.Action.correlationId? = act.correlationId? := by
  have allows := st.allows
  cases act <;> try rfl
  case client act            => cases act <;> first | rfl | exact absurd allows not_false
  case subscribed rx result  => cases rx <;> cases result <;> rfl
  case receive rx _ _        => cases rx <;> rfl
  case inboxClosed rx _      => cases rx <;> rfl

-- The brokers call `publish` for what the protocol publishes in the step.
theorem Protocol.publish? (pr : Protocol net rpc) (st : Step inner net act net')
    {a : (C b).Action} (ha : act.transport? inner = some ⟨b, a⟩)
    (hu : (C b).use? a = some (.call (.publish env))) :
    act.rpc?.bind (rpc.publish? inner) = some env := by
  have allows := st.allows
  cases act <;> simp only [Action.transport?, reduceCtorEq] at ha
  case transport =>
    cases ha
    have own := allows.left
    simp [hu] at own
  case close | subscribe | receive | inboxClosed =>
    cases ha
    cases ((C _).use_use _).symm.trans hu
  case attempt =>
    cases ha
    cases ((C _).use_use _).symm.trans hu
    have ⟨_, _, request⟩ := allows
    rw [← pr.clients] at request
    exact request
  case abandon cancelled =>
    cases cancelled <;> cases ha
    cases ((C _).use_use _).symm.trans hu
  case handled answer =>
    cases answer <;> cases ha
    cases ((C _).use_use _).symm.trans hu
    rfl

theorem Protocol.calls (law : Lawful C) (r : (machine C ρ ω inner).Reachable net)
    (pr : Protocol net rpc) (st : Step inner net act net') {i : ℕ} {c : MethodCall}
    (h : ((C b).calls (net'.transports b))[i]? = some c) (hm : c.method = .publish env) :
    env ∈ rpc.published ∨ act.rpc?.bind (rpc.publish? inner) = some env := by
  rcases st.transport_cases b with ⟨_, he⟩ | ⟨a, ha, hn⟩
  case inl => exact .inl <| pr.called b i c env (he ▸ h) hm
  case inr =>
    have ⟨_, r⟩ := r
    have r := ((transport_component b).run r).reachable
    rcases (law.carriers b).stems _ a _ i c r hn h with ⟨c₀, h₀, hm₀⟩ | hu
    · exact .inl <| pr.called b i c₀ env h₀ <| hm₀.symm.trans hm
    · exact .inr <| pr.publish? st ha (hm ▸ hu)

theorem Protocol.departs (law : Lawful C) (r : (machine C ρ ω inner).Reachable net)
    (pr : Protocol net rpc) (st : Step inner net act net') (h : net.departs inner act = some p) :
    ∃ b env, env ∈ rpc.published ∧ (C b).encode env = some p := by
  obtain ⟨⟨b, a⟩, ha, hp⟩ := Option.bind_eq_some_iff.mp h
  rcases st.transport_cases b with ⟨ht, _⟩ | ⟨a', ha', hn⟩
  case inl => simp [Action.transportOf?, ha] at ht
  case inr =>
    cases ha.symm.trans ha'
    obtain ⟨_, r⟩ := r
    have r := ((transport_component b).run r).reachable
    obtain ⟨i, c, env, hc, hm, encoded⟩ := (law.carriers b).departs _ a _ p r hn hp
    exact ⟨b, env, pr.called b i c env hc hm, encoded⟩

-- Every lawful transport keeps to the protocol.
theorem refines (law : Lawful C) (r : (machine C ρ ω inner).Run as net) :
    ∃ rpc, (Rpc.machine ρ ω inner).Run (as.filterMap Action.rpc?) rpc ∧ Protocol net rpc := by
  apply Machine.Run.simulate (R := fun _ => Protocol) ?init ?step r
  case init =>
    refine ⟨rfl, rfl, rfl, fun b i c env h => ?_, by simp [machine]⟩
    have h : ((C b).calls (C b).machine.init)[i]? = some c := h
    simp [(law.carriers b).init] at h
  case step =>
    intro as net act net' rpc r hn _ pr
    have st := next_step hn
    have next := Rpc.next?_of act.one (pr.clients ▸ st.clients) (pr.servers ▸ st.servers)
      fun a ha => pr.allows law r st ha
    refine ⟨_, next, rfl, rfl, ?generated, ?called, ?pool⟩
    case generated =>
      rw [st.generated, ← st.rpc?_correlationId?, ← pr.generated]
      rfl
    case called =>
      intro b i c env h hm
      rcases pr.calls law r.reachable st h hm with h | h
      · exact List.mem_append_left _ h
      · exact List.mem_append_right _ <| Option.mem_toList.mpr h
    case pool =>
      intro p hp
      rw [st.pool, List.mem_append, Option.mem_toList] at hp
      have ⟨b, env, published, encoded⟩ := hp.elim (pr.pool p) (pr.departs law r.reachable st)
      exact ⟨b, env, List.mem_append_left _ published, encoded⟩

end MomRpc.Cluster
