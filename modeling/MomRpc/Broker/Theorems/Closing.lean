import MomRpc.Broker.Theorems.Cluster
import MomRpc.Broker.Theorems.Ending
import MomRpc.Transport.Theorems.Receiving

namespace MomRpc

open RumqttcTransport (MethodCall)

namespace Cluster

open Network (Publisher Receiver)

variable {β ρ ω : Type} [DecidableEq β] {C : β → Carrier} {inner : β → Inner}
  {net net' : Cluster C ρ ω} {act : Action C ρ ω} {as : List (Action C ρ ω)} {b : β}
  {rx rx' : Receiver β} {j k : ℕ} {env : Envelope}

def Action.loops (rx : Receiver β) (act : Action C ρ ω) : Bool :=
  rx.loops act.client? act.server?

def On (net : Cluster C ρ ω) (rx : Receiver β) : Prop :=
  rx.On net.clients net.servers

def Stopped (net : Cluster C ρ ω) (rx : Receiver β) : Prop :=
  rx.Stopped net.clients net.servers

theorem transport_reachable (r : (machine C ρ ω inner).Reachable net) (b : β) :
    (C b).machine.Reachable (net.transports b) := by
  obtain ⟨_, r⟩ := r
  exact ((transport_component b).run r).reachable

theorem Step.stopped (st : Step inner net act net') (stopped : net.Stopped rx) :
    net'.Stopped rx :=
  Receiver.stopped_next st.clients st.servers stopped

omit [DecidableEq β] in
theorem result?_iff {u : Caller β} {result : Except RpcError Unit} :
    net.result? u = some result ↔ ∃ j, ∃ c : MethodCall, net.callOf u = some j ∧
      ((C u.home).calls (net.transports u.home))[j]? = some c ∧ c.phase = .returned result := by
  have phase {c : MethodCall} : c.result? = some result ↔ c.phase = .returned result := by
    unfold MethodCall.result?
    split <;> simp_all
  simp only [result?, call?, Option.bind_eq_bind, Option.bind_eq_some_iff]
  constructor
  case mp =>
    rintro ⟨_, ⟨j, called, c, hc, he⟩, returned⟩
    cases he
    exact ⟨j, c, called, hc, phase.mp returned⟩
  case mpr =>
    rintro ⟨j, c, called, hc, returned⟩
    exact ⟨_, ⟨j, called, c, hc, rfl⟩, phase.mpr returned⟩

-- A receive loop calls `subscribe` only once.
theorem Step.callOf_receiver (st : Step inner net act net')
    (h : net.callOf (.receiver rx) = some j) : net'.callOf (.receiver rx) = some j := by
  rw [st.callOf]
  have allows := st.allows
  cases act <;> try exact h
  case subscribe rx' =>
    have ne : rx ≠ rx' := by
      rintro rfl
      cases h.symm.trans allows.left
    simpa [Action.caller?, calls, ne] using h
  case handled answer => cases answer <;> exact h

theorem Step.result (rec : ∀ b, (C b).Receives) (r : (machine C ρ ω inner).Reachable net)
    (st : Step inner net act net') {result : Except RpcError Unit}
    (h : net.result? (.receiver rx) = some result) :
    net'.result? (.receiver rx) = some result := by
  obtain ⟨j, c, called, hc, returned⟩ := result?_iff.mp h
  have called' := st.callOf_receiver called
  rcases st.transport_cases rx.home with ⟨_, same⟩ | ⟨a, _, hn⟩
  · exact result?_iff.mpr ⟨j, c, called', same ▸ hc, returned⟩
  · obtain ⟨c', hc', returned'⟩ :=
      (rec rx.home).returned _ a _ j c result (transport_reachable r rx.home) hn hc returned
    exact result?_iff.mpr ⟨j, c', called', hc', returned'⟩

theorem Step.on (st : Step inner net act net') (on : net'.On rx) :
    net.On rx ∨ ∃ u, act = .subscribed rx (.ok u) := by
  refine (Receiver.on_of_next st.clients st.servers on).imp_right fun starts => ?_
  have allows := st.allows
  cases rx
  case responses b =>
    replace starts : act.client? = some (b, .subscribed) := starts
    cases act <;> simp [Action.client?] at starts
    case client =>
      obtain ⟨_, rfl⟩ := starts
      exact absurd allows not_false
    case subscribed rx result =>
      cases rx <;> cases result <;> simp at starts
      subst starts
      exact ⟨_, rfl⟩
    case receive rx _ _   => cases rx <;> simp at starts
    case inboxClosed rx _ => cases rx <;> simp at starts
  case requests b =>
    replace starts : act.server? = some (b, .subscribed) := starts
    cases act <;> simp [Action.server?] at starts
    case server =>
      obtain ⟨_, rfl⟩ := starts
      exact absurd allows not_false
    case subscribed rx result =>
      cases rx <;> cases result <;> simp at starts
      subst starts
      exact ⟨_, rfl⟩
    case receive rx _ _   => cases rx <;> simp at starts
    case inboxClosed rx _ => cases rx <;> simp at starts

-- A receive loop that runs has subscribed with success.
theorem result_of_on (rec : ∀ b, (C b).Receives) (r : (machine C ρ ω inner).Reachable net)
    (on : net.On rx) : net.result? (.receiver rx) = some (.ok ()) := by
  induction net, r using Machine.Reachable.induction_on
  case init => exact absurd on Receiver.init_off
  case step net act net' r hn ih =>
    have st := next_step hn
    rcases st.on on with on | ⟨_, rfl⟩
    case inl => exact st.result rec r <| ih on
    case inr => exact st.result rec r st.allows

theorem owns_of_on (law : ∀ b, (C b).Lawful) (rec : ∀ b, (C b).Receives)
    (r : (machine C ρ ω inner).Reachable net) (on : net.On rx) : ∃ k, net.Owns rx k := by
  obtain ⟨j, c, called, hc, returned⟩ := result?_iff.mp <| result_of_on rec r on
  obtain ⟨c', hc', method⟩ := subscribes law r called
  cases hc.symm.trans hc'
  have rt := transport_reachable r rx.home
  have pushed := (rec rx.home).pushed _ j c _ rt hc method returned
  obtain ⟨k, owner⟩ := List.mem_iff_getElem?.mp pushed
  exact ⟨k, by simp [called], owner.trans called.symm⟩

-- Only a receive loop drops an inbox of its own.
theorem Step.dropInbox (st : Step inner net act net') {a : (C b).Action}
    (ha : act.transport? inner = some ⟨b, a⟩) (hu : (C b).use? a = some (.dropInbox k)) :
    ∃ rx, rx.home = b ∧ act = .inboxClosed rx k := by
  have allows := st.allows
  cases act <;> simp only [Action.transport?, reduceCtorEq] at ha
  case transport =>
    cases ha
    have own := allows.left
    simp [hu] at own
  case close | subscribe | receive | attempt =>
    cases ha
    cases ((C _).use_use _).symm.trans hu
  case inboxClosed rx k' =>
    cases ha
    cases ((C _).use_use _).symm.trans hu
    exact ⟨rx, rfl, rfl⟩
  case abandon cancelled =>
    cases cancelled <;> cases ha
    cases ((C _).use_use _).symm.trans hu
  case handled answer =>
    cases answer <;> cases ha
    cases ((C _).use_use _).symm.trans hu

-- No two receive loops have a call in common.
theorem receiver_eq (law : ∀ b, (C b).Lawful) (r : (machine C ρ ω inner).Reachable net)
    (home : rx'.home = rx.home) (h : net.callOf (.receiver rx) = some j)
    (h' : net.callOf (.receiver rx') = some j) : rx' = rx := by
  obtain ⟨c, hc, method⟩ := subscribes law r h
  obtain ⟨c', hc', method'⟩ := subscribes law r h'
  cases rx <;> cases rx' <;> cases home <;> try rfl
  all_goals
    cases hc.symm.trans hc'
    have name := RumqttcTransport.Method.subscribe.inj <| method.symm.trans method'
  · exact absurd name.symm requestsName_ne_responsesName
  · exact absurd name requestsName_ne_responsesName

theorem Step.ended (st : Step inner net (.inboxClosed rx k) net') : net'.Stopped rx := by
  cases rx
  case responses b =>
    have hn := Machine.family_next? st.clients b
    simp only [Action.client?, Machine.member, if_true, Option.bind_some] at hn
    exact (Client.next_step hn).closed
  case requests b =>
    have hn := Machine.family_next? st.servers b
    simp only [Action.server?, Machine.member, if_true, Option.bind_some] at hn
    exact (Server.next_step hn).closed

-- Until it ends, a receive loop has the inbox that it has subscribed.
theorem holding (law : ∀ b, (C b).Lawful) (rec : ∀ b, (C b).Receives)
    (r : (machine C ρ ω inner).Reachable net) (called : net.callOf (.receiver rx) = some j)
    (owner : ((C rx.home).owners (net.transports rx.home))[k]? = some j)
    (on : ¬net.Stopped rx) :
    Carrier.Holding ((C rx.home).calls (net.transports rx.home))
      ((C rx.home).handles (net.transports rx.home)) k j := by
  induction net, r using Machine.Reachable.induction_on
  case init => simp [machine] at called
  case step net act net' r hn ih =>
    have st := next_step hn
    have rt := transport_reachable r rx.home
    have running : ¬net.Stopped rx := fun stopped => on <| st.stopped stopped
    have before (owner : ((C rx.home).owners (net.transports rx.home))[k]? = some j) :
        net.callOf (.receiver rx) = some j := by
      rcases st.callOf_cases called with called | ⟨_, rfl⟩
      case inl => exact called
      case inr =>
        obtain ⟨hl, _⟩ := List.getElem?_eq_some_iff.mp owner
        have handle := List.getElem?_eq_getElem <| (rec rx.home).length _ rt ▸ hl
        obtain ⟨c, hc, _⟩ := (law rx.home).owned _ k _ _ rt owner handle
        simp at hc
    rcases st.transport_cases rx.home with ⟨_, same⟩ | ⟨a, ha, ht⟩
    case inl =>
      rw [same] at owner ⊢
      exact ih (before owner) owner running
    case inr =>
      refine (rec rx.home).holds _ a _ k j rt ht owner ?_ fun ho => ih (before ho) ho running
      intro hu
      obtain ⟨rx', home, rfl⟩ := st.dropInbox ha hu
      obtain ⟨⟨called', owner'⟩, _⟩ := st.allows
      obtain ⟨j', hj'⟩ := Option.ne_none_iff_exists'.mp called'
      have owner' : ((C rx.home).owners (net.transports rx.home))[k]? = some j' :=
        hj' ▸ home ▸ owner'
      cases owner.symm.trans <| (rec rx.home).owns _ a _ k j' ht owner'
      obtain rfl := receiver_eq law (r.next hn) home called <| st.callOf_receiver hj'
      exact on st.ended

theorem owns_unique (rec : ∀ b, (C b).Receives) (r : (machine C ρ ω inner).Reachable net)
    {k' : ℕ} (owns : net.Owns rx k) (owns' : net.Owns rx k') : k = k' := by
  obtain ⟨called, owner⟩ := owns
  obtain ⟨j, hj⟩ := Option.ne_none_iff_exists'.mp called
  obtain ⟨hl, _⟩ := List.getElem?_eq_some_iff.mp <| owner.trans hj
  have distinct := (rec rx.home).distinct _ <| transport_reachable r rx.home
  exact (List.getElem?_inj hl distinct).mp <| owner.trans owns'.right.symm

theorem lt_of_owns (rec : ∀ b, (C b).Receives) (r : (machine C ρ ω inner).Reachable net)
    (owns : net.Owns rx k) : k < ((C rx.home).handles (net.transports rx.home)).length := by
  obtain ⟨called, owner⟩ := owns
  obtain ⟨j, hj⟩ := Option.ne_none_iff_exists'.mp called
  obtain ⟨hl, _⟩ := List.getElem?_eq_some_iff.mp <| owner.trans hj
  rwa [← (rec rx.home).length _ <| transport_reachable r rx.home]

theorem Step.owns (rec : ∀ b, (C b).Receives) (st : Step inner net act net')
    (owns : net.Owns rx k) : net'.Owns rx k := by
  obtain ⟨called, owner⟩ := owns
  obtain ⟨j, hj⟩ := Option.ne_none_iff_exists'.mp called
  have hj' := st.callOf_receiver hj
  refine ⟨by simp [hj'], hj' ▸ ?_⟩
  rcases st.transport_cases rx.home with ⟨_, same⟩ | ⟨a, _, ht⟩
  · exact same ▸ owner.trans hj
  · exact (rec rx.home).owns _ a _ k j ht <| owner.trans hj

theorem Step.receive_of_take? (st : Step inner net act net')
    (h : rx.take? act.client? act.server? = some env) : ∃ k, act = .receive rx k env := by
  have allows := st.allows
  cases rx
  case responses b =>
    obtain ⟨c, hc, taken⟩ := Option.bind_eq_some_iff.mp h
    cases c <;> cases taken
    replace hc := Machine.bind_member_eq_some.mp hc
    cases act <;> simp [Action.client?] at hc
    case client =>
      obtain ⟨_, rfl⟩ := hc
      exact absurd allows not_false
    case subscribed rx result => cases rx <;> cases result <;> simp at hc
    case inboxClosed rx _     => cases rx <;> simp at hc
    case receive rx _ _ =>
      cases rx <;> simp at hc
      obtain ⟨rfl, rfl⟩ := hc
      exact ⟨_, rfl⟩
  case requests b =>
    obtain ⟨s, hs, taken⟩ := Option.bind_eq_some_iff.mp h
    cases s <;> cases taken
    replace hs := Machine.bind_member_eq_some.mp hs
    cases act <;> simp [Action.server?] at hs
    case server =>
      obtain ⟨_, rfl⟩ := hs
      exact absurd allows not_false
    case subscribed rx result => cases rx <;> cases result <;> simp at hs
    case inboxClosed rx _     => cases rx <;> simp at hs
    case receive rx _ _ =>
      cases rx <;> simp at hs
      obtain ⟨rfl, rfl⟩ := hs
      exact ⟨_, rfl⟩

theorem loops_receive : Action.loops rx (.receive rx k env : Action C ρ ω) := by
  cases rx
  case responses => exact Receiver.loops_client
  case requests  => exact Receiver.loops_server

theorem loops_inboxClosed : Action.loops rx (.inboxClosed rx k : Action C ρ ω) := by
  cases rx
  case responses => exact Receiver.loops_client
  case requests  => exact Receiver.loops_server

theorem exists_next {transports clients servers} (allows : net.Allows inner act)
    (stepped : (transportProduct C).next? net.transports (act.transport? inner) = some transports)
    (client : (Rpc.clientFamily ρ inner).next? net.clients act.client? = some clients)
    (server : (Rpc.serverFamily ω inner).next? net.servers act.server? = some servers) :
    ∃ net', (machine C ρ ω inner).next net act = some net' := by
  simp [machine, next, allows, stepped, client, server]

theorem next_transport {a : (C b).Action} {s : (C b).State}
    (h : (C b).machine.next (net.transports b) a = some s) :
    (transportProduct C).next? net.transports (some ⟨b, a⟩) =
      some (Function.update net.transports b s) := by
  simp [transportProduct, Machine.next?, Machine.product, h]

theorem next_receive {s : (C rx.home).State} (allows : net.Allows inner (.receive rx k env))
    (idle : rx.Idle net.clients net.servers)
    (hs : (C rx.home).machine.next (net.transports rx.home) ((C rx.home).use (.recv k)) = some s) :
    ∃ net', (machine C ρ ω inner).next net (.receive rx k env) = some net' := by
  cases rx
  case responses b =>
    have taken : (net.clients b).take env = some { net.clients b with task := .taken env } := by
      rw [Client.take, show (net.clients b).task = .idle from idle]
    exact exists_next allows (next_transport hs) (Machine.family_next?_of taken) rfl
  case requests b =>
    have taken : (net.servers b).take env = some { net.servers b with task := .taken env } := by
      rw [Server.take, show (net.servers b).task = .idle from idle]
    exact exists_next allows (next_transport hs) rfl (Machine.family_next?_of taken)

theorem next_inboxClosed {s : (C rx.home).State} (allows : net.Allows inner (.inboxClosed rx k))
    (idle : rx.Idle net.clients net.servers)
    (hs : (C rx.home).machine.next (net.transports rx.home) ((C rx.home).use (.dropInbox k)) =
      some s) : ∃ net', (machine C ρ ω inner).next net (.inboxClosed rx k) = some net' := by
  cases rx
  case responses b =>
    have closed : (net.clients b).inboxClosed = some { net.clients b with task := .stopped } := by
      rw [Client.inboxClosed, show (net.clients b).task = .idle from idle]
    exact exists_next allows (next_transport hs) (Machine.family_next?_of closed) rfl
  case requests b =>
    have closed : (net.servers b).inboxClosed = some { net.servers b with task := .stopped } := by
      rw [Server.inboxClosed, show (net.servers b).task = .idle from idle]
    exact exists_next allows (next_transport hs) rfl (Machine.family_next?_of closed)

-- Between two messages, the receive loop does not wait for anything.
theorem next_serves (on : net.On rx) (busy : ¬rx.Idle net.clients net.servers) :
    ∃ act net', act.loops rx ∧ (machine C ρ ω inner).next net act = some net' := by
  cases rx
  case responses b =>
    obtain ⟨act, c, serves, hn⟩ := Client.exists_serves (inner b) on.left busy on.right
    have allows : net.Allows inner (.client b act) := by cases act <;> trivial
    have loops : Action.loops (.responses b) (.client b act : Action C ρ ω) :=
      Receiver.loops_client.trans <| Client.Action.loops_of_serves serves
    obtain ⟨net', hn⟩ := exists_next allows rfl (Machine.family_next?_of hn) rfl
    exact ⟨.client b act, net', loops, hn⟩
  case requests b =>
    obtain ⟨act, s, serves, hn⟩ := Server.exists_serves (inner b) on.left busy on.right
    have allows : net.Allows inner (.server b act) := by cases act <;> trivial
    have loops : Action.loops (.requests b) (.server b act : Action C ρ ω) :=
      Receiver.loops_server.trans <| Server.Action.loops_of_serves serves
    obtain ⟨net', hn⟩ := exists_next allows rfl rfl (Machine.family_next?_of hn)
    exact ⟨.server b act, net', loops, hn⟩

-- What is left for the receive loop to do.
def left (net : Cluster C ρ ω) (rx : Receiver β) (k : ℕ) : ℕ :=
  rx.left net.clients net.servers + 3 * queued ((C rx.home).handles (net.transports rx.home)) k

-- The loop has an inbox whose sender nobody keeps.
structure Released (inner : β → Inner) (rx : Receiver β)
    (retained : (C rx.home).State → ℕ → Prop) (k : ℕ) (net : Cluster C ρ ω) : Prop where
  reachable : (machine C ρ ω inner).Reachable net
  owns      : net.Owns rx k
  released  : ¬retained (net.transports rx.home) k

section Released

variable {retained : (C rx.home).State → ℕ → Prop} (law : ∀ b, (C b).Lawful)
  (rec : ∀ b, (C b).Receives) (rel : (C rx.home).Releases retained)

include rec rel

theorem Released.next (h : Released inner rx retained k net)
    (hn : (machine C ρ ω inner).next net act = some net') :
    Released inner rx retained k net' where
  reachable := h.reachable.next hn
  owns      := (next_step hn).owns rec h.owns
  released  := by
    have rt := transport_reachable h.reachable rx.home
    rcases (next_step hn).transport_cases rx.home with ⟨_, same⟩ | ⟨a, _, ht⟩
    · exact same ▸ h.released
    · exact rel.stays _ a _ k rt ht (lt_of_owns rec h.reachable h.owns) h.released

theorem Released.queued_le (h : Released inner rx retained k net) (st : Step inner net act net') :
    queued ((C rx.home).handles (net'.transports rx.home)) k +
        (rx.take? act.client? act.server?).toList.length ≤
      queued ((C rx.home).handles (net.transports rx.home)) k := by
  have rt := transport_reachable h.reachable rx.home
  cases taken : rx.take? act.client? act.server?
  case none =>
    rcases st.transport_cases rx.home with ⟨_, same⟩ | ⟨a, _, ht⟩
    · rw [same]
      exact Nat.le_refl _
    · have hk := lt_of_owns rec h.reachable h.owns
      exact (rel.queued _ a _ k rt ht hk h.released).left
  case some env =>
    obtain ⟨k', rfl⟩ := st.receive_of_take? taken
    obtain rfl := owns_unique rec h.reachable st.allows.left h.owns
    rcases st.transport_cases rx.home with ⟨none, _⟩ | ⟨a, ha, ht⟩
    · simp [Action.transportOf?, Action.transport?] at none
    · cases ha
      have hk := lt_of_owns rec h.reachable h.owns
      exact (rel.queued _ _ _ _ rt ht hk h.released).right <| (C _).use_use _

theorem Released.left_le (h : Released inner rx retained k net) (st : Step inner net act net') :
    (if act.loops rx then 1 else 0) + net'.left rx k ≤ net.left rx k := by
  have loop : (if act.loops rx then 1 else 0) + rx.left net'.clients net'.servers ≤
      rx.left net.clients net.servers + 3 * (rx.take? act.client? act.server?).toList.length :=
    Receiver.left_le st.clients st.servers
  have inbox := h.queued_le rec rel st
  simp only [left]
  omega

include law

theorem Released.next_loops (h : Released inner rx retained k net) (on : net.On rx) :
    ∃ act net', act.loops rx ∧ (machine C ρ ω inner).next net act = some net' := by
  by_cases idle : rx.Idle net.clients net.servers
  case neg => exact next_serves on idle
  case pos =>
    obtain ⟨j, c, called, hc, returned⟩ := result?_iff.mp <| result_of_on rec h.reachable on
    have owner := h.owns.right.trans called
    have hk := lt_of_owns rec h.reachable h.owns
    obtain ⟨g, handle⟩ : ∃ g, ((C rx.home).handles (net.transports rx.home))[k]? = some g :=
      ⟨_, List.getElem?_eq_getElem hk⟩
    have held := holding law rec h.reachable called owner on.not_stopped c g hc
      (by simp [MethodCall.fails, returned]) handle
    have inbox : net.inbox? rx k = some g.inbox := by simp [inbox?, handle]
    cases queue : g.inbox.queue
    case nil =>
      have free : (C rx.home).retains (net.transports rx.home) k = false :=
        Bool.eq_false_iff.mpr fun hr => h.released <| rel.retains _ k hr
      have allows : net.Allows inner (.inboxClosed rx k) := ⟨h.owns, free, by simp [inbox, queue]⟩
      obtain ⟨s, hs⟩ := (rec rx.home).dropInbox _ k j c owner hc returned hk
      obtain ⟨net', hn⟩ := next_inboxClosed allows idle hs
      exact ⟨_, net', loops_inboxClosed, hn⟩
    case cons env rest =>
      obtain ⟨m, received⟩ := Mailbox.recv_of_queue held queue
      have allows : net.Allows inner (.receive rx k env) := ⟨h.owns, by simp [inbox, received]⟩
      obtain ⟨s, hs⟩ := (rec rx.home).recv _ k j c g env m owner hc returned handle received
      obtain ⟨net', hn⟩ := next_receive allows idle hs
      exact ⟨_, net', loops_receive, hn⟩

-- A receive loop whose sender nobody keeps comes to its end.
theorem Released.finishes (h : Released inner rx retained k net) :
    (machine C ρ ω inner).Finishes (fun _ act => act.loops rx) (·.On rx) net := by
  refine Machine.finishes_of_measure (I := Released inner rx retained k) (left · rx k) h ?_ ?_
  · exact fun _ _ _ h hn => ⟨h.next rec rel hn, h.left_le rec rel (next_step hn)⟩
  · exact fun _ h on => h.next_loops law rec rel on

end Released

-- Each `close` of the broker's transport that has returned ends the receive loops of the broker
-- that run by then, and those that have only pushed their senders.
def LoopsEnd (inner : β → Inner) (b : β) (closes : (C b).State → (C b).Action → Prop)
    (as : List (Action C ρ ω)) : Prop :=
  ∀ xs act ys net net' a, as = xs ++ act :: ys → (machine C ρ ω inner).Run xs net →
    (machine C ρ ω inner).next net act = some net' → act.transportOf? inner b = some a →
    closes (net.transports b) a → ∀ rx, rx.home = b → net'.On rx ∨ (∃ k, net'.Owns rx k) →
      (machine C ρ ω inner).Finishes (fun _ act => act.loops rx) (·.On rx) net'

theorem loopsEnd_of_closeEnds {sub : Subscriptions (C b).State (C b).Action}
    (law : ∀ b, (C b).Lawful) (rec : ∀ b, (C b).Receives) (rel : (C b).Releases sub.retained)
    (machine : sub.machine = (C b).machine) (handles : sub.handles = (C b).handles)
    (ends : (C b).machine.Along (as.filterMap (Action.transportOf? inner b)) sub.CloseEnds) :
    LoopsEnd inner b sub.closes as := by
  rintro xs act ys net net' a rfl r hn ha closes rx rfl begun
  have st := next_step hn
  have rn := (r.concat hn).reachable
  obtain ⟨k, owns⟩ := begun.elim (owns_of_on law rec rn) id
  rcases st.transport_cases rx.home with ⟨none, _⟩ | ⟨a', ha', ht⟩
  case inl => cases ha.symm.trans none
  case inr =>
    obtain rfl : a' = a := by simpa [Action.transportOf?, ha'] using ha
    have run := (transport_component rx.home).run r
    have hk := handles ▸ lt_of_owns rec rn owns
    have split : (xs ++ act :: ys).filterMap (Action.transportOf? inner rx.home) =
        xs.filterMap (Action.transportOf? inner rx.home) ++ [a'] ++
          ys.filterMap (Action.transportOf? inner rx.home) := by
      simp [ha]
    have closeEnds := ends _ _ _ split <| run.concat ht
    have ended := closeEnds _ a' [] _ _ rfl (machine ▸ run) (machine ▸ ht) closes k hk
    have released : Released inner rx sub.retained k net' := ⟨rn, owns, ended.released⟩
    exact released.finishes law rec rel

-- In every run, `close` ends the subscriptions of a transport exactly when the condition holds of
-- what has happened to the transport, and if brokers use it the receive loops of its broker too.
structure EndsExactly (ρ ω : Type) (C : β → Carrier)
    (sub : ∀ b, Subscriptions (C b).State (C b).Action) (P : ∀ b, List (C b).Action → Prop) :
    Prop where
  transports : ∀ b as s, (C b).machine.Run as s →
    ((C b).machine.Along as (sub b).CloseEnds ↔ P b as)
  brokers    : ∀ (inner : β → Inner) b as net, (machine C ρ ω inner).Run as net →
    (((C b).machine.Along (as.filterMap (Action.transportOf? inner b)) (sub b).CloseEnds ∧
        LoopsEnd inner b (sub b).closes as) ↔
      P b (as.filterMap (Action.transportOf? inner b)))

theorem endsExactly {sub : ∀ b, Subscriptions (C b).State (C b).Action}
    {P : ∀ b, List (C b).Action → Prop} (law : ∀ b, (C b).Lawful) (rec : ∀ b, (C b).Receives)
    (rel : ∀ b, (C b).Releases (sub b).retained) (machine : ∀ b, (sub b).machine = (C b).machine)
    (handles : ∀ b, (sub b).handles = (C b).handles)
    (iff : ∀ b as s, (C b).machine.Run as s →
      ((C b).machine.Along as (sub b).CloseEnds ↔ P b as)) : EndsExactly ρ ω C sub P where
  transports := iff
  brokers inner b as net r := by
    have iff := iff b _ _ <| (transport_component b).run r
    constructor
    case mp  => exact fun h => iff.mp h.left
    case mpr =>
      intro h
      have ends := iff.mpr h
      exact ⟨ends, loopsEnd_of_closeEnds law rec (rel b) (machine b) (handles b) ends⟩

end Cluster

-- Only the memory transport ends its subscriptions, and with them the receive loops. The others end
-- none that the fan-outs have not given up before, which AMQP never does.
theorem close_ends_subscriptions (ι β ρ ω : Type) [DecidableEq ι] [DecidableEq β] :
    (∀ as, (MemoryHub.machine ι).Along as (MemoryHub.subscribers ι).CloseEnds) ∧
    (∀ (inner : β → Inner) (as : List (Network.Action β ρ ω)), Network.LoopsEnd inner as) ∧
    (∀ (rumqttc : β → Rumqttc) (fromSlice : Bytes → Option Envelope),
      let map b := MqttTransport.subscriberMap (rumqttc b) fromSlice
      Cluster.EndsExactly ρ ω (fun b => MqttTransport.carrier (rumqttc b) fromSlice)
        (fun b => (map b).subscriptions MqttTransport.Closes)
        fun b => (map b).GivesUp MqttTransport.Closes) ∧
    (∀ redis : β → Redis,
      let map b := RedisActor.subscriberMap (redis b)
      Cluster.EndsExactly ρ ω (fun b => RedisActor.carrier (redis b))
        (fun b => (map b).subscriptions Actor.Closes) fun b => (map b).GivesUp Actor.Closes) ∧
    (∀ amqp : β → Amqp,
      Cluster.EndsExactly ρ ω (fun b => AmqpActor.carrier (amqp b))
        (fun b => AmqpActor.subscriptions (amqp b)) fun b as =>
          (Actor.machine (AmqpActor.kind (amqp b))).Throughout as fun m act =>
            m.Closes act → m.subscribers.handles = []) ∧
    ∀ dds : β → Dds,
      let map b := DdsActor.subscriberMap (dds b)
      Cluster.EndsExactly ρ ω (fun b => DdsActor.carrier (dds b))
        (fun b => (map b).subscriptions Actor.Closes) fun b => (map b).GivesUp Actor.Closes := by
  refine ⟨MemoryHub.closeEnds, Network.loopsEnd, ?mqtt, ?redis, ?amqp, ?dds⟩
  case mqtt =>
    intro rumqttc fromSlice map
    exact Cluster.endsExactly (fun b => MqttTransport.carrier_lawful (rumqttc b) fromSlice)
      (fun b => MqttTransport.receives (rumqttc b) fromSlice)
      (fun b => MqttTransport.releases (rumqttc b) fromSlice) (fun _ => rfl) (fun _ => rfl)
      fun b _ _ => MqttTransport.closeEnds_iff
  case redis =>
    intro redis map
    exact Cluster.endsExactly (fun b => RedisActor.carrier_lawful (redis b))
      (fun b => RedisActor.receives (redis b)) (fun b => RedisActor.releases (redis b))
      (fun _ => rfl) (fun _ => rfl) fun b _ _ => RedisActor.closeEnds_iff
  case amqp =>
    intro amqp
    exact Cluster.endsExactly (fun b => AmqpActor.carrier_lawful (amqp b))
      (fun b => AmqpActor.receives (amqp b)) (fun b => AmqpActor.releases (amqp b))
      (fun _ => rfl) (fun _ => rfl) fun b _ _ => AmqpActor.closeEnds_iff
  case dds =>
    intro dds map
    exact Cluster.endsExactly (fun b => DdsActor.carrier_lawful (dds b))
      (fun b => DdsActor.receives (dds b)) (fun b => DdsActor.releases (dds b))
      (fun _ => rfl) (fun _ => rfl) fun b _ _ => DdsActor.closeEnds_iff

-- A broker that calls itself.
def loneInner (_ : Unit) : Inner where
  nodeId := "n"
  mode   := .fullDuplex

def loneRequest : Envelope :=
  (loneInner ()).request "n" "m" [1] "id"

def loneCarrier (_ : Unit) : Carrier :=
  MqttTransport.carrier MqttActor.loneRumqttc fun _ => some loneRequest

namespace Cluster

-- The receive loop takes none of the requests that arrive, so the last one that arrives before
-- `close` finds the inbox full.
def loneClosing : List (Action loneCarrier Bytes Unit) :=
  let alone (acts : List MqttTransport.Action) : List (Action loneCarrier Bytes Unit) :=
    acts.map (.transport ())
  let arrival : List MqttTransport.Action :=
    [.actor (.poll (.publish "requests/n" [])), .trySend 0, .writeBack]
  .subscribe (.requests ()) :: alone [.actor (.send 0), .actor .handle,
    .actor (.poll (.connack ["requests/n"])), .actor (.poll .transmit),
    .actor (.poll (.suback [.success .atMostOnce])), .actor (.resume 0)] ++
  [.subscribed (.requests ()) (.ok ()), .client () (.request "n" "m" (.ok [1]) .ok),
    .attempt () 0 "id" 0 loneRequest] ++
  alone [.actor (.send 1), .actor .handle, .actor (.resume 1), .actor (.poll .transmit)] ++
  (List.replicate 17 (alone arrival)).flatten ++
  .close () :: alone [.actor (.send 2), .actor .handle, .actor (.resume 2), .actor .pushTask,
    .actor (.join 2), .actor (.join 2)]

end Cluster

-- Whenever a call joins the tasks, nobody keeps a sender.
def MqttTransport.joinsReleased (t : MqttTransport) : Action → Bool
  | .actor (.join _) =>
    (List.range t.subscribers.handles.length).all fun k => !t.subscribers.retains [()] k
  | _                => true

open MqttTransport in
theorem loneClosing_givesUp :
    (subscriberMap MqttActor.loneRumqttc fun _ => some loneRequest).GivesUp Closes
      (Cluster.loneClosing.filterMap (Cluster.Action.transportOf? loneInner ())) := by
  have law := subscriberMap_lawful MqttActor.loneRumqttc fun _ => some loneRequest
  refine (SubscriberMap.givesUp_iff law).mpr ?_
  have meets : (machine MqttActor.loneRumqttc fun _ => some loneRequest).Meets
      (fun t act => t.joinsReleased act) {}
      (Cluster.loneClosing.filterMap (Cluster.Action.transportOf? loneInner ())) := by
    decide +kernel
  intro xs act ys t he rt hc k hk hr
  obtain ⟨i, _, rfl, _⟩ := hc
  have released := Machine.throughout_of_meets meets xs _ ys t he rt
  have retains : t.subscribers.retains [()] k :=
    Fanout.retains_of_retained (by simp) (fun _ hr => hr.hasTopic <| fanout_reachable rt.reachable)
      hr
  simp only [joinsReleased, List.all_eq_true, List.mem_range] at released
  simpa [retains] using released k hk

theorem close_ends_subscriptions_lone :
    (MemoryHub.machine ℕ).Along [.subscribe ⟨"t"⟩, .close] (MemoryHub.subscribers ℕ).CloseEnds ∧
    (let map := MqttTransport.subscriberMap MqttActor.loneRumqttc fun _ => some loneRequest
      let as  := MqttTransport.loneClose ++ [.actor (.join 1)]
      map.machine.Along as (map.subscriptions MqttTransport.Closes).CloseEnds ↔
        map.GivesUp MqttTransport.Closes as) ∧
    let map := MqttTransport.subscriberMap MqttActor.loneRumqttc fun _ => some loneRequest
    let bs  := Cluster.loneClosing.filterMap (Cluster.Action.transportOf? loneInner ())
    (∃ net, (Cluster.machine loneCarrier Bytes Unit loneInner).Run Cluster.loneClosing net) ∧
      map.machine.Along bs (map.subscriptions MqttTransport.Closes).CloseEnds ∧
      Cluster.LoopsEnd loneInner () MqttTransport.Closes Cluster.loneClosing := by
  obtain ⟨memory, _, mqtt, _⟩ := close_ends_subscriptions ℕ Unit Bytes Unit
  obtain ⟨transports, brokers⟩ :=
    mqtt (fun _ => MqttActor.loneRumqttc) fun _ => some loneRequest
  have run : (MqttTransport.machine MqttActor.loneRumqttc fun _ => some loneRequest).Run
      (MqttTransport.loneClose ++ [.actor (.join 1)]) _ := .of_isSome rfl
  have closing : (Cluster.machine loneCarrier Bytes Unit loneInner).Run Cluster.loneClosing _ :=
    .of_isSome (by decide +kernel)
  have ends := (brokers loneInner () Cluster.loneClosing _ closing).mpr loneClosing_givesUp
  exact ⟨memory _, transports () _ _ run, ⟨_, closing⟩, ends.left, ends.right⟩

end MomRpc
