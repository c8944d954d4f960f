import MomRpc.Broker.Theorems.Draining
import MomRpc.Transport.Theorems.Closing

namespace MomRpc

namespace Network

variable {β ρ ω : Type} [DecidableEq β] {inner : β → Inner} {net net' : Network β ρ ω}
  {act : Action β ρ ω} {rx : Receiver β} {j : ℕ}

def Action.loops (rx : Receiver β) (act : Action β ρ ω) : Bool :=
  rx.loops act.client? act.server?

def On (net : Network β ρ ω) (rx : Receiver β) : Prop :=
  rx.On net.clients net.servers

-- What is left for the receive loop to do.
def left (net : Network β ρ ω) (rx : Receiver β) (j : ℕ) : ℕ :=
  rx.left net.clients net.servers + 3 * queued net.hub.handles j

-- The loop has an inbox whose sender nobody keeps.
structure Released (inner : β → Inner) (net : Network β ρ ω) (rx : Receiver β) (j : ℕ) :
    Prop where
  reachable : (machine ρ ω inner).Reachable net
  owns      : net.owners[j]? = some (some rx)
  released  : ¬net.hub.Retained j

theorem Step.take?_eq (st : Step inner net act net') :
    rx.take? act.client? act.server? = act.take? rx := by
  cases rx
  case responses b => exact st.clientOf?_take?
  case requests b  => exact st.serverOf?_take?

theorem Step.queued_le (st : Step inner net act net') (h : net.Released inner rx j) :
    queued net'.hub.handles j + (act.take? rx).toList.length ≤ queued net.hub.handles j := by
  cases taken : act.take? rx
  case none =>
    rcases st.hub_cases with ⟨_, hub⟩ | ⟨_, _, sth⟩
    · rw [hub]
      exact Nat.le_refl _
    · exact (sth.queued_le h.released).left
  case some env =>
    cases act <;> simp only [Action.take?, reduceCtorEq] at taken
    case receive rx' j' env' =>
      obtain ⟨rfl, _⟩ := Option.ite_none_right_eq_some.mp taken
      obtain rfl := owns_unique h.reachable st.allows.left h.owns
      rcases st.hub_cases with ⟨ha, _⟩ | ⟨a, ha, sth⟩
      · cases ha
      · exact (sth.queued_le h.released).right (Option.some.inj ha).symm

theorem Step.left_le (st : Step inner net act net') (h : net.Released inner rx j) :
    (if act.loops rx then 1 else 0) + net'.left rx j ≤ net.left rx j := by
  have loop : (if act.loops rx then 1 else 0) + rx.left net'.clients net'.servers ≤
      rx.left net.clients net.servers + 3 * (rx.take? act.client? act.server?).toList.length :=
    Receiver.left_le st.clients st.servers
  have inbox := st.queued_le h
  rw [st.take?_eq] at loop
  simp only [left]
  omega

theorem Released.next (h : net.Released inner rx j)
    (hn : (machine ρ ω inner).next net act = some net') : net'.Released inner rx j where
  reachable := h.reachable.next hn
  owns      := (next_step hn).owns_iff.mpr <| .inl h.owns
  released  := by
    rcases (next_step hn).hub_cases with ⟨_, hub⟩ | ⟨_, _, sth⟩
    · exact hub ▸ h.released
    · obtain ⟨hl, _⟩ := List.getElem?_eq_some_iff.mp h.owns
      exact sth.released (owners_length h.reachable ▸ hl) h.released

theorem loops_receive {env : Envelope} :
    Action.loops rx (.receive rx j env : Action β ρ ω) := by
  cases rx
  case responses => exact Receiver.loops_client
  case requests  => exact Receiver.loops_server

theorem loops_inboxClosed : Action.loops rx (.inboxClosed rx j : Action β ρ ω) := by
  cases rx
  case responses => exact Receiver.loops_client
  case requests  => exact Receiver.loops_server

theorem next_inboxClosed {hub : MemoryHub (Publisher β)}
    (allows : net.Allows inner (.inboxClosed rx j)) (idle : net.Idle rx)
    (dropped : net.hub.drop j = some hub) :
    ∃ net', (machine ρ ω inner).next net (.inboxClosed rx j) = some net' := by
  have stepped : (hubs β).next? net.hub (some (.drop j)) = some hub := dropped
  cases rx
  case responses b =>
    have closed : (net.clients b).inboxClosed = some { net.clients b with task := .stopped } := by
      rw [Client.inboxClosed, show (net.clients b).task = .idle from idle]
    have closed : (clientFamily ρ inner).next? net.clients (some (b, .inboxClosed)) = _ :=
      Machine.family_next?_of closed
    exact ⟨_, next_of allows stepped closed rfl rfl rfl⟩
  case requests b =>
    have closed : (net.servers b).inboxClosed = some { net.servers b with task := .stopped } := by
      rw [Server.inboxClosed, show (net.servers b).task = .idle from idle]
    have closed : (serverFamily ω inner).next? net.servers (some (b, .inboxClosed)) = _ :=
      Machine.family_next?_of closed
    exact ⟨_, next_of allows stepped rfl closed rfl rfl⟩

-- Between two messages, the receive loop does not wait for anything.
theorem next_serves (on : net.On rx) (busy : ¬net.Idle rx) :
    ∃ act net', act.loops rx ∧ (machine ρ ω inner).next net act = some net' := by
  cases rx
  case responses b =>
    obtain ⟨act, c, serves, hn⟩ := Client.exists_serves (inner b) on.left busy on.right
    have allows : net.Allows inner (.client b act) := by cases act <;> trivial
    have loops : Action.loops (.responses b) (.client b act : Action β ρ ω) :=
      Receiver.loops_client.trans <| Client.Action.loops_of_serves serves
    exact ⟨.client b act, _, loops, next_client allows hn⟩
  case requests b =>
    obtain ⟨act, s, serves, hn⟩ := Server.exists_serves (inner b) on.left busy on.right
    have allows : net.Allows inner (.server b act) := by cases act <;> trivial
    have loops : Action.loops (.requests b) (.server b act : Action β ρ ω) :=
      Receiver.loops_server.trans <| Server.Action.loops_of_serves serves
    exact ⟨.server b act, _, loops, next_server allows hn⟩

theorem Released.next_loops (h : net.Released inner rx j) (on : net.On rx) :
    ∃ act net', act.loops rx ∧ (machine ρ ω inner).next net act = some net' := by
  by_cases idle : net.Idle rx
  case neg => exact next_serves on idle
  case pos =>
    obtain ⟨g, handle, held⟩ := held_of_owns h.reachable h.owns on.not_stopped
    cases queue : g.inbox.queue
    case nil =>
      have unregistered : j ∉ net.hub.subscriptions (rx.subscription inner) :=
        fun hj => h.released <| .inl ⟨_, hj⟩
      have allows : net.Allows inner (.inboxClosed rx j) :=
        ⟨h.owns, unregistered, by simp [handle, queue]⟩
      obtain ⟨hub, dropped⟩ : ∃ hub, net.hub.drop j = some hub := by
        simp [MemoryHub.drop, handle]
      obtain ⟨net', hn⟩ := next_inboxClosed allows idle dropped
      exact ⟨_, net', loops_inboxClosed, hn⟩
    case cons env rest =>
      obtain ⟨inbox, received⟩ := Mailbox.recv_of_queue held queue
      obtain ⟨hub, received⟩ : ∃ hub, net.hub.recv j = some (env, hub) := by
        simp [MemoryHub.recv, handle, received]
      obtain ⟨net', hn, _⟩ := next_receive h.owns idle received
      exact ⟨_, net', loops_receive, hn⟩

-- A receive loop whose sender nobody keeps comes to its end.
theorem Released.finishes (h : net.Released inner rx j) :
    (machine ρ ω inner).Finishes (fun _ act => act.loops rx) (·.On rx) net := by
  refine Machine.finishes_of_measure (I := (Released inner · rx j)) (left · rx j) h ?_ ?_
  · exact fun _ _ _ h hn => ⟨h.next hn, (next_step hn).left_le h⟩
  · exact fun _ h on => h.next_loops on

theorem Step.on (st : Step inner net act net') (on : net'.On rx) :
    net.On rx ∨ act = .subscribed rx := by
  refine (Receiver.on_of_next st.clients st.servers on).imp_right fun starts => ?_
  have allows := st.allows
  cases rx
  case responses b =>
    replace starts : act.client? = some (b, .subscribed) := starts
    cases act <;> simp [Action.client?] at starts
    case client =>
      obtain ⟨_, rfl⟩ := starts
      exact absurd allows not_false
    case subscribed rx    => cases rx <;> simp_all
    case receive rx _ _   => cases rx <;> simp at starts
    case inboxClosed rx _ => cases rx <;> simp at starts
  case requests b =>
    replace starts : act.server? = some (b, .subscribed) := starts
    cases act <;> simp [Action.server?] at starts
    case server =>
      obtain ⟨_, rfl⟩ := starts
      exact absurd allows not_false
    case subscribed rx    => cases rx <;> simp_all
    case receive rx _ _   => cases rx <;> simp at starts
    case inboxClosed rx _ => cases rx <;> simp at starts

-- A receive loop that runs has subscribed.
theorem owns_of_on (r : (machine ρ ω inner).Reachable net) (on : net.On rx) :
    ∃ j : ℕ, net.owners[j]? = some (some rx) := by
  induction net, r using Machine.Reachable.induction_on
  case init => exact absurd on Receiver.init_off
  case step net act net' _ hn ih =>
    have st := next_step hn
    rcases st.on on with on | rfl
    case inl =>
      obtain ⟨j, owns⟩ := ih on
      exact ⟨j, st.owns_iff.mpr <| .inl owns⟩
    case inr => exact ⟨_, st.owns_iff.mpr <| .inr ⟨rfl, rfl⟩⟩

-- Each `close` ends the receive loops that have subscribed by then.
def LoopsEnd (inner : β → Inner) (as : List (Action β ρ ω)) : Prop :=
  ∀ xs ys net net', as = xs ++ .hub .close :: ys → (machine ρ ω inner).Run xs net →
    (machine ρ ω inner).next net (.hub .close) = some net' →
    ∀ rx : Receiver β, net'.On rx ∨ (∃ j : ℕ, net'.owners[j]? = some (some rx)) →
      (machine ρ ω inner).Finishes (fun _ act => act.loops rx) (·.On rx) net'

theorem loopsEnd (inner : β → Inner) (as : List (Action β ρ ω)) : LoopsEnd inner as := by
  intro xs ys net net' _ r hn rx subscribed
  have rn := (r.concat hn).reachable
  obtain ⟨j, owns⟩ := subscribed.elim (owns_of_on rn) id
  obtain ⟨hl, _⟩ := List.getElem?_eq_some_iff.mp owns
  rw [owners_length rn] at hl
  have released := MemoryHub.releases (hub_reachable r.reachable) rfl _ (next_step hn).hub j hl
  exact Released.finishes ⟨rn, owns, released⟩

end Network
end MomRpc
