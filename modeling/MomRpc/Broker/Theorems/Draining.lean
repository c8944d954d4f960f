import MomRpc.Broker.Theorems.Loops
import MomRpc.Broker.Theorems.Startup

namespace MomRpc

namespace MemoryHub

variable {ι : Type} {hub hub' : MemoryHub ι} {j : ℕ}

def Empty (hub : MemoryHub ι) (j : ℕ) : Prop :=
  ∃ h, hub.handles[j]? = some h ∧ h.inbox.held ∧ h.inbox.queue = []

theorem Empty.congr (same : hub'.handles[j]? = hub.handles[j]?) (empty : hub.Empty j) :
    hub'.Empty j := by
  obtain ⟨h, handle, held, queue⟩ := empty
  exact ⟨h, same.trans handle, held, queue⟩

theorem Step.held [DecidableEq ι] {a : Action ι} {h : SubscriptionHandle}
    (st : Step hub a hub') (handle : hub.handles[j]? = some h) (held : h.inbox.held)
    (stays : a ≠ .drop j) : ∃ h', hub'.handles[j]? = some h' ∧ h'.inbox.held := by
  obtain ⟨hl, -⟩ := List.getElem?_eq_some_iff.mp handle
  -- The action changes the `i`-th handle, whose inbox stays held.
  have set {i h₁ h₂} (changed : hub.handles[i]? = some h₁) (held' : h₂.inbox.held) :
      ∃ h', (hub.handles.set i h₂)[j]? = some h' ∧ h'.inbox.held :=
    List.exists_getElem?_set changed ⟨h, handle, held⟩ fun _ _ => held'
  cases st <;> try exact ⟨h, handle, held⟩
  case subscribe => exact ⟨h, (List.getElem?_append_left hl).trans handle, held⟩
  case send changed sent => exact set changed (Mailbox.trySend_held sent).right
  case recv changed received => exact set changed (Mailbox.recv_held received).right
  case drop i h' changed =>
    have ne : i ≠ j := fun he => stays <| he ▸ rfl
    exact ⟨h, by simpa [ne] using handle, held⟩

end MemoryHub

namespace Client

variable {ρ : Type} {inner : Inner} {c c' : Client ρ} {act : Action ρ}

-- The steps of the receive loop that empty its inbox.
def Action.drains : Action ρ → Prop
  | .take _ | .lookup _ | .deliver _ _ => True
  | _ => False

theorem Step.calls_of_drains (st : Step inner c act c') (drains : act.drains) :
    c'.calls = c.calls := by
  cases st <;> first | rfl | exact drains.elim | skip
  case ended ends => cases ends <;> exact drains.elim

theorem Step.idle_of_drains (st : Step inner c act c') (drains : act.drains)
    (idle : c.task = .idle) : ∃ env, take? act = some env := by
  cases st <;> first | exact drains.elim | simp_all [take?]
  case ended ends => cases ends <;> exact drains.elim

end Client

namespace Server

variable {ω : Type} {inner : Inner} {s s' : Server ω} {act : Action ω}

theorem Step.stopped_cases (st : Step inner s act s') (h : s'.task = .stopped) :
    s.task = .stopped ∨ act = .subscribeFailed ∨ act = .inboxClosed := by
  cases st <;> simp_all

def Action.drains : Action ω → Prop
  | .take _ | .dispatch _ => True
  | _ => False

theorem Step.handlers_of_drains (st : Step inner s act s') (drains : act.drains) :
    s'.handlers = s.handlers := by
  cases st <;> first | rfl | exact drains.elim

theorem Step.idle_of_drains (st : Step inner s act s') (drains : act.drains)
    (idle : s.task = .idle) : ∃ env, take? act = some env := by
  cases st <;> first | exact drains.elim | simp_all [take?]

end Server

namespace Network

variable {β ρ ω : Type} [DecidableEq β] {inner : β → Inner} {net net' : Network β ρ ω}
  {act : Action β ρ ω} {rx : Receiver β} {b : β} {j : ℕ}

-- The steps of the brokers that empty their inboxes.
def Action.drains : Action β ρ ω → Prop
  | .receive _ _ _ | .client _ (.lookup _) | .client _ (.deliver _ _) => True
  | .server _ (.dispatch _) => True
  | _ => False

-- The receive loop awaits the next message.
def Idle (net : Network β ρ ω) (rx : Receiver β) : Prop :=
  rx.Idle net.clients net.servers

def Stopped (net : Network β ρ ω) (rx : Receiver β) : Prop :=
  rx.Stopped net.clients net.servers

-- The receive loop has ended, or it has not begun.
def Off (net : Network β ρ ω) : Receiver β → Prop
  | .responses b => (net.clients b).task = .starting ∨ (net.clients b).task = .stopped
  | .requests b  => (net.servers b).task = .starting ∨ (net.servers b).task = .stopped

omit [DecidableEq β] in
theorem off_of_stopped (stopped : net.Stopped rx) : net.Off rx := by
  cases rx <;> exact .inr stopped

theorem next_of {hub clients servers} (allows : net.Allows inner act)
    (stepped : (hubs β).next? net.hub (act.hub? inner) = some hub)
    (client : (clientFamily ρ inner).next? net.clients act.client? = some clients)
    (server : (serverFamily ω inner).next? net.servers act.server? = some servers)
    (owner : act.owner? = none) (id : act.correlationId? = none) :
    (machine ρ ω inner).next net act = some { net with hub, clients, servers } := by
  simp [machine, next, allows, stepped, client, server, owner, id]

theorem Step.responses_ended (st : Step inner net act net') {c : Client.Action ρ}
    (ends : c = .subscribeFailed ∨ c = .inboxClosed) (h : act.clientOf? b = some c) :
    ∃ j, act = .inboxClosed (.responses b) j := by
  have allows := st.allows
  have hc := Machine.bind_member_eq_some.mp h
  cases act <;> simp only [Action.client?, reduceCtorEq, Option.some.injEq, Prod.mk.injEq] at hc
  case client =>
    obtain ⟨rfl, rfl⟩ := hc
    rcases ends with rfl | rfl <;> exact absurd allows not_false
  case inboxClosed rx j =>
    cases rx <;> simp only [reduceCtorEq, Option.some.injEq, Prod.mk.injEq] at hc
    exact ⟨j, hc.left ▸ rfl⟩
  case subscribed rx | receive rx _ _ =>
    cases rx <;> simp only [reduceCtorEq, Option.some.injEq, Prod.mk.injEq] at hc
    simp [← hc.right] at ends
  all_goals simp [← hc.right] at ends

theorem Step.requests_ended (st : Step inner net act net') {s : Server.Action ω}
    (ends : s = .subscribeFailed ∨ s = .inboxClosed) (h : act.serverOf? b = some s) :
    ∃ j, act = .inboxClosed (.requests b) j := by
  have allows := st.allows
  have hs := Machine.bind_member_eq_some.mp h
  cases act <;> simp only [Action.server?, reduceCtorEq, Option.some.injEq, Prod.mk.injEq] at hs
  case server =>
    obtain ⟨rfl, rfl⟩ := hs
    rcases ends with rfl | rfl <;> exact absurd allows not_false
  case inboxClosed rx j =>
    cases rx <;> simp only [reduceCtorEq, Option.some.injEq, Prod.mk.injEq] at hs
    exact ⟨j, hs.left ▸ rfl⟩
  case subscribed rx | receive rx _ _ =>
    cases rx <;> simp only [reduceCtorEq, Option.some.injEq, Prod.mk.injEq] at hs
    simp [← hs.right] at ends
  all_goals simp [← hs.right] at ends

theorem Step.off (st : Step inner net act net') (off : net'.Off rx) :
    net.Off rx ∨ ∃ j, act = .inboxClosed rx j := by
  cases rx
  case responses b =>
    rcases st.client_cases b with ⟨_, hb⟩ | ⟨c, hc, stc⟩
    · exact .inl <| by simpa [Off, hb] using off
    · rcases off with starting | stopped
      · exact .inl <| .inl (stc.starting starting).left
      · exact stc.stopped_cases stopped |>.imp .inr fun ends => st.responses_ended ends hc
  case requests b =>
    rcases st.server_cases b with ⟨_, hb⟩ | ⟨s, hs, sts⟩
    · exact .inl <| by simpa [Off, hb] using off
    · rcases off with starting | stopped
      · exact .inl <| .inl (sts.starting starting).left
      · exact sts.stopped_cases stopped |>.imp .inr fun ends => st.requests_ended ends hs

theorem hub_reachable (r : (machine ρ ω inner).Reachable net) : (hubs β).Reachable net.hub := by
  obtain ⟨_, run⟩ := r
  exact (hub_component.run run).reachable

theorem owns_unique (r : (machine ρ ω inner).Reachable net) {j' : ℕ}
    (owns : net.owners[j]? = some (some rx)) (owns' : net.owners[j']? = some (some rx)) :
    j = j' := by
  obtain ⟨as, r⟩ := r
  cases inbox r rx
  case unsubscribed unowned _ => exact absurd (List.mem_of_getElem? owns) unowned
  case subscribed unique _ _ _ => rw [(unique j).mp owns, (unique j').mp owns']

theorem Step.stopped (st : Step inner net act net') (stopped : net.Stopped rx) :
    net'.Stopped rx :=
  Receiver.stopped_next st.clients st.servers stopped

theorem Step.ended (st : Step inner net (.inboxClosed rx j) net') : net'.Stopped rx := by
  cases rx
  case responses b => exact (st.client rfl).closed
  case requests b  => exact (st.server rfl).closed

-- Until it ends, the receive loop has the inbox that it has subscribed.
theorem held_of_owns (r : (machine ρ ω inner).Reachable net)
    (owns : net.owners[j]? = some (some rx)) (on : ¬net.Stopped rx) :
    ∃ h, net.hub.handles[j]? = some h ∧ h.inbox.held := by
  induction net, r using Machine.Reachable.induction_on
  case init => simp [machine] at owns
  case step net act net' r hn ih =>
    have st := next_step hn
    rcases st.owns_iff.mp owns with owns | ⟨rfl, rfl⟩
    case inr => exact ⟨_, owners_length r ▸ st.subscribed_handle, rfl⟩
    case inl =>
      obtain ⟨h, handle, held⟩ := ih owns fun stopped => on <| st.stopped stopped
      rcases st.hub_cases with ⟨_, hub⟩ | ⟨a, ha, sth⟩
      · exact ⟨h, hub ▸ handle, held⟩
      · refine sth.held handle held ?_
        rintro rfl
        have allows := st.allows
        cases act <;> simp only [Action.hub?, reduceCtorEq, Option.some.injEq] at ha
        case hub =>
          subst ha
          cases owns.symm.trans allows
        case inboxClosed rx' j' =>
          cases ha
          obtain ⟨owns', _⟩ := allows
          cases owns.symm.trans owns'
          exact on st.ended
        case handled answer => cases answer <;> cases ha

-- While it is registered, the receive loop runs.
theorem on_of_registered (r : (machine ρ ω inner).Reachable net)
    (registered : net.Registered inner rx j) : ¬net.Off rx := by
  induction net, r using Machine.Reachable.induction_on
  case init => simp [Registered, machine] at registered
  case step net act net' r hn ih =>
    have st := next_step hn
    intro off
    rcases (st.registered <| owners_length r).mp registered with ⟨registered, _⟩ | ⟨rfl, _⟩
    case inl =>
      rcases st.off off with off | ⟨j', rfl⟩
      · exact ih registered off
      · obtain ⟨owns, unregistered, _⟩ := st.allows
        exact unregistered <| owns_unique r registered.left owns ▸ registered.right
    case inr =>
      cases rx
      case responses b =>
        have stc := st.client rfl
        simp only [Off] at off
        generalize net'.clients b = c at stc off
        cases stc
        case subscribed => simp at off
        case ended ends => cases ends
      case requests b =>
        have sts := st.server rfl
        simp only [Off] at off
        generalize net'.servers b = s at sts off
        cases sts
        simp at off

theorem held_of_registered (r : (machine ρ ω inner).Reachable net)
    (registered : net.Registered inner rx j) : ∃ h, net.hub.handles[j]? = some h ∧ h.inbox.held :=
  held_of_owns r registered.left fun stopped =>
    on_of_registered r registered <| off_of_stopped stopped

-- What draining leaves as it was.
structure Kept (net net' : Network β ρ ω) : Prop where
  subscriptions : net'.hub.subscriptions = net.hub.subscriptions
  owners        : net'.owners = net.owners
  calls         : ∀ b, (net'.clients b).calls = (net.clients b).calls
  handlers      : ∀ b, (net'.servers b).handlers = (net.servers b).handlers

omit [DecidableEq β] in
theorem Kept.refl : Kept net net :=
  ⟨rfl, rfl, fun _ => rfl, fun _ => rfl⟩

omit [DecidableEq β] in
theorem Kept.trans {net'' : Network β ρ ω} (kept : Kept net net') (kept' : Kept net' net'') :
    Kept net net'' where
  subscriptions := kept'.subscriptions.trans kept.subscriptions
  owners        := kept'.owners.trans kept.owners
  calls b       := (kept'.calls b).trans <| kept.calls b
  handlers b    := (kept'.handlers b).trans <| kept.handlers b

omit [DecidableEq β] in
theorem Kept.registered (kept : Kept net net') (registered : net.Registered inner rx j) :
    net'.Registered inner rx j := by
  rwa [Registered, kept.owners, kept.subscriptions]

theorem client_drains {c : Client.Action ρ} (drains : act.drains) (h : act.clientOf? b = some c) :
    c.drains := by
  have hc := Machine.bind_member_eq_some.mp h
  cases act <;> simp only [Action.client?, reduceCtorEq, Option.some.injEq, Prod.mk.injEq] at hc
  case client b c =>
    obtain ⟨rfl, rfl⟩ := hc
    cases c <;> first | exact drains | exact trivial
  case receive rx _ _ =>
    cases rx <;> simp only [reduceCtorEq, Option.some.injEq, Prod.mk.injEq] at hc
    exact hc.right ▸ trivial
  all_goals exact drains.elim

theorem server_drains {s : Server.Action ω} (drains : act.drains) (h : act.serverOf? b = some s) :
    s.drains := by
  have hs := Machine.bind_member_eq_some.mp h
  cases act <;> simp only [Action.server?, reduceCtorEq, Option.some.injEq, Prod.mk.injEq] at hs
  case server b s =>
    obtain ⟨rfl, rfl⟩ := hs
    cases s <;> first | exact drains | exact trivial
  case receive rx _ _ =>
    cases rx <;> simp only [reduceCtorEq, Option.some.injEq, Prod.mk.injEq] at hs
    exact hs.right ▸ trivial
  all_goals exact drains.elim

-- At the hub, draining is to receive.
omit [DecidableEq β] in
theorem hub_drains {a : MemoryHub.Action (Publisher β)} (drains : act.drains)
    (h : act.hub? inner = some a) : ∃ rx j env, act = .receive rx j env ∧ a = .recv j := by
  cases act <;> simp only [Action.hub?, reduceCtorEq, Option.some.injEq] at h
  case receive rx j env => exact ⟨rx, j, env, rfl, h.symm⟩
  all_goals exact drains.elim

theorem Step.kept (st : Step inner net act net') (drains : act.drains) : Kept net net' where
  subscriptions := by
    rcases st.hub_cases with ⟨_, hub⟩ | ⟨a, ha, sth⟩
    · rw [hub]
    · obtain ⟨_, _, _, _, rfl⟩ := hub_drains drains ha
      generalize net'.hub = hub' at sth
      cases sth
      rfl
  owners := by
    have none : act.owner? = none := by cases act <;> first | rfl | exact drains.elim
    rw [st.owners, none, Option.toList_none, List.append_nil]
  calls b := by
    rcases st.client_cases b with ⟨_, hb⟩ | ⟨c, hc, stc⟩
    · rw [hb]
    · exact stc.calls_of_drains <| client_drains drains hc
  handlers b := by
    rcases st.server_cases b with ⟨_, hb⟩ | ⟨s, hs, sts⟩
    · rw [hb]
    · exact sts.handlers_of_drains <| server_drains drains hs

-- The inbox is empty, and its receive loop awaits the next message.
def Settled (net : Network β ρ ω) (j : ℕ) : Prop :=
  ∃ rx, net.owners[j]? = some (some rx) ∧ net.Idle rx ∧ net.hub.Empty j

theorem Step.idle (st : Step inner net act net') (drains : act.drains)
    (none : act.take? rx = none) (idle : net.Idle rx) : net'.Idle rx := by
  cases rx
  case responses b =>
    rcases st.client_cases b with ⟨_, hb⟩ | ⟨c, hc, stc⟩
    · simpa [Idle, Receiver.Idle, hb] using idle
    · obtain ⟨env, taken⟩ := stc.idle_of_drains (client_drains drains hc) idle
      have taken' := st.clientOf?_take? (b := b)
      rw [hc, none] at taken'
      cases taken.symm.trans taken'
  case requests b =>
    rcases st.server_cases b with ⟨_, hb⟩ | ⟨s, hs, sts⟩
    · simpa [Idle, Receiver.Idle, hb] using idle
    · obtain ⟨env, taken⟩ := sts.idle_of_drains (server_drains drains hs) idle
      have taken' := st.serverOf?_take? (b := b)
      rw [hs, none] at taken'
      cases taken.symm.trans taken'

theorem Step.settled (r : (machine ρ ω inner).Reachable net) (st : Step inner net act net')
    (drains : act.drains) (settled : net.Settled j) : net'.Settled j := by
  obtain ⟨rx, owns, idle, empty⟩ := settled
  have other {rx' j' env} (h : act = .receive rx' j' env) : rx' ≠ rx ∧ j' ≠ j := by
    subst h
    obtain ⟨owns', received⟩ := st.allows
    have ne : j' ≠ j := by
      rintro rfl
      obtain ⟨h, handle, _, queue⟩ := empty
      have nothing : h.inbox.recv = none := by
        cases hr : h.inbox.recv
        case none => rfl
        case some m => simp [(Mailbox.recv_iff.mp hr).right.left] at queue
      simp [MemoryHub.recv, handle, nothing] at received
    refine ⟨?_, ne⟩
    rintro rfl
    exact ne <| owns_unique r owns' owns
  refine ⟨rx, (st.kept drains).owners ▸ owns, st.idle drains ?_ idle, ?_⟩
  · cases act <;> try rfl
    case receive => exact if_neg (other rfl).left
  · rcases st.hub_cases with ⟨_, hub⟩ | ⟨a, ha, sth⟩
    · exact hub ▸ empty
    · obtain ⟨rx', j', env, rfl, rfl⟩ := hub_drains drains ha
      have ne := (other rfl).right
      generalize net'.hub = hub' at sth
      cases sth
      exact empty.congr <| by simp [ne]

theorem next_client {a : Client.Action ρ} {c : Client ρ}
    (allows : net.Allows inner (.client b a))
    (stepped : Client.next (inner b) (net.clients b) a = some c) :
    (machine ρ ω inner).next net (.client b a) =
      some { net with clients := Function.update net.clients b c } :=
  have stepped : (clientFamily ρ inner).next? net.clients (some (b, a)) = _ :=
    Machine.family_next?_of stepped
  next_of allows rfl stepped rfl rfl rfl

theorem next_server {a : Server.Action ω} {s : Server ω}
    (allows : net.Allows inner (.server b a))
    (stepped : Server.next (inner b) (net.servers b) a = some s) :
    (machine ρ ω inner).next net (.server b a) =
      some { net with servers := Function.update net.servers b s } :=
  have stepped : (serverFamily ω inner).next? net.servers (some (b, a)) = _ :=
    Machine.family_next?_of stepped
  next_of allows rfl rfl stepped rfl rfl

theorem leads_delivered {tx : ℕ} {payload : Bytes}
    (matched : (net.clients b).task = .matched tx payload) :
    (machine ρ ω inner).Leads Action.drains net fun t =>
      t.Idle (.responses b) ∧ t.hub = net.hub := by
  have delivered : (net.clients b).deliver tx payload = some { net.clients b with
      attempts := (net.clients b).attempts.modify tx (·.send payload), task := .idle } := by
    simp [Client.deliver, matched]
  have drains : Action.drains (.client b (.deliver tx payload) : Action β ρ ω) := trivial
  exact .single drains (next_client trivial delivered) ⟨by simp [Idle, Receiver.Idle], rfl⟩

theorem leads_looked_up {env : Envelope} (taken : (net.clients b).task = .taken env) :
    (machine ρ ω inner).Leads Action.drains net fun t =>
      t.Idle (.responses b) ∧ t.hub = net.hub := by
  have drains : Action.drains (.client b (.lookup env) : Action β ρ ω) := trivial
  have allows : net.Allows inner (.client b (.lookup env)) := trivial
  cases found : env.correlationId.bind (net.clients b).pending
  case none =>
    have ignored : (net.clients b).lookup env = some { net.clients b with task := .idle } := by
      cases id : env.correlationId <;> simp_all [Client.lookup]
    exact .single drains (next_client allows ignored) ⟨by simp [Idle, Receiver.Idle], rfl⟩
  case some tx =>
    obtain ⟨id, carries, pending⟩ := Option.bind_eq_some_iff.mp found
    let c : Client ρ := { net.clients b with
      pending := Function.update (net.clients b).pending id none, task := .matched tx env.payload }
    have looked : (net.clients b).lookup env = some c := by
      simp [Client.lookup, taken, carries, pending, c]
    have matched : (Function.update net.clients b c b).task = .matched tx env.payload := by
      simp [c]
    exact .step drains (next_client allows looked) <| leads_delivered matched

theorem leads_dispatched {env : Envelope} (taken : (net.servers b).task = .taken env) :
    (machine ρ ω inner).Leads Action.drains net fun t =>
      t.Idle (.requests b) ∧ t.hub = net.hub := by
  let tasks := (net.servers b).tasks ++ (Server.accept (net.servers b).handlers env).toList
  have dispatched :
      (net.servers b).dispatch env = some { net.servers b with tasks, task := .idle } := by
    simp [Server.dispatch, taken, tasks]
  have drains : Action.drains (.server b (.dispatch env) : Action β ρ ω) := trivial
  exact .single drains (next_server trivial dispatched) ⟨by simp [Idle, Receiver.Idle], rfl⟩

-- Between two messages, a receive loop does not wait for anything.
theorem leads_idle (on : ¬net.Off rx) :
    (machine ρ ω inner).Leads Action.drains net fun t => t.Idle rx ∧ t.hub = net.hub := by
  cases rx
  case responses b =>
    cases task : (net.clients b).task
    case starting => exact absurd (.inl task) on
    case stopped  => exact absurd (.inr task) on
    case idle     => exact .here ⟨task, rfl⟩
    case matched  => exact leads_delivered task
    case taken    => exact leads_looked_up task
  case requests b =>
    cases task : (net.servers b).task
    case starting => exact absurd (.inl task) on
    case stopped  => exact absurd (.inr task) on
    case idle     => exact .here ⟨task, rfl⟩
    case taken    => exact leads_dispatched task

theorem recv_next {hub hub' : MemoryHub (Publisher β)} {env : Envelope}
    (received : hub.recv j = some (env, hub')) :
    (hubs β).next? hub (some (.recv j)) = some hub' := by
  simp [Machine.next?, hubs, MemoryHub.machine, MemoryHub.next, received]

theorem next_receive {hub : MemoryHub (Publisher β)} {env : Envelope}
    (owns : net.owners[j]? = some (some rx)) (idle : net.Idle rx)
    (received : net.hub.recv j = some (env, hub)) :
    ∃ net', (machine ρ ω inner).next net (.receive rx j env) = some net' ∧ net'.hub = hub := by
  have allows : net.Allows inner (.receive rx j env) := ⟨owns, by rw [received]; rfl⟩
  have stepped := recv_next received
  cases rx
  case responses b =>
    have taken : (net.clients b).take env = some { net.clients b with task := .taken env } := by
      rw [Client.take, show (net.clients b).task = .idle from idle]
    have taken : (clientFamily ρ inner).next? net.clients (some (b, .take env)) = _ :=
      Machine.family_next?_of taken
    exact ⟨_, next_of allows stepped taken rfl rfl rfl, rfl⟩
  case requests b =>
    have taken : (net.servers b).take env = some { net.servers b with task := .taken env } := by
      rw [Server.take, show (net.servers b).task = .idle from idle]
    have taken : (serverFamily ω inner).next? net.servers (some (b, .take env)) = _ :=
      Machine.family_next?_of taken
    exact ⟨_, next_of allows stepped rfl taken rfl rfl, rfl⟩

theorem kept_of_drains (s : Network β ρ ω) (act : Action β ρ ω) (s' : Network β ρ ω)
    (drains : act.drains) (h : (machine ρ ω inner).Reachable s ∧ Kept net s)
    (hn : (machine ρ ω inner).next s act = some s') :
    (machine ρ ω inner).Reachable s' ∧ Kept net s' :=
  ⟨h.left.next hn, h.right.trans <| (next_step hn).kept drains⟩

theorem leads_ready (r : (machine ρ ω inner).Reachable net)
    (registered : net.Registered inner rx j) :
    (machine ρ ω inner).Leads Action.drains net fun t =>
      Kept net t ∧ t.Idle rx ∧ t.hub = net.hub := by
  have on := on_of_registered r registered
  exact .trans_of kept_of_drains ⟨r, .refl⟩ (leads_idle on) fun t kept idle =>
    .here ⟨kept.right, idle⟩

theorem leads_settled (r : (machine ρ ω inner).Reachable net)
    (registered : net.Registered inner rx j) :
    (machine ρ ω inner).Leads Action.drains net (·.Settled j) := by
  obtain ⟨h, handle, held⟩ := held_of_registered r registered
  induction queue : h.inbox.queue generalizing net h
  case nil =>
    refine (leads_ready r registered).mono fun t ready => ?_
    obtain ⟨kept, idle, hub⟩ := ready
    exact ⟨rx, kept.owners ▸ registered.left, idle, h, hub ▸ handle, held, queue⟩
  case cons env rest ih =>
    refine .trans r (leads_ready r registered) fun t rt ready => ?_
    obtain ⟨kept, idle, hub⟩ := ready
    obtain ⟨inbox, received⟩ := Mailbox.recv_of_queue held queue
    obtain ⟨hl, -⟩ := List.getElem?_eq_some_iff.mp handle
    have received' : t.hub.recv j =
        some (env, { t.hub with handles := t.hub.handles.set j { h with inbox } }) := by
      simp [MemoryHub.recv, hub, handle, received]
    obtain ⟨net', hn, hub'⟩ : ∃ net', (machine ρ ω inner).next t (.receive rx j env) = some net' ∧
        net'.hub = _ := next_receive (kept.registered registered).left idle received'
    have drains : Action.drains (.receive rx j env : Action β ρ ω) := trivial
    have registered' := kept.trans ((next_step hn).kept drains) |>.registered registered
    obtain ⟨-, queue', -, held'⟩ := Mailbox.recv_iff.mp received
    refine .step drains hn <| ih (rt.next hn) registered' { h with inbox } ?_ held' ?_
    · simp [hub', hub, hl]
    · rw [queue] at queue'
      exact (List.cons.inj queue').right.symm

-- The brokers can empty these inboxes by themselves.
theorem leads_drained (r : (machine ρ ω inner).Reachable net) {js : List ℕ}
    (registered : ∀ j ∈ js, ∃ rx, net.Registered inner rx j) :
    (machine ρ ω inner).Leads Action.drains net fun t => ∀ j ∈ js, t.Settled j := by
  induction js
  case nil => exact .here <| by simp
  case cons j js ih =>
    obtain ⟨rx, first⟩ := registered j <| List.mem_cons_self ..
    have rest := ih fun i hi => registered i <| List.mem_cons_of_mem _ hi
    refine .trans_of kept_of_drains ⟨r, .refl⟩ rest fun t kept settled => ?_
    obtain ⟨rt, kept⟩ := kept
    let I (s : Network β ρ ω) := (machine ρ ω inner).Reachable s ∧ ∀ i ∈ js, s.Settled i
    have keeps (s : Network β ρ ω) (act : Action β ρ ω) (s' : Network β ρ ω) (drains : act.drains)
        (h : I s) (hn : (machine ρ ω inner).next s act = some s') : I s' :=
      ⟨h.left.next hn, fun i hi => (next_step hn).settled h.left drains <| h.right i hi⟩
    have last := leads_settled rt <| kept.registered first
    exact .trans_of keeps ⟨rt, settled⟩ last fun u kept hj =>
      .here <| List.forall_mem_cons.mpr ⟨hj, kept.right⟩

end Network

end MomRpc
