import Mathlib.Data.Fintype.EquivFin
import MomRpc.Broker.Theorems.Draining

namespace MomRpc

namespace MemoryHub

variable {ι : Type} {hub : MemoryHub ι} {p : ι} {env : Envelope} {senders : List ℕ} {j : ℕ}

-- The inbox has nothing but this envelope.
def Only (hub : MemoryHub ι) (env : Envelope) (j : ℕ) : Prop :=
  ∃ h, hub.handles[j]? = some h ∧ h.inbox.held ∧ h.inbox.queue = [env]

-- What a publish that sends to these inboxes leaves as it was.
structure Apart (hub : MemoryHub ι) (p : ι) (senders : List ℕ) (hub' : MemoryHub ι) : Prop where
  subscriptions : hub'.subscriptions = hub.subscriptions
  publishes     : ∀ q, q ≠ p → hub'.publishes q = hub.publishes q
  handles       : ∀ i, i ∉ senders → hub'.handles[i]? = hub.handles[i]?

variable [DecidableEq ι]

theorem send_empty (sending : hub.publishes p = .sending env (j :: senders)) (empty : hub.Empty j) :
    ∃ hub', (machine ι).next hub (.send p j) = some hub' ∧
      hub'.publishes p = .sending env senders ∧ hub'.Only env j ∧ hub.Apart p [j] hub' := by
  obtain ⟨h, handle, held, queue⟩ := empty
  have room : h.inbox.HasRoom := by simp [Mailbox.HasRoom, queue]
  cases hs : h.inbox.trySend env
  case none => exact absurd room <| Mailbox.trySend_eq_none_iff.mp hs held
  case some inbox =>
    obtain ⟨-, -, queue', -, held'⟩ := Mailbox.trySend_iff.mp hs
    obtain ⟨hl, -⟩ := List.getElem?_eq_some_iff.mp handle
    refine ⟨_, by simp [machine, next, send, sending, deliver, handle, held, hs]; rfl, ?_⟩
    refine ⟨by simp, ⟨_, List.getElem?_set_self hl, held', by simp [queue', queue]⟩, rfl, ?_, ?_⟩
    · intro q hq
      simp [hq]
    · intro i hi
      have : j ≠ i := by simpa [eq_comm] using hi
      simp [this]

theorem send_all (sending : hub.publishes p = .sending env senders) (nodup : senders.Nodup)
    (empty : ∀ j ∈ senders, hub.Empty j) :
    ∃ hub', (machine ι).exec hub (senders.map (.send p)) = some hub' ∧
      hub'.publishes p = .sending env [] ∧ (∀ j ∈ senders, hub'.Only env j) ∧
        hub.Apart p senders hub' := by
  induction senders generalizing hub
  case nil => exact ⟨hub, rfl, sending, by simp, rfl, fun _ _ => rfl, fun _ _ => rfl⟩
  case cons j senders ih =>
    obtain ⟨hj, nodup⟩ := List.nodup_cons.mp nodup
    obtain ⟨hub₁, sent, sending₁, only, apart⟩ := send_empty sending <| empty j <| by simp
    have empty₁ i (hi : i ∈ senders) : hub₁.Empty i :=
      (empty i <| List.mem_cons_of_mem _ hi).congr <| apart.handles i <| by
        simpa using fun he : i = j => hj <| he ▸ hi
    obtain ⟨hub', all, sending', only', apart'⟩ := ih sending₁ nodup empty₁
    refine ⟨hub', by simp [sent, all], sending', ?_, ?_, ?_, ?_⟩
    · intro i hi
      rcases List.mem_cons.mp hi with rfl | hi
      · obtain ⟨h, handle, kept⟩ := only
        exact ⟨h, (apart'.handles i hj).trans handle, kept⟩
      · exact only' i hi
    · exact apart'.subscriptions.trans apart.subscriptions
    · exact fun q hq => (apart'.publishes q hq).trans <| apart.publishes q hq
    · intro i hi
      simp only [List.mem_cons, not_or] at hi
      exact (apart'.handles i hi.right).trans <| apart.handles i <| by simpa using hi.left

-- How a message goes to the inboxes on its topic, and out of one of them.
structure Broadcast (hub : MemoryHub ι) (p : ι) (env : Envelope) (j : ℕ)
    (hub₁ hub₂ hub₃ hub₄ : MemoryHub ι) : Prop where
  publish : (machine ι).next hub (.publish p env) = some hub₁
  send    : (machine ι).exec hub₁
    (.acquire p :: (hub.subscriptions ⟨env.address.name⟩).map (.send p)) = some hub₂
  release : (machine ι).next hub₂ (.release p) = some hub₃
  recv    : hub₃.recv j = some (env, hub₄)
  apart   : hub.Apart p (hub.subscriptions ⟨env.address.name⟩) hub₄

theorem broadcast (idle : hub.publishes p = .idle)
    (nodup : (hub.subscriptions ⟨env.address.name⟩).Nodup)
    (empty : ∀ j ∈ hub.subscriptions ⟨env.address.name⟩, hub.Empty j)
    (hj : j ∈ hub.subscriptions ⟨env.address.name⟩) :
    ∃ hub₁ hub₂ hub₃ hub₄, hub.Broadcast p env j hub₁ hub₂ hub₃ hub₄ := by
  let locking := hub.set p (.locking env)
  let senders := hub.subscriptions ⟨env.address.name⟩
  let acquired := { locking.set p (.sending env senders) with readers := p :: hub.readers }
  have published : (machine ι).next hub (.publish p env) = some locking := by
    simp [machine, next, publish, idle, locking]
  have locked : (machine ι).next locking (.acquire p) = some acquired := by
    simp only [machine, next, acquire, locking, set_publishes, ↓reduceIte]
    rfl
  have acquiring : acquired.publishes p = .sending env senders := by simp [acquired]
  obtain ⟨hub₂, sent, sending, only, apart⟩ := send_all acquiring nodup empty
  obtain ⟨h, handle, held, queue⟩ := only j hj
  obtain ⟨inbox, received⟩ := Mailbox.recv_of_queue held queue
  refine ⟨locking, hub₂, { hub₂.set p (.done env) with readers := hub₂.readers.erase p },
    { hub₂.set p (.done env) with
      readers := hub₂.readers.erase p
      handles := hub₂.handles.set j { h with inbox } }, published, ?_, ?_, ?_, ?_, ?_, ?_⟩
  · simpa [locked] using sent
  · simp [machine, next, release, sending]
  · simp [recv, handle, received]
  · exact apart.subscriptions
  · intro q hq
    simpa [hq, acquired, locking] using apart.publishes q hq
  · intro i hi
    have ne : j ≠ i := fun he => hi <| he ▸ hj
    simpa [ne, acquired, locking] using apart.handles i hi

-- Two messages on different topics, one after the other.
theorem broadcast_twice {q : ι} {env' : Envelope} {j' : ℕ} (r : (machine ι).Reachable hub)
    (other : q ≠ p) (idle : hub.publishes p = .idle) (idle' : hub.publishes q = .idle)
    (topics : env.address.name ≠ env'.address.name)
    (empty : ∀ j ∈ hub.subscriptions ⟨env.address.name⟩, hub.Empty j)
    (empty' : ∀ j ∈ hub.subscriptions ⟨env'.address.name⟩, hub.Empty j)
    (hj : j ∈ hub.subscriptions ⟨env.address.name⟩)
    (hj' : j' ∈ hub.subscriptions ⟨env'.address.name⟩) :
    ∃ hub₁ hub₂ hub₃ hub₄ hub₅ hub₆ hub₇ hub₈, hub.Broadcast p env j hub₁ hub₂ hub₃ hub₄ ∧
      hub₄.Broadcast q env' j' hub₅ hub₆ hub₇ hub₈ := by
  obtain ⟨hub₁, hub₂, hub₃, hub₄, first⟩ := broadcast idle (subscriptions_nodup r) empty hj
  obtain ⟨same, publishes, handles⟩ := first.apart
  have idle₄ : hub₄.publishes q = .idle := (publishes q other).trans idle'
  have nodup₄ : (hub₄.subscriptions ⟨env'.address.name⟩).Nodup := same ▸ subscriptions_nodup r
  have empty₄ i (hi : i ∈ hub₄.subscriptions ⟨env'.address.name⟩) : hub₄.Empty i := by
    rw [same] at hi
    refine (empty' i hi).congr <| handles i fun hi' => ?_
    have topic := (topic_of_mem r hi').symm.trans <| topic_of_mem r hi
    exact topics <| congrArg Subscription.name <| Option.some.inj topic
  obtain ⟨hub₅, hub₆, hub₇, hub₈, second⟩ := broadcast idle₄ nodup₄ empty₄ (same ▸ hj')
  exact ⟨hub₁, hub₂, hub₃, hub₄, hub₅, hub₆, hub₇, hub₈, first, second⟩

end MemoryHub

-- Nothing is retried after a response.
theorem Call.resolve_payload {ρ : Type} {inner : Inner} {call : Call ρ} {hash : UInt64}
    {payload : Bytes} :
    (call.resolve inner hash (.ok payload)).phase = .returned (call.fromSlice payload) := by
  unfold resolve
  split <;> rfl

namespace Client

variable {ρ : Type} {inner : Inner} {c : Client ρ} {k : ℕ} {call : Call ρ} {id : String}
  {env : Envelope}

-- How an attempt goes whose response arrives.
structure Completes (inner : Inner) (c : Client ρ) (k : ℕ) (id : String) (env : Envelope)
    (c₁ c₂ c₃ c₄ c₅ c₆ : Client ρ) : Prop where
  attempt   : c.attempt inner k id = some c₁
  published : c₁.published inner c.attempts.length (.ok ()) 0 = some c₂
  take      : c₂.take env = some c₃
  lookup    : c₃.lookup env = some c₄
  deliver   : c₄.deliver c.attempts.length env.payload = some c₅
  respond   : c₅.respond inner c.attempts.length = some c₆

theorem completes (inner : Inner) (idle : c.task = .idle) (handle : c.calls[k]? = some call)
    (ready : call.phase = .ready) (fresh : ∀ a ∈ c.attempts, a.correlationId ≠ id)
    (carries : env.correlationId = some id) :
    ∃ c₁ c₂ c₃ c₄ c₅ c₆, c.Completes inner k id env c₁ c₂ c₃ c₄ c₅ c₆ ∧
      ∃ call', c₆.calls[k]? = some call' ∧
        call'.phase = .returned (call.fromSlice env.payload) := by
  let i := c.attempts.length
  let a : Attempt := {
    call := k, correlationId := id
    env  := inner.request call.targetNodeId call.method call.reqBytes id }
  let c₁ : Client ρ := { c with
    pending  := Function.update c.pending id (some i)
    attempts := c.attempts ++ [a]
    calls    := c.calls.set k { call with phase := .attempting i } }
  let c₂ : Client ρ := { c₁ with attempts := c.attempts ++ [{ a with phase := .waiting }] }
  let c₃ : Client ρ := { c₂ with task := .taken env }
  let c₄ : Client ρ := { c₃ with
    pending := Function.update c₃.pending id none, task := .matched i env.payload }
  let a' : Attempt := { a with phase := .waiting, response := some env.payload }
  let c₅ : Client ρ := { c₄ with attempts := c.attempts ++ [a'], task := .idle }
  let c₆ := c₅.conclude inner i a' 0 (.ok env.payload)
  refine ⟨c₁, c₂, c₃, c₄, c₅, c₆, ⟨?_, ?_, ?_, ?_, ?_, ?_⟩, ?_⟩
  · simp [attempt, handle, ready, c₁, a, i]
    exact fresh
  · simp [published, c₁, c₂, a]
  · simp [take, c₂, c₁, c₃, idle]
  · simp [lookup, c₃, c₂, c₁, c₄, carries]
  · have waiting : c₄.attempts[i]? = some { a with phase := .waiting } := by simp [c₄, c₃, c₂, i]
    have answered : c₄.attempts.modify i (·.send env.payload) = c.attempts ++ [a'] := by
      rw [List.modify_eq_set_of_getElem? waiting]
      simp [c₄, c₃, c₂, i, a', Attempt.send]
    simp [deliver, c₄, c₅, i, ← answered]
  · simp [respond, c₅, i, a', c₆]
  · obtain ⟨hk, _⟩ := List.getElem?_eq_some_iff.mp handle
    let call' : Call ρ := { call with phase := .attempting i }
    refine ⟨call'.resolve inner 0 (.ok env.payload), ?_, Call.resolve_payload⟩
    simp [c₆, conclude, c₅, c₄, c₃, c₂, c₁, a', a, hk, call']

end Client

namespace Server

variable {ω : Type} {s : Server ω} {env answer : Envelope} {world : ω}

-- How a request is answered.
structure Completes (s : Server ω) (env : Envelope) (world : ω) (answer : Envelope)
    (s₁ s₂ s₃ s₄ : Server ω) : Prop where
  take      : s.take env = some s₁
  dispatch  : s₁.dispatch env = some s₂
  handled   : s₂.handled s.tasks.length world (some answer) = some s₃
  published : s₃.published s.tasks.length = some s₄

theorem completes {task : HandlerTask ω} (idle : s.task = .idle)
    (accepted : accept s.handlers env = some task) (calling : task.phase = .calling)
    (answered : task.answer (task.handler.call task.payload world) = some answer) :
    ∃ s₁ s₂ s₃ s₄, s.Completes env world answer s₁ s₂ s₃ s₄ := by
  let responded : HandlerTask ω := { task with phase := .responded answer false }
  let s₁ : Server ω := { s with task := .taken env }
  let s₂ : Server ω := { s with tasks := s.tasks ++ [task] }
  let s₃ : Server ω := { s with tasks := s.tasks ++ [responded] }
  let s₄ : Server ω := { s with
    tasks := s.tasks ++ [{ responded with phase := .responded answer true }] }
  refine ⟨s₁, s₂, s₃, s₄, ?_, ?_, ?_, ?_⟩
  · simp [take, idle, s₁]
  · simp [dispatch, s₁, s₂, accepted, idle]
  · simp [handled, s₂, s₃, calling, answered, responded]
  · simp [published, s₃, s₄, responded]

end Server

namespace Network

variable {β ρ ω : Type} [DecidableEq β] {inner : β → Inner} {net net' : Network β ρ ω}
  {act : Action β ρ ω} {rx : Receiver β} {b b' : β} {j : ℕ}

-- The steps in which nothing fails, times out, is dropped or closed, and which no one takes but
-- brokers.
def Action.cooperates : Action β ρ ω → Prop
  | .hub (.acquire _) | .hub (.send _ _) => True
  | .client _ (.lookup _) | .client _ (.deliver _ _) | .client _ (.respond _) => True
  | .server _ (.dispatch _) => True
  | .receive _ _ _ | .attempt _ _ _ _ _ | .requested _ _ _ => True
  | .handled _ _ _ (some _) | .responded _ _ => True
  | _ => False

-- The network with these states of the hub and of two brokers.
def put (net : Network β ρ ω) (b b' : β) (hub : MemoryHub (Publisher β)) (c : Client ρ)
    (s : Server ω) : Network β ρ ω :=
  { net with
    hub
    clients := Function.update net.clients b c
    servers := Function.update net.servers b' s }

variable {hub hub' : MemoryHub (Publisher β)} {c c' : Client ρ} {s s' : Server ω}

theorem next_put {x : Option (Client.Action ρ)} {y : Option (Server.Action ω)}
    (allows : (net.put b b' hub c s).Allows inner act) (client : act.client? = x.map (b, ·))
    (server : act.server? = y.map (b', ·))
    (stepped : (hubs β).next? hub (act.hub? inner) = some hub')
    (client' : (Client.machine ρ (inner b)).next? c x = some c')
    (server' : (Server.machine ω (inner b')).next? s y = some s')
    (owner : act.owner? = none) (id : act.correlationId? = none) :
    (machine ρ ω inner).next (net.put b b' hub c s) act = some (net.put b b' hub' c' s') := by
  refine next_of allows stepped ?_ ?_ owner id
  · exact client ▸ Machine.family_next?_update client'
  · exact server ▸ Machine.family_next?_update server'

theorem exec_put {p : Publisher β} {as : List (MemoryHub.Action (Publisher β))}
    (own : ∀ a ∈ as, a = .acquire p ∨ ∃ j, a = .send p j)
    (he : (hubs β).exec hub as = some hub') :
    (machine ρ ω inner).exec (net.put b b' hub c s) (as.map .hub) =
      some (net.put b b' hub' c s) := by
  induction as generalizing hub
  case nil => cases he; rfl
  case cons a as ih =>
    obtain ⟨hub₁, stepped, he⟩ := Option.bind_eq_some_iff.mp he
    obtain ⟨first, own⟩ := List.forall_mem_cons.mp own
    have hn : (machine ρ ω inner).next (net.put b b' hub c s) (.hub a) =
        some (net.put b b' hub₁ c s) := by
      rcases first with rfl | ⟨j, rfl⟩ <;>
        exact next_put (x := none) (y := none) trivial rfl rfl stepped rfl rfl rfl rfl
    exact Option.bind_eq_some_iff.mpr ⟨_, hn, ih own he⟩

theorem idle_of_unsent {p : Publisher β} (r : (machine ρ ω inner).Reachable net)
    (unsent : ∀ env, ¬net.Sent p env) : net.hub.publishes p = .idle := by
  cases progress : net.hub.publishes p
  case idle => rfl
  all_goals exact absurd (sent_of_publish r <| by rw [progress]; rfl) <| unsent _

theorem leads_sent {p : Publisher β} {js : List ℕ} {P : Network β ρ ω → Prop}
    (sent : (hubs β).exec hub (.acquire p :: js.map (.send p)) = some hub')
    (h : (machine ρ ω inner).Leads Action.cooperates (net.put b b' hub' c s) P) :
    (machine ρ ω inner).Leads Action.cooperates (net.put b b' hub c s) P := by
  refine .exec ?_ (exec_put (p := p) ?_ sent) h
  · simp [Action.cooperates]
  · simp

variable {j₁ j₂ k : ℕ} {id : String} {request answer : Envelope} {world : ω}
  {hub₁ hub₂ hub₃ hub₄ hub₅ hub₆ hub₇ hub₈ : MemoryHub (Publisher β)}
  {c₁ c₂ c₃ c₄ c₅ c₆ : Client ρ} {s₁ s₂ s₃ s₄ : Server ω}

-- The brokers take their steps in turns, the hub in between.
theorem leads_completed
    (allows : net.Allows inner (.attempt b k id (net.clients b).attempts.length request))
    (client : (net.clients b).Completes (inner b) k id answer c₁ c₂ c₃ c₄ c₅ c₆)
    (server : (net.servers b').Completes request world answer s₁ s₂ s₃ s₄)
    (first : net.hub.Broadcast (.request b (net.clients b).attempts.length) request j₁
      hub₁ hub₂ hub₃ hub₄)
    (second : hub₄.Broadcast (.response b' (net.servers b').tasks.length) answer j₂
      hub₅ hub₆ hub₇ hub₈)
    (requests : net.owners[j₁]? = some (some (.requests b')))
    (responses : net.owners[j₂]? = some (some (.responses b))) :
    (machine ρ ω inner).Leads Action.cooperates net fun t => t.clients b = c₆ := by
  let i := (net.clients b).attempts.length
  let n := (net.servers b').tasks.length
  let s := net.servers b'
  let net' : Network β ρ ω := { net with generated := net.generated ++ [id] }
  have attempted : (machine ρ ω inner).next net (.attempt b k id i request) =
      some (net'.put b b' hub₁ c₁ s) := by
    have clients : (clientFamily ρ inner).next net.clients (b, .attempt k id) = some _ :=
      Machine.family_next?_of client.attempt
    have published : (hubs β).next net.hub (.publish (.request b i) request) = some hub₁ :=
      first.publish
    simp [machine, next, i, allows, Action.hub?, Action.client?, published, clients,
      Machine.next?, Action.server?, Action.owner?, Action.correlationId?, put, net', s]
  have requested : (machine ρ ω inner).next (net'.put b b' hub₂ c₁ s) (.requested b i 0) =
      some (net'.put b b' hub₃ c₂ s) :=
    next_put (x := some _) (y := none) trivial rfl rfl first.release client.published rfl rfl rfl
  have received : (machine ρ ω inner).next (net'.put b b' hub₃ c₂ s)
      (.receive (.requests b') j₁ request) = some (net'.put b b' hub₄ c₂ s₁) :=
    next_put (x := none) (y := some _) ⟨requests, by simp [put, first.recv]⟩ rfl rfl
      (recv_next first.recv) rfl server.take rfl rfl
  have dispatched : (machine ρ ω inner).next (net'.put b b' hub₄ c₂ s₁)
      (.server b' (.dispatch request)) = some (net'.put b b' hub₄ c₂ s₂) :=
    next_put (x := none) (y := some _) trivial rfl rfl rfl rfl server.dispatch rfl rfl
  have handled : (machine ρ ω inner).next (net'.put b b' hub₄ c₂ s₂)
      (.handled b' n world (some answer)) = some (net'.put b b' hub₅ c₂ s₃) :=
    next_put (x := none) (y := some _) trivial rfl rfl second.publish rfl server.handled rfl rfl
  have responded : (machine ρ ω inner).next (net'.put b b' hub₆ c₂ s₃) (.responded b' n) =
      some (net'.put b b' hub₇ c₂ s₄) :=
    next_put (x := none) (y := some _) trivial rfl rfl second.release rfl server.published rfl rfl
  have received' : (machine ρ ω inner).next (net'.put b b' hub₇ c₂ s₄)
      (.receive (.responses b) j₂ answer) = some (net'.put b b' hub₈ c₃ s₄) :=
    next_put (x := some _) (y := none) ⟨responses, by simp [put, second.recv]⟩ rfl rfl
      (recv_next second.recv) client.take rfl rfl rfl
  have looked : (machine ρ ω inner).next (net'.put b b' hub₈ c₃ s₄)
      (.client b (.lookup answer)) = some (net'.put b b' hub₈ c₄ s₄) :=
    next_put (x := some _) (y := none) trivial rfl rfl rfl client.lookup rfl rfl rfl
  have delivered : (machine ρ ω inner).next (net'.put b b' hub₈ c₄ s₄)
      (.client b (.deliver i answer.payload)) = some (net'.put b b' hub₈ c₅ s₄) :=
    next_put (x := some _) (y := none) trivial rfl rfl rfl client.deliver rfl rfl rfl
  have returned : (machine ρ ω inner).next (net'.put b b' hub₈ c₅ s₄)
      (.client b (.respond i)) = some (net'.put b b' hub₈ c₆ s₄) :=
    next_put (x := some _) (y := none) trivial rfl rfl rfl client.respond rfl rfl rfl
  exact .step (by trivial) attempted <| leads_sent first.send <|
    .step (by trivial) requested <| .step (by trivial) received <|
    .step (by trivial) dispatched <| .step (by trivial) handled <| leads_sent second.send <|
    .step (by trivial) responded <| .step (by trivial) received' <|
    .step (by trivial) looked <| .step (by trivial) delivered <|
    .single (by trivial) returned <| Function.update_self ..

-- From the attempt of a call on, when nothing is left in the inboxes concerned.
theorem leads_answered {call : Call ρ} {handler : HandlerFn ω} {payload : Bytes}
    (r : (machine ρ ω inner).Reachable net)
    (handle : (net.clients b).calls[k]? = some call) (ready : call.phase = .ready)
    (target : (inner b').nodeId = call.targetNodeId)
    (known : (net.servers b').handlers call.method = some handler)
    (answers : handler.call call.reqBytes world = .returned (.ok payload))
    (requests : net.Registered inner (.requests b') j₁)
    (responses : net.Registered inner (.responses b) j₂)
    (settled : ∀ rx ∈ [.requests b', .responses b],
      ∀ j ∈ net.hub.subscriptions (Receiver.subscription inner rx), net.Settled j) :
    (machine ρ ω inner).Leads Action.cooperates net fun t =>
      ∃ call', (t.clients b).calls[k]? = some call' ∧
        call'.phase = .returned (call.fromSlice payload) := by
  obtain ⟨id, unused⟩ : ∃ id, id ∉ net.generated := by
    obtain ⟨id, h⟩ := Infinite.exists_notMem_finset net.generated.toFinset
    exact ⟨id, mt List.mem_toFinset.mpr h⟩
  have fresh : ∀ a ∈ (net.clients b).attempts, a.correlationId ≠ id := by
    intro a ha he
    obtain ⟨i, hi⟩ := List.mem_iff_getElem?.mp ha
    exact unused <| he ▸ correlationId_generated r hi
  let request := (inner b).request call.targetNodeId call.method call.reqBytes id
  let task : HandlerTask ω := {
    handler, payload := call.reqBytes, replyTo := ⟨responsesName (inner b).nodeId⟩
    correlationId := id }
  let answer := task.response payload
  -- Both loops await a message, and nothing is in the inboxes.
  have loop {rx : Receiver β} {j} (mem : rx ∈ [.requests b', .responses b])
      (registered : net.Registered inner rx j) : net.Idle rx := by
    obtain ⟨rx', owns, idle, _⟩ := settled rx mem j registered.right
    cases registered.left.symm.trans owns
    exact idle
  have empty {rx : Receiver β} (mem : rx ∈ [.requests b', .responses b]) (j)
      (hj : j ∈ net.hub.subscriptions (rx.subscription inner)) : net.hub.Empty j := by
    obtain ⟨_, _, _, empty⟩ := settled rx mem j hj
    exact empty
  have name₁ : (Receiver.requests b').subscription inner = ⟨request.address.name⟩ := by
    simp [Receiver.subscription, target, request, Inner.request, Envelope.request]
  have name₂ : (Receiver.responses b).subscription inner = ⟨answer.address.name⟩ := rfl
  have allows :
      net.Allows inner (.attempt b k id (net.clients b).attempts.length request) :=
    ⟨unused, rfl, by simp [handle, request]⟩
  have carries : answer.correlationId = some id := rfl
  obtain ⟨c₁, c₂, c₃, c₄, c₅, c₆, client, returned⟩ :=
    Client.completes (inner b) (loop (by simp) responses) handle ready fresh carries
  have accepted : Server.accept (net.servers b').handlers request = some task := by
    simp [Server.accept, request, Inner.request, Envelope.request, known, task]
  have answered : task.answer (task.handler.call task.payload world) = some answer := by
    simp [HandlerTask.answer, task, answers, answer]
  obtain ⟨s₁, s₂, s₃, s₄, server⟩ :=
    Server.completes (loop (by simp) requests) accepted rfl answered
  -- Neither message has been published before.
  have idle₁ : net.hub.publishes (.request b (net.clients b).attempts.length) = .idle := by
    refine idle_of_unsent r fun env sent => ?_
    obtain ⟨_, ha, _⟩ := sent
    simp at ha
  have idle₂ : net.hub.publishes (.response b' (net.servers b').tasks.length) = .idle := by
    refine idle_of_unsent r fun env sent => ?_
    obtain ⟨_, ht, _⟩ := sent
    simp at ht
  obtain ⟨hub₁, hub₂, hub₃, hub₄, hub₅, hub₆, hub₇, hub₈, first, second⟩ :=
    MemoryHub.broadcast_twice (hub_reachable r) (by simp) idle₁ idle₂
      requestsName_ne_responsesName (name₁ ▸ empty (by simp)) (name₂ ▸ empty (by simp))
      (name₁ ▸ requests.right) (name₂ ▸ responses.right)
  refine leads_completed allows client server first second requests.left responses.left
    |>.mono fun t ended => ?_
  exact ended ▸ returned

-- A sender in the map of the hub, if a broker has subscribed it.
theorem registered_of_mem {rx' : Receiver β} (r : (machine ρ ω inner).Reachable net)
    (owns : net.owners[j]? = some (some rx'))
    (mem : j ∈ net.hub.subscriptions (rx.subscription inner)) : net.Registered inner rx' j := by
  have topic := MemoryHub.topic_of_mem (hub_reachable r) mem
  obtain ⟨as, run⟩ := r
  cases inbox run rx'
  case unsubscribed unowned _ => exact absurd (List.mem_of_getElem? owns) unowned
  case subscribed unique handle subscription _ =>
    obtain rfl := (unique j).mp owns
    have same : rx'.subscription inner = rx.subscription inner := by
      simpa [MemoryHub.topic, handle, subscription] using topic
    exact ⟨owns, same ▸ mem⟩

omit [DecidableEq β] in
theorem cooperates_of_drains (drains : act.drains) : act.cooperates := by
  cases act <;> first | exact drains | exact trivial | skip
  case hub | handled => exact drains.elim
  case client c => cases c <;> first | exact drains.elim | exact trivial
  case server s => cases s <;> first | exact drains.elim | exact trivial

-- A call which is to be attempted, to a broker that knows the method, can still be answered by the
-- brokers alone, whatever has gone wrong before and whichever publishes are blocked, as long as no
-- `subscribe` or `close` waits for the lock (it would go first). No one else may have subscribed to
-- their addresses: an inbox that is never read would block who sends to it.
theorem call_can_be_answered {k : ℕ} {call : Call ρ} {handler : HandlerFn ω} {payload : Bytes}
    {world : ω} (r : (machine ρ ω inner).Reachable net)
    (handle : (net.clients b).calls[k]? = some call) (ready : call.phase = .ready)
    (target : (inner b').nodeId = call.targetNodeId)
    (known : (net.servers b').handlers call.method = some handler)
    (answers : handler.call call.reqBytes world = .returned (.ok payload))
    (requests : ∃ j, net.Registered inner (.requests b') j)
    (responses : ∃ j, net.Registered inner (.responses b) j)
    (brokers : ∀ rx ∈ [.requests b', .responses b],
      ∀ j ∈ net.hub.subscriptions (Receiver.subscription inner rx),
        ∃ rx', net.owners[j]? = some (some rx')) :
    (machine ρ ω inner).Leads Action.cooperates net fun t =>
      ∃ call', (t.clients b).calls[k]? = some call' ∧
        call'.phase = .returned (call.fromSlice payload) := by
  obtain ⟨_, requests⟩ := requests
  obtain ⟨_, responses⟩ := responses
  let js := [.requests b', .responses b].flatMap fun rx =>
    net.hub.subscriptions (Receiver.subscription inner rx)
  have registered j (hj : j ∈ js) : ∃ rx, net.Registered inner rx j := by
    obtain ⟨rx, mem, hj⟩ := List.mem_flatMap.mp hj
    obtain ⟨rx', owns⟩ := brokers rx mem j hj
    exact ⟨rx', registered_of_mem r owns hj⟩
  have drained : (machine ρ ω inner).Leads Action.drains net fun t =>
      Kept net t ∧ ∀ j ∈ js, t.Settled j :=
    .trans_of kept_of_drains ⟨r, .refl⟩ (leads_drained r registered) fun t kept settled =>
      .here ⟨kept.right, settled⟩
  refine .trans r (drained.weaken fun _ => cooperates_of_drains) fun t rt drained => ?_
  obtain ⟨kept, settled⟩ := drained
  refine leads_answered rt (kept.calls b ▸ handle) ready target (kept.handlers b' ▸ known) answers
    (kept.registered requests) (kept.registered responses) fun rx mem j hj => settled j ?_
  exact List.mem_flatMap.mpr ⟨rx, mem, kept.subscriptions ▸ hj⟩

theorem call_can_be_answered_lone :
    ∃ net, (machine Bytes Unit loneBroker).Run (loneRegister :: loneRequest.take 3) net ∧
      (machine Bytes Unit loneBroker).Leads Action.cooperates net fun t =>
        ∃ call, (t.clients ()).calls[0]? = some call ∧ call.phase = .returned (.ok [1]) := by
  have run : (machine Bytes Unit loneBroker).Run (loneRegister :: loneRequest.take 3) _ :=
    Machine.Run.of_isSome rfl
  let call : Call Bytes := { loneCall with phase := .ready }
  have answers : loneEcho.call call.reqBytes () = .returned (.ok [1]) := rfl
  refine ⟨_, run, call_can_be_answered run.reachable (rfl : _ = some call) rfl rfl rfl answers
    ⟨1, rfl, List.mem_singleton_self 1⟩ ⟨0, rfl, List.mem_singleton_self 0⟩ fun rx _ j hj => ?_⟩
  cases rx
  case requests =>
    obtain rfl : j = 1 := List.mem_singleton.mp hj
    exact ⟨_, rfl⟩
  case responses =>
    obtain rfl : j = 0 := List.mem_singleton.mp hj
    exact ⟨_, rfl⟩

end Network

end MomRpc
