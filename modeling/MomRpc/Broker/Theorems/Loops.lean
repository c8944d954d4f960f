import MomRpc.Broker.Network
import MomRpc.Broker.Theorems.Dispatch
import MomRpc.Broker.Theorems.Release

namespace MomRpc

-- How many steps the receive loop has still to take, apart from what is in its inbox.
def ClientTask.left : ClientTask → ℕ
  | .stopped          => 0
  | .starting | .idle => 1
  | .matched _ _      => 2
  | .taken _          => 3

def ServerTask.left : ServerTask → ℕ
  | .stopped          => 0
  | .starting | .idle => 1
  | .taken _          => 3

namespace Client

variable {ρ : Type} {inner : Inner} {c c' : Client ρ} {act : Action ρ}

-- What the receive loop does to an envelope that it has taken.
def Action.serves : Action ρ → Bool
  | .lookup _ | .deliver _ _ => true
  | _                        => false

def Action.loops : Action ρ → Bool
  | .take _ | .inboxClosed => true
  | act                    => act.serves

theorem Action.loops_of_serves (serves : act.serves) : act.loops := by
  cases act <;> first | rfl | cases serves

theorem Step.left_le (st : Step inner c act c') :
    (if act.loops then 1 else 0) + c'.task.left ≤
      c.task.left + 3 * (take? act).toList.length := by
  cases st
  case ended ends => cases ends <;> exact Nat.le_of_eq <| Nat.zero_add _
  case subscribed starting      => simp [Action.loops, Action.serves, ClientTask.left, starting]
  case subscribeFailed starting => simp [Action.loops, Action.serves, ClientTask.left]
  case take idle                => simp [Action.loops, take?, ClientTask.left, idle]
  case inboxClosed idle         => simp [Action.loops, ClientTask.left, idle]
  case ignore taken _           => simp +arith [Action.loops, Action.serves, ClientTask.left, taken]
  case lookup taken _ _         => simp [Action.loops, Action.serves, ClientTask.left, taken]
  case deliver matched          => simp [Action.loops, Action.serves, ClientTask.left, matched]
  all_goals exact Nat.le_of_eq <| Nat.zero_add _

theorem Step.closed (st : Step inner c .inboxClosed c') : c'.task = .stopped := by
  cases st
  case ended ends  => cases ends
  case inboxClosed => rfl

-- The receive loop runs from when it has subscribed.
theorem Step.starts (st : Step inner c act c') (on : c'.task ≠ .starting ∧ c'.task ≠ .stopped) :
    (c.task ≠ .starting ∧ c.task ≠ .stopped) ∨ act = .subscribed := by
  cases st <;> first | exact .inr rfl | simp_all [conclude]

theorem init_off : ¬((init inner : Client ρ).task ≠ .starting ∧
    (init inner : Client ρ).task ≠ .stopped) := by
  cases mode : inner.mode.requests <;> simp [init, mode]

-- With an envelope in hand, it does not wait for anything.
theorem exists_serves (inner : Inner) (started : c.task ≠ .starting) (busy : c.task ≠ .idle)
    (on : c.task ≠ .stopped) : ∃ act c', Action.serves act ∧ next inner c act = some c' := by
  cases task : c.task
  case starting => exact absurd task started
  case idle     => exact absurd task busy
  case stopped  => exact absurd task on
  case matched tx payload => exact ⟨.deliver tx payload, _, rfl, by simp [next, deliver, task]; rfl⟩
  case taken env =>
    refine ⟨.lookup env, ?_⟩
    cases id : env.correlationId
    case none => exact ⟨_, rfl, by simp [next, lookup, task, id]; rfl⟩
    case some correlationId =>
      cases pending : c.pending correlationId
      case none   => exact ⟨_, rfl, by simp [next, lookup, task, id, pending]; rfl⟩
      case some _ => exact ⟨_, rfl, by simp [next, lookup, task, id, pending]; rfl⟩

end Client

namespace Server

variable {ω : Type} {inner : Inner} {s s' : Server ω} {act : Action ω}

def Action.serves : Action ω → Bool
  | .dispatch _ => true
  | _           => false

def Action.loops : Action ω → Bool
  | .take _ | .inboxClosed => true
  | act                    => act.serves

theorem Action.loops_of_serves (serves : act.serves) : act.loops := by
  cases act <;> first | rfl | cases serves

theorem Step.left_le (st : Step inner s act s') :
    (if act.loops then 1 else 0) + s'.task.left ≤
      s.task.left + 3 * (take? act).toList.length := by
  cases st
  case subscribed starting      => simp [Action.loops, Action.serves, ServerTask.left, starting]
  case subscribeFailed starting => simp [Action.loops, Action.serves, ServerTask.left]
  case take idle                => simp [Action.loops, take?, ServerTask.left, idle]
  case inboxClosed idle         => simp [Action.loops, ServerTask.left, idle]
  case dispatch taken           => simp +arith [Action.loops, Action.serves, ServerTask.left, taken]
  all_goals exact Nat.le_of_eq <| Nat.zero_add _

theorem Step.closed (st : Step inner s .inboxClosed s') : s'.task = .stopped := by
  cases st
  rfl

theorem Step.starts (st : Step inner s act s') (on : s'.task ≠ .starting ∧ s'.task ≠ .stopped) :
    (s.task ≠ .starting ∧ s.task ≠ .stopped) ∨ act = .subscribed := by
  cases st <;> first | exact .inr rfl | simp_all

theorem init_off : ¬((init inner : Server ω).task ≠ .starting ∧
    (init inner : Server ω).task ≠ .stopped) := by
  cases mode : inner.mode.serves <;> simp [init, mode]

theorem exists_serves (inner : Inner) (started : s.task ≠ .starting) (busy : s.task ≠ .idle)
    (on : s.task ≠ .stopped) : ∃ act s', Action.serves act ∧ next inner s act = some s' := by
  cases task : s.task
  case starting  => exact absurd task started
  case idle      => exact absurd task busy
  case stopped   => exact absurd task on
  case taken env => exact ⟨.dispatch env, _, rfl, by simp [next, dispatch, task]; rfl⟩

theorem Step.stopped (st : Step inner s act s') (h : s.task = .stopped) : s'.task = .stopped := by
  cases st <;> simp_all

end Server

namespace Network.Receiver

variable {β ρ ω : Type}

def left (clients : β → Client ρ) (servers : β → Server ω) : Receiver β → ℕ
  | responses b => (clients b).task.left
  | requests b  => (servers b).task.left

-- The receive loop awaits the next message.
def Idle (clients : β → Client ρ) (servers : β → Server ω) : Receiver β → Prop
  | responses b => (clients b).task = .idle
  | requests b  => (servers b).task = .idle

-- The receive loop has ended.
def Stopped (clients : β → Client ρ) (servers : β → Server ω) : Receiver β → Prop
  | responses b => (clients b).task = .stopped
  | requests b  => (servers b).task = .stopped

-- The receive loop runs.
def On (clients : β → Client ρ) (servers : β → Server ω) : Receiver β → Prop
  | responses b => (clients b).task ≠ .starting ∧ (clients b).task ≠ .stopped
  | requests b  => (servers b).task ≠ .starting ∧ (servers b).task ≠ .stopped

theorem On.not_stopped {clients : β → Client ρ} {servers : β → Server ω} {rx : Receiver β}
    (on : rx.On clients servers) : ¬rx.Stopped clients servers := by
  cases rx <;> exact on.right

variable [DecidableEq β]

-- The actions are a step of the receive loop.
def loops (client? : Option (β × Client.Action ρ)) (server? : Option (β × Server.Action ω)) :
    Receiver β → Bool
  | responses b => (client?.bind (Machine.member b)).any Client.Action.loops
  | requests b  => (server?.bind (Machine.member b)).any Server.Action.loops

def take? (client? : Option (β × Client.Action ρ)) (server? : Option (β × Server.Action ω)) :
    Receiver β → Option Envelope
  | responses b => (client?.bind (Machine.member b)).bind Client.take?
  | requests b  => (server?.bind (Machine.member b)).bind Server.take?

-- The actions tell the receive loop that it has subscribed.
def Starts (client? : Option (β × Client.Action ρ)) (server? : Option (β × Server.Action ω)) :
    Receiver β → Prop
  | responses b => client? = some (b, .subscribed)
  | requests b  => server? = some (b, .subscribed)

theorem loops_client {b : β} {act : Client.Action ρ} {server? : Option (β × Server.Action ω)} :
    (responses b).loops (some (b, act)) server? = act.loops := by
  simp [loops, Machine.member]

theorem loops_server {b : β} {act : Server.Action ω} {client? : Option (β × Client.Action ρ)} :
    (requests b).loops client? (some (b, act)) = act.loops := by
  simp [loops, Machine.member]

variable {inner : β → Inner} {clients clients' : β → Client ρ} {servers servers' : β → Server ω}
  {client? : Option (β × Client.Action ρ)} {server? : Option (β × Server.Action ω)}
  {rx : Receiver β}

theorem left_le
    (hc : (Machine.family fun b => Client.machine ρ (inner b)).next? clients client? =
      some clients')
    (hs : (Machine.family fun b => Server.machine ω (inner b)).next? servers server? =
      some servers') :
    (if rx.loops client? server? then 1 else 0) + rx.left clients' servers' ≤
      rx.left clients servers + 3 * (rx.take? client? server?).toList.length := by
  cases rx
  case responses b =>
    rcases Machine.next?_cases (Machine.family_next? hc b) with ⟨none, same⟩ | ⟨c, some, hn⟩
    · simp [loops, left, none, same]
    · simpa [loops, left, take?, some] using (Client.next_step hn).left_le
  case requests b =>
    rcases Machine.next?_cases (Machine.family_next? hs b) with ⟨none, same⟩ | ⟨s, some, hn⟩
    · simp [loops, left, none, same]
    · simpa [loops, left, take?, some] using (Server.next_step hn).left_le

theorem stopped_next
    (hc : (Machine.family fun b => Client.machine ρ (inner b)).next? clients client? =
      some clients')
    (hs : (Machine.family fun b => Server.machine ω (inner b)).next? servers server? =
      some servers')
    (stopped : rx.Stopped clients servers) : rx.Stopped clients' servers' := by
  cases rx
  case responses b =>
    rcases Machine.next?_cases (Machine.family_next? hc b) with ⟨_, same⟩ | ⟨_, _, hn⟩
    · simpa [Stopped, same] using stopped
    · exact (Client.next_step hn).stopped stopped
  case requests b =>
    rcases Machine.next?_cases (Machine.family_next? hs b) with ⟨_, same⟩ | ⟨_, _, hn⟩
    · simpa [Stopped, same] using stopped
    · exact (Server.next_step hn).stopped stopped

theorem on_of_next
    (hc : (Machine.family fun b => Client.machine ρ (inner b)).next? clients client? =
      some clients')
    (hs : (Machine.family fun b => Server.machine ω (inner b)).next? servers server? =
      some servers')
    (on : rx.On clients' servers') : rx.On clients servers ∨ rx.Starts client? server? := by
  cases rx
  case responses b =>
    rcases Machine.next?_cases (Machine.family_next? hc b) with ⟨_, same⟩ | ⟨_, some, hn⟩
    · exact .inl <| by simpa [On, same] using on
    · refine (Client.next_step hn).starts on |>.imp_right ?_
      rintro rfl
      exact Machine.bind_member_eq_some.mp some
  case requests b =>
    rcases Machine.next?_cases (Machine.family_next? hs b) with ⟨_, same⟩ | ⟨_, some, hn⟩
    · exact .inl <| by simpa [On, same] using on
    · refine (Server.next_step hn).starts on |>.imp_right ?_
      rintro rfl
      exact Machine.bind_member_eq_some.mp some

omit [DecidableEq β] in
theorem init_off : ¬rx.On (fun b => (Client.init (inner b) : Client ρ))
    fun b => (Server.init (inner b) : Server ω) := by
  cases rx
  case responses => exact Client.init_off
  case requests  => exact Server.init_off

end Network.Receiver

end MomRpc
