import MomRpc.Broker.Network
import MomRpc.Broker.Theorems.Calls
import MomRpc.Broker.Theorems.Server
import MomRpc.Transport.Theorems.Memory

namespace MomRpc.Network

variable {β ρ ω : Type} [DecidableEq β] {inner : β → Inner} {net net' : Network β ρ ω}
  {act : Action β ρ ω} {p : Publisher β} {env : Envelope} {b b' : β} {i i' : ℕ} {a a' : Attempt}

-- The parts that the components have in one action.
structure Step (inner : β → Inner) (net : Network β ρ ω) (act : Action β ρ ω)
    (net' : Network β ρ ω) : Prop where
  allows    : net.Allows inner act
  hub       : (hubs β).next? net.hub (act.hub? inner) = some net'.hub
  clients   : (clientFamily ρ inner).next? net.clients act.client? = some net'.clients
  servers   : (serverFamily ω inner).next? net.servers act.server? = some net'.servers
  owners    : net'.owners = net.owners ++ act.owner?.toList
  generated : net'.generated = net.generated ++ act.correlationId?.toList

theorem next_step (h : (machine ρ ω inner).next net act = some net') : Step inner net act net' := by
  simp only [machine, next, Option.ite_none_right_eq_some, Option.bind_eq_bind,
    Option.bind_eq_some_iff] at h
  obtain ⟨allows, hub, hh, clients, hc, servers, hs, he⟩ := h
  cases he
  exact ⟨allows, hh, hc, hs, rfl, rfl⟩

def Action.clientOf? (b : β) (act : Action β ρ ω) : Option (Client.Action ρ) :=
  act.client?.bind (Machine.member b)

def Action.serverOf? (b : β) (act : Action β ρ ω) : Option (Server.Action ω) :=
  act.server?.bind (Machine.member b)

theorem hub_component :
    Machine.Component (machine ρ ω inner) (hubs β) Network.hub (Action.hub? inner) where
  init := rfl
  next _ _ _ h := (next_step h).hub

theorem client_component (b : β) :
    Machine.Component (machine ρ ω inner) (Client.machine ρ (inner b)) (·.clients b)
      (Action.clientOf? b) where
  init := rfl
  next _ _ _ h := Machine.family_next? (next_step h).clients b

theorem server_component (b : β) :
    Machine.Component (machine ρ ω inner) (Server.machine ω (inner b)) (·.servers b)
      (Action.serverOf? b) where
  init := rfl
  next _ _ _ h := Machine.family_next? (next_step h).servers b

namespace Step

theorem hub_cases (st : Step inner net act net') :
    (act.hub? inner = none ∧ net'.hub = net.hub) ∨
      ∃ h, act.hub? inner = some h ∧ MemoryHub.Step net.hub h net'.hub :=
  Machine.next?_cases st.hub |>.imp_right fun ⟨h, hh, hn⟩ => ⟨h, hh, MemoryHub.next_step hn⟩

theorem client_cases (st : Step inner net act net') (b : β) :
    (act.clientOf? b = none ∧ net'.clients b = net.clients b) ∨
      ∃ c, act.clientOf? b = some c ∧
        Client.Step (inner b) (net.clients b) c (net'.clients b) :=
  Machine.next?_cases (Machine.family_next? st.clients b) |>.imp_right
    fun ⟨c, hc, hn⟩ => ⟨c, hc, Client.next_step hn⟩

theorem server_cases (st : Step inner net act net') (b : β) :
    (act.serverOf? b = none ∧ net'.servers b = net.servers b) ∨
      ∃ s, act.serverOf? b = some s ∧
        Server.Step (inner b) (net.servers b) s (net'.servers b) :=
  Machine.next?_cases (Machine.family_next? st.servers b) |>.imp_right
    fun ⟨s, hs, hn⟩ => ⟨s, hs, Server.next_step hn⟩

theorem client {c : Client.Action ρ} (st : Step inner net act net')
    (h : act.client? = some (b, c)) :
    Client.Step (inner b) (net.clients b) c (net'.clients b) := by
  have hc : act.clientOf? b = some c := by simp [Action.clientOf?, h, Machine.member]
  obtain ⟨hn, _⟩ | ⟨c', hc', stc⟩ := st.client_cases b
  · cases hn.symm.trans hc
  · cases hc'.symm.trans hc
    exact stc

theorem server {s : Server.Action ω} (st : Step inner net act net')
    (h : act.server? = some (b, s)) :
    Server.Step (inner b) (net.servers b) s (net'.servers b) := by
  have hs : act.serverOf? b = some s := by simp [Action.serverOf?, h, Machine.member]
  obtain ⟨hn, _⟩ | ⟨s', hs', sts⟩ := st.server_cases b
  · cases hn.symm.trans hs
  · cases hs'.symm.trans hs
    exact sts

theorem attempt {k : ℕ} {id : String} (st : Step inner net (.attempt b k id i env) net') :
    id ∉ net.generated ∧ i = (net.clients b).attempts.length ∧
      (net'.clients b).attempts =
        (net.clients b).attempts ++ [{ call := k, correlationId := id, env }] := by
  have ⟨hg, hi, he⟩ := st.allows
  have stc := st.client rfl
  generalize net'.clients b = c' at stc ⊢
  cases stc
  case ended ends => cases ends
  case attempt call ready handle fresh =>
    rw [handle] at he
    exact ⟨hg, hi.symm, by simp [← Option.some.inj he]⟩

theorem handled {t : ℕ} {world : ω} {answer : Option Envelope}
    (st : Step inner net (.handled b t world answer) net') :
    ∃ task, (net'.servers b).tasks[t]? = some task ∧ task.response? = answer := by
  have sts := st.server rfl
  generalize net'.servers b = s' at sts ⊢
  cases sts
  case handled task phase calling ended handle response =>
    obtain ⟨hl, _⟩ := List.getElem?_eq_some_iff.mp handle
    exact ⟨_, List.getElem?_set_self hl, response⟩

end Step

-- The envelope is the one that this call of `publish` is for.
def Sent (net : Network β ρ ω) (p : Publisher β) (env : Envelope) : Prop :=
  match p with
  | .request b i  => ∃ a, (net.clients b).attempts[i]? = some a ∧ a.env = env
  | .response b t => ∃ task, (net.servers b).tasks[t]? = some task ∧ task.response? = some env

theorem Step.sent (st : Step inner net act net') (h : net.Sent p env) : net'.Sent p env := by
  cases p
  case request b i =>
    have ⟨a, ha, he⟩ := h
    rcases st.client_cases b with ⟨_, hb⟩ | ⟨c, _, stc⟩
    · exact ⟨a, hb ▸ ha, he⟩
    · have ⟨a', ha', ch⟩ := stc.change ha
      exact ⟨a', ha', ch.env.trans he⟩
  case response b t =>
    have ⟨task, ht, hr⟩ := h
    rcases st.server_cases b with ⟨_, hb⟩ | ⟨s, _, sts⟩
    · exact ⟨task, hb ▸ ht, hr⟩
    · exact sts.response ht hr

-- Only brokers publish, and only these envelopes.
theorem sent_of_publish (r : (machine ρ ω inner).Reachable net)
    (h : (net.hub.publishes p).env? = some env) : net.Sent p env := by
  induction net, r using Machine.Reachable.induction_on generalizing p env
  case init => simp [machine, hubs, MemoryHub.machine, Publish.env?] at h
  case step net act net' _ hs ih =>
    have st := next_step hs
    rcases st.hub_cases with ⟨_, hh⟩ | ⟨ha, hh, sth⟩
    · exact st.sent <| ih (hh ▸ h)
    · rcases sth.env?_cases h with h | rfl
      · exact st.sent <| ih h
      · cases act <;> try simp [Action.hub?] at hh
        case hub => exact absurd st.allows (hh ▸ id)
        case attempt b k id i env =>
          obtain ⟨rfl, rfl⟩ := hh
          obtain ⟨_, hi, he⟩ := st.attempt
          exact ⟨{ call := k, correlationId := id, env }, by simp [he, hi], rfl⟩
        case handled b t world answer =>
          cases answer <;> simp at hh
          obtain ⟨rfl, rfl⟩ := hh
          exact st.handled

-- A client starts its attempts in the network's `attempt` actions only.
theorem Step.attempt_of_clientOf? {k : ℕ} {id : String} (st : Step inner net act net')
    (h : act.clientOf? b = some (.attempt k id)) : ∃ i env, act = .attempt b k id i env := by
  have allows := st.allows
  have hc := Machine.bind_member_eq_some.mp h
  cases act <;> simp [Action.client?] at hc
  case subscribed rx    => cases rx <;> simp at hc
  case receive rx _ _   => cases rx <;> simp at hc
  case inboxClosed rx _ => cases rx <;> simp at hc
  case client =>
    obtain ⟨rfl, rfl⟩ := hc
    exact absurd allows not_false
  case attempt i env =>
    obtain ⟨rfl, rfl, rfl⟩ := hc
    exact ⟨i, env, rfl⟩

theorem Step.attempt_cases (st : Step inner net act net')
    (h : (net'.clients b).attempts[i]? = some a) :
    (∃ a₀, (net.clients b).attempts[i]? = some a₀ ∧ a₀.correlationId = a.correlationId) ∨
      (i = (net.clients b).attempts.length ∧ a.correlationId ∉ net.generated ∧
        ∃ k env, act = .attempt b k a.correlationId i env) := by
  rcases st.client_cases b with ⟨_, hb⟩ | ⟨c, hc, stc⟩
  · exact .inl ⟨a, hb ▸ h, rfl⟩
  · rcases stc.change_or_attempt h with ⟨a₀, ha, ch⟩ | ⟨rfl, rfl, _⟩
    · exact .inl ⟨a₀, ha, ch.correlationId.symm⟩
    · obtain ⟨i, env, rfl⟩ := st.attempt_of_clientOf? hc
      have ⟨hg, hi, _⟩ := st.attempt
      exact .inr ⟨rfl, hg, a.call, env, by rw [hi]⟩

theorem correlationId_generated (r : (machine ρ ω inner).Reachable net)
    (h : (net.clients b).attempts[i]? = some a) : a.correlationId ∈ net.generated := by
  induction net, r using Machine.Reachable.induction_on generalizing a i
  case init => simp [machine, clientFamily, Machine.family, Client.machine, Client.init] at h
  case step net act net' _ hs ih =>
    have st := next_step hs
    rw [st.generated, List.mem_append]
    rcases st.attempt_cases h with ⟨a₀, ha, hi⟩ | ⟨_, _, k, env, rfl⟩
    · exact .inl <| hi ▸ ih ha
    · exact .inr <| by simp [Action.correlationId?]

theorem correlationId_injective (r : (machine ρ ω inner).Reachable net)
    (ha : (net.clients b).attempts[i]? = some a) (ha' : (net.clients b').attempts[i']? = some a')
    (h : a.correlationId = a'.correlationId) : b = b' ∧ i = i' := by
  induction net, r using Machine.Reachable.induction_on generalizing a a' i i'
  case init => simp [machine, clientFamily, Machine.family, Client.machine, Client.init] at ha
  case step net act net' r hs ih =>
    have st := next_step hs
    rcases st.attempt_cases ha with ⟨a₀, h₀, hi⟩ | ⟨_, hg, k, env, rfl⟩ <;>
      rcases st.attempt_cases ha' with ⟨a₁, h₁, hi'⟩ | ⟨_, hg', k', env', he⟩
    · exact ih h₀ h₁ <| hi.trans <| h.trans hi'.symm
    · exact absurd (h ▸ hi ▸ correlationId_generated r h₀) hg'
    · exact absurd (h ▸ hi' ▸ correlationId_generated r h₁) hg
    · obtain ⟨hb, _, _, hi, _⟩ := Action.attempt.inj he
      exact ⟨hb, hi⟩

end MomRpc.Network
