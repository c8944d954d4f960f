import MomRpc.Broker.Theorems.EndToEnd
import MomRpc.Broker.Theorems.Rpc

namespace MomRpc.Network

variable {β ρ ω : Type} [DecidableEq β] {inner : β → Inner} {net net' : Network β ρ ω}
  {act : Action β ρ ω} {as : List (Action β ρ ω)} {rpc : Rpc β ρ ω}

def Action.rpc? (act : Action β ρ ω) : Option (Rpc.Action β ρ ω) :=
  Rpc.Action.of act.client? act.server?

omit [DecidableEq β] in
theorem Action.one (act : Action β ρ ω) : act.client? = none ∨ act.server? = none := by
  cases act <;> try simp [client?, server?]
  case subscribed rx      => cases rx <;> simp
  case receive rx _ _     => cases rx <;> simp
  case inboxClosed rx _   => cases rx <;> simp

-- The protocol has the same brokers, and it knows whatever they have handed to the hub.
structure Protocol (net : Network β ρ ω) (rpc : Rpc β ρ ω) : Prop where
  clients   : rpc.clients = net.clients
  servers   : rpc.servers = net.servers
  generated : rpc.generated = net.generated
  published : ∀ p env, (net.hub.publishes p).env? = some env → env ∈ rpc.published

-- What a receive loop takes has been published before.
theorem receive_published {rx : Receiver β} {j : ℕ} {env : Envelope}
    (r : (machine ρ ω inner).Run as net)
    (hn : (machine ρ ω inner).next net (.receive rx j env) = some net') :
    rx.subscription inner = ⟨env.address.name⟩ ∧
      ∃ p, (net.hub.publishes p).env? = some env := by
  have st := next_step hn
  obtain ⟨ps, _, he, addressed⟩ := takes_eq (r.concat hn) rx
  have taken : env ∈ takes rx (as ++ [.receive rx j env]) := by
    simp [takes_concat, Action.take?]
  have mem : some env ∈ ps.map fun p => (net'.hub.publishes p).env? :=
    he ▸ List.mem_map_of_mem taken
  obtain ⟨p, hp, hpe⟩ := List.mem_map.mp mem
  refine ⟨addressed p hp env hpe, p, ?_⟩
  rcases st.hub_cases with ⟨_, hh⟩ | ⟨_, hh, sth⟩
  · exact hh ▸ hpe
  · rcases sth.env?_cases hpe with h | rfl
    · exact h
    · cases hh

theorem Protocol.allows (r : (machine ρ ω inner).Run as net) (pr : Protocol net rpc)
    (hn : (machine ρ ω inner).next net act = some net') {a : Rpc.Action β ρ ω}
    (ha : act.rpc? = some a) : rpc.Allows inner a := by
  have st := next_step hn
  have allows := st.allows
  cases act <;> simp [Action.rpc?, Rpc.Action.of, Action.client?, Action.server?] at ha
  case client b c =>
    subst ha
    cases c <;> trivial
  case server b s =>
    subst ha
    cases s <;> trivial
  case subscribed rx | inboxClosed rx _ =>
    cases rx <;> simp at ha <;> subst ha <;> trivial
  case receive rx j env =>
    obtain ⟨addressed, p, hp⟩ := receive_published r hn
    have addressed := congrArg Subscription.name addressed
    cases rx <;> simp at ha <;> subst ha
    all_goals exact ⟨pr.published p env hp, addressed.symm⟩
  case attempt =>
    subst ha
    simpa [Rpc.Allows, pr.generated] using allows.left
  all_goals
    subst ha
    trivial

theorem Protocol.published_of_hub? (pr : Protocol net rpc) (st : Step inner net act net')
    {p : Publisher β} {env : Envelope} (h : act.hub? inner = some (.publish p env)) :
    act.rpc?.bind (rpc.publish? inner) = some env := by
  have allows := st.allows
  cases act <;> simp only [Action.hub?, Option.some.injEq, reduceCtorEq] at h
  case hub => exact absurd allows (h ▸ id)
  case attempt =>
    cases h
    obtain ⟨_, _, request⟩ := allows
    rw [← pr.clients] at request
    exact request
  case handled answer =>
    cases answer <;> cases h
    rfl

theorem Step.rpc?_correlationId? (st : Step inner net act net') :
    act.rpc?.bind Rpc.Action.correlationId? = act.correlationId? := by
  have allows := st.allows
  cases act <;> try rfl
  case client act        => cases act <;> first | rfl | exact absurd allows not_false
  case subscribed rx     => cases rx <;> rfl
  case receive rx _ _    => cases rx <;> rfl
  case inboxClosed rx _  => cases rx <;> rfl

-- The memory transport keeps to the protocol.
theorem refines (r : (machine ρ ω inner).Run as net) :
    ∃ rpc, (Rpc.machine ρ ω inner).Run (as.filterMap Action.rpc?) rpc ∧ Protocol net rpc := by
  apply Machine.Run.simulate (R := fun _ => Protocol) ?init ?step r
  case init => exact ⟨rfl, rfl, rfl, by simp [machine, hubs, MemoryHub.machine, Publish.env?]⟩
  case step =>
    intro as net act net' rpc r hn _ pr
    have st := next_step hn
    have next := Rpc.next?_of act.one (pr.clients ▸ st.clients) (pr.servers ▸ st.servers)
      fun a ha => pr.allows r hn ha
    refine ⟨_, next, rfl, rfl, ?generated, ?published⟩
    case generated =>
      rw [st.generated, ← st.rpc?_correlationId?, ← pr.generated]
      rfl
    case published =>
      intro p env h
      rcases st.hub_cases with ⟨_, hh⟩ | ⟨ha, hh, sth⟩
      · exact List.mem_append_left _ <| pr.published p env (hh ▸ h)
      · rcases sth.env?_cases h with h | rfl
        · exact List.mem_append_left _ <| pr.published p env h
        · exact List.mem_append_right _ <| Option.mem_toList.mpr <| pr.published_of_hub? st hh

end MomRpc.Network
