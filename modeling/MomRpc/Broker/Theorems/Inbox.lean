import MomRpc.Broker.Theorems.Correlation
import MomRpc.Broker.Theorems.Dispatch
import MomRpc.Broker.Theorems.Network
import MomRpc.Transport.Theorems.Delivery

namespace MomRpc.Network

variable {β ρ ω : Type} [DecidableEq β] {inner : β → Inner} {net net' : Network β ρ ω}
  {act : Action β ρ ω} {as : List (Action β ρ ω)} {rx : Receiver β} {b : β} {env : Envelope} {j : ℕ}

def Action.take? (rx : Receiver β) : Action β ρ ω → Option Envelope
  | .receive rx' _ env => if rx' = rx then some env else none
  | _                  => none

-- The envelopes that a receive loop has taken from its inbox.
def takes (rx : Receiver β) (as : List (Action β ρ ω)) : List Envelope :=
  as.filterMap (Action.take? rx)

theorem takes_concat : takes rx (as ++ [act]) = takes rx as ++ (act.take? rx).toList :=
  List.filterMap_concat

-- The receive loop has not subscribed yet.
def Starting (net : Network β ρ ω) : Receiver β → Prop
  | .responses b => (net.clients b).task = .starting
  | .requests b  => (net.servers b).task = .starting

-- The receive loop has either no inbox yet, or a single one of its own from which it has taken what
-- has been received there.
inductive Inbox (inner : β → Inner) (as : List (Action β ρ ω)) (net : Network β ρ ω)
    (rx : Receiver β) : Prop
  | unsubscribed (owners : some rx ∉ net.owners) (taken : takes rx as = [])
  | subscribed {j : ℕ} {h : SubscriptionHandle} (started : ¬net.Starting rx)
    (owns : ∀ k, net.owners[k]? = some (some rx) ↔ k = j) (handle : net.hub.handles[j]? = some h)
    (subscription : h.subscription = rx.subscription inner)
    (received : h.inbox.received = takes rx as)

namespace Step

omit [DecidableEq β] in
theorem subscribed_of_owner? (h : act.owner? = some (some rx)) : act = .subscribed rx := by
  cases act <;> simp [Action.owner?] at h
  case hub act    => cases act <;> simp at h
  case subscribed => rw [h]

theorem owns_of_take? (st : Step inner net act net') (h : act.take? rx = some env) :
    some rx ∈ net.owners := by
  have allows := st.allows
  cases act <;> simp [Action.take?] at h
  case receive rx' j env =>
    obtain ⟨rfl, rfl⟩ := h
    exact List.mem_of_getElem? allows.left

theorem starting (st : Step inner net act net') (h : net'.Starting rx) :
    net.Starting rx ∧ act ≠ .subscribed rx := by
  cases rx
  case responses b =>
    constructor
    · rcases st.client_cases b with ⟨_, hb⟩ | ⟨c, _, stc⟩
      · simpa [Starting, hb] using h
      · exact stc.starting h |>.left
    · rintro rfl
      exact st.client rfl |>.starting h |>.right rfl
  case requests b =>
    constructor
    · rcases st.server_cases b with ⟨_, hb⟩ | ⟨s, _, sts⟩
      · simpa [Starting, hb] using h
      · exact sts.starting h |>.left
    · rintro rfl
      exact st.server rfl |>.starting h |>.right rfl

theorem starting_of_subscribed (st : Step inner net (.subscribed rx) net') : net.Starting rx := by
  cases rx
  case responses b =>
    have stc := st.client rfl
    generalize net'.clients b = c' at stc
    cases stc
    case ended ends          => cases ends
    case subscribed starting => exact starting
  case requests b =>
    have sts := st.server rfl
    generalize net'.servers b = s' at sts
    cases sts
    case subscribed starting => exact starting

theorem handle {h : SubscriptionHandle} (st : Step inner net act net')
    (owns : ∀ k, net.owners[k]? = some (some rx) ↔ k = j)
    (hh : net.hub.handles[j]? = some h) :
    ∃ h', net'.hub.handles[j]? = some h' ∧ h'.subscription = h.subscription ∧
      h'.inbox.received = h.inbox.received ++ (act.take? rx).toList := by
  have allows := st.allows
  rcases st.hub_cases with ⟨hn, hb⟩ | ⟨ha, hs, sth⟩
  · refine ⟨h, hb ▸ hh, rfl, ?_⟩
    cases act <;> simp_all [Action.hub?, Action.take?]
  · obtain ⟨h', hh', ch⟩ := sth.handle hh
    refine ⟨h', hh', ch.subscription, ?_⟩
    rw [ch.received]
    congr 1
    cases act <;> simp only [Action.hub?, Option.some.injEq, reduceCtorEq] at hs <;> try subst hs
    case hub ha =>
      cases ha <;> try rfl
      case recv k =>
        have : k ≠ j := (owns k).not.mp <| by simp [show net.owners[k]? = some none from allows]
        simp [MemoryHub.taken, Action.take?, this]
    case receive rx' k env =>
      have hk := owns k
      by_cases hr : rx' = rx
      case pos =>
        subst hr
        obtain rfl := hk.mp allows.left
        simp [MemoryHub.taken, Action.take?, allows.right]
      case neg =>
        have : k ≠ j := hk.not.mp <| by simp [allows.left, hr]
        simp [MemoryHub.taken, Action.take?, hr, this]
    case handled answer =>
      cases answer <;> cases hs
      rfl
    all_goals rfl

theorem handles_length (st : Step inner net act net')
    (h : net.owners.length = net.hub.handles.length) :
    net'.owners.length = net'.hub.handles.length := by
  rw [st.owners, List.length_append, h]
  rcases st.hub_cases with ⟨hn, hb⟩ | ⟨ha, hs, sth⟩
  · cases act <;> simp_all [Action.hub?, Action.owner?]
  · rw [sth.handles_length]
    congr 1
    cases act <;> simp only [Action.hub?, Option.some.injEq, reduceCtorEq] at hs <;> try subst hs
    case hub ha => cases ha <;> rfl
    case handled answer =>
      cases answer <;> cases hs
      rfl
    all_goals rfl

theorem subscribed_handle (st : Step inner net (.subscribed rx) net') :
    net'.hub.handles[net.hub.handles.length]? = some { subscription := rx.subscription inner } := by
  obtain ⟨h, _⟩ | ⟨_, h, sth⟩ := st.hub_cases <;> cases h
  generalize net'.hub = hub' at sth ⊢
  cases sth
  simp

end Step

theorem owners_length (r : (machine ρ ω inner).Reachable net) :
    net.owners.length = net.hub.handles.length := by
  induction net, r using Machine.Reachable.induction_on
  case init => rfl
  case step net act net' _ hs ih => exact (next_step hs).handles_length ih

theorem inbox (r : (machine ρ ω inner).Run as net) (rx : Receiver β) : Inbox inner as net rx := by
  induction as, net, r using Machine.Run.induction_on
  case init => exact .unsubscribed List.not_mem_nil rfl
  case step as net act net' r hs ih =>
    have st := next_step hs
    cases ih
    case unsubscribed owners taken =>
      have hn : act.take? rx = none := by
        cases ht : act.take? rx
        case none => rfl
        case some => exact absurd (st.owns_of_take? ht) owners
      by_cases ha : act = .subscribed rx
      case pos =>
        subst ha
        refine .subscribed (fun hs => (st.starting hs).right rfl) (fun k => ?_)
          st.subscribed_handle rfl (by simp [takes_concat, taken, hn])
        rw [st.owners, ← owners_length r.reachable]
        simp only [Action.owner?, Option.toList_some, List.getElem?_append]
        grind
      case neg =>
        refine .unsubscribed ?_ (by simp [takes_concat, taken, hn])
        have ho : act.owner? ≠ some (some rx) := ha ∘ Step.subscribed_of_owner?
        simp [st.owners, owners, ho]
    case subscribed j h started owns handle subscription received =>
      have ha : act.owner? ≠ some (some rx) := fun ha => started <|
        Step.starting_of_subscribed (Step.subscribed_of_owner? ha ▸ st)
      have ⟨h', handle', subscription', received'⟩ := st.handle owns handle
      refine .subscribed (fun hs => started (st.starting hs).left) ?_ handle'
        (subscription'.trans subscription) (by rw [received', received, takes_concat])
      intro k
      rw [st.owners, ← owns, List.getElem?_append]
      cases ho : act.owner? <;> grind

theorem Step.clientOf?_take? (st : Step inner net act net') :
    (act.clientOf? b).bind Client.take? = act.take? (.responses b) := by
  have allows := st.allows
  rw [Action.clientOf?]
  cases act
  case client c =>
    cases c <;> first
      | exact absurd allows not_false
      | simp [Action.client?, Machine.member_bind, Client.take?, Action.take?]
  case subscribed rx | receive rx _ _ | inboxClosed rx _ =>
    cases rx <;> simp [Action.client?, Machine.member_bind, Client.take?, Action.take?]
  all_goals simp [Action.client?, Machine.member_bind, Client.take?, Action.take?]

theorem Step.serverOf?_take? (st : Step inner net act net') :
    (act.serverOf? b).bind Server.take? = act.take? (.requests b) := by
  have allows := st.allows
  rw [Action.serverOf?]
  cases act
  case server s =>
    cases s <;> first
      | exact absurd allows not_false
      | simp [Action.server?, Machine.member_bind, Server.take?, Action.take?]
  case subscribed rx | receive rx _ _ | inboxClosed rx _ =>
    cases rx <;> simp [Action.server?, Machine.member_bind, Server.take?, Action.take?]
  all_goals simp [Action.server?, Machine.member_bind, Server.take?, Action.take?]

theorem client_takes (r : (machine ρ ω inner).Run as net) :
    Client.takes (as.filterMap (Action.clientOf? b)) = takes (.responses b) as := by
  rw [Client.takes, List.filterMap_filterMap]
  induction as, net, r using Machine.Run.induction_on
  case init => rfl
  case step as net act net' r hs ih =>
    rw [takes_concat, List.filterMap_concat, ih, (next_step hs).clientOf?_take?]

theorem server_takes (r : (machine ρ ω inner).Run as net) :
    Server.takes (as.filterMap (Action.serverOf? b)) = takes (.requests b) as := by
  rw [Server.takes, List.filterMap_filterMap]
  induction as, net, r using Machine.Run.induction_on
  case init => rfl
  case step as net act net' r hs ih =>
    rw [takes_concat, List.filterMap_concat, ih, (next_step hs).serverOf?_take?]

-- What a receive loop has taken are envelopes which calls of `publish` have sent to its inbox, each
-- call at most once.
theorem takes_eq (r : (machine ρ ω inner).Run as net) (rx : Receiver β) :
    ∃ ps : List (Publisher β), ps.Nodup ∧
      (takes rx as).map some = ps.map (fun p => (net.hub.publishes p).env?) ∧
      ∀ p ∈ ps, ∀ env, (net.hub.publishes p).env? = some env →
        rx.subscription inner = ⟨env.address.name⟩ := by
  cases inbox r rx
  case unsubscribed owners taken => exact ⟨[], List.nodup_nil, by simp [taken], by simp⟩
  case subscribed j h started owns handle subscription received =>
    have rh := hub_component.run r
    have hp := MemoryHub.received_prefix rh handle
    rw [received, List.prefix_iff_eq_take, ← List.map_take] at hp
    have hs := List.take_sublist (takes rx as).length <|
      MemoryHub.sentTo (as.filterMap (Action.hub? inner)) j
    refine ⟨_, (MemoryHub.sentTo_nodup rh).sublist hs, by simpa using hp, fun p hm env he => ?_⟩
    have ⟨env', he', hd⟩ := MemoryHub.Due.of_sent rh (hs.subset hm)
    cases he.symm.trans he'
    rw [← subscription]
    simpa [MemoryHub.topic, handle] using hd.right

theorem sent_of_take (r : (machine ρ ω inner).Run as net) (h : env ∈ takes rx as) :
    rx.subscription inner = ⟨env.address.name⟩ ∧ ∃ p, net.Sent p env := by
  have ⟨ps, _, he, hs⟩ := takes_eq r rx
  have hm : some env ∈ ps.map fun p => (net.hub.publishes p).env? :=
    he ▸ List.mem_map_of_mem h
  have ⟨p, hp, hpe⟩ := List.mem_map.mp hm
  exact ⟨hs p hp env hpe, p, sent_of_publish r.reachable hpe⟩

end MomRpc.Network
