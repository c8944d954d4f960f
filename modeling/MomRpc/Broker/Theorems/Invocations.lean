import MomRpc.Broker.Theorems.Attempts
import MomRpc.Broker.Theorems.EndToEnd

namespace MomRpc.Network

variable {β ρ ω : Type} [DecidableEq β] {inner : β → Inner} {net : Network β ρ ω}
  {as : List (Action β ρ ω)} {b b' : β} {k t t' : ℕ} {call : Call ρ} {task task' : HandlerTask ω}

-- Every handler task is for an attempt of a call, and gets what the call has been made with.
theorem attempt_of_task (r : (machine ρ ω inner).Run as net)
    (h : (net.servers b').tasks[t]? = some task) :
    ∃ (b : β) (i : ℕ) (a : Attempt) (call : Call ρ), (net.clients b).attempts[i]? = some a ∧
      (net.clients b).calls[a.call]? = some call ∧ task.correlationId = a.correlationId ∧
      task.payload = call.reqBytes ∧ Invokes inner as b' a.env call.method t task.fresh := by
  obtain ⟨env, method, hi⟩ := invokes r h
  obtain ⟨xs, ys, s, has, rs, taken, _, _, hm, _, accepted⟩ := id hi
  obtain ⟨_, _, _, payload, correlationId⟩ := Server.accept_some accepted
  have mem : env ∈ takes (.requests b') as := by
    rw [has, takes, List.filterMap_append]
    exact List.mem_append_left _ taken
  obtain ⟨_, _, sent⟩ := sent_of_take r mem
  obtain ⟨b, i, a, rfl, ha, rfl, hid⟩ := sent.request r hm
  obtain ⟨call, hc, he⟩ := Client.env_eq_request ((client_component b).run r).reachable ha
  rw [he] at hm payload
  obtain rfl : call.method = method := Option.some.inj hm
  exact ⟨b, i, a, call, ha, hc, Option.some.inj <| correlationId.symm.trans hid, payload.symm, hi⟩

-- A server broker spawns at most one handler task for an attempt.
theorem task_unique (r : (machine ρ ω inner).Run as net)
    (h : (net.servers b').tasks[t]? = some task) (h' : (net.servers b').tasks[t']? = some task')
    (eq : task.correlationId = task'.correlationId) : t = t' := by
  have ⟨b₁, i₁, a₁, _, ha₁, _, id₁, _, invokes₁⟩ := attempt_of_task r h
  have ⟨b₂, i₂, a₂, _, ha₂, _, id₂, _, invokes₂⟩ := attempt_of_task r h'
  obtain ⟨rfl, rfl⟩ := correlationId_injective r.reachable ha₁ ha₂ (id₁ ▸ id₂ ▸ eq)
  cases ha₁.symm.trans ha₂
  exact (end_to_end r).once _ _ _ _ _ _ _ _ invokes₁ invokes₂

theorem tasks_nodup (r : (machine ρ ω inner).Run as net) (b' : β) :
    (net.servers b').tasks.map (·.correlationId) |>.Nodup := by
  refine List.nodup_iff_getElem?_ne_getElem?.mpr fun t t' lt lt' eq => lt.ne ?_
  rw [List.length_map] at lt'
  rw [List.getElem?_map, List.getElem?_map, List.getElem?_eq_getElem lt',
    List.getElem?_eq_getElem (lt.trans lt')] at eq
  exact task_unique r (List.getElem?_eq_getElem _) (List.getElem?_eq_getElem lt') <|
    Option.some.inj eq

-- The handler task is for an attempt of the broker's `k`-th call.
def ServesCall (net : Network β ρ ω) (b : β) (k : ℕ) (task : HandlerTask ω) : Prop :=
  ∃ a ∈ (net.clients b).attempts, a.call = k ∧ a.correlationId = task.correlationId

instance : DecidablePred (net.ServesCall b k) :=
  fun _ => inferInstanceAs (Decidable (∃ a ∈ (net.clients b).attempts, _))

-- However often it is retried, a call invokes the handlers of a server broker no more often than it
-- makes attempts, and always with the same payload.
theorem invocations_of_call (r : (machine ρ ω inner).Run as net)
    (h : (net.clients b).calls[k]? = some call) :
    (net.servers b').tasks.countP (net.ServesCall b k) ≤ Client.limit (inner b) ∧
      ∀ (t : ℕ) (task : HandlerTask ω), (net.servers b').tasks[t]? = some task →
        net.ServesCall b k task → task.payload = call.reqBytes ∧
          ∃ env, Invokes inner as b' env call.method t task.fresh := by
  constructor
  case left =>
    let tasks    := (net.servers b').tasks.filter (net.ServesCall b k)
    let attempts := (net.clients b).attempts.filter (·.call = k)
    have nodup : tasks.map (·.correlationId) |>.Nodup :=
      (tasks_nodup r b').sublist <| List.filter_sublist.map _
    have subset : tasks.map (·.correlationId) ⊆ attempts.map (·.correlationId) := by
      intro id hid
      obtain ⟨task, ht, rfl⟩ := List.mem_map.mp hid
      have ⟨a, ha, hk, eq⟩ := of_decide_eq_true (List.mem_filter.mp ht).right
      exact eq ▸ List.mem_map_of_mem (List.mem_filter.mpr ⟨ha, decide_eq_true hk⟩)
    have le := (nodup.subperm subset).length_le
    rw [List.length_map, List.length_map] at le
    rw [List.countP_eq_length_filter]
    refine le.trans ?_
    rw [← List.countP_eq_length_filter]
    exact Client.made_le ((client_component b).run r).reachable h
  case right =>
    intro t task ht ⟨a, ha, hk, eq⟩
    have ⟨i, ha⟩ := List.getElem?_of_mem ha
    have ⟨b₁, i₁, a₁, call₁, ha₁, hc₁, id₁, payload, invokes⟩ := attempt_of_task r ht
    obtain ⟨rfl, rfl⟩ := correlationId_injective r.reachable ha ha₁ (eq.trans id₁)
    cases ha.symm.trans ha₁
    cases h.symm.trans (hk ▸ hc₁)
    exact ⟨payload, _, invokes⟩

theorem invocations_of_call_lone :
    let as := loneRegister :: loneRequest ++ .receive (.requests ()) 1 loneEnv :: loneResponse
    ∃ net, (machine Bytes Unit loneBroker).Run as net ∧
      (net.servers ()).tasks.countP (net.ServesCall () 0) ≤ 1 := by
  intro as
  have run : (machine Bytes Unit loneBroker).Run as _ := Machine.Run.of_isSome rfl
  exact ⟨_, run, (invocations_of_call run <| .refl (some loneCall)).left⟩

end MomRpc.Network
