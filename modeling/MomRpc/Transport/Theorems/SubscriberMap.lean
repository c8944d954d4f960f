import MomRpc.Transport.Theorems.Live

namespace MomRpc

namespace Actor

variable {ι σ α τ : Type} [DecidableEq ι] {kind : ActorKind ι σ α τ}
  {decode : Bytes → Option Envelope} {fan : σ → α → Option (Fanout.Action ι)} {m m' : Actor kind}
  {act : Action α τ} {i : ℕ}

omit [DecidableEq ι] in
theorem call?_of_ends? (ends : ends? act = some i) : act.call? = some i := by
  cases act <;> cases ends <;> rfl

omit [DecidableEq ι] in
-- A call that does not fail keeps the receiver that it may have.
theorem concludes_of_ok {f : Fanout ι} {owners : List ℕ} {c : RumqttcTransport.MethodCall}
    (ok : c.fails = false) : f.concludes owners i c = none := by
  simp [Fanout.concludes, ok]

theorem ended_fans (h : (machine kind).next m act = some m') (ends : ends? act = some i) :
    (Fanout.machine ι decode).next? m.subscribers (m.fans fan act) = some m'.subscribers := by
  have mine := call?_of_ends? ends
  have own : m.fans fan act = m'.calls[i]?.bind (m.subscribers.concludes m.owners i) := by
    have h : m.next act = some m' := h
    cases act <;> cases mine
    case register | retry | join => cases ends
    all_goals simp [fans, ends?, h]
  have st := next_step h
  rw [own]
  cases st <;> try cases mine
  case register => cases ends
  case send =>
    obtain ⟨hl, _⟩ := List.getElem?_eq_some_iff.mp ‹m.calls[i]? = some _›
    rw [List.getElem?_set_self hl, Option.bind_some, concludes_of_ok rfl]
    rfl
  case caller j _ _ _ _ handle _ _ _ caller =>
    obtain rfl := Option.some.inj <| caller.symm.trans mine
    obtain ⟨hl, _⟩ := List.getElem?_eq_some_iff.mp handle
    rw [conclude_calls, List.getElem?_set_self hl, Option.bind_some]
    exact Fanout.next?_concludes

theorem next_fans (fans : Fans kind decode fan) (h : (machine kind).next m act = some m') :
    (Fanout.machine ι decode).next? m.subscribers (m.fans fan act) = some m'.subscribers := by
  have h₀ := h
  cases act <;> simp only [machine, next] at h
  case register i =>
    simp only [register] at h
    split at h <;> try cases h
    case _ hc _ =>
      split at h <;> try cases h
      case _ method _ =>
        split at h <;> cases h
        simp [Actor.fans, hc, method, Machine.next?, Fanout.machine, Fanout.next]
  case recv k =>
    obtain ⟨_, received, rfl⟩ := inbox_eq_some h
    exact received
  case dropInbox k =>
    obtain ⟨_, dropped, rfl⟩ := inbox_eq_some h
    exact dropped
  case task a =>
    obtain ⟨_, acted, rfl⟩ := Option.map_eq_some_iff.mp h
    exact fans _ _ _ _ _ _ _ _ acted
  case send i | resume i | cancel i => exact ended_fans h₀ rfl
  case retry i =>
    simp only [retry] at h
    split at h <;> try cases h
    split at h <;> cases h
    rfl
  case join i =>
    simp only [join] at h
    split at h <;> try cases h
    split at h <;> try cases h
    obtain ⟨_, _, rfl⟩ := Option.map_eq_some_iff.mp h
    rfl
  all_goals
    cases next_step h₀ <;> try rfl
    case caller caller => cases caller

theorem subscriberMap_lawful (fans : Fans kind decode fan) :
    (subscriberMap kind decode fan).Lawful where
  init := rfl
  step _ _ _ h := next_fans fans h

end Actor

namespace MqttTransport

variable {rumqttc : Rumqttc} {fromSlice : Bytes → Option Envelope} {t t' : MqttTransport}
  {act : Action}

theorem conclude_actor {actor : MqttActor} {i : ℕ} : (t.conclude actor i).actor = actor := by
  simp only [conclude]
  split <;> rfl

theorem next?_conclude {actor : MqttActor} {i : ℕ} :
    (Fanout.machine Unit fromSlice).next? t.subscribers
        (actor.calls[i]?.bind (t.subscribers.concludes t.owners i)) =
      some (t.conclude actor i).subscribers := by
  unfold conclude
  cases actor.calls[i]?
  case none   => rfl
  case some c => exact Fanout.next?_concludes

theorem fans_of_ends? {act : MqttActor.Action} {actor : MqttActor} {i : ℕ}
    (h : t.actor.next rumqttc act = some actor) (ends : ends? act = some i) :
    fans rumqttc t (.actor act) = actor.calls[i]?.bind (t.subscribers.concludes t.owners i) := by
  cases act <;> cases ends <;> simp [fans, ends?, h]

theorem inbox_eq_some {k : ℕ} {use : Fanout Unit → ℕ → Option (Fanout Unit)}
    (h : t.inbox k use = some t') :
    ∃ subscribers, use t.subscribers k = some subscribers ∧ t' = { t with subscribers } := by
  simp only [inbox, Option.bind_eq_bind, Option.bind_eq_some_iff] at h
  obtain ⟨_, _, _, _, h⟩ := h
  split at h <;> try cases h
  obtain ⟨subscribers, hu, rfl⟩ := Option.map_eq_some_iff.mp h
  exact ⟨subscribers, hu, rfl⟩

theorem step_eq_some {act : MqttActor.Action} (h : t.step rumqttc fromSlice act = some t') :
    t.actor.next rumqttc act = some t'.actor ∧
      (Fanout.machine Unit fromSlice).next? t.subscribers (fans rumqttc t (.actor act)) =
        some t'.subscribers := by
  simp only [step] at h
  split at h
  case isTrue => cases h
  case isFalse hi =>
    clear hi
    replace ⟨actor, hn, h⟩ := Option.bind_eq_some_iff.mp h
    split at h
    case h_1 topic => cases h; exact ⟨hn, rfl⟩
    case h_2 topic message =>
      obtain ⟨_, hi, rfl⟩ := Option.map_eq_some_iff.mp h
      exact ⟨hn, hi⟩
    case h_3 i | h_4 i | h_5 i =>
      cases h
      rw [fans_of_ends? hn rfl]
      exact ⟨conclude_actor ▸ hn, next?_conclude⟩
    case h_6 =>
      cases h
      have none : fans rumqttc t (.actor act) = none := by cases act <;> simp_all [fans, ends?]
      rw [none]
      exact ⟨hn, rfl⟩

-- Each step of the transport is one of its actor or one of the fan-out, or both.
theorem next_eq_some (h : (machine rumqttc fromSlice).next t act = some t') :
    (∃ o, (MqttActor.machine rumqttc).next? t.actor o = some t'.actor) ∧
      (Fanout.machine Unit fromSlice).next? t.subscribers (fans rumqttc t act) =
        some t'.subscribers := by
  cases act <;> simp only [machine, next] at h
  case actor act =>
    have ⟨hn, hf⟩ := step_eq_some h
    exact ⟨⟨some act, hn⟩, hf⟩
  case trySend k =>
    obtain ⟨_, hf, rfl⟩ := Option.map_eq_some_iff.mp h
    exact ⟨⟨none, rfl⟩, hf⟩
  case writeBack =>
    obtain ⟨_, hf, rfl⟩ := Option.map_eq_some_iff.mp h
    exact ⟨⟨none, rfl⟩, hf⟩
  case recv k =>
    obtain ⟨_, hf, rfl⟩ := inbox_eq_some h
    exact ⟨⟨none, rfl⟩, hf⟩
  case dropInbox k =>
    obtain ⟨_, hf, rfl⟩ := inbox_eq_some h
    exact ⟨⟨none, rfl⟩, hf⟩

theorem subscriberMap_lawful (rumqttc : Rumqttc) (fromSlice : Bytes → Option Envelope) :
    (subscriberMap rumqttc fromSlice).Lawful where
  init := rfl
  step _ _ _ h := (next_eq_some h).right

end MqttTransport
end MomRpc
