import MomRpc.Broker.Theorems.Correlation

namespace MomRpc.Client

variable {ρ : Type} {inner : Inner} {c t : Client ρ} {as xs ys : List (Action ρ)} {i : ℕ}
  {a b : Attempt} {env : Envelope} {p : Bytes} {id : String}

-- The `n`-th envelope of the inbox is `env`, and it is the first one carrying the attempt's id that
-- the client task looks up after the attempt has registered.
def Answers (as : List (Action ρ)) (a : Attempt) (n : ℕ) (env : Envelope) : Prop :=
  ∃ xs ys es,
    as = xs ++ .attempt a.call a.correlationId :: ys ∧
    lookups xs ++ es ++ [env] <+: takes as ∧
    n = (lookups xs ++ es).length ∧
    env.correlationId = some a.correlationId ∧
    ∀ e ∈ es, e.correlationId ≠ some a.correlationId

namespace Answers

variable {n : ℕ} {e : Envelope}

theorem getElem? (h : Answers as a n env) : (takes as)[n]? = some env := by
  obtain ⟨xs, ys, es, _, hp, rfl, _⟩ := h
  obtain ⟨rest, hr⟩ := hp
  simp [← hr]

-- If no envelope carries an id before it is registered, the first one that carries it at all is it.
theorem first (h : Answers as a n env)
    (hu : ∀ xs ys, as = xs ++ .attempt a.call a.correlationId :: ys →
      ∀ e ∈ lookups xs, e.correlationId ≠ some a.correlationId)
    {m : ℕ} (hm : (takes as)[m]? = some e) (he : e.correlationId = some a.correlationId) :
    n ≤ m := by
  obtain ⟨xs, ys, es, rfl, ⟨rest, hr⟩, rfl, _, hes⟩ := h
  by_contra hl
  replace hl := Nat.lt_of_not_le hl
  rw [← hr, List.append_assoc, List.getElem?_append_left hl] at hm
  rcases List.mem_append.mp <| List.mem_of_getElem? hm with hx | hx
  · exact hu xs ys rfl e hx he
  · exact hes e hx he

end Answers

theorem answered (r : (machine ρ inner).Run as c) (h : c.attempts[i]? = some a)
    (he : a.phase = .ended (.ok p)) : ∃ n env, Answers as a n env ∧ env.payload = p := by
  have hr := response_of_ended r.reachable h he
  have ⟨xs, ys, hxs, acc⟩ := accounted r h
  unfold Accounted at acc
  split at acc
  case h_1 => simp_all
  case h_2 env hf =>
    have hp : env.payload = p := by simp_all
    have ⟨hc, es, fs, hes, hn⟩ := List.find?_eq_some_iff_append.mp hf
    refine ⟨_, env, ⟨xs, ys, es, hxs, ?_, rfl, by simpa using hc, by simpa using hn⟩, hp⟩
    have hl : lookups as = lookups xs ++ lookups ys := by
      simp [lookups, hxs, List.filterMap_cons, lookup?]
    rw [takes_eq r, hl, hes]
    exact ⟨fs ++ _, by simp; rfl⟩

theorem sent_response (r : (machine ρ inner).Run as c) (hs : as = xs ++ .deliver i p :: ys)
    (rt : (machine ρ inner).Run xs t) (h : t.attempts[i]? = some b) (live : b.Live) :
    (∃ a, c.attempts[i]? = some a ∧ a.response = some p) ∧
      (∀ hash, .timeout i hash ∉ ys) ∧ .closed i ∉ ys := by
  induction as, c, r using Machine.Run.induction_on generalizing ys
  case init => simp at hs
  case step as c act c' r hn ih =>
    have st := next_step hn
    obtain ⟨zs, rfl, rfl⟩ | ⟨rfl, rfl, rfl⟩ := List.concat_eq_append_cons_iff.mp hs
    case inr =>
      cases r.deterministic rt
      cases st
      case ended ends => cases ends
      case deliver => exact ⟨⟨b.send p, by simp [h], by simp [Attempt.send, live]⟩, by simp⟩
    case inl =>
      obtain ⟨⟨a, ha, hr⟩, ht, hc⟩ := ih rfl
      obtain ⟨a', ha', ch⟩ := st.change ha
      refine ⟨⟨a', ha', ?_⟩, fun hash hm => ?_, fun hm => ?_⟩
      · by_cases hd : ∃ q, act = .deliver i q
        case neg => exact (ch.response fun q hq => hd ⟨q, hq⟩).trans hr
        case pos =>
          -- Its sender has been used up, it cannot be with the client task once more.
          obtain ⟨q, rfl⟩ := hd
          obtain ⟨_, _, _, acc⟩ := accounted r ha
          cases st
          case ended ends => cases ends
          case deliver matched => unfold Accounted at acc; split at acc <;> simp_all
      · obtain rfl : act = .timeout i hash := by simpa [ht, eq_comm] using hm
        cases st
        case ended handle ends => cases ends; simp_all
      · obtain rfl : act = .closed i := by simpa [hc, eq_comm] using hm
        cases st
        case ended handle ends => cases ends; simp_all

theorem respond_isSome (h : c.attempts[i]? = some a) (hr : a.response = some p)
    (hw : a.phase = .waiting) : ((machine ρ inner).next c (.respond i)).isSome := by
  simp [machine, next, respond, h, hw, hr]

theorem idle_of_take (h : (machine ρ inner).next c (.take env) = some t) : c.task = .idle := by
  cases next_step h
  case ended ends => cases ends
  case take idle => exact idle

-- Between taking an envelope and sending its payload, the client task does nothing else.
theorem taken_response (r : (machine ρ inner).Run as c) (hs : as = xs ++ .take env :: ys)
    (rt : (machine ρ inner).Run xs t) (hp : t.pending id = some i)
    (hc : env.correlationId = some id) :
    (c.task = .taken env ∧ c.pending id = some i) ∨ c.task = .matched i env.payload ∨
      .deliver i env.payload ∈ ys := by
  induction as, c, r using Machine.Run.induction_on generalizing ys
  case init => simp at hs
  case step as c act c' r hn ih =>
    have st := next_step hn
    obtain ⟨zs, rfl, rfl⟩ | ⟨rfl, rfl, rfl⟩ := List.concat_eq_append_cons_iff.mp hs
    case inr =>
      cases r.deterministic rt
      cases st
      case ended ends => cases ends
      case take => exact .inl ⟨rfl, hp⟩
    case inl =>
      rcases ih rfl with ⟨ht, hp'⟩ | hm | hd
      · cases st
        case ended => exact .inl ⟨ht, hp'⟩
        case attempt k id' call handle ready fresh =>
          have ⟨b, hb, hid⟩ := attempt_of_pending r.reachable hp'
          have hne := hid ▸ fresh b (List.mem_of_getElem? hb)
          exact .inl ⟨ht, (Function.update_of_ne hne ..).trans hp'⟩
        all_goals simp_all
      · cases st
        case ended => exact .inr <| .inl hm
        all_goals simp_all
      · exact .inr <| .inr <| List.mem_append_left _ hd

-- What holds of the calls on all clones of one broker, whatever the inbox brings: an attempt only
-- completes with the first envelope carrying its id that the client task looks up after it has
-- registered; the client task sends the payload of such an envelope to the attempt; if this happens
-- before the attempt is over, then it neither times out nor completes with anything else; and no
-- envelope completes two attempts, nor a call with the response to an earlier attempt.
structure ResponseCorrelation (inner : Inner) (as : List (Action ρ)) (c : Client ρ) : Prop where
  completed : ∀ (i : ℕ) (a : Attempt) p, c.attempts[i]? = some a → a.phase = .ended (.ok p) →
    ∃ n env, Answers as a n env ∧ env.payload = p
  first : ∀ (a : Attempt) n m env e, Answers as a n env →
    (∀ xs ys, as = xs ++ .attempt a.call a.correlationId :: ys →
      ∀ e ∈ lookups xs, e.correlationId ≠ some a.correlationId) →
    (takes as)[m]? = some e → e.correlationId = some a.correlationId → n ≤ m
  taken : ∀ xs env ys (t : Client ρ) (i : ℕ) (b : Attempt), as = xs ++ .take env :: ys →
    (machine ρ inner).Run xs t → t.attempts[i]? = some b → b.Live → b.response = none →
    env.correlationId = some b.correlationId →
    c.task = .taken env ∨ c.task = .matched i env.payload ∨ .deliver i env.payload ∈ ys
  sent : ∀ xs i p ys (t : Client ρ) (b : Attempt), as = xs ++ .deliver i p :: ys →
    (machine ρ inner).Run xs t → t.attempts[i]? = some b → b.Live →
    (∀ hash, .timeout i hash ∉ ys) ∧ .closed i ∉ ys ∧
      ∃ a : Attempt, c.attempts[i]? = some a ∧
        (a.phase = .waiting → ((machine ρ inner).next c (.respond i)).isSome) ∧
        (∀ q, a.phase = .ended (.ok q) → q = p)
  once : ∀ (i j : ℕ) (a b : Attempt) n env e, c.attempts[i]? = some a → c.attempts[j]? = some b →
    Answers as a n env → Answers as b n e → i = j
  latest : ∀ (k : ℕ) (call : Call ρ) v, c.calls[k]? = some call →
    call.phase = .returned (.ok v) →
    ∃ (i : ℕ) (a : Attempt) (p : Bytes), c.attempts[i]? = some a ∧ a.call = k ∧
      a.phase = .ended (.ok p) ∧ call.fromSlice p = .ok v ∧ c.Latest k i

theorem response_correlation (r : (machine ρ inner).Run as c) : ResponseCorrelation inner as c where
  completed _ _ _ h he := answered r h he
  first _ _ _ _ _ h hu hm hc := h.first hu hm hc
  taken xs env ys t i b hs rt hb live empty hc := by
    have hp : t.pending b.correlationId = some i := by
      have ⟨_, _, _, acc⟩ := accounted rt hb
      have idle : t.task = .idle := by
        subst hs
        have ⟨_, h, _⟩ := r.next rt
        exact idle_of_take h
      unfold Accounted at acc
      split at acc <;> simp_all
    rcases taken_response r hs rt hp hc with ⟨ht, _⟩ | hm | hd
    · exact .inl ht
    · exact .inr <| .inl hm
    · exact .inr <| .inr hd
  sent xs i p ys t b hs rt h live := by
    have ⟨⟨a, ha, hr⟩, ht, hc⟩ := sent_response r hs rt h live
    refine ⟨ht, hc, a, ha, respond_isSome ha hr, fun q hq => ?_⟩
    have := response_of_ended r.reachable ha hq
    simp_all
  once i j a b n env e ha hb h h' := by
    obtain rfl := Option.some.inj <| h.getElem?.symm.trans h'.getElem?
    obtain ⟨_, _, _, _, _, _, hc, _⟩ := h
    obtain ⟨_, _, _, _, _, _, hc', _⟩ := h'
    exact correlationId_injective r.reachable ha hb <| Option.some.inj <| hc.symm.trans hc'
  latest k call v h hv := by
    have := settled r.reachable h
    rwa [Settled, hv] at this

theorem response_correlation_lone :
    let as := .subscribed :: loneRequest ++ loneReceive [1] ++ [.deliver 0 [1], .respond 0]
    ∃ c a, (machine Bytes loneClient).Run as c ∧ c.attempts[0]? = some a ∧
      ∃ n env, Answers as a n env ∧ env.payload = [1] := by
  intro as
  have run : (machine Bytes loneClient).Run as _ := rfl
  exact ⟨_, _, run, rfl, (response_correlation run).completed 0 _ [1] rfl rfl⟩

-- Neither is it the first envelope taken that counts, if that one came before the attempt, nor does
-- the attempt complete with an envelope taken while it waits, if its timeout comes before the send.
theorem guessed_and_late_response :
    (let as := .subscribed :: loneReceive [1] ++ loneRequest ++ loneReceive [2] ++
        [.deliver 0 [2], .respond 0]
      ∃ c a, (machine Bytes loneClient).Run as c ∧ c.attempts[0]? = some a ∧
        a.correlationId = "c" ∧ takes as = [loneResponse [1], loneResponse [2]] ∧
        a.phase = .ended (.ok [2])) ∧
    (let xs := .subscribed :: loneRequest
      let ys := [.timeout 0 0, .lookup (loneResponse [1]), .deliver 0 [1]]
      ∃ t a c b, (machine Bytes loneClient).Run xs t ∧ t.attempts[0]? = some a ∧
        a.correlationId = "c" ∧ a.phase = .waiting ∧
        (machine Bytes loneClient).Run (xs ++ .take (loneResponse [1]) :: ys) c ∧
        c.attempts[0]? = some b ∧ b.phase = .ended (.error .timeout)) :=
  ⟨⟨_, _, rfl, rfl, rfl, rfl, rfl⟩, ⟨_, _, _, _, rfl, rfl, rfl, rfl, rfl, rfl, rfl⟩⟩

end MomRpc.Client
