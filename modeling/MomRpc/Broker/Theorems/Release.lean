import MomRpc.Broker.Theorems.Pending

namespace MomRpc.Client

variable {ρ : Type} {inner : Inner} {c c' : Client ρ} {as : List (Action ρ)} {act : Action ρ}
  {i : ℕ} {a : Attempt}

-- The attempt waits on its channel, which is empty.
def Waits (c : Client ρ) (i : ℕ) : Prop :=
  ∃ a : Attempt, c.attempts[i]? = some a ∧ a.phase = .waiting ∧ a.response = none

-- Once the client task has ended, an attempt that waits ends because its channel is closed, not
-- because of its timeout.
def Released (inner : Inner) (c : Client ρ) : Prop :=
  c.task = .stopped → ∀ i, c.Waits i →
    (∃ c', (machine ρ inner).next c (.closed i) = some c' ∧
      c'.attempts[i]?.map (·.phase) = some (.ended (.error Inner.closedError))) ∧
    ∀ hash, (machine ρ inner).next c (.timeout i hash) = none

-- The task does not end while an attempt waits, and no attempt begins to wait after that.
def KeepsReleased (c : Client ρ) : Action ρ → Prop
  | .subscribeFailed | .inboxClosed => ∀ i, ¬c.Waits i
  | .published i (.ok _) _          =>
    c.task = .stopped → ∀ a : Attempt, c.attempts[i]? = some a → a.response ≠ none
  | _                               => True

theorem hasSender (r : (machine ρ inner).Reachable c) (h : c.attempts[i]? = some a)
    (waiting : a.phase = .waiting) (empty : a.response = none) : c.HasSender i a := by
  by_cases hm : ∃ p, c.task = .matched i p
  case pos =>
    obtain ⟨p, hp⟩ := hm
    exact .inr <| by simp [hp]
  case neg =>
    have awaits : c.Awaits i a := ⟨a.live_waiting waiting, empty, fun p hp => hm ⟨p, hp⟩⟩
    exact .inl <| pending_of_awaits r h awaits

-- The map keeps the sender of each attempt that waits, so no attempt ever sees its channel closed.
theorem closed_unreachable (r : (machine ρ inner).Reachable c) :
    (machine ρ inner).next c (.closed i) = none := by
  cases hn : (machine ρ inner).next c (.closed i)
  case none => rfl
  case some c' =>
    cases next_step hn
    case ended a hash result handle ends =>
      cases ends
      case closed waiting empty noSender => exact absurd (hasSender r handle waiting empty) noSender

theorem released_iff (r : (machine ρ inner).Reachable c) :
    c.Released inner ↔ (c.task = .stopped → ∀ i, ¬c.Waits i) := by
  refine forall_congr' fun _ => forall_congr' fun i => ?_
  simp [closed_unreachable r]

theorem Step.stopped (st : Step inner c act c') (h : c.task = .stopped) : c'.task = .stopped := by
  cases st <;> simp_all [conclude]

theorem Step.stopped_cases (st : Step inner c act c') (h : c'.task = .stopped) :
    c.task = .stopped ∨ act = .subscribeFailed ∨ act = .inboxClosed := by
  cases st <;> simp_all [conclude]

-- An attempt begins to wait when its `publish` has returned.
theorem Step.waits (st : Step inner c act c') (h : c'.Waits i) :
    c.Waits i ∨ ∃ hash a, act = .published i (.ok ()) hash ∧ c.attempts[i]? = some a ∧
      a.response = none := by
  obtain ⟨a', ha', waiting, empty⟩ := h
  cases st <;> try exact .inl ⟨a', ha', waiting, empty⟩
  case deliver j payload _ =>
    simp only [List.getElem?_modify, Option.map_eq_map, Option.map_eq_some_iff] at ha'
    obtain ⟨a, ha, rfl⟩ := ha'
    by_cases hj : j = i
    case neg => exact .inl ⟨a, ha, by simpa [hj] using waiting, by simpa [hj] using empty⟩
    case pos =>
      simp only [hj, ↓reduceIte, Attempt.send_phase] at waiting
      simp [hj, Attempt.send, a.live_waiting waiting] at empty
  case attempt k correlationId call handle _ _ =>
    simp only [List.getElem?_append, List.getElem?_singleton] at ha'
    split at ha'
    · exact .inl ⟨a', ha', waiting, empty⟩
    · split at ha' <;> cases ha'
      cases waiting
  case published j hash a handle publishing =>
    rcases List.getElem?_set_cases ha' with ⟨rfl, rfl⟩ | ⟨_, ha'⟩
    · exact .inr ⟨hash, a, rfl, handle, empty⟩
    · exact .inl ⟨a', ha', waiting, empty⟩
  case ended j a hash result handle ends =>
    rcases List.getElem?_set_cases ha' with ⟨rfl, rfl⟩ | ⟨_, ha'⟩
    · cases waiting
    · exact .inl ⟨a', ha', waiting, empty⟩
  case dropAttempting k j call handle attempting =>
    simp only [List.getElem?_modify, Option.map_eq_map, Option.map_eq_some_iff] at ha'
    obtain ⟨a, ha, rfl⟩ := ha'
    by_cases hj : j = i
    case neg => exact .inl ⟨a, ha, by simpa [hj] using waiting, by simpa [hj] using empty⟩
    case pos => simp [hj] at waiting

theorem released_step (r : (machine ρ inner).Reachable c) (hr : c.Released inner)
    (h : (machine ρ inner).next c act = some c') : c'.Released inner ↔ c.KeepsReleased act := by
  have st := next_step h
  rw [released_iff (r.next h)]
  rw [released_iff r] at hr
  constructor
  case mp =>
    intro hr'
    cases st <;> try trivial
    case subscribeFailed | inboxClosed => exact hr' rfl
    case published i hash a handle publishing =>
      intro stopped a₀ ha empty
      obtain rfl := Option.some.inj <| handle.symm.trans ha
      have ⟨hl, _⟩ := List.getElem?_eq_some_iff.mp handle
      exact hr' stopped i ⟨_, List.getElem?_set_self hl, rfl, empty⟩
    case ended ends => cases ends <;> trivial
  case mpr =>
    intro hk stopped' i hw
    rcases st.stopped_cases stopped' with stopped | rfl | rfl
    · rcases st.waits hw with hw | ⟨hash, a, rfl, ha, empty⟩
      · exact hr stopped i hw
      · exact hk stopped a ha empty
    all_goals
      rcases st.waits hw with hw | ⟨_, _, he, _⟩
      · exact hk i hw
      · cases he

theorem waiters_released (r : (machine ρ inner).Run as c) :
    (machine ρ inner).Always as (Released inner) ↔
      (machine ρ inner).Throughout as KeepsReleased :=
  Machine.always_iff_throughout r (by simp [Released, Waits, machine, init]) fun _ _ _ r hr h =>
    released_step r hr h

theorem waiters_released_lone :
    let as := .subscribed :: loneRequest ++ loneReceive [1] ++ [.deliver 0 [1], .inboxClosed]
    (machine Bytes loneClient).Always as (Released loneClient) ↔
      (machine Bytes loneClient).Throughout as KeepsReleased :=
  waiters_released (c := _) rfl

-- The inbox closes while an attempt waits, whose sender stays in the map of the broker.
theorem closed_inbox_leaves_waiter :
    ∃ c, (machine Bytes loneClient).Run (.subscribed :: loneRequest ++ [.inboxClosed]) c ∧
      ¬c.Released loneClient := by
  have run : (machine Bytes loneClient).Run (.subscribed :: loneRequest ++ [.inboxClosed]) _ := rfl
  refine ⟨_, run, fun h => ?_⟩
  exact released_iff run.reachable |>.mp h rfl 0 ⟨_, rfl, rfl, rfl⟩

end MomRpc.Client
