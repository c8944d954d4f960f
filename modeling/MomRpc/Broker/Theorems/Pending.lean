import MomRpc.Broker.Theorems.Correlation

namespace MomRpc.Client

variable {ρ : Type} {inner : Inner} {c c' : Client ρ} {as : List (Action ρ)} {act : Action ρ}
  {i : ℕ} {a : Attempt} {id : String}

-- The attempt is not over, and the client task has not found its response yet.
def Awaits (c : Client ρ) (i : ℕ) (a : Attempt) : Prop :=
  a.Live ∧ a.response = none ∧ ∀ p, c.task ≠ .matched i p

-- The keys of the map are the ids of the attempts that still wait for a response.
def NoLeak (c : Client ρ) : Prop :=
  ∀ id, (c.pending id).isSome ↔ ∃ i a, c.attempts[i]? = some a ∧ a.correlationId = id ∧ c.Awaits i a

-- The action does not end an attempt that still waits for its response.
def KeepsWaiting (c : Client ρ) : Action ρ → Prop
  | .published i (.error _) _ | .timeout i _ | .closed i =>
    ∀ a, c.attempts[i]? = some a → ¬c.Awaits i a
  | .drop k =>
    ∀ call i a, c.calls[k]? = some call → call.phase = .attempting i →
      c.attempts[i]? = some a → ¬c.Awaits i a
  | _ => True

theorem pending_of_awaits (r : (machine ρ inner).Reachable c) (h : c.attempts[i]? = some a)
    (ha : c.Awaits i a) : c.pending a.correlationId = some i := by
  have ⟨_, r⟩ := r
  have ⟨_, _, _, acc⟩ := accounted r h
  unfold Accounted at acc
  split at acc <;> simp_all [Awaits]

theorem awaits_of_pending (r : (machine ρ inner).Reachable c) (h : c.attempts[i]? = some a)
    (hp : c.pending a.correlationId = some i) (live : a.Live) : c.Awaits i a := by
  have ⟨_, r⟩ := r
  have ⟨_, _, _, acc⟩ := accounted r h
  unfold Accounted at acc
  split at acc <;> simp_all [Awaits]

theorem noLeak_iff (r : (machine ρ inner).Reachable c) :
    c.NoLeak ↔ ∀ i a, c.attempts[i]? = some a → c.pending a.correlationId = some i → a.Live := by
  constructor
  case mp =>
    intro h i a ha hp
    have ⟨j, b, hb, hid, haw⟩ := h a.correlationId |>.mp (by simp [hp])
    cases correlationId_injective r ha hb hid.symm
    cases ha.symm.trans hb
    exact haw.left
  case mpr =>
    intro h id
    constructor
    case mp =>
      intro hs
      have ⟨i, hi⟩ := Option.isSome_iff_exists.mp hs
      have ⟨a, ha, hid⟩ := attempt_of_pending r hi
      subst hid
      exact ⟨i, a, ha, rfl, awaits_of_pending r ha hi (h i a ha hi)⟩
    case mpr =>
      rintro ⟨i, a, ha, rfl, haw⟩
      simp [pending_of_awaits r ha haw]

-- Only a lookup takes a sender out of the map, and only the start of an attempt puts one in.
theorem Step.pending (st : Step inner c act c') (h : c.attempts[i]? = some a)
    (hp : c'.pending a.correlationId = some i) : c.pending a.correlationId = some i := by
  cases st <;> try exact hp
  case lookup =>
    simp only [Function.update_apply] at hp
    split at hp
    · cases hp
    · exact hp
  case attempt fresh =>
    have hne := fresh a (List.mem_of_getElem? h)
    exact (Function.update_of_ne hne ..).symm.trans hp

theorem noLeak_step (r : (machine ρ inner).Reachable c) (hn : c.NoLeak)
    (h : (machine ρ inner).next c act = some c') : c'.NoLeak ↔ c.KeepsWaiting act := by
  have st := next_step h
  rw [noLeak_iff (r.next h)]
  rw [noLeak_iff r] at hn
  constructor
  case mp =>
    intro hn'
    -- An entry stays in the map when its attempt ends.
    have alive {i a} a' (ha : c.attempts[i]? = some a) (haw : c.Awaits i a)
        (ha' : c'.attempts[i]? = some a') (hid : a'.correlationId = a.correlationId)
        (hp : c'.pending = c.pending) : a'.Live :=
      hn' i a' ha' <| by rw [hid, hp]; exact pending_of_awaits r ha haw
    cases st
    case ended i b hash result handle ends =>
      have ⟨hl, _⟩ := List.getElem?_eq_some_iff.mp handle
      have ended (haw : c.Awaits i b) : False := by
        simpa [Attempt.Live] using alive _ handle haw (List.getElem?_set_self hl) rfl rfl
      cases ends
      case respond => trivial
      all_goals
        intro a ha haw
        cases handle.symm.trans ha
        exact ended haw
    case dropAttempting k i call handle attempting =>
      intro call' j a hc ha' ha haw
      cases handle.symm.trans hc
      cases attempting.symm.trans ha'
      simpa [Attempt.Live] using alive { a with phase := .dropped } ha haw (by simp [ha]) rfl rfl
    case dropIdle k call handle idle =>
      intro call' j a hc ha' ha haw
      cases handle.symm.trans hc
      simp [ha'] at idle
    all_goals trivial
  case mpr =>
    intro hk i a' ha' hp
    rcases st.change_or_attempt ha' with ⟨a, ha, ch⟩ | ⟨_, _, hp, _⟩
    case inr => exact Attempt.live_publishing hp
    case inl =>
      rw [ch.correlationId] at hp
      have hp := st.pending ha hp
      have live := hn i a ha hp
      have haw := awaits_of_pending r ha hp live
      cases ch
      case same  => exact live
      case send  => simpa [Attempt.live_iff] using live
      case await => exact Attempt.live_waiting rfl
      case ended ends =>
        cases ends
        case respond hr => simp [haw.right.left] at hr
        all_goals exact absurd haw (hk a ha)
      case drop k call drop handle attempting =>
        subst drop
        exact absurd haw (hk call i a handle attempting ha)

theorem no_leak (r : (machine ρ inner).Run as c) :
    (machine ρ inner).Always as NoLeak ↔ (machine ρ inner).Throughout as KeepsWaiting :=
  Machine.always_iff_throughout r (by simp [NoLeak, machine, init]) fun _ _ _ r hn h =>
    noLeak_step r hn h

theorem no_leak_lone :
    let as := .subscribed :: loneRequest ++ loneReceive [1] ++ [.deliver 0 [1], .respond 0]
    (machine Bytes loneClient).Always as NoLeak ↔
      (machine Bytes loneClient).Throughout as KeepsWaiting :=
  no_leak (c := _) rfl

-- An attempt that has timed out leaves its entry behind.
theorem timeout_leaks :
    ∃ c, (machine Bytes loneClient).Run (.subscribed :: loneRequest ++ [.timeout 0 0]) c ∧
      ¬c.NoLeak := by
  refine ⟨_, rfl, fun h => ?_⟩
  have ⟨i, a, ha, _, live, _⟩ := h "c" |>.mp rfl
  match i with
  | 0     => cases ha; exact live
  | _ + 1 => cases ha

end MomRpc.Client
