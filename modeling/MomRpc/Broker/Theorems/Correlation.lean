import MomRpc.Lib.History
import MomRpc.Broker.Theorems.Calls

namespace MomRpc.Client

variable {ρ : Type} {inner : Inner} {c c' : Client ρ} {as ys : List (Action ρ)} {act : Action ρ}
  {i j : ℕ} {a a' b : Attempt} {id : String} {payload : Bytes}

def lookup? : Action ρ → Option Envelope
  | .lookup env => some env
  | _           => none

def take? : Action ρ → Option Envelope
  | .take env => some env
  | _         => none

-- The envelopes that the client task has looked up, and those it has taken from its inbox.
def lookups (as : List (Action ρ)) : List Envelope :=
  as.filterMap lookup?

def takes (as : List (Action ρ)) : List Envelope :=
  as.filterMap take?

def firstCarrying (id : String) (envs : List Envelope) : Option Envelope :=
  envs.find? (·.correlationId = some id)

theorem firstCarrying_lookups_concat :
    firstCarrying id (lookups (as ++ [act])) =
      (firstCarrying id (lookups as)).or ((lookup? act).filter (·.correlationId = some id)) := by
  rw [lookups, List.filterMap_append, firstCarrying, List.find?_append]
  cases h : lookup? act <;> simp [h, firstCarrying, lookups, Option.filter]

theorem attempt_of_pending (r : (machine ρ inner).Reachable c) (h : c.pending id = some i) :
    ∃ a, c.attempts[i]? = some a ∧ a.correlationId = id := by
  induction c, r using Machine.Reachable.induction_on generalizing i id
  case init => simp [machine, init] at h
  case step c act c' r hs ih =>
    have st := next_step hs
    have keep {id i} (hp : c.pending id = some i) :
        ∃ a, c'.attempts[i]? = some a ∧ a.correlationId = id := by
      obtain ⟨a, ha, hi⟩ := ih hp
      obtain ⟨a', ha', ch⟩ := st.change ha
      exact ⟨a', ha', ch.correlationId.trans hi⟩
    cases st <;> try exact keep h
    case lookup env id' tx taken carries pending =>
      simp only [Function.update_apply] at h
      split at h
      · cases h
      · exact keep h
    case attempt k id' call handle ready fresh =>
      simp only [Function.update_apply] at h
      split at h
      · cases h; simp [*]
      · exact keep h

theorem attempt_of_matched (r : (machine ρ inner).Reachable c) (h : c.task = .matched i payload) :
    ∃ a, c.attempts[i]? = some a := by
  induction c, r using Machine.Reachable.induction_on
  case init => simp [machine, init] at h; split at h <;> cases h
  case step c act c' r hs ih =>
    have st := next_step hs
    have keep (hm : c.task = .matched i payload) : ∃ a, c'.attempts[i]? = some a := by
      obtain ⟨a, ha⟩ := ih hm
      obtain ⟨a', ha', _⟩ := st.change ha
      exact ⟨a', ha'⟩
    cases st <;> first | exact keep h | cases h
    case lookup env id tx taken carries pending =>
      obtain ⟨a, ha, _⟩ := attempt_of_pending r pending
      exact ⟨a, ha⟩

theorem correlationId_injective (r : (machine ρ inner).Reachable c) (ha : c.attempts[i]? = some a)
    (hb : c.attempts[j]? = some b) (h : a.correlationId = b.correlationId) : i = j := by
  induction c, r using Machine.Reachable.induction_on generalizing a b i j
  case init => simp [machine, init] at ha
  case step c act c' r hs ih =>
    have st := next_step hs
    rcases st.change_or_attempt ha with ⟨a', ha', cha⟩ | ⟨rfl, _, _, _, fresh⟩ <;>
      rcases st.change_or_attempt hb with ⟨b', hb', chb⟩ | ⟨rfl, _, _, _, fresh'⟩
    · exact ih ha' hb' <| by rw [← cha.correlationId, ← chb.correlationId, h]
    · exact absurd (cha.correlationId.symm.trans h) (fresh' _ <| List.mem_of_getElem? ha')
    · exact absurd (chb.correlationId.symm.trans h.symm) (fresh _ <| List.mem_of_getElem? hb')
    · rfl

-- The first envelope carrying an attempt's id that is looked up once the attempt has registered
-- takes the sender out of the map. `ys` is the part of the run since the registration.
def Accounted (ys : List (Action ρ)) (c : Client ρ) (i : ℕ) (a : Attempt) : Prop :=
  match firstCarrying a.correlationId (lookups ys) with
  | none     => c.pending a.correlationId = some i ∧ a.response = none ∧ ∀ p, c.task ≠ .matched i p
  | some env =>
    c.pending a.correlationId = none ∧
      ((c.task = .matched i env.payload ∧ a.response = none) ∨
        ((∀ p, c.task ≠ .matched i p) ∧
          (a.response = some env.payload ∨ (a.response = none ∧ ¬a.Live))))

theorem Accounted.frame (h : Accounted ys c i a) (ch : Change inner c act i a a')
    (hc : (lookup? act).filter (·.correlationId = some a.correlationId) = none)
    (hd : ∀ p, act ≠ .deliver i p) (hp : c'.pending a.correlationId = c.pending a.correlationId)
    (ht : ∀ p, c'.task = .matched i p ↔ c.task = .matched i p) :
    Accounted (ys ++ [act]) c' i a' := by
  have hl := ch.live
  simp only [Accounted, ch.correlationId, firstCarrying_lookups_concat, hc, hp, ht, ch.response hd,
    Option.or_none, ne_eq] at h ⊢
  split <;> simp_all
  grind

theorem Accounted.step (r : (machine ρ inner).Reachable c) (st : Step inner c act c')
    (ha : c.attempts[i]? = some a) (ha' : c'.attempts[i]? = some a') (h : Accounted ys c i a) :
    Accounted (ys ++ [act]) c' i a' := by
  obtain ⟨_, ha'', ch⟩ := st.change ha
  cases ha''.symm.trans ha'
  cases st
  case subscribed starting      => exact h.frame ch rfl nofun rfl (by simp [starting])
  case subscribeFailed starting => exact h.frame ch rfl nofun rfl (by simp [starting])
  case take idle                => exact h.frame ch rfl nofun rfl (by simp [idle])
  case inboxClosed idle         => exact h.frame ch rfl nofun rfl (by simp [idle])
  case request                  => exact h.frame ch rfl nofun rfl fun _ => .rfl
  case published                => exact h.frame ch rfl nofun rfl fun _ => .rfl
  case wake                     => exact h.frame ch rfl nofun rfl fun _ => .rfl
  case dropIdle                 => exact h.frame ch rfl nofun rfl fun _ => .rfl
  case dropAttempting           => exact h.frame ch rfl nofun rfl fun _ => .rfl
  case ended ends               => cases ends <;> exact h.frame ch rfl nofun rfl fun _ => .rfl
  case attempt k id call handle ready fresh =>
    have hne := fresh a <| List.mem_of_getElem? ha
    exact h.frame ch rfl nofun (Function.update_of_ne hne ..) fun _ => .rfl
  case ignore env taken unknown =>
    by_cases hc : env.correlationId = some a.correlationId
    case neg => exact h.frame ch (by simp [lookup?, hc]) nofun rfl (by simp [taken])
    case pos =>
      -- Without a sender in the map the attempt's response has been looked up before.
      have hu := unknown _ hc
      rw [Accounted] at h ⊢
      rw [firstCarrying_lookups_concat, ch.correlationId, ch.response nofun]
      cases hh : firstCarrying a.correlationId (lookups ys) <;> simp_all
  case lookup env id tx taken carries pending =>
    have ⟨b, hb, hid⟩ := attempt_of_pending r pending
    by_cases hc : id = a.correlationId
    case neg =>
      have hi : tx ≠ i := by rintro rfl; simp_all
      refine h.frame ch ?_ nofun ?_ ?_
      · simp [lookup?, carries, hc]
      · simp [Ne.symm hc]
      · simp [taken, hi]
    case pos =>
      subst hc
      obtain rfl := correlationId_injective r hb ha hid
      have hf : Option.filter (·.correlationId = some a.correlationId) (some env) = some env :=
        Option.filter_some_pos <| by simp [carries]
      rw [Accounted] at h ⊢
      rw [firstCarrying_lookups_concat, ch.correlationId, ch.response nofun, lookup?, hf]
      cases hh : firstCarrying a.correlationId (lookups ys) <;> simp_all
  case deliver j payload matched =>
    by_cases hj : j = i
    case pos =>
      subst hj
      obtain rfl : a.send payload = a' := by simpa [ha] using ha'
      rw [Accounted] at h ⊢
      rw [firstCarrying_lookups_concat, Attempt.send_correlationId]
      cases hh : firstCarrying a.correlationId (lookups ys) <;> by_cases hl : a.Live
      all_goals simp_all [lookup?, Attempt.send]
    case neg => exact h.frame ch rfl (by simp [hj]) rfl (by simp [matched, hj])

theorem accounted (r : (machine ρ inner).Run as c) (h : c.attempts[i]? = some a) :
    ∃ xs ys, as = xs ++ .attempt a.call a.correlationId :: ys ∧ Accounted ys c i a := by
  induction as, c, r using Machine.Run.induction_on generalizing a
  case init => simp [machine, init] at h
  case step as c act c' r hs ih =>
    have st := next_step hs
    rcases st.change_or_attempt h with ⟨b, hb, ch⟩ | ⟨rfl, rfl, hp, hr, _⟩
    case inl =>
      obtain ⟨xs, ys, he, acc⟩ := ih hb
      refine ⟨xs, ys ++ [act], ?_, acc.step r.reachable st hb h⟩
      rw [he, ch.call, ch.correlationId, List.append_assoc, List.cons_append]
    case inr =>
      refine ⟨as, [], rfl, ?_⟩
      cases st
      case ended ends => cases ends
      case attempt handle _ fresh =>
        simp only [Accounted, lookups, firstCarrying, List.filterMap_nil, List.find?_nil,
          Function.update_self, hr, true_and, ne_eq]
        intro p hm
        obtain ⟨b, hb⟩ := attempt_of_matched r.reachable hm
        simp at hb

theorem response_of_ended {p : Bytes} (r : (machine ρ inner).Reachable c)
    (h : c.attempts[i]? = some a) (he : a.phase = .ended (.ok p)) : a.response = some p := by
  induction c, r using Machine.Reachable.induction_on generalizing a
  case init => simp [machine, init] at h
  case step c act c' r hs ih =>
    have st := next_step hs
    rcases st.change_or_attempt h with ⟨b, hb, ch⟩ | ⟨_, _, hp, _⟩
    case inr => simp [hp] at he
    case inl =>
      cases ch
      case same  => exact ih hb he
      case await => simp at he
      case drop  => simp at he
      case send payload _ =>
        have hl : ¬b.Live := by simp_all [Attempt.Live]
        simpa [Attempt.send, hl] using ih hb (by simpa using he)
      case ended ends => cases ends <;> simp_all

theorem takes_eq (r : (machine ρ inner).Run as c) :
    takes as = lookups as ++ match c.task with
      | .taken env => [env]
      | _          => [] := by
  induction as, c, r using Machine.Run.induction_on
  case init => cases h : inner.mode.requests <;> simp [machine, init, h, takes, lookups]
  case step as c act c' r hs ih =>
    rw [takes, lookups, List.filterMap_concat, List.filterMap_concat, ← takes, ← lookups, ih]
    cases next_step hs
    case ended ends => cases ends <;> simp [take?, lookup?, conclude]
    all_goals simp_all [take?, lookup?]

-- A client without retries, a call of it and the responses to its only attempt.
def loneClient : Inner where
  nodeId := "n"
  mode   := .client

def loneResponse (payload : Bytes) : Envelope :=
  .response ⟨responsesName "n"⟩ payload "c" "application/json"

def loneRequest : List (Action Bytes) :=
  [.request "t" "m" (.ok []) .ok, .attempt 0 "c", .published 0 (.ok ()) 0]

def loneReceive (payload : Bytes) : List (Action Bytes) :=
  [.take (loneResponse payload), .lookup (loneResponse payload)]

end MomRpc.Client
