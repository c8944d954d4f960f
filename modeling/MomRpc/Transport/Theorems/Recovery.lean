import MomRpc.Transport.PubSub
import MomRpc.Transport.Theorems.Callers

namespace MomRpc.RedisPubSub

open RumqttcTransport

variable {redis : Redis} {l l' s : RedisPubSub redis} {act : Action} {as : List Action}
  {aact : Actor.Action RedisActor.Event (Except String Unit)} {session : Option (List String)}
  {topics : List String} {topic : String}

-- The actor has a SUBSCRIBE for the topic confirmed on a connection that is up.
def Subscribed (l : RedisPubSub redis) (topic : String) : Prop :=
  ∃ topics, l.session = some topics ∧ topic ∈ topics

-- The end of the stream is handled in the state `s`, where the broker is reachable again, and there
-- is no loss of the connection after that.
def Reconnected (redis : Redis) (as : List Action) (s : RedisPubSub redis) : Prop :=
  ∃ xs ys, as = xs ++ .actor (.task .ended) :: ys ∧ (machine redis).Run xs s ∧ s.reachable ∧
    .lost ∉ ys

-- From then on, all topics that were in the subscriber map are subscribed.
def Restored (redis : Redis) (as : List Action) (l : RedisPubSub redis) : Prop :=
  ∀ s topic, Reconnected redis as s → s.actor.subscribers.subscribers topic ≠ none →
    l.Subscribed topic

-- If the broker is reachable when the end of the stream is handled, then there are no topics.
def NothingToRestore (l : RedisPubSub redis) : Action → Prop
  | .actor (.task .ended) =>
    l.reachable → ∀ topic, l.actor.subscribers.subscribers topic = none
  | _                     => True

theorem connection_ended (h : l.connection (.task .ended) = some session) :
    l.session = none ∧ session = none := by
  simp only [connection, Option.ite_none_right_eq_some, Option.isNone_iff_eq_none] at h
  exact ⟨h.left, (Option.some.inj h.right).symm⟩

theorem connection_none (h : l.connection aact = some session) (hs : l.session = none) :
    session = none := by
  simp only [connection, hs] at h
  split at h
  · split at h <;> simp_all
  · split at h <;> simp_all
  all_goals simp_all

theorem connection_some (h : l.connection aact = some session) (hs : l.session = some topics) :
    ∃ rest, session = some (topics ++ rest) := by
  simp only [connection, hs] at h
  split at h
  · split at h
    · exact ⟨_, (Option.some.inj h).symm⟩
    · exact ⟨[], by simpa using h.symm⟩
  · split at h <;> cases h
    exact ⟨[], by simp⟩
  · cases h
  · exact ⟨[], by simpa using h.symm⟩

-- All that one step can do.
inductive Step (l : RedisPubSub redis) : Action → RedisPubSub redis → Prop
  | actor {aact session actor} (admitted : l.connection aact = some session)
    (acted : (Actor.machine (RedisActor.kind redis)).next l.actor aact = some actor) :
    Step l (.actor aact) { l with actor, session }
  | lost : Step l .lost { l with session := none, reachable := false }
  | recovered : Step l .recovered { l with reachable := true }

theorem next_step (h : (machine redis).next l act = some l') : Step l act l' := by
  cases act <;> simp only [machine, next, Option.bind_eq_bind, Option.bind_eq_some_iff] at h
  case actor =>
    obtain ⟨_, admitted, _, acted, he⟩ := h
    cases he
    exact .actor admitted acted
  case lost      => cases h; exact .lost
  case recovered => cases h; exact .recovered

theorem Step.subscribed (st : Step l act l') (ha : act ≠ .lost) (h : l.Subscribed topic) :
    l'.Subscribed topic := by
  cases st
  case lost      => exact absurd rfl ha
  case recovered => exact h
  case actor admitted _ =>
    obtain ⟨topics, hs, mem⟩ := h
    have ⟨rest, hr⟩ := connection_some admitted hs
    exact ⟨_, hr, by simp [mem]⟩

theorem Reconnected.cases (r : (machine redis).Run as l)
    (h : Reconnected redis (as ++ [act]) s) :
    (Reconnected redis as s ∧ act ≠ .lost) ∨
      (s = l ∧ act = .actor (.task .ended) ∧ l.reachable) := by
  obtain ⟨xs, ys, he, rs, hr, hl⟩ := h
  rcases List.concat_eq_append_cons_iff.mp he with ⟨zs, rfl, rfl⟩ | ⟨rfl, rfl, rfl⟩
  case inl =>
    refine .inl ⟨⟨xs, zs, rfl, rs, hr, fun h => hl <| by simp [h]⟩, fun h => hl <| by simp [h]⟩
  case inr =>
    cases rs.deterministic r
    exact .inr ⟨rfl, rfl, hr⟩

theorem restored_step (r : (machine redis).Run as l) (hr : Restored redis as l)
    (hn : (machine redis).next l act = some l') :
    Restored redis (as ++ [act]) l' ↔ l.NothingToRestore act := by
  have st := next_step hn
  constructor
  case mp =>
    intro h
    unfold NothingToRestore
    split
    case h_2 => trivial
    case h_1 =>
      intro reachable topic
      by_contra key
      have ⟨_, hs, _⟩ := h l topic ⟨as, [], rfl, r, reachable, by simp⟩ key
      cases st
      case actor admitted _ =>
        have ⟨_, lost⟩ := connection_ended admitted
        cases lost.symm.trans hs
  case mpr =>
    intro nothing s topic reconnected key
    rcases reconnected.cases r with ⟨earlier, ha⟩ | ⟨rfl, rfl, reachable⟩
    case inl => exact st.subscribed ha <| hr s topic earlier key
    case inr => exact absurd (nothing reachable topic) key

-- The subscriptions are restored in exactly those runs where there are none whenever the end of the
-- stream is handled.
theorem redis_subscriptions_restored (r : (machine redis).Run as l) :
    (machine redis).Along as (Restored redis) ↔
      (machine redis).Throughout as NothingToRestore := by
  refine Machine.along_iff_throughout r ?_ fun as l act l' r hr hn => restored_step r hr hn
  rintro s topic ⟨xs, ys, he, _⟩
  simp at he

-- A lost connection is never replaced.
theorem lost_forever (he : (machine redis).exec l as = some l') (h : l.session = none) :
    l'.session = none := by
  refine Machine.exec_stable (P := (·.session = none)) he h fun l act l' _ h hn => ?_
  cases next_step hn
  case actor admitted _ _ => exact connection_none admitted h
  case lost             => rfl
  case recovered        => exact h

-- A subscribed topic, the loss of the connection, and the end of the stream after the broker has
-- come back.
def loneLoss : List Action :=
  [.actor (.call (.subscribe "t")), .actor (.register 0), .actor (.send 0), .actor .handle,
    .actor (.execute (.ok ())), .actor (.resume 0), .lost, .recovered, .actor (.task .ended)]

theorem redis_subscriptions_restored_lone :
    (machine loneRedis).Along loneLoss (Restored loneRedis) ↔
      (machine loneRedis).Throughout loneLoss NothingToRestore :=
  redis_subscriptions_restored <| .of_isSome rfl

theorem stream_end_loses_subscription :
    ¬(machine loneRedis).Along loneLoss (Restored loneRedis) := by
  intro h
  have run : (machine loneRedis).Run loneLoss _ := .of_isSome rfl
  have before : (machine loneRedis).Run (loneLoss.take 8) _ := .of_isSome rfl
  have reconnected : Reconnected loneRedis loneLoss _ :=
    ⟨loneLoss.take 8, [], rfl, before, rfl, by simp⟩
  have key := Option.ne_none_iff_exists'.mpr ⟨[0], rfl⟩
  obtain ⟨_, hs, _⟩ := h loneLoss [] _ (by simp) run _ "t" reconnected key
  cases hs

end MomRpc.RedisPubSub
