import MomRpc.Transport.Carrier
import MomRpc.Transport.Theorems.Turns

namespace MomRpc

open RumqttcTransport (MethodCall)

theorem RumqttcTransport.MethodCall.cmd_publish {c : MethodCall} {env : Envelope} {i resp : ℕ}
    (h : c.cmd i = .publish env resp) : c.method = .publish env := by
  simp only [MethodCall.cmd] at h
  split at h <;> cases h
  assumption

namespace Carrier

variable {C : Carrier} {as : List C.Action} {s : C.State} {a : C.Action} {topic : String}
  {env : Envelope} {p : Packet}

theorem Arrived.concat (h : C.Arrived as topic env) : C.Arrived (as ++ [a]) topic env :=
  let ⟨p, hp, h⟩ := h
  ⟨p, hp.concat, h⟩

theorem Arrived.last (r : C.machine.Run as s) (h : C.arrives s a = some p)
    (decoded : C.decode p.payload = some env) : C.Arrived (as ++ [a]) p.topic env :=
  ⟨p, .last r h, rfl, decoded⟩

end Carrier

namespace Fanout

variable {ι : Type} {f f' : Fanout ι} {P Q : String → Envelope → Prop}

-- Whatever is in an inbox, or on its way there, has the property for its topic.
structure Sourced (P : String → Envelope → Prop) (f : Fanout ι) : Prop where
  inbox    : ∀ (k : ℕ) h env, f.handles[k]? = some h → env ∈ h.inbox.contents →
    P h.subscription.name env
  incoming : ∀ w topic env senders rest survivors,
    f.incoming w = .sending topic env senders rest survivors → P topic env

theorem Sourced.mono (src : f.Sourced P) (h : ∀ topic env, P topic env → Q topic env) :
    f.Sourced Q where
  inbox k g env hg hm := h _ _ <| src.inbox k g env hg hm
  incoming w topic env senders rest survivors hw :=
    h _ _ <| src.incoming w topic env senders rest survivors hw

theorem Sourced.set {i : ℕ} {h : SubscriptionHandle} {inbox : Mailbox Envelope inboxCapacity}
    (src : f.Sourced P) (handle : f.handles[i]? = some h)
    (given : ∀ env ∈ inbox.contents, env ∈ h.inbox.contents ∨ P h.subscription.name env) :
    { f with handles := f.handles.set i { h with inbox } }.Sourced P where
  inbox k g env hg hm := by
    rcases List.getElem?_set_cases hg with ⟨rfl, rfl⟩ | ⟨_, hg⟩
    · exact (given env hm).elim (src.inbox k h env handle) id
    · exact src.inbox k g env hg hm
  incoming := src.incoming

theorem Sourced.put {i : ℕ} {h : SubscriptionHandle} {inbox : Mailbox Envelope inboxCapacity}
    {topic : String} {env : Envelope} (src : f.Sourced P) (ht : f.HasTopic topic i)
    (handle : f.handles[i]? = some h) (accepted : h.inbox.trySend env = some inbox)
    (new : P topic env) : { f with handles := f.handles.set i { h with inbox } }.Sourced P := by
  refine src.set handle fun env' hm => ?_
  rw [Mailbox.trySend_contents accepted, List.mem_append, List.mem_singleton] at hm
  refine hm.imp_right fun he => ?_
  obtain ⟨_, hh, ht⟩ := ht
  cases handle.symm.trans hh
  exact he ▸ ht ▸ new

variable [DecidableEq ι] {decode : Bytes → Option Envelope} {act : Action ι}

theorem Sourced.update {w : ι} {incoming : Incoming} (src : f.Sourced P)
    (given : ∀ topic env senders rest survivors,
      incoming = .sending topic env senders rest survivors → P topic env) :
    { f with incoming := Function.update f.incoming w incoming }.Sourced P where
  inbox := src.inbox
  incoming v topic env senders rest survivors hv := by
    by_cases hw : v = w
    case pos =>
      subst hw
      exact given topic env senders rest survivors <| by simpa using hv
    case neg => exact src.incoming v topic env senders rest survivors <| by simpa [hw] using hv

theorem Step.sourced (st : Step decode f act f')
    (listed : ∀ w i topic env senders rest survivors, act = .trySend w i →
      f.incoming w = .sending topic env senders (i :: rest) survivors → f.HasTopic topic i)
    (new : ∀ w topic message env, act = .incoming w topic message → decode message = some env →
      P topic env)
    (src : f.Sourced P) : f'.Sourced P := by
  cases st
  case ignore => exact src
  case subscribe topic =>
    refine ⟨fun k h env hk hm => ?_, src.incoming⟩
    rcases List.getElem?_concat_cases hk with hk | ⟨_, rfl⟩
    · exact src.inbox k h env hk hm
    · simp [Mailbox.contents] at hm
  case snapshot w topic message env senders _ decoded _ =>
    refine src.update fun _ _ _ _ _ he => ?_
    cases he
    exact new w topic message env rfl decoded
  case sent w i topic env senders rest survivors h inbox sending handle accepted =>
    have sourced := src.incoming _ _ _ _ _ _ sending
    have ht := listed _ _ _ _ _ _ _ rfl sending
    refine (src.put ht handle accepted sourced).update fun _ _ _ _ _ he => ?_
    cases he
    exact sourced
  case evicted sending _ _ =>
    refine src.update fun _ _ _ _ _ he => ?_
    cases he
    exact src.incoming _ _ _ _ _ _ sending
  case finish =>
    refine src.update fun _ _ _ _ _ he => ?_
    cases he
  case writeBack w _ _ _ _ _ _ =>
    have idle : { f with incoming := Function.update f.incoming w .idle }.Sourced P := by
      refine src.update fun _ _ _ _ _ he => ?_
      cases he
    exact ⟨idle.inbox, idle.incoming⟩
  case recv handle received =>
    exact src.set handle fun _ hm => .inl <| Mailbox.recv_contents received ▸ hm
  case drop handle =>
    refine src.set handle fun _ hm => .inl ?_
    simp only [Mailbox.contents, Mailbox.drop, List.append_nil] at hm
    exact List.mem_append_left _ hm

-- The users of the inboxes bring nothing new.
theorem Step.sourced_of_user (st : Step decode f act f') (user : act.worker? = none)
    (src : f.Sourced P) : f'.Sourced P := by
  refine st.sourced ?_ ?_ src
  · rintro w i _ _ _ _ _ rfl
    cases user
  · rintro w _ _ _ rfl
    cases user

theorem Sourced.conclude {owners : List ℕ} {i : ℕ} {c : MethodCall} (src : f.Sourced P) :
    (f.conclude owners i c).Sourced P := by
  rcases conclude_cases (f := f) (i := i) (c := c) with he | ⟨k, h⟩
  · rw [he]
    exact src
  · have st : Step (fun _ => none) f (.drop k) _ := next_step h
    exact st.sourced_of_user rfl src

section Topics

variable {ι : Type} {f f' : Fanout ι} {calls calls' : List MethodCall} {owners : List ℕ}

def topics (f : Fanout ι) : List String :=
  f.handles.map (·.subscription.name)

theorem hasTopic_iff {topic : String} {k : ℕ} :
    f.HasTopic topic k ↔ f.topics[k]? = some topic := by
  simp [HasTopic, topics, Subscription.ext_iff]

theorem topics_set {i : ℕ} {h : SubscriptionHandle} {inbox : Mailbox Envelope inboxCapacity}
    (handle : f.handles[i]? = some h) :
    { f with handles := f.handles.set i { h with inbox } }.topics = f.topics := by
  simp only [topics, List.map_set]
  exact List.set_eq_self_of_getElem? <| by simp [handle]

theorem topics_recv {k : ℕ} (h : f.recv k = some f') : f'.topics = f.topics := by
  simp only [recv, Option.bind_eq_bind, Option.bind_eq_some_iff] at h
  obtain ⟨_, handle, _, _, he⟩ := h
  cases he
  exact topics_set handle

theorem topics_drop {k : ℕ} (h : f.drop k = some f') : f'.topics = f.topics := by
  obtain ⟨_, handle, rfl⟩ := Option.map_eq_some_iff.mp h
  exact topics_set handle

theorem topics_trySend [DecidableEq ι] {w : ι} {i : ℕ} (h : f.trySend w i = some f') :
    f'.topics = f.topics := by
  have st : Step (fun _ => none) f (.trySend w i) f' := next_step h
  cases st
  case sent handle _ => exact topics_set handle
  case evicted => rfl

theorem topics_conclude {i : ℕ} {c : MethodCall} : (f.conclude owners i c).topics = f.topics := by
  rcases conclude_cases (f := f) (i := i) (c := c) with he | ⟨k, h⟩
  · rw [he]
  · exact topics_drop h

-- Each handle belongs to the call of `subscribe` that has made it.
def Owned (f : Fanout ι) (calls : List MethodCall) (owners : List ℕ) : Prop :=
  List.Forall₂
    (fun i topic => ∃ c : MethodCall, calls[i]? = some c ∧ c.method = .subscribe topic)
    owners f.topics

-- The calls keep their places and their methods.
def Keeps (calls calls' : List MethodCall) : Prop :=
  ∀ (i : ℕ) (c : MethodCall), calls[i]? = some c →
    ∃ c' : MethodCall, calls'[i]? = some c' ∧ c'.method = c.method

theorem Owned.keep (ow : f.Owned calls owners) (keeps : Keeps calls calls')
    (same : f'.topics = f.topics) : f'.Owned calls' owners := by
  rw [Owned, same]
  refine List.Forall₂.imp ?_ ow
  rintro i topic ⟨c, h, hm⟩
  have ⟨c', h', hm'⟩ := keeps i c h
  exact ⟨c', h', hm'.trans hm⟩

theorem Owned.subscribe {i : ℕ} {topic : String} {c : MethodCall} (ow : f.Owned calls owners)
    (keeps : Keeps calls calls') (handle : calls'[i]? = some c)
    (method : c.method = .subscribe topic) :
    (f.subscribe topic).Owned calls' (owners ++ [i]) := by
  have ow : f.Owned calls' owners := ow.keep keeps rfl
  have new : ∃ c : MethodCall, calls'[i]? = some c ∧ c.method = .subscribe topic :=
    ⟨c, handle, method⟩
  simpa [Owned, topics] using List.rel_append ow <| .cons new .nil

theorem Owned.call {k i : ℕ} {h : SubscriptionHandle} (ow : f.Owned calls owners)
    (owner : owners[k]? = some i) (handle : f.handles[k]? = some h) :
    ∃ c : MethodCall, calls[i]? = some c ∧ c.method = .subscribe h.subscription.name := by
  have ht : f.topics[k]? = some h.subscription.name := by simp [topics, handle]
  obtain ⟨_, rfl⟩ := List.getElem?_eq_some_iff.mp owner
  obtain ⟨_, he⟩ := List.getElem?_eq_some_iff.mp ht
  exact he ▸ ow.get _ _

end Topics

section Works

variable {ι : Type} [DecidableEq ι] {decode : Bytes → Option Envelope}
  {P : String → Envelope → Prop} {f f' : Fanout ι}

-- What a task may do to the subscribers, if all that it takes has the property.
inductive Works (decode : Bytes → Option Envelope) (P : String → Envelope → Prop) (f : Fanout ι) :
    Fanout ι → Prop
  | same : Works decode P f f
  | incoming {w topic message f'} (new : ∀ env, decode message = some env → P topic env)
    (taken : f.handleIncoming decode w topic message = some f') : Works decode P f f'
  | trySend {w i f'} (sent : f.trySend w i = some f') : Works decode P f f'
  | writeBack {w f'} (written : f.writeBack w = some f') : Works decode P f f'

theorem Works.sourced (r : (machine ι decode).Reachable f) (works : Works decode P f f')
    (src : f.Sourced P) : f'.Sourced P := by
  have step (act : Action ι) (h : next decode f act = some f')
      (new : ∀ w topic message env, act = .incoming w topic message → decode message = some env →
        P topic env) : f'.Sourced P := by
    have st : Step decode f act f' := next_step h
    refine st.sourced (fun w i topic env senders rest survivors _ hw => ?_) new src
    exact ((listed r).right w topic env senders _ survivors hw).hasTopic i <| by simp
  cases works
  case same => exact src
  case incoming w topic message new taken =>
    refine step (.incoming w topic message) taken fun _ _ _ env he decoded => ?_
    cases he
    exact new env decoded
  case trySend w i sent   => exact step (.trySend w i) sent nofun
  case writeBack w written => exact step (.writeBack w) written nofun

theorem Works.topics (works : Works decode P f f') : f'.topics = f.topics := by
  cases works
  case same => rfl
  case incoming w topic message _ taken =>
    have st : Step decode f (.incoming w topic message) f' := next_step taken
    cases st <;> rfl
  case trySend sent => exact topics_trySend sent
  case writeBack w written =>
    have st : Step decode f (.writeBack w) f' := next_step written
    cases st <;> rfl

end Works
end Fanout

namespace Actor

open Fanout (Keeps)

variable {ι σ α τ : Type} [DecidableEq ι] {kind : ActorKind ι σ α τ} {m m' : Actor kind}
  {act : Action α τ} {as : List (Action α τ)} {P : String → Envelope → Prop}
  {encode : Envelope → Option Packet} {sends : Envelope → τ → Option Packet}
  {decode : Bytes → Option Envelope}
  {received : σ → α → Option Packet} {Kept : (String → Envelope → Prop) → σ → Prop}

omit [DecidableEq ι] in
theorem Step.keeps (st : Step m act m') : Keeps m.calls m'.calls := by
  intro i c h
  have ⟨c', h', ch⟩ := st.change_of_call h
  exact ⟨c', h', ch.method⟩

omit [DecidableEq ι] in
theorem Step.use? (st : Step m act m') {method : RumqttcTransport.Method}
    (h : use? act = some (.call method)) :
    ∃ c : MethodCall, m'.calls[m.calls.length]? = some c ∧ c.method = method := by
  cases st <;> simp only [Actor.use?, reduceCtorEq, Option.some.injEq, Carrier.Use.call.injEq] at h
  case call => exact ⟨_, List.getElem?_concat_length, h⟩
  case subscribe => exact ⟨_, List.getElem?_concat_length, h⟩
  case caller caller => cases act <;> cases caller <;> cases h

-- What the tasks have at hand comes from what they have received. `Kept` is the part of it which
-- they have not handed over to the subscribers.
structure Sources (kind : ActorKind ι σ α τ) (decode : Bytes → Option Envelope)
    (received : σ → α → Option Packet) (Kept : (String → Envelope → Prop) → σ → Prop) : Prop where
  init    : ∀ P, Kept P kind.init
  mono    : ∀ P Q s, (∀ topic env, P topic env → Q topic env) → Kept P s → Kept Q s
  start   : ∀ P s cmd, Kept P s → Kept P (kind.start s cmd).1
  execute : ∀ P s cmd outcome s' result, kind.execute s cmd outcome = some (s', result) →
    Kept P s → Kept P s'
  finish  : ∀ P s s', kind.finish s = some s' → Kept P s → Kept P s'
  task    : ∀ P (m : Actor kind) a s' f' lock', (machine kind).Reachable m →
    kind.task m.phase m.state m.subscribers m.lock a = some (s', f', lock') →
    (∀ p env, received m.state a = some p → decode p.payload = some env → P p.topic env) →
    Kept P m.state → m.subscribers.Sourced P → Kept P s' ∧ f'.Sourced P
  topics  : ∀ phase s f lock a s' f' lock', kind.task phase s f lock a = some (s', f', lock') →
    f'.topics = f.topics

omit [DecidableEq ι] in
theorem Step.owned (src : Sources kind decode received Kept) (st : Step m act m')
    (ow : m.subscribers.Owned m.calls m.owners) : m'.subscribers.Owned m'.calls m'.owners := by
  have keeps := st.keeps
  have same {f : Fanout ι} (h : f.topics = m.subscribers.topics) := ow.keep keeps h
  cases st <;> try exact ow.keep keeps rfl
  case register i topic lock c handle method _ _ _ =>
    have ⟨hl, _⟩ := List.getElem?_eq_some_iff.mp handle
    exact ow.subscribe keeps (List.getElem?_set_self hl) method
  case caller => exact same Fanout.topics_conclude
  case recv received => exact same <| Fanout.topics_recv received
  case dropInbox dropped => exact same <| Fanout.topics_drop dropped
  case task acted => exact same <| src.topics _ _ _ _ _ _ _ _ acted

theorem Step.sourced (src : Sources kind decode received Kept) (r : (machine kind).Reachable m)
    (st : Step m act m')
    (new : ∀ p env, arrives received m act = some p → decode p.payload = some env → P p.topic env)
    (kept : Kept P m.state) (sourced : m.subscribers.Sourced P) :
    Kept P m'.state ∧ m'.subscribers.Sourced P := by
  have user {f : Fanout ι} (a : Fanout.Action ι) (ha : a.worker? = none)
      (h : Fanout.next (fun _ => none) m.subscribers a = some f) : Kept P m.state ∧ f.Sourced P :=
    have st : Fanout.Step _ _ a f := Fanout.next_step h
    ⟨kept, st.sourced_of_user ha sourced⟩
  cases st <;> try exact ⟨kept, sourced⟩
  case register topic _ _ _ _ _ _ _ => exact user (.subscribe topic) rfl rfl
  case caller => exact ⟨kept, sourced.conclude⟩
  case recv k _ received => exact user (.recv k) rfl received
  case dropInbox k _ dropped => exact user (.drop k) rfl dropped
  case defer cmd _ state _ _ _ deferred =>
    have kept := src.start P m.state cmd kept
    exact ⟨by rwa [deferred] at kept, sourced⟩
  case begin cmd _ state _ _ _ started =>
    have kept := src.start P m.state cmd kept
    exact ⟨by rwa [started] at kept, sourced⟩
  case execute executed => exact ⟨src.execute _ _ _ _ _ _ executed kept, sourced⟩
  case finish finished => exact ⟨src.finish _ _ _ finished kept, sourced⟩
  case task acted =>
    exact src.task P m _ _ _ _ r acted new kept sourced

omit [DecidableEq ι] in
theorem publishing_of_departs {p : Packet} (r : (machine kind).Reachable m)
    (h : departs sends m act = some p) :
    ∃ (i : ℕ) (c : MethodCall) (env : Envelope) (outcome : τ), m.calls[i]? = some c ∧
      c.method = .publish env ∧ sends env outcome = some p := by
  unfold departs at h
  split at h
  case h_2 => cases h
  case h_1 outcome =>
    split at h
    case h_2 => cases h
    case h_1 env resp handling =>
      have queued : .publish env resp ∈ m.pending := by simp [pending_of_handling handling]
      have ⟨c, hc, he⟩ := (consistent r).pending _ queued
      exact ⟨resp, c, env, outcome, hc, MethodCall.cmd_publish he, h⟩

section Lawful

variable {retains : Actor kind → ℕ → Bool}

omit [DecidableEq ι] in
theorem owned_handles (src : Sources kind decode received Kept)
    (r : (machine kind).Reachable m) : m.subscribers.Owned m.calls m.owners := by
  induction m, r using Machine.Reachable.induction_on
  case init => exact .nil
  case step m act m' r hn ih => exact (next_step hn).owned src ih

theorem sourced (src : Sources kind decode received Kept) (r : (machine kind).Run as m) :
    Kept ((carrier kind encode sends decode received retains).Arrived as) m.state ∧
      m.subscribers.Sourced
        ((carrier kind encode sends decode received retains).Arrived as) := by
  induction as, m, r using Machine.Run.induction_on
  case init => exact ⟨src.init _, by simp [machine], by simp [machine]⟩
  case step as m act m' r hn ih =>
    obtain ⟨kept, sourced⟩ := ih
    refine (next_step hn).sourced src r.reachable ?_ ?_ ?_
    · exact fun p env => Carrier.Arrived.last
        (C := carrier kind encode sends decode received retains) r
    · exact src.mono _ _ _ (fun _ _ => Carrier.Arrived.concat) kept
    · exact sourced.mono fun _ _ => Carrier.Arrived.concat

theorem carrier_lawful (src : Sources kind decode received Kept)
    (encoded : ∀ env outcome p, sends env outcome = some p → encode env = some p) :
    (carrier kind encode sends decode received retains).Lawful where
  init := rfl
  keeps _ _ _ i c _ hn := (next_step hn).keeps i c
  called _ _ _ _ hn := (next_step hn).use?
  stems m act m' i c' _ hn h' := by
    rcases (next_step hn).change h' with ⟨c, h, ch⟩ | ⟨_, begins⟩
    · exact .inl ⟨c, h, ch.method⟩
    · cases begins <;> exact .inr rfl
  departs m _ _ p r _ h := by
    have ⟨i, c, env, outcome, hc, method, sent⟩ := publishing_of_departs r h
    exact ⟨i, c, env, hc, method, encoded env outcome p sent⟩
  arrives as m k h env r := (sourced src r).right.inbox k h env
  own _ act _ h := by cases act <;> first | rfl | cases h
  owned m k i h r := (owned_handles src r).call

end Lawful
end Actor
end MomRpc
