import MomRpc.Transport.Theorems.Turns

namespace MomRpc.Fanout

variable {ι : Type} [DecidableEq ι] {decode : Bytes → Option Envelope} {f f' : Fanout ι}
  {act : Action ι} {w : ι} {k : ℕ} {topic : String} {sent : List Envelope}

-- What the inbox has been given, in this order, and what the worker has still to try to give it.
def given (f : Fanout ι) (k : ℕ) : List Envelope :=
  f.handles[k]?.elim [] (·.inbox.contents)

def owes (f : Fanout ι) (w : ι) (k : ℕ) : List Envelope :=
  match f.incoming w with
  | .idle                   => []
  | .sending _ env _ rest _ => if k ∈ rest then [env] else []

-- The message that a worker begins to fan out, if it is on the topic.
def Action.taken (decode : Bytes → Option Envelope) (topic : String) : Action ι → Option Envelope
  | .incoming _ topic' message => if topic' = topic then decode message else none
  | _                          => none

-- All messages on the topic are fanned out by one worker.
def Sole (f : Fanout ι) (w : ι) (topic : String) : Prop :=
  ∀ w' env senders rest survivors,
    f.incoming w' = .sending topic env senders rest survivors → w' = w

-- The worker does not try the sender again, and the next write-back takes it out of the map.
structure Gone (f : Fanout ι) (w : ι) (topic : String) (k : ℕ) : Prop where
  tried   : ∀ env senders rest survivors,
    f.incoming w = .sending topic env senders rest survivors → k ∉ survivors ++ rest
  leaving : f.Registered topic k → ∃ env senders rest survivors,
    f.incoming w = .sending topic env senders rest survivors ∧
      survivors.length + rest.length < senders.length

-- A sender in the map has missed nothing, one that is not, or that cannot send, gets nothing more.
inductive Standing (f : Fanout ι) (w : ι) (topic : String) (k : ℕ) (sent : List Envelope) : Prop
  | on (registered : f.Registered topic k) (all : f.given k ++ f.owes w k = sent)
  | off (gone : f.Gone w topic k) (some : f.given k <+: sent)
  | closed (dropped : ¬f.Holds k) (some : f.given k <+: sent)

omit [DecidableEq ι] in
theorem given_eq {h : SubscriptionHandle} (handle : f.handles[k]? = some h) :
    f.given k = h.inbox.contents := by
  simp [given, handle]

omit [DecidableEq ι] in
theorem given_of_ne {i : ℕ} {h : SubscriptionHandle} (set : f'.handles = f.handles.set i h)
    (ne : i ≠ k) : f'.given k = f.given k := by
  simp [given, set, List.getElem?_set_ne ne]

omit [DecidableEq ι] in
theorem given_of_set {h h' : SubscriptionHandle} (set : f'.handles = f.handles.set k h')
    (handle : f.handles[k]? = some h) : f'.given k = h'.inbox.contents := by
  have ⟨hl, _⟩ := List.getElem?_eq_some_iff.mp handle
  simp [given, set, hl]

-- The users give nothing to an inbox. At most, its receiver is dropped.
theorem Step.user (st : Step decode f act f') (hk : k < f.handles.length)
    (user : act.worker? = none) :
    (f'.given k = f.given k ∧ ∀ topic, f'.Registered topic k ↔ f.Registered topic k) ∨
      (¬f'.Holds k ∧ f'.given k <+: f.given k) := by
  cases st <;> try cases user
  case subscribe =>
    refine .inl ⟨by simp [given, List.getElem?_append_left hk], ?_⟩
    simp [subscribe_registered, hk.ne]
  case recv i h _ _ handle received =>
    refine .inl ⟨?_, fun _ => Iff.rfl⟩
    by_cases hi : i = k
    case neg => exact given_of_ne rfl hi
    case pos =>
      subst hi
      rw [given_of_set rfl handle, given_eq handle, Mailbox.recv_contents received]
  case drop i h handle =>
    by_cases hi : i = k
    case neg => exact .inl ⟨given_of_ne rfl hi, fun _ => Iff.rfl⟩
    case pos =>
      subst hi
      refine .inr ⟨?_, ?_⟩
      · rintro ⟨h', hh, held⟩
        simp only [List.getElem?_set_self hk, Option.some.injEq] at hh
        simp [← hh] at held
      · rw [given_of_set rfl handle, given_eq handle]
        exact ⟨h.inbox.queue, by simp [Mailbox.contents, Mailbox.drop]⟩

-- What has survived and what is still to be tried are no more than the snapshot.
theorem snapshot_length (r : (machine ι decode).Reachable f) {env : Envelope}
    {senders rest survivors : List ℕ}
    (sending : f.incoming w = .sending topic env senders rest survivors) :
    survivors.length + rest.length ≤ senders.length := by
  induction f, r using Machine.Reachable.induction_on generalizing topic env senders rest survivors
  case init => simp [machine] at sending
  case step f act f' _ h ih =>
    have p := sending ▸ (next_step h).progress w
    generalize hf : f.incoming w = incoming at p
    cases p
    case same     => exact ih hf
    case snapshot => simp
    case sent     =>
      have le := ih hf
      simp only [List.length_append, List.length_cons, List.length_nil] at le ⊢
      omega
    case evicted =>
      have le := ih hf
      simp only [List.length_cons] at le
      omega

-- A worker tries no senders but those of its topic.
theorem topic_of_sending (r : (machine ι decode).Reachable f) {topic' : String} {env : Envelope}
    {senders rest survivors : List ℕ} (ht : f.HasTopic topic k)
    (sending : f.incoming w = .sending topic' env senders rest survivors)
    (hk : k ∈ survivors ++ rest) : topic' = topic :=
  ((listed r).right w topic' env senders rest survivors sending).hasTopic k hk |>.unique ht

theorem topic_of_registered (r : (machine ι decode).Reachable f) {topic' : String}
    (ht : f.HasTopic topic k) (registered : f.Registered topic' k) : topic' = topic :=
  have ⟨senders, found, hk⟩ := registered
  ((listed r).left topic' senders found).hasTopic k hk |>.unique ht

namespace Standing

omit [DecidableEq ι] in
theorem frame (stands : Standing f w topic k sent) (given : f'.given k = f.given k)
    (incoming : f'.incoming w = f.incoming w)
    (registered : f'.Registered topic k ↔ f.Registered topic k)
    (holds : f'.Holds k → f.Holds k) : Standing f' w topic k sent := by
  have owes : f'.owes w k = f.owes w k := by simp only [Fanout.owes, incoming]
  cases stands
  case on on all           => exact .on (registered.mpr on) <| by rw [given, owes, all]
  case off gone some       =>
    refine .off ⟨?tried, ?leaving⟩ (given ▸ some)
    case tried   => exact incoming ▸ gone.tried
    case leaving => exact fun on => incoming ▸ gone.leaving (registered.mp on)
  case closed dropped some => exact .closed (mt holds dropped) (given ▸ some)

omit [DecidableEq ι] in
-- More is given to others.
theorem extend {sent' : List Envelope} (stands : Standing f w topic k sent)
    (missed : ¬f.Registered topic k) (more : sent <+: sent') : Standing f w topic k sent' := by
  cases stands
  case on on _             => exact absurd on missed
  case off gone some       => exact .off gone <| some.trans more
  case closed dropped some => exact .closed dropped <| some.trans more

variable (r : (machine ι decode).Reachable f) (ht : f.HasTopic topic k) (sole : f.Sole w topic)
  {w' : ι} {topic' : String} {env : Envelope} {senders rest survivors : List ℕ}

include r ht in
theorem take {message : Bytes} (own : topic' = topic → w' = w)
    (hn : (machine ι decode).next f (.incoming w' topic' message) = some f')
    (stands : Standing f w topic k sent) :
    Standing f' w topic k
      (sent ++ ((Action.incoming w' topic' message).taken decode topic).toList) := by
  have st := next_step hn
  cases st
  case ignore idle =>
    by_cases hs : f.Registered topic k
    case neg => exact stands.extend hs <| List.prefix_append ..
    case pos =>
      -- The message is ignored, but not for want of subscribers.
      have none : (Action.incoming w' topic' message).taken decode topic = none := by
        obtain ⟨senders, found, _⟩ := hs
        simp only [Action.taken, ite_eq_right_iff]
        rintro rfl
        cases decoded : decode message
        case none => rfl
        case some env =>
          simp only [machine, next, handleIncoming, idle, decoded, found, Option.some.injEq] at hn
          have sending := congrArg (·.incoming w') hn
          simp [idle] at sending
      simpa [none] using stands
  case snapshot env senders idle found decoded =>
    by_cases hw : w' = w
    case neg =>
      have other : topic' ≠ topic := fun he => hw (own he)
      have same : Standing { f with
          incoming := Function.update f.incoming w' (.sending topic' env senders senders []) }
          w topic k sent := stands.frame rfl (Function.update_of_ne (Ne.symm hw) ..) Iff.rfl id
      simpa [Action.taken, other] using same
    case pos =>
      subst hw
      have none : f.owes w' k = [] := by simp only [Fanout.owes, idle]
      have found' (hk : k ∈ senders) : f.Registered topic' k := ⟨senders, found, hk⟩
      cases stands
      case on on all =>
        rw [none, List.append_nil] at all
        refine .on on ?_
        by_cases he : topic' = topic
        case pos =>
          subst he
          obtain ⟨_, h, hk⟩ := on
          cases h.symm.trans found
          simpa [given, Fanout.owes, hk, Action.taken, decoded] using all
        case neg =>
          have hk : k ∉ senders := fun hk => he <| topic_of_registered r ht (found' hk)
          simpa [given, Fanout.owes, hk, Action.taken, he] using all
      case off gone some =>
        have missed : ¬f.Registered topic k := by
          intro on
          obtain ⟨_, _, _, _, sending, _⟩ := gone.leaving on
          simp [idle] at sending
        refine .off ⟨?_, fun on => absurd on missed⟩ <| some.trans <| List.prefix_append ..
        intro _ _ _ _ sending
        simp only [Function.update_self, Incoming.sending.injEq] at sending
        obtain ⟨rfl, _, _, rfl, rfl⟩ := sending
        exact fun hk => missed <| found' hk
      case closed dropped some => exact .closed dropped <| some.trans <| List.prefix_append ..

omit [DecidableEq ι] in
theorem given_prefix (stands : Standing f w topic k sent) : f.given k <+: sent := by
  cases stands
  case on all      => exact ⟨_, all⟩
  case off some    => exact some
  case closed some => exact some

omit [DecidableEq ι] in
-- The worker is done with another sender, whether that has survived or not.
theorem pass {i : ℕ} {survivors' : List ℕ}
    (sending : f.incoming w = .sending topic' env senders (i :: rest) survivors) (hi : i ≠ k)
    (incoming : f'.incoming w = .sending topic' env senders rest survivors')
    (survived : survivors' <+: survivors ++ [i]) (map : f'.subscribers = f.subscribers)
    (given : f'.given k = f.given k) (holds : f'.Holds k → f.Holds k)
    (stands : Standing f w topic k sent) : Standing f' w topic k sent := by
  have same : f'.Registered topic k ↔ f.Registered topic k := by simp only [Registered, map]
  cases stands
  case on on all =>
    refine .on (same.mpr on) ?_
    rw [given, ← all]
    simp [Fanout.owes, sending, incoming, hi.symm]
  case off gone some =>
    refine .off ⟨?tried, ?leaving⟩ (given ▸ some)
    case tried =>
      intro _ _ _ _ sending'
      cases incoming.symm.trans sending'
      have hk := gone.tried _ _ _ _ sending
      simp only [List.mem_append, List.mem_cons, not_or] at hk ⊢
      exact ⟨fun h => by simpa [hk, hi.symm] using survived.subset h, hk.right.right⟩
    case leaving =>
      intro on
      obtain ⟨_, _, _, _, sending', fewer⟩ := gone.leaving (same.mp on)
      cases sending.symm.trans sending'
      refine ⟨_, _, _, _, incoming, ?_⟩
      have le := survived.length_le
      simp only [List.length_append, List.length_cons, List.length_nil] at le fewer
      omega
  case closed dropped some => exact .closed (mt holds dropped) (given ▸ some)

include r in
-- No sender is tried twice.
theorem once (sending : f.incoming w = .sending topic' env senders (k :: rest) survivors) :
    k ∉ survivors ++ rest := by
  have nodup := ((listed r).right w topic' env senders _ survivors sending).nodup
  grind

omit [DecidableEq ι] in
-- The inbox accepts the message.
theorem accept {survivors' : List ℕ}
    (sending : f.incoming w = .sending topic env senders (k :: rest) survivors)
    (once : k ∉ survivors ++ rest)
    (incoming : f'.incoming w = .sending topic env senders rest survivors')
    (map : f'.subscribers = f.subscribers) (held : f.Holds k)
    (given : f'.given k = f.given k ++ [env]) (stands : Standing f w topic k sent) :
    Standing f' w topic k sent := by
  cases stands
  case on on all =>
    refine .on (by simpa only [Registered, map] using on) ?_
    have hk : k ∉ rest := fun h => once <| List.mem_append_right _ h
    rw [given, ← all]
    simp [Fanout.owes, sending, incoming, hk]
  case off gone _       => exact absurd (by simp) <| gone.tried _ _ _ _ sending
  case closed dropped _ => exact absurd held dropped

omit [DecidableEq ι] in
-- The inbox is full, or it has been dropped.
theorem reject (once : k ∉ survivors ++ rest)
    (le : survivors.length + (k :: rest).length ≤ senders.length)
    (incoming : f'.incoming w = .sending topic env senders rest survivors)
    (given : f'.given k = f.given k) (stands : Standing f w topic k sent) :
    Standing f' w topic k sent := by
  refine .off ⟨?tried, fun _ => ⟨_, _, _, _, incoming, le⟩⟩ (given ▸ stands.given_prefix)
  intro _ _ _ _ sending'
  cases incoming.symm.trans sending'
  exact once

omit [DecidableEq ι] in
-- The worker leaves the map as it is, or it takes those out that have not survived.
theorem finish (sending : f.incoming w = .sending topic' env senders [] survivors)
    (idle : f'.incoming w = .idle)
    (map : (f'.subscribers topic = f.subscribers topic ∧
        (topic' = topic → survivors.length = senders.length)) ∨
      (topic' = topic ∧ f'.subscribers topic = some survivors))
    (given : f'.given k = f.given k) (holds : f'.Holds k → f.Holds k)
    (stands : Standing f w topic k sent) : Standing f' w topic k sent := by
  have nothing : f'.owes w k = [] := by simp only [Fanout.owes, idle]
  have tried env senders rest survivors
      (sending : f'.incoming w = .sending topic env senders rest survivors) :
      k ∉ survivors ++ rest := by
    cases idle.symm.trans sending
  have off (missed : ¬f'.Registered topic k) : Standing f' w topic k sent :=
    .off ⟨tried, fun on => absurd on missed⟩ (given ▸ stands.given_prefix)
  by_cases on' : f'.Registered topic k
  case neg => exact off on'
  case pos =>
    cases stands
    case on on all =>
      refine .on on' ?_
      rw [given, nothing]
      simpa [Fanout.owes, sending] using all
    case off gone some =>
      rcases map with ⟨same, all⟩ | ⟨rfl, written⟩
      case inl =>
        obtain ⟨_, _, _, _, sending', fewer⟩ := gone.leaving <| by
          simpa only [Registered, same] using on'
        cases sending.symm.trans sending'
        simp [all rfl] at fewer
      case inr =>
        obtain ⟨_, found, hk⟩ := on'
        cases written.symm.trans found
        exact absurd (List.mem_append_left _ hk) <| gone.tried _ _ _ _ sending
    case closed dropped some => exact .closed (mt holds dropped) (given ▸ some)

include r ht sole in
theorem step (hn : (machine ι decode).next f act = some f')
    (own : ∀ w' message, act = .incoming w' topic message → w' = w)
    (stands : Standing f w topic k sent) :
    Standing f' w topic k (sent ++ (act.taken decode topic).toList) := by
  have st := next_step hn
  have holds : f'.Holds k → f.Holds k := st.holds ht.lt
  have lt := ht.lt
  by_cases user : act.worker? = none
  case pos =>
    have idle : f'.incoming w = f.incoming w := st.incoming_of_ne <| by simp [user]
    have none : act.taken decode topic = none := by cases act <;> first | rfl | cases user
    rw [none, Option.toList_none, List.append_nil]
    rcases st.user lt user with ⟨given, registered⟩ | ⟨dropped, some⟩
    · exact stands.frame given idle (registered topic) holds
    · exact .closed dropped <| some.trans stands.given_prefix
  case neg =>
    cases st <;> try exact absurd rfl user
    case ignore w' topic' message _ | snapshot w' topic' message _ _ _ _ _ =>
      exact stands.take r ht (fun he => own w' message (he ▸ rfl)) hn
    all_goals
      simp only [Action.taken, Option.toList_none, List.append_nil]
    case sent w' i topic' env senders rest survivors h inbox sending handle accepted =>
      by_cases hw : w = w'
      case neg =>
        have hi : i ≠ k := by
          rintro rfl
          obtain rfl := topic_of_sending r ht sending (by simp)
          exact hw (sole _ _ _ _ _ sending).symm
        exact stands.frame (given_of_ne rfl hi) (Function.update_of_ne hw ..) Iff.rfl holds
      case pos =>
        subst hw
        by_cases hi : i = k
        case neg =>
          exact stands.pass sending hi (Function.update_self ..) List.prefix_rfl rfl
            (given_of_ne rfl hi) holds
        case pos =>
          subst hi
          obtain rfl := topic_of_sending r ht sending (by simp)
          refine stands.accept sending (once r sending) (Function.update_self ..) rfl
            ⟨h, handle, (Mailbox.trySend_held accepted).left⟩ ?_
          rw [given_of_set rfl handle, Mailbox.trySend_contents accepted, given_eq handle]
    case evicted w' i topic' env senders rest survivors h sending handle rejected =>
      by_cases hw : w = w'
      case neg => exact stands.frame rfl (Function.update_of_ne hw ..) Iff.rfl holds
      case pos =>
        subst hw
        by_cases hi : i = k
        case neg =>
          have more : survivors <+: survivors ++ [i] := List.prefix_append ..
          exact stands.pass sending hi (Function.update_self ..) more rfl rfl holds
        case pos =>
          subst hi
          obtain rfl := topic_of_sending r ht sending (by simp)
          have length := snapshot_length r sending
          exact reject (once r sending) length (Function.update_self ..) (by rfl) stands
    case finish w' topic' env senders survivors sending all =>
      by_cases hw : w = w'
      case neg => exact stands.frame rfl (Function.update_of_ne hw ..) Iff.rfl holds
      case pos =>
        subst hw
        exact stands.finish sending (Function.update_self ..) (.inl ⟨rfl, fun _ => all⟩) rfl holds
    case writeBack w' topic' env senders survivors sending fewer =>
      by_cases ht : topic = topic'
      case neg =>
        have same : Function.update f.subscribers topic' (some survivors) topic =
            f.subscribers topic := Function.update_of_ne ht ..
        by_cases hw : w = w'
        case neg =>
          refine stands.frame rfl (Function.update_of_ne hw ..) ?_ holds
          simp only [Registered, same]
        case pos =>
          subst hw
          exact stands.finish sending (Function.update_self ..)
            (.inl ⟨same, fun he => absurd he.symm ht⟩) rfl holds
      case pos =>
        subst ht
        obtain rfl := sole _ _ _ _ _ sending
        exact stands.finish sending (Function.update_self ..)
          (.inr ⟨rfl, Function.update_self ..⟩) rfl holds

end Standing

-- A worker is in a call of `handle_incoming` for a topic from the time that it has been given one.
theorem Step.sending (st : Step decode f act f') {env : Envelope} {senders rest survivors : List ℕ}
    (sending : f'.incoming w = .sending topic env senders rest survivors) :
    (∃ env senders rest survivors, f.incoming w = .sending topic env senders rest survivors) ∨
      ∃ message, act = .incoming w topic message := by
  have update {v : ι} {incoming : Incoming}
      (h : Function.update f.incoming v incoming w = .sending topic env senders rest survivors) :
      f.incoming w = .sending topic env senders rest survivors ∨
        (w = v ∧ incoming = .sending topic env senders rest survivors) := by
    by_cases hv : w = v
    case pos => exact .inr ⟨hv, by simpa [hv] using h⟩
    case neg => exact .inl <| by simpa [hv] using h
  cases st
  case subscribe | ignore | recv | drop => exact .inl ⟨_, _, _, _, sending⟩
  case snapshot message _ _ _ _ _ =>
    rcases update sending with old | ⟨rfl, he⟩
    · exact .inl ⟨_, _, _, _, old⟩
    · cases he
      exact .inr ⟨message, rfl⟩
  case sent old _ _ | evicted old _ _ =>
    rcases update sending with old | ⟨rfl, he⟩
    · exact .inl ⟨_, _, _, _, old⟩
    · cases he
      exact .inl ⟨_, _, _, _, old⟩
  case finish | writeBack =>
    rcases update sending with old | ⟨_, he⟩
    · exact .inl ⟨_, _, _, _, old⟩
    · cases he

-- A new subscription has been given nothing, and nobody is about to give it something.
theorem Standing.subscribed (r : (machine ι decode).Reachable f) :
    Standing (f.subscribe topic) w topic f.handles.length [] := by
  refine .on (subscribe_registered.mpr <| .inr ⟨rfl, rfl⟩) ?_
  have nothing : f.owes w f.handles.length = [] := by
    unfold owes
    split
    case h_1 => rfl
    case h_2 sending =>
      have ht := ((listed r).right w _ _ _ _ _ sending).hasTopic f.handles.length
      exact if_neg fun hk => Nat.lt_irrefl _ (ht <| List.mem_append_right _ hk).lt
  have fresh : (f.subscribe topic).given f.handles.length = [] := by simp [given, Mailbox.contents]
  rw [fresh, List.nil_append]
  exact nothing

-- Only a subscription makes a handle.
theorem Step.pushed (st : Step decode f act f')
    (pushed : f'.handles.length = f.handles.length + 1) :
    ∃ topic, act = .subscribe topic ∧ f' = f.subscribe topic := by
  cases st
  case subscribe topic => exact ⟨topic, rfl, rfl⟩
  all_goals simp at pushed

-- The fan-out makes a step of its own, if any, in which it takes up the given messages, by workers
-- that are in charge of the topic.
def TakesUp (decode : Bytes → Option Envelope) (f f' : Fanout ι)
    (takes : String → Option Envelope) (InCharge : ι → String → Prop) : Prop :=
  ∃ act, (machine ι decode).next? f act = some f' ∧
    (∀ topic, act.bind (Action.taken decode topic) = takes topic) ∧
    ∀ w topic message, act = some (.incoming w topic message) → InCharge w topic

theorem TakesUp.nothing {takes : String → Option Envelope} {InCharge : ι → String → Prop}
    (act : Option (Action ι)) (hn : (machine ι decode).next? f act = some f')
    (other : ∀ w topic message, act ≠ some (.incoming w topic message))
    (none : ∀ topic, takes topic = none) : TakesUp decode f f' takes InCharge := by
  refine ⟨act, hn, fun topic => ?_, fun w topic message h => absurd h (other w topic message)⟩
  rw [none topic, Option.bind_eq_none_iff]
  intro a ha
  cases a <;> first | rfl | exact absurd ha (other _ _ _)

section Embeds

variable {τ β : Type} {N : Machine τ β} {subscribers : τ → Fanout ι}
  {takes : String → τ → β → Option Envelope} {InCharge : τ → ι → String → Prop} {s s' t : τ} {b : β}
  {bs : List β}

-- The fan-out as a part of a system, whose workers stay in charge of their topics.
structure Embeds (N : Machine τ β) (decode : Bytes → Option Envelope) (subscribers : τ → Fanout ι)
    (takes : String → τ → β → Option Envelope) (InCharge : τ → ι → String → Prop) : Prop where
  init  : subscribers N.init = {}
  step  : ∀ s b s', N.Reachable s → N.next s b = some s' →
    TakesUp decode (subscribers s) (subscribers s') (takes · s b) (InCharge s)
  stays : ∀ s b s' w topic, N.next s b = some s' → InCharge s w topic → InCharge s' w topic

namespace Embeds

variable (emb : Embeds N decode subscribers takes InCharge)
include emb

theorem reachable (r : N.Reachable s) : (machine ι decode).Reachable (subscribers s) := by
  induction s, r using Machine.Reachable.induction_on
  case init => exact emb.init ▸ .init
  case step s b s' r hn ih =>
    obtain ⟨act, h, _⟩ := emb.step s b s' r hn
    rcases Machine.next?_cases h with ⟨_, he⟩ | ⟨_, _, hn⟩
    · exact he ▸ ih
    · exact ih.next hn

theorem in_charge (r : N.Reachable s) {env : Envelope} {senders rest survivors : List ℕ}
    (sending : (subscribers s).incoming w = .sending topic env senders rest survivors) :
    InCharge s w topic := by
  induction s, r using Machine.Reachable.induction_on generalizing env senders rest survivors
  case init => simp [emb.init] at sending
  case step s b s' r hn ih =>
    obtain ⟨act, h, _, own⟩ := emb.step s b s' r hn
    rcases Machine.next?_cases h with ⟨_, he⟩ | ⟨act, rfl, h⟩
    case inl => exact emb.stays s b s' w topic hn <| ih (he ▸ sending)
    case inr =>
      refine emb.stays s b s' w topic hn ?_
      rcases (next_step h).sending sending with ⟨_, _, _, _, old⟩ | ⟨message, rfl⟩
      · exact ih old
      · exact own w topic message rfl

-- The subscription stands as it should, given that one worker serves its topic.
theorem in_order (r : N.Reachable s) (hn : N.next s b = some s')
    (pushed : (subscribers s').handles.length = (subscribers s).handles.length + 1)
    (he : N.exec s' bs = some t) {h : SubscriptionHandle}
    (handle : (subscribers t).handles[(subscribers s).handles.length]? = some h)
    (sole : ∀ w', InCharge t w' h.subscription.name → w' = w) :
    Standing (subscribers t) w h.subscription.name (subscribers s).handles.length
      (N.outputs (takes h.subscription.name) s' bs) := by
  let k := (subscribers s).handles.length
  have reachable := emb.reachable r
  obtain ⟨act, hf, _⟩ := emb.step s b s' r hn
  rcases Machine.next?_cases hf with ⟨_, same⟩ | ⟨act, rfl, hf⟩
  case inl => simp [same] at pushed
  case inr =>
    obtain ⟨topic, rfl, subscribed⟩ := (next_step hf).pushed pushed
    have new : (subscribers s').HasTopic topic k :=
      ⟨{ subscription := ⟨topic⟩ }, by simp [subscribed, k], rfl⟩
    -- As long as the worker is alone in charge of the topic, the subscription stands.
    let Stands (s : τ) (sent : List Envelope) : Prop :=
      (subscribers s).HasTopic topic k ∧
        ((∀ w', InCharge s w' topic → w' = w) → Standing (subscribers s) w topic k sent)
    have step s b s' sent (r : N.Reachable s) (hn : N.next s b = some s') (stands : Stands s sent) :
        Stands s' (sent ++ (takes topic s b).toList) := by
      obtain ⟨act, hf, taken, own⟩ := emb.step s b s' r hn
      obtain ⟨ht, stands⟩ := stands
      have taken : act.bind (Action.taken decode topic) = takes topic s b := taken topic
      have before (sole : ∀ w', InCharge s' w' topic → w' = w) w' (h : InCharge s w' topic) :
          w' = w := sole w' <| emb.stays s b s' w' topic hn h
      rw [← taken]
      rcases Machine.next?_cases hf with ⟨rfl, same⟩ | ⟨act, rfl, hf⟩
      case inl =>
        rw [← same] at ht stands
        exact ⟨ht, fun sole => by simpa using stands <| before sole⟩
      case inr =>
        refine ⟨(next_step hf).hasTopic ht, fun sole => ?_⟩
        refine (stands <| before sole).step (emb.reachable r) ht ?_ hf ?_
        · exact fun w' _ _ _ _ sending => before sole w' <| emb.in_charge r sending
        · rintro w' message rfl
          exact before sole w' <| own w' topic message rfl
    have init : Stands s' [] := ⟨new, fun _ => subscribed ▸ .subscribed reachable⟩
    obtain ⟨⟨_, hh, ht⟩, stands⟩ :=
      N.outputs_invariant (takes topic) Stands (r.next hn) he init step
    cases handle.symm.trans hh
    simp only [ht] at sole ⊢
    exact stands sole

end Embeds
end Embeds
end MomRpc.Fanout
