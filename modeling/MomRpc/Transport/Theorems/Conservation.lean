import Mathlib.Algebra.BigOperators.Group.Finset.Basic
import Mathlib.Algebra.Order.Group.Multiset
import MomRpc.Lib.History
import MomRpc.Transport.Theorems.Fanout

-- A sum of which one summand has changed.
theorem Finset.sum_add_eq_of_ne {ι M : Type*} [DecidableEq ι] [AddCommMonoid M] {s : Finset ι}
    {i : ι} {f g : ι → M} (hi : i ∈ s) (h : ∀ j ≠ i, g j = f j) :
    ∑ j ∈ s, g j + f i = ∑ j ∈ s, f j + g i := by
  rw [← Finset.add_sum_erase s f hi, ← Finset.add_sum_erase s g hi]
  have eq : ∑ j ∈ s.erase i, g j = ∑ j ∈ s.erase i, f j :=
    Finset.sum_congr rfl fun j hj => h j (Finset.ne_of_mem_erase hj)
  rw [eq]
  ac_rfl

-- What one summand loses is gained elsewhere.
theorem add_eq_of_moved {M : Type*} [AddCancelCommMonoid M] {d d' s s' x x' : M}
    (sum : s' + x = s + x') (moved : d' + x' = d + x) : d' + s' = d + s := by
  refine add_right_cancel (b := x) ?_
  calc
    d' + s' + x = s + (d' + x') := by rw [add_assoc, sum]; ac_rfl
    _           = d + s + x     := by rw [moved]; ac_rfl

namespace MomRpc.Fanout

variable {ι : Type} [DecidableEq ι] {decode : Bytes → Option Envelope} {f f' : Fanout ι}
  {act : Action ι} {i k : ℕ} {w : ι} {topic : String}

-- What the `k`-th inbox has been given so far, and what the worker has still to try to give it.
def delivered (f : Fanout ι) (k : ℕ) : Multiset Envelope :=
  match f.handles[k]? with
  | none   => 0
  | some h => h.inbox.contents

def inFlight (f : Fanout ι) (k : ℕ) (w : ι) : Multiset Envelope :=
  match f.incoming w with
  | .idle                   => 0
  | .sending _ env _ rest _ => .replicate (rest.count k) env

-- The sender is in the map, and no call of `handle_incoming` for the topic has missed it so far.
structure Subscribed (f : Fanout ι) (topic : String) (k : ℕ) : Prop where
  registered : f.Registered topic k
  snapshots  : ∀ w env senders rest survivors,
    f.incoming w = .sending topic env senders rest survivors → k ∈ rest ∨ k ∈ survivors

def Holds (f : Fanout ι) (k : ℕ) : Prop :=
  ∃ h, f.handles[k]? = some h ∧ h.inbox.held

-- The inbox has room if it is tried.
def HasRoomFor (f : Fanout ι) (k : ℕ) (act : Action ι) : Prop :=
  ∀ w h, act = .trySend w k → f.handles[k]? = some h → h.inbox.HasRoom

theorem Step.holds (st : Step decode f act f') (hk : k < f.handles.length) (held : f'.Holds k) :
    f.Holds k := by
  have ⟨h', hh, held⟩ := held
  rcases st.held hh held with ⟨h, hh, _, held⟩ | ⟨rfl, _⟩
  · exact ⟨h, hh, held⟩
  · exact absurd hk <| Nat.lt_irrefl _

omit [DecidableEq ι] in
theorem not_rejected {h : SubscriptionHandle} {env : Envelope} (held : f.Holds k)
    (room : f.HasRoomFor k (.trySend w k)) (handle : f.handles[k]? = some h) :
    h.inbox.trySend env ≠ none := by
  have ⟨_, hh, held⟩ := held
  cases handle.symm.trans hh
  exact fun rejected => Mailbox.trySend_eq_none_iff.mp rejected held <| room w h rfl handle

theorem Subscribed.step (sub : f.Subscribed topic k) (held : f.Holds k)
    (room : f.HasRoomFor k act) (st : Step decode f act f') : f'.Subscribed topic k := by
  have ⟨registered, snapshots⟩ := sub
  constructor
  case registered =>
    cases st <;> try exact registered
    case subscribe => exact subscribe_registered.mpr <| .inl registered
    case writeBack topic' env senders survivors sending _ =>
      by_cases ht : topic = topic'
      case neg => simpa [Registered, ht] using registered
      case pos =>
        subst ht
        have hk := snapshots _ env senders [] survivors sending
        exact ⟨survivors, by simp, by simpa using hk⟩
  case snapshots =>
    intro w env senders rest survivors hs
    have p := hs ▸ st.progress w
    generalize hf : f.incoming w = incoming at p
    cases p
    case same => exact snapshots w env senders rest survivors hf
    case snapshot found =>
      obtain ⟨_, h, hk⟩ := registered
      cases found.symm.trans h
      exact .inl hk
    case sent =>
      rcases snapshots w env senders _ _ hf with hk | hk
      · rcases List.mem_cons.mp hk with rfl | hk
        · exact .inr <| by simp
        · exact .inl hk
      · exact .inr <| List.mem_append_left _ hk
    case evicted j h action handle rejected =>
      rcases snapshots w env senders _ _ hf with hk | hk
      · rcases List.mem_cons.mp hk with rfl | hk
        · exact absurd rejected <| not_rejected held (action ▸ room) handle
        · exact .inl hk
      · exact .inr hk

-- The handle has been made by a subscription to the topic.
def HasTopic (f : Fanout ι) (topic : String) (k : ℕ) : Prop :=
  ∃ h, f.handles[k]? = some h ∧ h.subscription = ⟨topic⟩

omit [DecidableEq ι] in
theorem HasTopic.set {i : ℕ} {h : SubscriptionHandle} {inbox : Mailbox Envelope inboxCapacity}
    (handle : f.handles[i]? = some h) (ht : f.HasTopic topic k) :
    { f with handles := f.handles.set i { h with inbox } }.HasTopic topic k :=
  List.exists_getElem?_set handle ht fun _ => id

omit [DecidableEq ι] in
theorem HasTopic.unique {topic' : String} (h : f.HasTopic topic k) (h' : f.HasTopic topic' k) :
    topic = topic' := by
  obtain ⟨h, hh, ht⟩ := h
  obtain ⟨h', hh', ht'⟩ := h'
  cases hh.symm.trans hh'
  cases ht.symm.trans ht'
  rfl

theorem Step.hasTopic (st : Step decode f act f') (h : f.HasTopic topic k) :
    f'.HasTopic topic k := by
  cases st <;> try exact h
  case subscribe =>
    have ⟨h, hh, ht⟩ := h
    have ⟨hl, _⟩ := List.getElem?_eq_some_iff.mp hh
    exact ⟨h, by rwa [subscribe_handles, List.getElem?_append_left hl], ht⟩
  case sent handle _   => exact h.set handle
  case recv handle _   => exact h.set handle
  case drop handle     => exact h.set handle

theorem Step.hasTopic_cases (st : Step decode f act f') (h : f'.HasTopic topic k) :
    f.HasTopic topic k ∨ (k = f.handles.length ∧ act = .subscribe topic) := by
  obtain ⟨h, hh, ht⟩ := h
  have set {i : ℕ} {h₀ : SubscriptionHandle} {inbox : Mailbox Envelope inboxCapacity}
      (hi : f.handles[i]? = some h₀)
      (hh : (f.handles.set i { h₀ with inbox })[k]? = some h) : f.HasTopic topic k := by
    rcases List.getElem?_set_cases hh with ⟨rfl, rfl⟩ | ⟨_, hh⟩
    · exact ⟨h₀, hi, ht⟩
    · exact ⟨h, hh, ht⟩
  cases st <;> try exact .inl ⟨h, hh, ht⟩
  case subscribe topic' =>
    by_cases hl : k < f.handles.length
    case pos => exact .inl ⟨h, by rwa [subscribe_handles, List.getElem?_append_left hl] at hh, ht⟩
    case neg =>
      rw [subscribe_handles, List.getElem?_append_right (Nat.le_of_not_lt hl)] at hh
      obtain ⟨hi, rfl⟩ := by simpa [List.getElem?_singleton] using hh
      cases ht
      exact .inr ⟨by omega, rfl⟩
  case sent handle _ => exact .inl <| set handle hh
  case recv handle _ => exact .inl <| set handle hh
  case drop handle   => exact .inl <| set handle hh

-- No message on the topic has been fanned out, so each of its subscriptions is in the map.
structure Fresh (f : Fanout ι) (topic : String) : Prop where
  registered : ∀ k, f.HasTopic topic k → f.Registered topic k
  unsent     : ∀ w env senders rest survivors,
    f.incoming w ≠ .sending topic env senders rest survivors

theorem Fresh.step (fresh : f.Fresh topic) (st : Step decode f act f')
    (silent : ∀ w message, act ≠ .incoming w topic message) : f'.Fresh topic := by
  have ⟨registered, unsent⟩ := fresh
  constructor
  case registered =>
    intro k hk
    rcases st.hasTopic_cases hk with hk | ⟨rfl, rfl⟩
    case inl =>
      have hr := registered k hk
      cases st <;> try exact hr
      case subscribe => exact subscribe_registered.mpr <| .inl hr
      case writeBack topic' _ _ _ sending _ =>
        have ne : topic ≠ topic' := by
          rintro rfl
          exact unsent _ _ _ _ _ sending
        simpa [Registered, ne] using hr
    case inr =>
      cases st
      exact subscribe_registered.mpr <| .inr ⟨rfl, rfl⟩
  case unsent =>
    intro w env senders rest survivors hs
    cases st <;> try exact unsent w env senders rest survivors hs
    case snapshot w' topic' message _ _ _ _ _ =>
      by_cases hw : w = w'
      case neg => exact unsent w env senders rest survivors <| by simpa [hw] using hs
      case pos =>
        subst hw
        simp only [Function.update_self, Incoming.sending.injEq] at hs
        exact silent w message <| hs.left ▸ rfl
    case sent w' _ _ _ _ _ _ _ _ sending _ _ | evicted w' _ _ _ _ _ _ _ sending _ _ =>
      by_cases hw : w = w'
      case neg => exact unsent w env senders rest survivors <| by simpa [hw] using hs
      case pos =>
        subst hw
        simp only [Function.update_self, Incoming.sending.injEq] at hs
        exact unsent _ _ _ _ _ <| hs.left ▸ sending
    case finish w' _ _ _ _ _ _ | writeBack w' _ _ _ _ _ _ =>
      by_cases hw : w = w'
      case neg => exact unsent w env senders rest survivors <| by simpa [hw] using hs
      case pos => simp [hw] at hs

omit [DecidableEq ι] in
theorem Fresh.subscribed (fresh : f.Fresh topic) (h : f.HasTopic topic k) :
    f.Subscribed topic k where
  registered := fresh.registered k h
  snapshots w env senders rest survivors hs :=
    absurd hs <| fresh.unsent w env senders rest survivors

-- The senders of a list are distinct, and all of them are of its topic.
structure Listed (f : Fanout ι) (topic : String) (senders : List ℕ) : Prop where
  nodup    : senders.Nodup
  hasTopic : ∀ k ∈ senders, f.HasTopic topic k

omit [DecidableEq ι] in
theorem Listed.sublist {senders rest : List ℕ} (h : f.Listed topic senders)
    (sub : rest.Sublist senders) : f.Listed topic rest where
  nodup         := h.nodup.sublist sub
  hasTopic k hk := h.hasTopic k <| sub.subset hk

theorem Listed.step {senders : List ℕ} (h : f.Listed topic senders) (st : Step decode f act f') :
    f'.Listed topic senders where
  nodup         := h.nodup
  hasTopic k hk := st.hasTopic <| h.hasTopic k hk

omit [DecidableEq ι] in
theorem HasTopic.lt (h : f.HasTopic topic k) : k < f.handles.length :=
  have ⟨_, hh, _⟩ := h
  (List.getElem?_eq_some_iff.mp hh).choose

theorem Listed.subscribe {senders : List ℕ} (h : f.Listed topic senders) :
    (f.subscribe topic).Listed topic (senders ++ [f.handles.length]) where
  nodup := by
    apply h.nodup.append (List.nodup_singleton _)
    simpa using fun hk => Nat.lt_irrefl _ (h.hasTopic _ hk).lt
  hasTopic k hk := by
    rcases List.mem_append.mp hk with hk | hk
    · exact Step.hasTopic (Step.subscribe : Step (fun _ => none) ..) <| h.hasTopic k hk
    · cases List.mem_singleton.mp hk
      exact ⟨{ subscription := ⟨topic⟩ }, by simp, rfl⟩

theorem listed (r : (machine ι decode).Reachable f) :
    (∀ topic senders, f.subscribers topic = some senders → f.Listed topic senders) ∧
      ∀ w topic env senders rest survivors,
        f.incoming w = .sending topic env senders rest survivors →
          f.Listed topic (survivors ++ rest) := by
  induction f, r using Machine.Reachable.induction_on
  case init => simp [machine]
  case step f act f' r hn ih =>
    have st := next_step hn
    obtain ⟨map, snapshots⟩ := ih
    constructor
    case left =>
      intro topic senders hs
      have keep {senders} (h : f.Listed topic senders) : f'.Listed topic senders := h.step st
      cases st <;> try exact keep <| map topic senders hs
      case subscribe topic' =>
        by_cases ht : topic = topic'
        case neg => exact keep <| map topic senders <| by simpa [Fanout.subscribe, ht] using hs
        case pos =>
          subst ht
          obtain rfl := by simpa [Fanout.subscribe] using hs
          refine .subscribe ?_
          cases h : f.subscribers topic
          case none   => exact ⟨List.nodup_nil, by simp⟩
          case some _ => exact map topic _ h
      case writeBack topic' env senders' survivors sending _ =>
        by_cases ht : topic = topic'
        case neg => exact keep <| map topic senders <| by simpa [ht] using hs
        case pos =>
          subst ht
          obtain rfl := by simpa using hs
          exact keep <| by simpa using snapshots _ topic env senders' [] survivors sending
    case right =>
      intro w topic env senders rest survivors hs
      have p := hs ▸ st.progress w
      generalize hf : f.incoming w = incoming at p
      have old {senders rest survivors}
          (h : f.incoming w = .sending topic env senders rest survivors) :=
        (snapshots w topic env senders rest survivors h).step st
      cases p
      case same => exact old hf
      case snapshot found => exact (map topic _ found).step st
      case sent => simpa using old hf
      case evicted => exact (old hf).sublist <| by simp

def Action.worker? : Action ι → Option ι
  | .incoming w _ _ | .trySend w _ | .writeBack w => some w
  | _                                             => none

omit [DecidableEq ι] in
theorem delivered_set {j : ℕ} {h : SubscriptionHandle} {inbox : Mailbox Envelope inboxCapacity}
    (handle : f.handles[j]? = some h) (same : j = k → inbox.contents = h.inbox.contents) :
    { f with handles := f.handles.set j { h with inbox } }.delivered k = f.delivered k := by
  by_cases hj : j = k
  case pos =>
    subst hj
    have ⟨hl, _⟩ := List.getElem?_eq_some_iff.mp handle
    simp [delivered, List.getElem?_set_self hl, handle, same]
  case neg => simp [delivered, List.getElem?_set_ne hj]

-- A worker takes no part in the steps of others.
theorem Step.incoming_of_ne (st : Step decode f act f') {v : ι} (hv : act.worker? ≠ some v) :
    f'.incoming v = f.incoming v := by
  have ne {w} (h : act.worker? = some w) : v ≠ w := fun he => hv <| he ▸ h
  cases st
  case subscribe | ignore | recv | drop => rfl
  all_goals exact Function.update_of_ne (ne rfl) ..

theorem Step.inFlight (st : Step decode f act f') {v : ι} (hv : act.worker? ≠ some v) :
    f'.inFlight k v = f.inFlight k v := by
  simp only [Fanout.inFlight, st.incoming_of_ne hv]

-- What the call of `handle_incoming` that the action has begun is about to try to give the inbox.
def begun (f : Fanout ι) (k : ℕ) : Action ι → Multiset Envelope
  | .incoming w _ _ => f.inFlight k w
  | _               => 0

omit [DecidableEq ι] in
theorem begun_of_no_worker (h : act.worker? = none) : f.begun k act = 0 := by
  cases act <;> first | rfl | cases h

-- Apart from what a call of `handle_incoming` that begins is about to put into an inbox, nothing
-- comes to be put there and nothing gets lost.
theorem Step.conserves {s : Finset ι} (st : Step decode f act f') (hk : k < f.handles.length)
    (held : f'.Holds k) (room : f.HasRoomFor k act) (hw : ∀ w, act.worker? = some w → w ∈ s) :
    f'.delivered k + ∑ w ∈ s, f'.inFlight k w =
      f.delivered k + ∑ w ∈ s, f.inFlight k w + f'.begun k act := by
  have holds := st.holds hk held
  have sum {w} (h : act.worker? = some w) : ∑ v ∈ s, f'.inFlight k v + f.inFlight k w =
      ∑ v ∈ s, f.inFlight k v + f'.inFlight k w :=
    Finset.sum_add_eq_of_ne (hw w h) fun v hv => st.inFlight <| by simp [h, hv.symm]
  cases st
  case subscribe =>
    simp [delivered, List.getElem?_append_left hk, Fanout.inFlight, Fanout.subscribe, begun]
  case ignore idle => simp [Fanout.inFlight, idle, begun]
  case snapshot w _ _ _ _ idle _ _ =>
    have none : f.inFlight k w = 0 := by simp [Fanout.inFlight, idle]
    have sum := sum rfl
    rw [none, add_zero] at sum
    rw [sum, ← add_assoc]
    rfl
  case sent w i topic env senders rest survivors h inbox sending handle accepted =>
    have contents := Mailbox.trySend_contents accepted
    refine (add_eq_of_moved (sum rfl) ?_).trans (add_zero _).symm
    by_cases hi : i = k
    case neg =>
      simp [Fanout.inFlight, sending, delivered, hi]
    case pos =>
      subst hi
      obtain ⟨hl, rfl⟩ := List.getElem?_eq_some_iff.mp handle
      simp [Fanout.inFlight, sending, delivered, hl, contents, ← Multiset.coe_add,
        ← Multiset.singleton_add]
      ac_rfl
  case evicted w i topic env senders rest survivors h sending handle rejected =>
    have ne : i ≠ k := by
      rintro rfl
      exact not_rejected holds room handle rejected
    refine (add_eq_of_moved (sum rfl) ?_).trans (add_zero _).symm
    simp [Fanout.inFlight, sending, ne, delivered]
  case finish sending _ | writeBack sending _ =>
    refine (add_eq_of_moved (sum rfl) ?_).trans (add_zero _).symm
    simp [Fanout.inFlight, sending, delivered]
  case recv handle received =>
    rw [delivered_set handle fun _ => Mailbox.recv_contents received]
    simp [Fanout.inFlight, begun]
  case drop i h handle =>
    have ne : i ≠ k := by
      rintro rfl
      obtain ⟨_, hh, held⟩ := held
      obtain ⟨hl, _⟩ := List.getElem?_eq_some_iff.mp handle
      simp only [List.getElem?_set_self hl, Option.some.injEq] at hh
      simp [← hh] at held
    rw [delivered_set handle fun hi => absurd hi ne]
    simp [Fanout.inFlight, begun]

-- A call of `handle_incoming` that begins tries to give the message to each subscription once.
theorem incoming_inFlight {topic' : String} {message : Bytes}
    (r : (machine ι decode).Reachable f) (sub : f.Subscribed topic k)
    (h : f.handleIncoming decode w topic' message = some f') :
    f'.inFlight k w = if topic' = topic then ↑(decode message).toList else 0 := by
  obtain ⟨senders, hs, hk⟩ := sub.registered
  simp only [handleIncoming] at h
  split at h <;> try cases h
  case _ idle =>
    split at h <;> cases h
    case _ env senders' decoded found =>
      obtain ⟨nodup, hasTopic⟩ := (listed r).left _ _ found
      by_cases ht : topic' = topic
      case pos =>
        subst ht
        cases hs.symm.trans found
        simp [inFlight, decoded, List.count_eq_one_of_mem nodup hk]
      case neg =>
        have hk' : k ∉ senders' := by
          intro hk'
          obtain ⟨_, hh, he⟩ := hasTopic k hk'
          obtain ⟨_, hh', he'⟩ := ((listed r).left _ _ hs).hasTopic k hk
          cases hh.symm.trans hh'
          cases he.symm.trans he'
          exact ht rfl
        simp [inFlight, ht, List.count_eq_zero_of_not_mem hk']
    case _ missing =>
      have none : f.inFlight k w = 0 := by simp [inFlight, idle]
      rw [none]
      split
      case isFalse => rfl
      case isTrue ht =>
        subst ht
        cases hd : decode message
        case none     => rfl
        case some env => exact absurd hs <| missing env senders hd

end MomRpc.Fanout
