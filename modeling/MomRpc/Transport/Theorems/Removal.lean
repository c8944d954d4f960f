import MomRpc.Transport.Theorems.Conservation
import MomRpc.Transport.Theorems.Eviction

namespace MomRpc.Fanout

section Written

variable {ι : Type} {f : Fanout ι} {act : Action ι} {k : ℕ} {topic : String} {survivors : List ℕ}

-- What replaces the list of its topic in the map.
def written (f : Fanout ι) : Action ι → Option (String × List ℕ)
  | .writeBack w =>
    match f.incoming w with
    | .sending topic _ senders [] survivors =>
      if survivors.length = senders.length then none else some (topic, survivors)
    | _ => none
  | _ => none

-- Survivors are written back to the topic of the sender.
def Rewrites (k : ℕ) (f : Fanout ι) (act : Action ι) : Prop :=
  ∃ topic survivors, f.HasTopic topic k ∧ f.written act = some (topic, survivors)

def Omits (k : ℕ) (f : Fanout ι) (act : Action ι) : Prop :=
  ∀ topic survivors, f.written act = some (topic, survivors) → k ∉ survivors

theorem not_rewrites_of_unwritten (none : f.written act = none) : ¬f.Rewrites k act := by
  rintro ⟨_, _, _, written⟩
  cases none.symm.trans written

theorem rewrites_iff (written : f.written act = some (topic, survivors)) :
    Rewrites k f act ↔ f.HasTopic topic k := by
  constructor
  case mp =>
    rintro ⟨_, _, hasTopic, written'⟩
    cases written.symm.trans written'
    exact hasTopic
  case mpr => exact fun hasTopic => ⟨_, _, hasTopic, written⟩

theorem omits_iff (written : f.written act = some (topic, survivors)) :
    Omits k f act ↔ k ∉ survivors := by
  simp [Omits, written]

end Written

variable {ι : Type} [DecidableEq ι] {decode : Bytes → Option Envelope} {f f' : Fanout ι}
  {act : Action ι} {as : List (Action ι)} {w : ι} {k : ℕ} {topic : String}

-- The last survivors that have been written back to the topic of the sender, since it has been
-- pushed, are without it.
def Removed (decode : Bytes → Option Envelope) (as : List (Action ι)) (k : ℕ) : Prop :=
  (machine ι decode).Last as (Rewrites k) (Omits k)

theorem Removed.lt (r : (machine ι decode).Run as f) (h : Removed decode as k) :
    k < f.handles.length := by
  obtain ⟨xs, act, ys, g, rfl, rg, ⟨_, _, hasTopic, _⟩, _⟩ := Machine.Last.occurs h
  obtain ⟨g', rg', he⟩ := r.split
  cases rg.deterministic rg'
  refine Machine.exec_stable (P := fun f => k < f.handles.length) he hasTopic.lt ?_
  exact fun _ _ _ _ hk hn => Nat.lt_of_lt_of_le hk (next_step hn).length_le

theorem Registered.hasTopic (r : (machine ι decode).Reachable f) (h : f.Registered topic k) :
    f.HasTopic topic k :=
  let ⟨senders, hs, hk⟩ := h
  ((listed r).left topic senders hs).hasTopic k hk

-- What becomes of a sender is decided by the survivors that are written back to its topic.
theorem Step.registered_iff (st : Step decode f act f') (h : f.HasTopic topic k) :
    f'.Registered topic k ↔
      (f.Rewrites k act ∧ ¬f.Omits k act) ∨ (f.Registered topic k ∧ ¬f.Rewrites k act) := by
  have unwritten {act : Action ι} {g : Fanout ι} (none : f.written act = none)
      (same : g.Registered topic k ↔ f.Registered topic k) :
      g.Registered topic k ↔
        (f.Rewrites k act ∧ ¬f.Omits k act) ∨ (f.Registered topic k ∧ ¬f.Rewrites k act) := by
    simp [same, not_rewrites_of_unwritten none]
  cases st
  case subscribe topic' =>
    have fresh : ¬(topic = topic' ∧ k = f.handles.length) := fun he => Nat.ne_of_lt h.lt he.right
    exact unwritten rfl <| by simp [subscribe_registered, fresh]
  case writeBack w topic' env senders survivors sending fewer =>
    have written : f.written (.writeBack w) = some (topic', survivors) := by
      simp [written, sending, fewer]
    rw [rewrites_iff written, omits_iff written]
    by_cases ht : topic = topic'
    case pos => simp [← ht, Registered, h]
    case neg =>
      have other : ¬f.HasTopic topic' k := fun h' => ht <| h.unique h'
      simp [ht, other, Registered]
  case finish sending all => exact unwritten (by simp [written, sending, all]) .rfl
  all_goals exact unwritten rfl .rfl

theorem removed_iff (r : (machine ι decode).Run as f) (h : f.HasTopic topic k) :
    Removed decode as k ↔ ¬f.Registered topic k := by
  induction as, f, r using Machine.Run.induction_on
  case init => simp [HasTopic, machine] at h
  case step as f act f' r hn ih =>
    have st := next_step hn
    rw [Removed, Machine.last_concat_iff r]
    rcases st.hasTopic_cases h with h | ⟨rfl, rfl⟩
    case inl =>
      have ih : Removed decode as k ↔ ¬f.Registered topic k := ih h
      rw [st.registered_iff h, ← Removed, ih]
      tauto
    case inr =>
      have fresh : ¬Removed decode as f.handles.length := fun h => Nat.lt_irrefl _ <| h.lt r
      have none : f.written (.subscribe topic) = none := rfl
      rw [← Removed]
      cases st
      simp [not_rewrites_of_unwritten none, fresh, subscribe_registered]

theorem removed_iff_unregistered (r : (machine ι decode).Run as f) (hk : k < f.handles.length) :
    Removed decode as k ↔ ∀ topic, ¬f.Registered topic k := by
  have h : f.HasTopic f.handles[k].subscription.name k := ⟨_, List.getElem?_eq_getElem hk, rfl⟩
  rw [removed_iff r h]
  constructor
  case mp  => exact fun none topic hr => none <| (hr.hasTopic r.reachable).unique h ▸ hr
  case mpr => exact fun none => none _

-- Whoever has been tried in vain is not left to the worker.
theorem Failed.missing {env : Envelope} {senders rest survivors : List ℕ}
    (h : Failed decode as w k) (r : (machine ι decode).Run as f)
    (hs : f.incoming w = .sending topic env senders rest survivors) : k ∉ rest ++ survivors := by
  obtain ⟨xs, ys, g, topic', env', senders', rest', survivors', h, rfl, hw, rg, hg, handle,
    rejected⟩ := h
  obtain ⟨g', hn, he⟩ := r.next rg
  obtain ⟨nodup, _⟩ := (listed rg.reachable).right w _ _ _ _ _ hg
  let incoming : Incoming := .sending topic' env' senders' rest' survivors'
  have evicted : (machine ι decode).next g (.trySend w k) = some { g with
      incoming := Function.update g.incoming w incoming } := by
    simp [machine, next, Fanout.trySend, hg, handle, rejected, incoming]
  cases hn.symm.trans evicted
  obtain ⟨_, _, hs', sub⟩ := same_snapshot he hw <| Function.update_self ..
  cases hs.symm.trans hs'
  have gone : k ∉ survivors' ++ rest' := by grind
  exact fun hk => gone <| sub <| List.mem_append.mpr (List.mem_append.mp hk).symm

-- The sender is in the map, or a worker has yet to try it or to write it back.
def Retained (f : Fanout ι) (k : ℕ) : Prop :=
  (∃ topic, f.Registered topic k) ∨ ∃ w topic env senders rest survivors,
    f.incoming w = .sending topic env senders rest survivors ∧ k ∈ rest ++ survivors

-- The last survivors that have been written back are without the sender, and each worker that has
-- it in the snapshot it is at has tried it in vain.
structure GivenUp (decode : Bytes → Option Envelope) (as : List (Action ι)) (f : Fanout ι)
    (k : ℕ) : Prop where
  removed : Removed decode as k
  refused : ∀ w topic env senders rest survivors,
    f.incoming w = .sending topic env senders rest survivors → k ∈ senders → Failed decode as w k

theorem givenUp_iff (r : (machine ι decode).Run as f) (hk : k < f.handles.length) :
    GivenUp decode as f k ↔ ¬f.Retained k := by
  constructor
  case mp =>
    rintro ⟨removed, refused⟩ (⟨topic, registered⟩ | ⟨w, topic, env, senders, rest, survivors, h⟩)
    case inl => exact (removed_iff_unregistered r hk).mp removed topic registered
    case inr =>
      obtain ⟨hs, hm⟩ := h
      have ⟨sub, sub'⟩ := survivors_subset r.reachable hs
      have hi : k ∈ senders := (List.mem_append.mp hm).elim (sub ·) (sub' ·)
      exact (refused w topic env senders rest survivors hs hi).missing r hs hm
  case mpr =>
    intro h
    refine ⟨(removed_iff_unregistered r hk).mpr fun topic hr => h <| .inl ⟨topic, hr⟩, ?_⟩
    intro w topic env senders rest survivors hs hi
    have left : k ∉ rest ++ survivors := fun hm => h <| .inr ⟨w, _, _, _, _, _, hs, hm⟩
    rw [List.mem_append, not_or] at left
    exact failed_of_missing r hs hi left.left left.right

end MomRpc.Fanout
