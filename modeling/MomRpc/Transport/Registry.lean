import MomRpc.Domain.Transport
import MomRpc.Lib.History
import MomRpc.Lib.Machine

namespace MomRpc

namespace SubscriptionHandle

variable {handles : List SubscriptionHandle} {h h' : SubscriptionHandle} {i k : ℕ}

-- The `i`-th handle has been dropped.
def Dropped (handles : List SubscriptionHandle) (i : ℕ) : Prop :=
  ∃ h ∈ handles[i]?, h.inbox.held = false

instance : DecidablePred (Dropped handles) :=
  fun i => inferInstanceAs (Decidable (∃ h ∈ handles[i]?, h.inbox.held = false))

-- The handles on a topic.
def on (handles : List SubscriptionHandle) (name : String) : List ℕ :=
  (List.range handles.length).filter fun i => ∃ h ∈ handles[i]?, h.subscription = ⟨name⟩

theorem Dropped.lt (hd : Dropped handles i) : i < handles.length :=
  have ⟨_, hh, _⟩ := hd
  (List.getElem?_eq_some_iff.mp hh).choose

theorem mem_on {name : String} :
    i ∈ on handles name ↔ ∃ h ∈ handles[i]?, h.subscription = ⟨name⟩ := by
  simp only [on, List.mem_filter, List.mem_range, decide_eq_true_eq, and_iff_right_iff_imp]
  rintro ⟨_, hh, _⟩
  exact (List.getElem?_eq_some_iff.mp hh).choose

theorem Dropped.append (hd : Dropped handles i) : Dropped (handles ++ [h]) i := by
  have hl := hd.lt
  obtain ⟨h', hh, hf⟩ := hd
  exact ⟨h', (List.getElem?_append_left hl).trans hh, hf⟩

-- Nobody takes up a handle again that has been dropped.
theorem Dropped.set (handle : handles[k]? = some h) (held : h'.inbox.held → h.inbox.held)
    (hd : Dropped handles i) : Dropped (handles.set k h') i := by
  refine List.exists_getElem?_set handle hd fun _ hf => ?_
  simpa [hf] using held

end SubscriptionHandle

open SubscriptionHandle (Dropped on mem_on)

-- A transport seen from its map of senders. `start w` begins to fan out a message on `topic` and
-- `finish w` is done with it. `subscribed` tells that a handle has been made by a subscription to
-- the topic and that the transport has not been closed since.
structure Registry (S A W : Type) where
  machine    : Machine S A
  handles    : S → List SubscriptionHandle
  senders    : S → String → List ℕ
  subscribed : List A → S → String → ℕ → Prop
  start      : W → A
  finish     : W → A
  topic      : S → W → String → Prop

namespace Registry

variable {S A W : Type} (reg : Registry S A W)

-- The run has fanned out a message on the topic, and it began to do so in `s`, after `xs`.
def FannedOut (as : List A) (name : String) (xs : List A) (s : S) : Prop :=
  ∃ w zs ys, as = xs ++ reg.start w :: (zs ++ reg.finish w :: ys) ∧ reg.finish w ∉ zs ∧
    reg.machine.Run xs s ∧ reg.topic s w name

-- No sender is left of a handle that had been dropped before a message on its topic.
def Forgets (as : List A) (t : S) : Prop :=
  ∀ name xs s, reg.FannedOut as name xs s → ∀ i ∈ reg.senders t name, ¬Dropped (reg.handles s) i

def held (t : S) (name : String) : List ℕ :=
  (on (reg.handles t) name).filter fun i => ¬Dropped (reg.handles t) i

def droppedSince (s t : S) (name : String) : List ℕ :=
  (on (reg.handles t) name).filter fun i =>
    Dropped (reg.handles t) i ∧ ¬Dropped (reg.handles s) i

-- There are no more senders on a topic than handles that are held, or that have been dropped since
-- a message on it, or at all if there has not been any.
def Bounded (as : List A) (t : S) : Prop :=
  ∀ name s, (s = reg.machine.init ∨ ∃ xs, reg.FannedOut as name xs s) →
    (reg.senders t name).length ≤ (reg.held t name).length + (reg.droppedSince s t name).length

-- Dropping a handle takes its sender out of the map with the next message on the topic.
structure Unsubscribes (as : List A) (t : S) : Prop where
  forgets : reg.Forgets as t
  bounded : reg.Bounded as t

-- No message on a topic is fanned out after a handle has been dropped that is subscribed to it.
def Clean (as : List A) : Prop :=
  ∀ name xs s, reg.FannedOut as name xs s →
    ∀ i, reg.subscribed xs s name i → ¬Dropped (reg.handles s) i

-- The senders in the map are those of the subscriptions. What is in the map when a message is
-- fanned out stays there until that is done.
structure Lawful : Prop where
  init       : reg.handles reg.machine.init = []
  registered : ∀ as s name i, reg.machine.Run as s →
    (reg.subscribed as s name i ↔ i ∈ reg.senders s name)
  nodup      : ∀ s name, reg.machine.Reachable s → (reg.senders s name).Nodup
  named      : ∀ s name i, reg.machine.Reachable s → i ∈ reg.senders s name →
    i ∈ on (reg.handles s) name
  grows      : ∀ s a s', reg.machine.next s a = some s' →
    (reg.handles s).length ≤ (reg.handles s').length
  dropped    : ∀ s a s' i, reg.machine.next s a = some s' → Dropped (reg.handles s) i →
    Dropped (reg.handles s') i
  fresh      : ∀ s a s' name i, reg.machine.next s a = some s' → i ∈ reg.senders s' name →
    i ∈ reg.senders s name ∨ (reg.handles s).length ≤ i
  keeps      : ∀ s w zs t name i, reg.machine.Reachable s → reg.topic s w name →
    reg.machine.exec s (reg.start w :: (zs ++ [reg.finish w])) = some t →
    i ∈ reg.senders s name → i ∈ reg.senders t name

variable {reg} {s t : S} {as bs xs : List A} {name : String} {i : ℕ}

theorem FannedOut.run (fo : reg.FannedOut as name xs s) : reg.machine.Run xs s :=
  have ⟨_, _, _, _, _, r, _⟩ := fo
  r

theorem FannedOut.append (fo : reg.FannedOut as name xs s) :
    reg.FannedOut (as ++ bs) name xs s :=
  have ⟨w, zs, ys, he, first, r, ht⟩ := fo
  ⟨w, zs, ys ++ bs, by simp [he], first, r, ht⟩

-- From when the message was fanned out, an execution leads to where the run ends.
theorem FannedOut.exec (fo : reg.FannedOut as name xs s) (rt : reg.machine.Run as t) :
    ∃ bs, reg.machine.exec s bs = some t := by
  obtain ⟨w, zs, ys, rfl, _, r, _⟩ := fo
  have ⟨_, r', he⟩ := rt.split
  cases r.deterministic r'
  exact ⟨_, he⟩

-- A sender of a handle that had been dropped in `s` was in the map in `s`.
theorem Lawful.mem_of_exec (law : reg.Lawful) (he : reg.machine.exec s bs = some t)
    (hi : i ∈ reg.senders t name) (hd : Dropped (reg.handles s) i) : i ∈ reg.senders s name := by
  induction bs generalizing s
  case nil => cases he; exact hi
  case cons a bs ih =>
    have ⟨u, hn, he⟩ := Option.bind_eq_some_iff.mp he
    have hu := ih he <| law.dropped s a u i hn hd
    exact law.fresh s a u name i hn hu |>.resolve_right <| Nat.not_le_of_lt hd.lt

theorem Lawful.forgets (law : reg.Lawful) (clean : reg.Clean as) (rt : reg.machine.Run as t) :
    reg.Forgets as t := by
  intro name xs s fo i hi hd
  have ⟨bs, he⟩ := fo.exec rt
  have hs := law.mem_of_exec he hi hd
  exact clean name xs s fo i (law.registered xs s name i fo.run |>.mpr hs) hd

theorem Lawful.bounded (law : reg.Lawful) (forgets : reg.Forgets as t)
    (rt : reg.machine.Run as t) : reg.Bounded as t := by
  intro name s hs
  have old {i : ℕ} (hi : i ∈ reg.senders t name) : ¬Dropped (reg.handles s) i := by
    rcases hs with rfl | ⟨xs, fo⟩
    · simp [Dropped, law.init]
    · exact forgets name xs s fo i hi
  have sub : reg.senders t name ⊆ reg.held t name ++ reg.droppedSince s t name := by
    intro i hi
    have named := law.named t name i rt.reachable hi
    rw [List.mem_append, held, droppedSince, List.mem_filter, List.mem_filter]
    by_cases hd : Dropped (reg.handles t) i
    · exact .inr ⟨named, by simp [hd, old hi]⟩
    · exact .inl ⟨named, by simp [hd]⟩
  have nodup := law.nodup t name rt.reachable
  simpa using (List.subperm_of_subset nodup sub).length_le

theorem Lawful.clean (law : reg.Lawful) (along : reg.machine.Along as reg.Forgets)
    (rt : reg.machine.Run as t) : reg.Clean as := by
  rintro name xs s ⟨w, zs, ys, rfl, first, r, ht⟩ i hi hd
  -- The state in which the message has just been fanned out.
  have hc : xs ++ reg.start w :: (zs ++ reg.finish w :: ys) =
      (xs ++ reg.start w :: (zs ++ [reg.finish w])) ++ ys := by simp
  have ⟨u, ru, _⟩ := (hc ▸ rt).split
  have forgets := along _ ys u hc ru
  have ⟨_, r', he⟩ := ru.split
  cases r.deterministic r'
  have hi := law.registered xs s name i r |>.mp hi
  have hi := law.keeps s w zs u name i r.reachable ht he hi
  exact forgets name xs s ⟨w, zs, [], rfl, first, r, ht⟩ i hi hd

theorem Lawful.clean_of_throughout (law : reg.Lawful) {C : S → A → Prop}
    (h : reg.machine.Throughout as C)
    (held : ∀ s w name, C s (reg.start w) → reg.topic s w name →
      ∀ i ∈ reg.senders s name, ¬Dropped (reg.handles s) i) : reg.Clean as := by
  rintro name xs s ⟨w, zs, ys, he, _, r, ht⟩ i hi
  exact held s w name (h _ _ _ _ he r) ht i <| law.registered xs s name i r |>.mp hi

theorem unsubscribes_iff (law : reg.Lawful) (r : reg.machine.Run as t) :
    reg.machine.Along as reg.Unsubscribes ↔ reg.Clean as := by
  constructor
  case mp => exact fun along => law.clean (fun xs ys s he rs => (along xs ys s he rs).forgets) r
  case mpr =>
    rintro clean xs ys s rfl rs
    have forgets := law.forgets (fun name zs u fo => clean name zs u fo.append) rs
    exact ⟨forgets, law.bounded forgets rs⟩

end Registry
end MomRpc
