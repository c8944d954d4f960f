import MomRpc.Lib.History
import MomRpc.Transport.Broadcast
import MomRpc.Transport.Theorems.Eviction
import MomRpc.Transport.Theorems.Memory

namespace MomRpc

open Broadcast (offer deliver NoneFull)

section Offer

variable {env : Envelope} {h : SubscriptionHandle} {decode : Bytes → Option Envelope}
  {message : Message decode} {handles : List SubscriptionHandle} {is : List ℕ}

@[simp]
theorem Broadcast.offer_subscription : (offer env h).subscription = h.subscription :=
  rfl

theorem Broadcast.offer_some {inbox : Mailbox Envelope inboxCapacity}
    (accepted : h.inbox.trySend env = some inbox) : offer env h = { h with inbox } := by
  simp [offer, accepted]

theorem Broadcast.offer_none (rejected : h.inbox.trySend env = none) : offer env h = h := by
  simp [offer, rejected]

@[simp]
theorem Broadcast.offer_held : (offer env h).inbox.held = h.inbox.held := by
  cases hs : h.inbox.trySend env
  case none       => rw [offer_none hs]
  case some inbox =>
    have ⟨held, held'⟩ := Mailbox.trySend_held hs
    rw [offer_some hs, held]
    exact held'

-- It makes no difference to offer the message to those only that have not been dropped.
theorem Broadcast.foldl_offer (nodup : is.Nodup)
    (topic : ∀ i ∈ is, ∀ h, handles[i]? = some h → h.subscription.name = message.topic)
    (all : ∀ i h, handles[i]? = some h → h.subscription.name = message.topic → h.inbox.held →
      i ∈ is) :
    is.foldl (fun hs i => hs.modify i (offer message.env)) handles = deliver handles message := by
  refine List.ext_getElem? fun i => ?_
  rw [List.foldl_modify_getElem? nodup, deliver, List.getElem?_map]
  refine Option.map_congr fun h hh => ?_
  by_cases mem : i ∈ is
  case pos => simp [mem, topic i mem h hh]
  case neg =>
    simp only [mem, if_false, id]
    split
    case isFalse => rfl
    case isTrue ht =>
      refine (offer_none <| Mailbox.trySend_eq_none_iff.mpr fun held => ?_).symm
      exact absurd (all i h hh ht held) mem

end Offer

namespace Fanout

variable {ι : Type} {decode : Bytes → Option Envelope} {f f' : Fanout ι}
  {message : Message decode} {w : ι} {topic : String} {env : Envelope}
  {senders rest survivors : List ℕ}

-- The inbox takes the envelope.
def accepts (f : Fanout ι) (env : Envelope) (i : ℕ) : Bool :=
  f.handles[i]?.any fun h => (h.inbox.trySend env).isSome

-- Between two steps: the map has a sender for every inbox that still exists, under its topic.
structure Coherent (f : Fanout ι) : Prop where
  idle   : ∀ w, f.incoming w = .idle
  nodup  : ∀ topic senders, f.subscribers topic = some senders → senders.Nodup
  topics : ∀ topic i, f.Registered topic i →
    ∃ h, f.handles[i]? = some h ∧ h.subscription.name = topic
  live   : ∀ i h, f.handles[i]? = some h → h.inbox.held → f.Registered h.subscription.name i

def fannedOut (f : Fanout ι) (message : Message decode) : Fanout ι :=
  let survivors := (f.subscribers message.topic).map (·.filter (f.accepts message.env))
  { f with
    handles     := deliver f.handles message
    subscribers := Function.update f.subscribers message.topic survivors
  }

theorem Coherent.foldl_offer (c : f.Coherent) (hs : f.subscribers message.topic = some senders) :
    senders.foldl (fun hs i => hs.modify i (offer message.env)) f.handles =
      deliver f.handles message := by
  refine Broadcast.foldl_offer (c.nodup _ _ hs) (fun i mem h hh => ?_) fun i h hh ht held => ?_
  · obtain ⟨h', hh', ht⟩ := c.topics _ i ⟨senders, hs, mem⟩
    cases hh.symm.trans hh'
    exact ht
  · have ⟨senders', hs', mem⟩ := ht ▸ c.live i h hh held
    cases hs.symm.trans hs'
    exact mem

theorem Coherent.deliver_none (c : f.Coherent) (hs : f.subscribers message.topic = none) :
    deliver f.handles message = f.handles := by
  refine (Broadcast.foldl_offer List.nodup_nil (by simp) fun i h hh ht held => ?_).symm
  have ⟨senders, hs', _⟩ := ht ▸ c.live i h hh held
  cases hs.symm.trans hs'

theorem fannedOut_registered {i : ℕ} : (f.fannedOut message).Registered topic i ↔
    f.Registered topic i ∧ (topic = message.topic → f.accepts message.env i) := by
  by_cases ht : topic = message.topic
  case neg => simp [Registered, fannedOut, ht]
  case pos =>
    subst ht
    cases hs : f.subscribers message.topic <;> simp [Registered, fannedOut, hs]

theorem Coherent.fanOut (c : f.Coherent) (room : NoneFull f.handles) (message : Message decode) :
    (f.fannedOut message).Coherent where
  idle   := c.idle
  nodup topic senders hs := by
    by_cases ht : topic = message.topic
    case neg => exact c.nodup topic senders <| by simpa [Fanout.fannedOut, ht] using hs
    case pos =>
      subst ht
      simp only [Fanout.fannedOut, Function.update_self, Option.map_eq_some_iff] at hs
      obtain ⟨senders, hs, rfl⟩ := hs
      exact (c.nodup _ _ hs).filter _
  topics topic i reg := by
    have ⟨h, hh, ht⟩ := c.topics topic i (fannedOut_registered.mp reg).left
    refine ⟨_, by simp [Fanout.fannedOut, deliver, hh]; rfl, ?_⟩
    split <;> simpa using ht
  live i h' hh' held := by
    simp only [Fanout.fannedOut, deliver, List.getElem?_map, Option.map_eq_some_iff] at hh'
    obtain ⟨h, hh, rfl⟩ := hh'
    have held : h.inbox.held := by split at held <;> simpa using held
    have reg := c.live i h hh held
    rw [fannedOut_registered]
    have roomy := room h (List.mem_of_getElem? hh)
    have ⟨inbox, accepted⟩ : ∃ inbox, h.inbox.trySend message.env = some inbox :=
      Option.ne_none_iff_exists'.mp fun rejected =>
        Mailbox.trySend_eq_none_iff.mp rejected held roomy
    have takes : f.accepts message.env i := by simp [accepts, hh, accepted]
    split <;> exact ⟨by simpa using reg, fun _ => takes⟩

theorem Coherent.subscribe (c : f.Coherent) (topic : String) : (f.subscribe topic).Coherent where
  idle := c.idle
  nodup topic' senders hs := by
    by_cases ht : topic' = topic
    case neg => exact c.nodup topic' senders <| by simpa [Fanout.subscribe, ht] using hs
    case pos =>
      subst ht
      simp only [Fanout.subscribe, Function.update_self, Option.some.injEq] at hs
      subst hs
      cases hs : f.subscribers topic'
      case none => simp
      case some senders =>
        apply (c.nodup _ _ hs).append (List.nodup_singleton _)
        rw [List.disjoint_singleton]
        intro mem
        obtain ⟨_, hh, _⟩ := c.topics topic' _ ⟨senders, hs, mem⟩
        simp at hh
  topics topic' i reg := by
    rcases subscribe_registered.mp reg with reg | ⟨rfl, rfl⟩
    · obtain ⟨h, hh, ht⟩ := c.topics topic' i reg
      obtain ⟨lt, _⟩ := List.getElem?_eq_some_iff.mp hh
      exact ⟨h, by rwa [subscribe_handles, List.getElem?_append_left lt], ht⟩
    · exact ⟨_, by rw [subscribe_handles, List.getElem?_concat_length], rfl⟩
  live i h hh held := by
    rw [subscribe_registered]
    rw [subscribe_handles] at hh
    by_cases lt : i < f.handles.length
    case pos => exact .inl <| c.live i h (by rwa [List.getElem?_append_left lt] at hh) held
    case neg =>
      rw [List.getElem?_append_right (Nat.le_of_not_lt lt), List.getElem?_singleton] at hh
      obtain ⟨hi, rfl⟩ := by simpa using hh
      exact .inr ⟨rfl, by omega⟩

theorem Coherent.set {i : ℕ} {h h' : SubscriptionHandle} (c : f.Coherent)
    (hh : f.handles[i]? = some h) (same : h'.subscription = h.subscription)
    (held : h'.inbox.held → h.inbox.held) :
    { f with handles := f.handles.set i h' }.Coherent where
  idle  := c.idle
  nodup := c.nodup
  topics topic j reg := by
    exact List.exists_getElem?_set hh (c.topics topic j reg) fun _ ht => same ▸ ht
  live j g hg held' := by
    rcases List.getElem?_set_cases hg with ⟨rfl, rfl⟩ | ⟨_, hg⟩
    · exact same ▸ c.live j h hh (held held')
    · exact c.live j g hg held'

variable [DecidableEq ι]

theorem exec_trySends (sending : f.incoming w = .sending topic env senders rest survivors)
    (nodup : rest.Nodup) (bound : ∀ i ∈ rest, i < f.handles.length) :
    (machine ι decode).exec f (rest.map (.trySend w)) = some { f with
      handles  := rest.foldl (fun hs i => hs.modify i (offer env)) f.handles
      incoming := Function.update f.incoming w
        (.sending topic env senders [] (survivors ++ rest.filter (f.accepts env)))
    } := by
  induction rest generalizing f survivors
  case nil => simp [← sending]
  case cons i rest ih =>
    have ⟨fresh, nodup⟩ := List.nodup_cons.mp nodup
    have ⟨h, handle⟩ : ∃ h, f.handles[i]? = some h :=
      ⟨_, List.getElem?_eq_getElem <| bound i (List.mem_cons_self ..)⟩
    have bound j (hj : j ∈ rest) := bound j <| List.mem_cons_of_mem _ hj
    have others (f' : Fanout ι) (same : ∀ j ≠ i, f'.handles[j]? = f.handles[j]?) :
        rest.filter (f'.accepts env) = rest.filter (f.accepts env) := by
      refine List.filter_congr fun j hj => ?_
      rw [accepts, accepts, same j fun he => fresh <| he ▸ hj]
    cases hs : h.inbox.trySend env
    case none =>
      have same : f.handles.modify i (offer env) = f.handles := by
        rw [List.modify_eq_set_of_getElem? handle, Broadcast.offer_none hs,
          List.set_eq_self_of_getElem? handle]
      let f₁ : Fanout ι := { f with
        incoming := Function.update f.incoming w (.sending topic env senders rest survivors)
      }
      have sending₁ : f₁.incoming w = .sending topic env senders rest survivors :=
        Function.update_self ..
      have hn : (machine ι decode).next f (.trySend w i) = some f₁ := by
        simp [machine, next, Fanout.trySend, sending, handle, hs, f₁]
      have rejects : f.accepts env i = false := by simp [accepts, handle, hs]
      rw [List.map_cons, Machine.exec_cons, hn, Option.bind_some,
        ih sending₁ nodup bound, others f₁ fun _ _ => rfl]
      simp [f₁, same, rejects]
    case some inbox =>
      have sent : f.handles.modify i (offer env) = f.handles.set i { h with inbox } := by
        rw [List.modify_eq_set_of_getElem? handle, Broadcast.offer_some hs]
      let f₁ : Fanout ι := { f with
        handles  := f.handles.set i { h with inbox }
        incoming :=
          Function.update f.incoming w (.sending topic env senders rest (survivors ++ [i]))
      }
      have sending₁ : f₁.incoming w = .sending topic env senders rest (survivors ++ [i]) :=
        Function.update_self ..
      have hn : (machine ι decode).next f (.trySend w i) = some f₁ := by
        simp [machine, next, Fanout.trySend, sending, handle, hs, f₁]
      have takes : f.accepts env i := by simp [accepts, handle, hs]
      rw [List.map_cons, Machine.exec_cons, hn, Option.bind_some,
        ih sending₁ nodup (by simpa [f₁] using bound),
        others f₁ fun j hj => List.getElem?_set_ne (Ne.symm hj)]
      simp [f₁, sent, takes]

theorem Coherent.incoming (c : f.Coherent) (w : ι) (message : Message decode) :
    (atomic ι decode).next f (.incoming w message) = some (f.fannedOut message) := by
  have idle := c.idle w
  simp only [atomic, steps]
  cases hs : f.subscribers message.topic
  case none =>
    have hn : (machine ι decode).next f (.incoming w message.topic message.payload) = some f := by
      simp [machine, next, handleIncoming, idle, hs]
    have same : Function.update f.subscribers message.topic none = f.subscribers :=
      Function.update_eq_self_iff.mpr hs.symm
    simp [hn, fannedOut, hs, c.deliver_none hs, same]
  case some senders =>
    let f₁ : Fanout ι := { f with
      incoming := Function.update f.incoming w
        (.sending message.topic message.env senders senders [])
    }
    have sending : f₁.incoming w = .sending message.topic message.env senders senders [] :=
      Function.update_self ..
    have hn : (machine ι decode).next f (.incoming w message.topic message.payload) = some f₁ := by
      simp [machine, next, handleIncoming, idle, hs, message.decoded, f₁]
    have bound i (mem : i ∈ senders) : i < f₁.handles.length := by
      obtain ⟨_, hh, _⟩ := c.topics _ i ⟨senders, hs, mem⟩
      exact (List.getElem?_eq_some_iff.mp hh).fst
    have sent : (machine ι decode).exec f₁ (senders.map (.trySend w)) = some _ :=
      exec_trySends sending (c.nodup _ _ hs) bound
    have reset {x : Incoming} :
        Function.update (Function.update f.incoming w x) w .idle = f.incoming := by
      rw [Function.update_idem]
      exact Function.update_eq_self_iff.mpr idle.symm
    rw [Machine.exec_cons, hn, Option.bind_some, Machine.exec_append, sent, Option.bind_some]
    have accepts : f₁.accepts message.env = f.accepts message.env := rfl
    simp only [Machine.exec_cons, Machine.exec_nil, Option.bind_fun_some, machine, next, writeBack,
      Function.update_self, List.nil_append, accepts, c.foldl_offer hs, f₁, fannedOut, hs,
      Option.map_some]
    split
    case isTrue all =>
      have same : senders.filter (f.accepts message.env) = senders :=
        List.filter_eq_self.mpr <| List.length_filter_eq_length_iff.mp all
      have keep : Function.update f.subscribers message.topic (some senders) = f.subscribers :=
        Function.update_eq_self_iff.mpr hs.symm
      simp [same, keep, reset]
    case isFalse => simp [reset]

theorem Coherent.next_handles (c : f.Coherent) (a : Broadcast.Action ι decode) :
    ((atomic ι decode).next f a).map handles =
      (Broadcast.machine ι decode).next f.handles a := by
  cases a
  case incoming w message => rw [c.incoming w message]; rfl
  case subscribe => rfl
  case drop i =>
    simp [atomic, steps, machine, next, Fanout.drop, Broadcast.machine, Broadcast.next,
      Function.comp_def]
  case recv i =>
    simp only [atomic, steps, Machine.exec_cons, Machine.exec_nil, Option.bind_fun_some, machine,
      next, Fanout.recv, Broadcast.machine, Broadcast.next]
    cases hh : f.handles[i]?
    case none => rfl
    case some h => cases hr : h.inbox.recv <;> simp [hr]

theorem Coherent.next {a : Broadcast.Action ι decode} (c : f.Coherent) (room : NoneFull f.handles)
    (hn : (atomic ι decode).next f a = some f') : f'.Coherent := by
  cases a
  case incoming w message =>
    cases (c.incoming w message).symm.trans hn
    exact c.fanOut room message
  case subscribe topic =>
    obtain rfl : f.subscribe topic = f' := by simpa [atomic, steps, machine, Fanout.next] using hn
    exact c.subscribe topic
  case recv i =>
    replace hn : (machine ι decode).next f (.recv i) = some f' := by simpa [atomic, steps] using hn
    cases next_step hn
    case recv received handle => exact c.set handle rfl fun _ => (Mailbox.recv_held received).left
  case drop i =>
    replace hn : (machine ι decode).next f (.drop i) = some f' := by simpa [atomic, steps] using hn
    cases next_step hn
    case drop handle => exact c.set handle rfl (by simp)

theorem implements : Machine.Implements (atomic ι decode) (Broadcast.machine ι decode) handles
    Coherent NoneFull where
  init      := rfl
  invariant := by constructor <;> simp [atomic, Registered]
  next f a c _ := c.next_handles a
  preserves f a f' c room hn := c.next room hn

end Fanout

namespace MemoryHub

variable {ι : Type} {decode : Bytes → Option Envelope} {hub : MemoryHub ℕ}
  {s s' : MemoryHub ℕ × ℕ} {message : Message decode} {env : Envelope} {senders rest : List ℕ}
  {p : ℕ}

theorem send_offer {i : ℕ} {h : SubscriptionHandle}
    (sending : hub.publishes p = .sending env (i :: rest)) (handle : hub.handles[i]? = some h)
    (room : h.inbox.HasRoom) :
    (machine ℕ).next hub (.send p i) = some { hub with
      handles   := hub.handles.modify i (offer env)
      publishes := Function.update hub.publishes p (.sending env rest)
    } := by
  rw [List.modify_eq_set_of_getElem? handle]
  cases hs : h.inbox.trySend env
  case some inbox =>
    have held := (Mailbox.trySend_held hs).left
    simp [machine, next, send, sending, MemoryHub.deliver, handle, held, hs, set,
      Broadcast.offer_some hs]
  case none =>
    have dropped : ¬h.inbox.held := fun held => Mailbox.trySend_eq_none_iff.mp hs held room
    simp [machine, next, send, sending, MemoryHub.deliver, handle, dropped, set,
      Broadcast.offer_none hs, List.set_eq_self_of_getElem? handle]

theorem exec_sends (sending : hub.publishes p = .sending env rest) (nodup : rest.Nodup)
    (room : ∀ i ∈ rest, ∃ h, hub.handles[i]? = some h ∧ h.inbox.HasRoom) :
    (machine ℕ).exec hub (rest.map (.send p)) = some { hub with
      handles   := rest.foldl (fun hs i => hs.modify i (offer env)) hub.handles
      publishes := Function.update hub.publishes p (.sending env [])
    } := by
  induction rest generalizing hub
  case nil => simp [← sending]
  case cons i rest ih =>
    have ⟨fresh, nodup⟩ := List.nodup_cons.mp nodup
    have ⟨h, handle, roomy⟩ := room i <| List.mem_cons_self ..
    let hub₁ : MemoryHub ℕ := { hub with
      handles   := hub.handles.modify i (offer env)
      publishes := Function.update hub.publishes p (.sending env rest)
    }
    have sending₁ : hub₁.publishes p = .sending env rest := Function.update_self ..
    have room₁ j (hj : j ∈ rest) : ∃ h, hub₁.handles[j]? = some h ∧ h.inbox.HasRoom := by
      have ne : i ≠ j := fun he => fresh <| he ▸ hj
      have ⟨g, hg, roomy⟩ := room j <| List.mem_cons_of_mem _ hj
      exact ⟨g, by simpa [hub₁, List.getElem?_modify, ne] using hg, roomy⟩
    rw [List.map_cons, Machine.exec_cons, send_offer sending handle roomy, Option.bind_some,
      ih sending₁ nodup room₁]
    simp [hub₁]

-- Between two steps: nobody holds the lock, and the map has a sender for every handle.
structure Coherent (s : MemoryHub ℕ × ℕ) : Prop where
  free  : s.fst.readers = []
  idle  : ∀ q ≥ s.snd, s.fst.publishes q = .idle
  nodup : ∀ sub, (s.fst.subscriptions sub).Nodup
  mem   : ∀ sub i, i ∈ s.fst.subscriptions sub ↔
    ∃ h, s.fst.handles[i]? = some h ∧ h.subscription = sub

theorem Coherent.foldl_offer (c : Coherent s) (message : Message decode) :
    (s.fst.subscriptions ⟨message.env.address.name⟩).foldl
      (fun hs i => hs.modify i (offer message.env)) s.fst.handles =
      Broadcast.deliver s.fst.handles message := by
  rw [message.addressed]
  refine Broadcast.foldl_offer (c.nodup _) (fun i mem h hh => ?_) fun i h hh ht _ => ?_
  · obtain ⟨h', hh', ht⟩ := (c.mem _ i).mp mem
    cases hh.symm.trans hh'
    exact congrArg Subscription.name ht
  · exact (c.mem _ i).mpr ⟨h, hh, Subscription.ext ht⟩

theorem Coherent.incoming (c : Coherent s) (room : NoneFull s.fst.handles) (w : ι)
    (message : Message decode) :
    (atomic ι decode).next s (.incoming w message) = some ({ s.fst with
      handles   := Broadcast.deliver s.fst.handles message
      publishes := Function.update s.fst.publishes s.snd (.done message.env)
    }, s.snd + 1) := by
  obtain ⟨hub, p⟩ := s
  have idle : hub.publishes p = .idle := c.idle p (Nat.le_refl _)
  have free : hub.readers = [] := c.free
  let senders := hub.subscriptions ⟨message.env.address.name⟩
  let hub₁ : MemoryHub ℕ := { hub with
    readers   := [p]
    publishes := Function.update hub.publishes p (.sending message.env senders)
  }
  have sending : hub₁.publishes p = .sending message.env senders := Function.update_self ..
  have roomy i (mem : i ∈ senders) : ∃ h, hub₁.handles[i]? = some h ∧ h.inbox.HasRoom := by
    have ⟨h, hh, _⟩ := (c.mem _ i).mp mem
    exact ⟨h, hh, room h <| List.mem_of_getElem? hh⟩
  have begun : (machine ℕ).exec hub [.publish p message.env, .acquire p] = some hub₁ := by
    simp [machine, next, publish, acquire, idle, free, set, hub₁, senders]
  have sent := exec_sends sending (c.nodup _) roomy
  rw [show senders.foldl _ hub₁.handles = _ from c.foldl_offer message] at sent
  have he : (machine ℕ).exec hub
      ([.publish p message.env, .acquire p] ++ senders.map (.send p) ++ [.release p]) =
        some { hub with
          handles   := Broadcast.deliver hub.handles message
          publishes := Function.update hub.publishes p (.done message.env)
        } := by
    rw [Machine.exec_append, Machine.exec_append, begun, Option.bind_some, sent, Option.bind_some]
    simp [machine, next, release, set, hub₁, free]
  exact congrArg (Option.map (·, p + 1)) he

theorem Coherent.next_handles (c : Coherent s) (room : NoneFull s.fst.handles)
    (a : Broadcast.Action ι decode) :
    ((atomic ι decode).next s a).map (·.fst.handles) =
      (Broadcast.machine ι decode).next s.fst.handles a := by
  cases a
  case incoming w message => rw [c.incoming room w message]; rfl
  case subscribe topic =>
    simp [atomic, steps, machine, next, MemoryHub.subscribe, c.free, Broadcast.machine,
      Broadcast.next]
  case drop i =>
    simp [atomic, steps, machine, next, MemoryHub.drop, Broadcast.machine, Broadcast.next,
      Function.comp_def]
  case recv i =>
    simp only [atomic, steps, Machine.exec_cons, Machine.exec_nil, Option.bind_fun_some, machine,
      next, MemoryHub.recv, Broadcast.machine, Broadcast.next]
    cases hh : s.fst.handles[i]?
    case none => rfl
    case some h => cases hr : h.inbox.recv <;> simp [hr]

theorem Coherent.subscribe (c : Coherent s) (topic : String) :
    Coherent ({ s.fst with
      subscriptions := Function.update s.fst.subscriptions ⟨topic⟩
        (s.fst.subscriptions ⟨topic⟩ ++ [s.fst.handles.length])
      handles       := s.fst.handles ++ [{ subscription := ⟨topic⟩ }]
    }, s.snd + 1) where
  free       := c.free
  idle q ge  := c.idle q <| Nat.le_of_succ_le ge
  nodup sub  := by
    by_cases hs : sub = ⟨topic⟩
    case neg => simpa [hs] using c.nodup sub
    case pos =>
      subst hs
      simp only [Function.update_self]
      apply (c.nodup _).append (List.nodup_singleton _)
      rw [List.disjoint_singleton]
      intro mem
      have ⟨_, hh, _⟩ := (c.mem _ _).mp mem
      simp at hh
  mem sub i  := by
    have mem := c.mem sub i
    by_cases lt : i < s.fst.handles.length
    case pos =>
      rw [List.getElem?_append_left lt, ← mem]
      by_cases hs : sub = ⟨topic⟩
      case neg => simp [hs]
      case pos => simp [hs, Nat.ne_of_lt lt]
    case neg =>
      have fresh : i ∉ s.fst.subscriptions sub := fun hm => by
        have ⟨_, hh, _⟩ := mem.mp hm
        exact lt (List.getElem?_eq_some_iff.mp hh).fst
      rw [List.getElem?_append_right (Nat.le_of_not_lt lt), List.getElem?_singleton]
      by_cases hs : sub = ⟨topic⟩
      case neg => simp [hs, fresh, Ne.symm hs]
      case pos =>
        subst hs
        simp [fresh]
        omega

theorem Coherent.set {i n : ℕ} {h h' : SubscriptionHandle} (c : Coherent s)
    (hh : s.fst.handles[i]? = some h) (same : h'.subscription = h.subscription) (le : s.snd ≤ n) :
    Coherent ({ s.fst with handles := s.fst.handles.set i h' }, n) where
  free      := c.free
  idle q ge := c.idle q <| Nat.le_trans le ge
  nodup     := c.nodup
  mem sub j := by
    rw [c.mem sub j]
    by_cases hj : i = j
    case neg => rw [List.getElem?_set_ne hj]
    case pos =>
      subst hj
      have ⟨lt, _⟩ := List.getElem?_eq_some_iff.mp hh
      simp [List.getElem?_set_self lt, hh, same]

theorem Coherent.deliver (c : Coherent s) (message : Message decode) {progress : Publish} :
    Coherent ({ s.fst with
      handles   := Broadcast.deliver s.fst.handles message
      publishes := Function.update s.fst.publishes s.snd progress
    }, s.snd + 1) where
  free      := c.free
  idle q ge := by
    have gt : s.snd < q := ge
    simpa [Nat.ne_of_gt gt] using c.idle q (Nat.le_of_lt gt)
  nodup     := c.nodup
  mem sub i := by
    rw [c.mem sub i]
    simp only [Broadcast.deliver, List.getElem?_map]
    cases s.fst.handles[i]?
    case none   => simp
    case some h => by_cases ht : h.subscription.name = message.topic <;> simp [ht]

theorem Coherent.next {a : Broadcast.Action ι decode} (c : Coherent s)
    (room : NoneFull s.fst.handles) (hn : (atomic ι decode).next s a = some s') : Coherent s' := by
  cases a
  case incoming w message =>
    cases (c.incoming room w message).symm.trans hn
    exact c.deliver message
  case subscribe topic =>
    obtain ⟨hub, he, rfl⟩ := Option.map_eq_some_iff.mp hn
    replace he : (machine ℕ).next s.fst (.subscribe ⟨topic⟩) = some hub := by
      simpa [steps] using he
    cases next_step he
    exact c.subscribe topic
  case recv i =>
    obtain ⟨hub, he, rfl⟩ := Option.map_eq_some_iff.mp hn
    replace he : (machine ℕ).next s.fst (.recv i) = some hub := by simpa [steps] using he
    cases next_step he
    case recv handle => exact c.set handle rfl (Nat.le_succ _)
  case drop i =>
    obtain ⟨hub, he, rfl⟩ := Option.map_eq_some_iff.mp hn
    replace he : (machine ℕ).next s.fst (.drop i) = some hub := by simpa [steps] using he
    cases next_step he
    case drop handle => exact c.set handle rfl (Nat.le_succ _)

theorem implements : Machine.Implements (atomic ι decode) (Broadcast.machine ι decode)
    (·.fst.handles) Coherent NoneFull where
  init      := rfl
  invariant := by constructor <;> simp [atomic]
  next s a c room := c.next_handles room a
  preserves s a s' c room hn := c.next room hn

end MemoryHub

namespace Fanout

variable {ι : Type} [DecidableEq ι] {decode : Bytes → Option Envelope} {f f' : Fanout ι}
  {as : List (Broadcast.Action ι decode)}

-- Whoever is still there stays in the map.
theorem Coherent.removed {a : Broadcast.Action ι decode} {topic : String} {i : ℕ} (c : f.Coherent)
    (room : NoneFull f.handles) (hn : (atomic ι decode).next f a = some f')
    (reg : f.Registered topic i) (gone : ¬f'.Registered topic i) :
    ∃ h, f.handles[i]? = some h ∧ h.inbox.held = false := by
  have c' := c.next room hn
  have ⟨h, hh, ht⟩ := c.topics topic i reg
  refine ⟨h, hh, Bool.eq_false_iff.mpr fun held => gone ?_⟩
  subst ht
  cases a
  case incoming w message =>
    cases (c.incoming w message).symm.trans hn
    have ⟨inbox, accepted⟩ : ∃ inbox, h.inbox.trySend message.env = some inbox :=
      Option.ne_none_iff_exists'.mp fun rejected =>
        Mailbox.trySend_eq_none_iff.mp rejected held <| room h <| List.mem_of_getElem? hh
    exact fannedOut_registered.mpr ⟨reg, fun _ => by simp [accepts, hh, accepted]⟩
  case subscribe topic =>
    obtain rfl : f.subscribe topic = f' := by simpa [atomic, steps, machine, Fanout.next] using hn
    exact subscribe_registered.mpr <| .inl reg
  case recv j =>
    replace hn : (machine ι decode).next f (.recv j) = some f' := by simpa [atomic, steps] using hn
    cases next_step hn
    exact reg
  case drop j =>
    replace hn : (machine ι decode).next f (.drop j) = some f' := by simpa [atomic, steps] using hn
    cases next_step hn
    exact reg

-- With the same steps the memory hub's inboxes get the same envelopes, and the same is read from
-- them. A message changes nothing for the subscribers of other topics, and a sender is taken out of
-- the map only if its handle was dropped.
structure RefinesHub (as : List (Broadcast.Action ι decode)) (f : Fanout ι) : Prop where
  delivered : ∃ s, (MemoryHub.atomic ι decode).Run as s ∧ s.fst.handles = f.handles
  untouched : ∀ xs w message ys g g', as = xs ++ .incoming w message :: ys →
    (atomic ι decode).Run xs g → (atomic ι decode).next g (.incoming w message) = some g' →
    (∀ topic ≠ message.topic, g'.subscribers topic = g.subscribers topic) ∧
    ∀ (i : ℕ) h, g.handles[i]? = some h → h.subscription.name ≠ message.topic →
      g'.handles[i]? = some h
  removed   : ∀ xs a ys g g', as = xs ++ a :: ys → (atomic ι decode).Run xs g →
    (atomic ι decode).next g a = some g' → ∀ topic i, g.Registered topic i →
    ¬g'.Registered topic i → ∃ h, g.handles[i]? = some h ∧ h.inbox.held = false

theorem refines_hub (r : (atomic ι decode).Run as f)
    (room : (atomic ι decode).Throughout as fun f _ => NoneFull f.handles) : RefinesHub as f := by
  have coherent {xs a ys g} (he : as = xs ++ a :: ys) (rg : (atomic ι decode).Run xs g) :
      g.Coherent :=
    implements.concrete rg (he ▸ room).left |>.left
  constructor
  case delivered =>
    have ⟨_, ra⟩ := implements.concrete r room
    have ⟨s, rs, _, hs⟩ := MemoryHub.implements.abstract ra (implements.throughout r room)
    exact ⟨s, rs, hs⟩
  case untouched =>
    intro xs w message ys g g' he rg hn
    cases ((coherent he rg).incoming w message).symm.trans hn
    constructor
    · intro topic ht
      simp [fannedOut, ht]
    · intro i h hh ht
      simp [fannedOut, Broadcast.deliver, hh, ht]
  case removed =>
    intro xs a ys g g' he rg hn topic i reg gone
    exact (coherent he rg).removed (room xs a ys g he rg) hn reg gone

-- The memory hub's steps in turn are those of a fan-out.
theorem hub_refines {s : MemoryHub ℕ × ℕ} (r : (MemoryHub.atomic ι decode).Run as s)
    (room : (MemoryHub.atomic ι decode).Throughout as fun s _ => NoneFull s.fst.handles) :
    ∃ f, (atomic ι decode).Run as f ∧ f.handles = s.fst.handles := by
  have ⟨_, ra⟩ := MemoryHub.implements.concrete r room
  have ⟨f, rf, _, hf⟩ := implements.abstract ra (MemoryHub.implements.throughout r room)
  exact ⟨f, rf, hf⟩

theorem fanout_refines_hub (fromSlice : Bytes → Option Envelope)
    (getPayload : Bytes → Option String) (fromStr : String → Option Envelope)
    (as : List (Broadcast.Action Unit fromSlice))
    (bs : List (Broadcast.Action Unit fun message => getPayload message |>.bind fromStr))
    (cs : List (Broadcast.Action ℕ fromSlice)) :
    (∀ f, (atomic _ _).Run as f → (atomic _ _).Throughout as (fun f _ => NoneFull f.handles) →
      RefinesHub as f) ∧
    (∀ f, (atomic _ _).Run bs f → (atomic _ _).Throughout bs (fun f _ => NoneFull f.handles) →
      RefinesHub bs f) ∧
    (∀ f, (atomic _ _).Run cs f → (atomic _ _).Throughout cs (fun f _ => NoneFull f.handles) →
      RefinesHub cs f) :=
  ⟨fun _ => refines_hub, fun _ => refines_hub, fun _ => refines_hub⟩

def loneMessage : Message fun _ => some loneEnvelope where
  topic     := "t"
  payload   := []
  env       := loneEnvelope
  decoded   := rfl
  addressed := rfl

def loneBroadcast : List (Broadcast.Action Unit fun _ => some loneEnvelope) :=
  [.subscribe "t", .incoming () loneMessage, .drop 0, .subscribe "t", .incoming () loneMessage,
    .recv 1]

theorem fanout_refines_hub_lone :
    ∃ f, (atomic Unit fun _ => some loneEnvelope).Run loneBroadcast f ∧
      RefinesHub loneBroadcast f := by
  have run : (atomic Unit fun _ => some loneEnvelope).Run loneBroadcast _ := .of_isSome rfl
  refine ⟨_, run, fanout_refines_hub _ (fun _ => none) (fun _ => none) loneBroadcast [] [] |>.left _
    run ?_⟩
  exact Machine.throughout_of_meets (by decide)

end Fanout
end MomRpc
