import MomRpc.Transport.Theorems.Fanout

namespace MomRpc.Fanout

variable {ι : Type} [DecidableEq ι] {decode : Bytes → Option Envelope} {f f' : Fanout ι}
  {act : Action ι} {as : List (Action ι)} {w : ι} {i : ℕ} {topic : String} {env : Envelope}
  {senders rest survivors : List ℕ}

-- The call of `handle_incoming` that the worker is in has tried to send to the sender in vain.
def Failed (decode : Bytes → Option Envelope) (as : List (Action ι)) (w : ι) (i : ℕ) : Prop :=
  ∃ xs ys f topic env senders rest survivors h, as = xs ++ .trySend w i :: ys ∧ .writeBack w ∉ ys ∧
    (machine ι decode).Run xs f ∧
    f.incoming w = .sending topic env senders (i :: rest) survivors ∧
    f.handles[i]? = some h ∧ h.inbox.trySend env = none

-- Senders leave the map only by a call of `handle_incoming` that has tried to send to them in vain.
def LosesOnlyFailed (decode : Bytes → Option Envelope) (as : List (Action ι)) : Prop :=
  ∀ xs act ys f f' topic i, as = xs ++ act :: ys → (machine ι decode).Run xs f →
    (machine ι decode).next f act = some f' → f.Registered topic i →
      f'.Registered topic i ∨ ∃ w, act = .writeBack w ∧ Failed decode xs w i

-- If survivors are written back, then all senders that are in the map by now are in the snapshot.
def SnapshotCurrent (f : Fanout ι) : Action ι → Prop
  | .writeBack w => ∀ topic env senders survivors i,
    f.incoming w = .sending topic env senders [] survivors → survivors.length ≠ senders.length →
      f.Registered topic i → i ∈ senders
  | _ => True

theorem Failed.concat (h : Failed decode as w i) (ha : act ≠ .writeBack w) :
    Failed decode (as ++ [act]) w i := by
  have ⟨xs, ys, f, topic, env, senders, rest, survivors, h, he, hw, hf⟩ := h
  refine ⟨xs, ys ++ [act], f, topic, env, senders, rest, survivors, h, by simp [he], ?_, hf⟩
  simpa [hw] using ha.symm

-- A sender of the snapshot is still to be tried, or it has survived, or it has failed.
theorem failed_of_missing (r : (machine ι decode).Run as f)
    (hs : f.incoming w = .sending topic env senders rest survivors) (hi : i ∈ senders)
    (hr : i ∉ rest) (hv : i ∉ survivors) : Failed decode as w i := by
  induction as, f, r using Machine.Run.induction_on generalizing rest survivors
  case init => simp [machine] at hs
  case step as f act f' r hn ih =>
    have p := hs ▸ (next_step hn).progress w
    generalize hf : f.incoming w = incoming at p
    cases p
    case same other => exact ih hf hr hv |>.concat other
    case snapshot => exact absurd hi hr
    case sent action _ _ _ =>
      simp only [List.mem_append, List.mem_singleton, not_or] at hv
      exact ih hf (by simp [hv, hr]) hv.left |>.concat (by simp [action])
    case evicted j h action handle rejected =>
      by_cases hj : i = j
      case neg => exact ih hf (by simp [hj, hr]) hv |>.concat (by simp [action])
      case pos =>
        subst hj action
        exact ⟨as, [], f, topic, env, senders, rest, survivors, h, rfl, by simp, r, hf, handle,
          rejected⟩

-- Until its write-back, a call of `handle_incoming` stays with its snapshot, and what it has left
-- of it grows smaller.
theorem same_snapshot (he : (machine ι decode).exec f as = some f') (hw : .writeBack w ∉ as)
    (hs : f.incoming w = .sending topic env senders rest survivors) :
    ∃ rest' survivors', f'.incoming w = .sending topic env senders rest' survivors' ∧
      survivors' ++ rest' ⊆ survivors ++ rest := by
  induction as generalizing f rest survivors
  case nil => cases he; exact ⟨_, _, hs, List.Subset.refl _⟩
  case cons act as ih =>
    simp only [List.mem_cons, not_or] at hw
    have ⟨g, hn, he⟩ := Option.bind_eq_some_iff.mp he
    have p := hs ▸ (next_step hn).progress w
    generalize hg : g.incoming w = incoming at p
    have later {rest' survivors'}
        (hg : g.incoming w = .sending topic env senders rest' survivors')
        (sub : survivors' ++ rest' ⊆ survivors ++ rest) :
        ∃ rest' survivors', f'.incoming w = .sending topic env senders rest' survivors' ∧
          survivors' ++ rest' ⊆ survivors ++ rest := by
      have ⟨_, _, hs', sub'⟩ := ih he hw.right hg
      exact ⟨_, _, hs', List.Subset.trans sub' sub⟩
    cases p
    case done action => exact absurd action.symm hw.left
    case same        => exact later hg <| List.Subset.refl _
    case sent        => exact later hg <| by simp
    case evicted     => exact later hg fun i hi => by simp at hi ⊢; tauto

theorem Failed.mem_senders (h : Failed decode as w i) (r : (machine ι decode).Run as f)
    (hs : f.incoming w = .sending topic env senders rest survivors) : i ∈ senders := by
  have ⟨xs, ys, g, _, _, _, _, _, _, he, hw, rg, hg, _⟩ := h
  have ⟨g', rg', he⟩ := Machine.Run.split (he ▸ r)
  cases rg.deterministic rg'
  have ⟨_, _, hs', _⟩ := same_snapshot he (by simpa using hw) hg
  cases hs.symm.trans hs'
  exact (survivors_subset rg.reachable hg).left (List.mem_cons_self ..)

theorem no_lost_registration_iff :
    LosesOnlyFailed decode as ↔ (machine ι decode).Throughout as SnapshotCurrent := by
  constructor
  case mp =>
    intro h xs act ys f he r
    cases act <;> try trivial
    case writeBack w =>
      intro topic env senders survivors i hs hl hi
      rcases h xs _ ys f _ topic i he r (writeBack_eq hs hl) hi with ⟨_, hm, hi⟩ | ⟨_, hw, failed⟩
      · have ⟨_, sub⟩ := survivors_subset r.reachable hs
        obtain rfl := by simpa using hm
        exact sub hi
      · cases hw
        exact failed.mem_senders r hs
  case mpr =>
    intro h xs act ys f f' topic i he r hn hi
    cases next_step hn <;> try exact .inl hi
    case subscribe => exact .inl <| subscribe_registered.mpr <| .inl hi
    case writeBack w topic' env senders survivors hs hl =>
      by_cases ht : topic = topic'
      case neg => exact .inl <| by simpa [Registered, ht] using hi
      case pos =>
        subst ht
        have hm := h xs _ ys f he r topic env senders survivors i hs hl hi
        by_cases hi' : i ∈ survivors
        · exact .inl ⟨survivors, by simp, hi'⟩
        · exact .inr ⟨w, rfl, failed_of_missing r hs hm (by simp) hi'⟩

-- Every subscription whose handle is held is in the map.
def Kept (f : Fanout ι) : Prop :=
  ∀ i h, f.handles[i]? = some h → h.inbox.held → f.Registered h.subscription.name i

-- The action does not meet a full inbox of a subscription whose handle is held, nor does it write
-- back survivors of a snapshot that misses a sender.
def KeepsPace (f : Fanout ι) : Action ι → Prop
  | .trySend _ i => ∀ h, f.handles[i]? = some h → h.inbox.held → h.inbox.HasRoom
  | act          => f.SnapshotCurrent act

-- The senders of a snapshot whose handles are held are still to be tried or have survived.
def Surviving (f : Fanout ι) : Prop :=
  ∀ w topic env senders rest survivors, f.incoming w = .sending topic env senders rest survivors →
    ∀ i h, i ∈ senders → f.handles[i]? = some h → h.inbox.held → i ∈ rest ∨ i ∈ survivors

theorem kept_step (r : (machine ι decode).Reachable f) (h : f.Kept ∧ f.Surviving)
    (hk : f.KeepsPace act) (hn : (machine ι decode).next f act = some f') :
    f'.Kept ∧ f'.Surviving := by
  have st := next_step hn
  have ⟨kept, surviving⟩ := h
  constructor
  case left =>
    intro i h' hh held
    rcases st.held hh held with ⟨h₀, hh₀, hs₀, held₀⟩ | ⟨rfl, rfl⟩
    case inr =>
      cases st
      exact subscribe_registered.mpr <| .inr ⟨rfl, rfl⟩
    case inl =>
      have hr := hs₀ ▸ kept i h₀ hh₀ held₀
      cases st <;> try exact hr
      case subscribe => exact subscribe_registered.mpr <| .inl hr
      case writeBack w topic env senders survivors sending fewer =>
        by_cases ht : h'.subscription.name = topic
        case neg => simpa [Registered, ht] using hr
        case pos =>
          subst ht
          have hm := hk _ env senders survivors i sending fewer hr
          have hi := surviving w _ env senders [] survivors sending i h₀ hm hh₀ held₀
          exact ⟨survivors, by simp, by simpa using hi⟩
  case right =>
    intro w topic env senders rest survivors hs i h' hm hh held
    rcases st.held hh held with ⟨h₀, hh₀, -, held₀⟩ | ⟨rfl, rfl⟩
    case inr =>
      cases st
      have := (sender_lt r).right w topic env senders rest survivors _ hs hm
      omega
    case inl =>
      have p := hs ▸ st.progress w
      generalize hf : f.incoming w = incoming at p
      have old {rest survivors} (hs : f.incoming w = .sending topic env senders rest survivors) :=
        surviving w topic env senders rest survivors hs i h₀ hm hh₀ held₀
      cases p
      case same => exact old hf
      case snapshot => exact .inl hm
      case sent =>
        rcases old hf with hi | hi
        · rcases List.mem_cons.mp hi with rfl | hi
          · exact .inr <| by simp
          · exact .inl hi
        · exact .inr <| List.mem_append_left _ hi
      case evicted j h action handle rejected =>
        subst action
        rcases old hf with hi | hi
        · rcases List.mem_cons.mp hi with rfl | hi
          · cases handle.symm.trans hh₀
            exact absurd (hk _ hh₀ held₀) <| Mailbox.trySend_eq_none_iff.mp rejected held₀
          · exact .inl hi
        · exact .inr hi

-- `recv` returns `None` once the inbox is empty and all of its senders have been dropped.
def Ended (f : Fanout ι) (i : ℕ) : Prop :=
  (∃ h, f.handles[i]? = some h ∧ h.inbox.held ∧ h.inbox.queue = []) ∧
    (∀ topic, ¬f.Registered topic i) ∧
    ∀ w topic env senders rest survivors,
      f.incoming w = .sending topic env senders rest survivors → i ∉ rest ++ survivors

omit [DecidableEq ι] in
theorem Kept.not_ended (k : f.Kept) : ¬f.Ended i := by
  intro ⟨⟨h, hh, held, _⟩, hm, _⟩
  exact hm _ <| k i h hh held

theorem held_before {f' : Fanout ι} {h' : SubscriptionHandle}
    (he : (machine ι decode).exec f as = some f') (hi : i < f.handles.length)
    (hh : f'.handles[i]? = some h') (held : h'.inbox.held) :
    ∃ h, f.handles[i]? = some h ∧ h.subscription = h'.subscription ∧ h.inbox.held := by
  induction as generalizing f
  case nil => cases he; exact ⟨h', hh, rfl, held⟩
  case cons act as ih =>
    have ⟨g, hn, he⟩ := Option.bind_eq_some_iff.mp he
    have st := next_step hn
    have ⟨h, hh, hs, held⟩ := ih he <| Nat.lt_of_lt_of_le hi st.length_le
    rcases st.held hh held with ⟨h₀, hh₀, hs₀, held₀⟩ | ⟨rfl, _⟩
    · exact ⟨h₀, hh₀, hs₀.trans hs, held₀⟩
    · omega

-- The actions from `f` on put the envelope into the inbox by the call of `handle_incoming` that the
-- worker has begun.
def Delivers (decode : Bytes → Option Envelope) (f : Fanout ι) (w : ι) (env : Envelope) (i : ℕ)
    (as : List (Action ι)) : Prop :=
  ∃ xs ys g g' h h', as = xs ++ .trySend w i :: ys ∧ .writeBack w ∉ xs ∧
    (machine ι decode).exec f xs = some g ∧ g.trySend w i = some g' ∧
    g.handles[i]? = some h ∧ g'.handles[i]? = some h' ∧
    h'.inbox.contents = h.inbox.contents ++ [env]

theorem Delivers.cons (hn : (machine ι decode).next f act = some f') (ha : act ≠ .writeBack w)
    (d : f'.Delivers decode w env i as) : f.Delivers decode w env i (act :: as) := by
  have ⟨xs, ys, g, g', h, h', he, hw, hx, hd⟩ := d
  refine ⟨act :: xs, ys, g, g', h, h', by simp [he], ?_, ?_, hd⟩
  · simpa [hw] using ha.symm
  · simpa [hn] using hx

-- A sender that is still to be tried is tried before the write-back, and finds room.
theorem delivers_of_sending {xs ys : List (Action ι)} {g : Fanout ι} {h' : SubscriptionHandle}
    (k : (machine ι decode).Throughout (xs ++ ys) KeepsPace) (r : (machine ι decode).Run xs f)
    (he : (machine ι decode).exec f ys = some g) (hw : .writeBack w ∈ ys)
    (hs : f.incoming w = .sending topic env senders rest survivors) (hi : i ∈ rest)
    (hh : g.handles[i]? = some h') (held : h'.inbox.held) : f.Delivers decode w env i ys := by
  induction ys generalizing xs f rest survivors
  case nil => simp at hw
  case cons act ys ih =>
    have ⟨f', hn, he'⟩ := Option.bind_eq_some_iff.mp he
    have keeps := k xs act ys f rfl r
    have sub := (survivors_subset r.reachable hs).left
    have lt := (sender_lt r.reachable).right w topic env senders rest survivors i hs (sub hi)
    have ⟨h, hh, _, held⟩ := held_before he lt hh held
    have later {rest survivors} (ha : act ≠ .writeBack w)
        (hs : f'.incoming w = .sending topic env senders rest survivors) (hi : i ∈ rest) :
        f.Delivers decode w env i (act :: ys) := by
      have k : (machine ι decode).Throughout ((xs ++ [act]) ++ ys) KeepsPace := by simpa using k
      exact .cons hn ha <| ih k (r.concat hn) he' (by simpa [ha.symm] using hw) hs hi
    have p := hs ▸ (next_step hn).progress w
    generalize hf' : f'.incoming w = incoming at p
    cases p
    case same other => exact later other hf' hi
    case done => simp at hi
    case sent j rest h₁ inbox action handle handle' accepted =>
      subst action
      rcases List.mem_cons.mp hi with rfl | hi
      case inl =>
        exact ⟨[], ys, f, f', h₁, _, rfl, by simp, rfl, hn, handle, handle',
          Mailbox.trySend_contents accepted⟩
      case inr => exact later nofun hf' hi
    case evicted j rest h₁ action handle rejected =>
      subst action
      rcases List.mem_cons.mp hi with rfl | hi
      case inl =>
        cases handle.symm.trans hh
        exact absurd (keeps _ hh held) <| Mailbox.trySend_eq_none_iff.mp rejected held
      case inr => exact later nofun hf' hi

-- A subscription whose handle is held stays in the map and its receive loop does not end. Each
-- message that arrives for it is put into its inbox by the call of `handle_incoming` for the
-- message.
structure HeldSubscriptionSurvives (decode : Bytes → Option Envelope) (as : List (Action ι)) :
    Prop where
  kept      : (machine ι decode).Always as Kept
  listening : (machine ι decode).Always as fun f => ∀ i, ¬f.Ended i
  delivered : ∀ xs w topic message ys f g i h h' env,
    as = xs ++ .incoming w topic message :: ys → (machine ι decode).Run xs f →
    (machine ι decode).Run as g → f.incoming w = .idle → decode message = some env →
    f.handles[i]? = some h → h.subscription = ⟨topic⟩ → g.handles[i]? = some h' → h'.inbox.held →
    .writeBack w ∈ ys → ∃ f', f.handleIncoming decode w topic message = some f' ∧
      f'.Delivers decode w env i ys

theorem survives (k : (machine ι decode).Throughout as KeepsPace) :
    HeldSubscriptionSurvives decode as := by
  have inv : (machine ι decode).Always as fun f => f.Kept ∧ f.Surviving := by
    refine Machine.always_of_throughout k ?_ fun _ _ _ r h hk hn => kept_step r h hk hn
    simp [machine, Kept, Surviving]
  constructor
  case kept => exact fun xs ys f he r => (inv xs ys f he r).left
  case listening => exact fun xs ys f he r _ => (inv xs ys f he r).left.not_ended
  case delivered =>
    intro xs w topic message ys f g i h h' env he r r' idle decoded hh hs hh' held hw
    subst he
    obtain ⟨f', hn, he⟩ := r'.next r
    refine ⟨f', hn, ?_⟩
    obtain ⟨hi, _⟩ := List.getElem?_eq_some_iff.mp hh
    have he' : (machine ι decode).exec f (.incoming w topic message :: ys) = some g := by
      simp [hn, he]
    obtain ⟨h₀, hh₀, _, held₀⟩ := held_before he' hi hh' held
    cases hh.symm.trans hh₀
    obtain ⟨senders, hm, hi⟩ := hs ▸ (inv xs _ f rfl r).left i h hh held₀
    have sending : f'.incoming w = .sending topic env senders senders [] := by
      simp only [machine, next, handleIncoming, idle, decoded, hm, Option.some.injEq] at hn
      simp [← hn]
    have k : (machine ι decode).Throughout ((xs ++ [.incoming w topic message]) ++ ys)
        KeepsPace := by
      simpa using k
    exact delivers_of_sending k (r.concat hn) he hw sending hi hh' held

theorem held_subscription_survives (fromSlice : Bytes → Option Envelope)
    (getPayload : Bytes → Option String) (fromStr : String → Option Envelope)
    (as : List (Action Unit)) (bs : List (Action ℕ)) :
    ((MqttActor.fanout fromSlice).Throughout as KeepsPace →
      HeldSubscriptionSurvives fromSlice as) ∧
    ((RedisActor.fanout getPayload fromStr).Throughout as KeepsPace →
      HeldSubscriptionSurvives (fun message => getPayload message |>.bind fromStr) as) ∧
    ((DdsActor.fanout fromSlice).Throughout bs KeepsPace →
      HeldSubscriptionSurvives fromSlice bs) :=
  ⟨survives, survives, survives⟩

def loneEnvelope : Envelope where
  address       := ⟨"t"⟩
  method        := none
  payload       := []
  correlationId := none
  replyTo       := none
  contentType   := none

def loneIncoming : List (Action Unit) :=
  [.incoming () "t" [], .trySend () 0, .writeBack ()]

theorem held_subscription_survives_lone :
    HeldSubscriptionSurvives (fun _ => some loneEnvelope) (.subscribe "t" :: loneIncoming) := by
  refine (held_subscription_survives _ (fun _ => none) (fun _ => none) _ []).left <|
    Machine.throughout_of_meets ?_
  refine .cons trivial rfl <| .cons trivial rfl <| .cons ?_ rfl <| .cons ?_ rfl trivial
  · intro h hh _
    cases hh
    decide
  · intro _ _ _ _ _ hs fewer
    cases hs
    exact absurd rfl fewer

-- The seventeenth message that the receiver has not taken terminates its subscription.
theorem burst_terminates_subscription :
    ∃ f h, (MqttActor.fanout fun _ => some loneEnvelope).Run
        (.subscribe "t" :: (List.replicate 17 loneIncoming).flatten) f ∧
      f.handles[0]? = some h ∧ h.inbox.held ∧ ¬f.Registered h.subscription.name 0 := by
  refine ⟨_, _, rfl, rfl, rfl, ?_⟩
  rintro ⟨_, hs, hi⟩
  cases hs
  simp at hi

theorem no_lost_registration (fromSlice : Bytes → Option Envelope)
    (getPayload : Bytes → Option String) (fromStr : String → Option Envelope)
    (as : List (Action Unit)) (bs : List (Action ℕ)) :
    (LosesOnlyFailed fromSlice as ↔
      (MqttActor.fanout fromSlice).Throughout as SnapshotCurrent) ∧
    (LosesOnlyFailed (fun message => getPayload message |>.bind fromStr) as ↔
      (RedisActor.fanout getPayload fromStr).Throughout as SnapshotCurrent) ∧
    (LosesOnlyFailed fromSlice bs ↔
      (DdsActor.fanout fromSlice).Throughout bs SnapshotCurrent) :=
  ⟨no_lost_registration_iff, no_lost_registration_iff, no_lost_registration_iff⟩

-- The dropped subscriber of the snapshot takes the one registered meanwhile out of the map.
theorem write_back_loses_registration :
    ¬LosesOnlyFailed (ι := Unit) (fun _ => some loneEnvelope)
      [.subscribe "t", .drop 0, .incoming () "t" [], .subscribe "t", .trySend () 0,
        .writeBack ()] := by
  intro h
  have run : (machine Unit fun _ => some loneEnvelope).Run
    [.subscribe "t", .drop 0, .incoming () "t" [], .subscribe "t", .trySend () 0] _ := rfl
  rcases h _ _ [] _ _ "t" 1 rfl run rfl ⟨[0, 1], rfl, by simp⟩ with
    ⟨_, hs, hi⟩ | ⟨_, _, xs, ys, _, _, _, _, _, _, _, he, _⟩
  · cases hs
    simp at hi
  · have : .trySend () 1 ∈ xs ++ .trySend () 1 :: ys := by simp
    simp [← he] at this

end MomRpc.Fanout
