import MomRpc.Broker.Theorems.EndToEnd

namespace MomRpc.Network

variable {β ρ ω : Type} [DecidableEq β] {inner : β → Inner} {net net' : Network β ρ ω}
  {act : Action β ρ ω} {as bs : List (Action β ρ ω)} {rx : Receiver β} {b : β} {j : ℕ}
  {q : Publisher β} {env : Envelope}

-- The receive loop has a sender in the map of the hub.
def Registered (inner : β → Inner) (net : Network β ρ ω) (rx : Receiver β) (j : ℕ) : Prop :=
  net.owners[j]? = some (some rx) ∧ j ∈ net.hub.subscriptions (rx.subscription inner)

-- The receive loop has subscribed, and the hub has not been closed since.
def Listening (as : List (Action β ρ ω)) (rx : Receiver β) : Prop :=
  ∃ xs ys, as = xs ++ .subscribed rx :: ys ∧ .hub .close ∉ ys

-- Each request is published by a broker that is listening for the response by then.
def StartsListening (as : List (Action β ρ ω)) : Prop :=
  ∀ xs b i ys, as = xs ++ .hub (.acquire (.request b i)) :: ys → Listening xs (.responses b)

-- A request finds its broker registered in the hub, and what is published to the broker from then
-- on gets into its inbox.
structure NoResponseLost (inner : β → Inner) (as : List (Action β ρ ω)) (net : Network β ρ ω) :
    Prop where
  registered : ∀ xs b i ys s, as = xs ++ .hub (.acquire (.request b i)) :: ys →
    (machine ρ ω inner).Run xs s → ∃ j, s.Registered inner (.responses b) j
  delivered  : ∀ xs b i ys q zs env,
    as = xs ++ .hub (.acquire (.request b i)) :: ys ++ .hub (.acquire q) :: zs →
    .hub .close ∉ ys → net.hub.publishes q = .done env →
    env.address.name = responsesName (inner b).nodeId →
      ∃ (j : ℕ) (h : SubscriptionHandle), net.owners[j]? = some (some (.responses b)) ∧
        net.hub.handles[j]? = some h ∧ (h.inbox.held → env ∈ h.inbox.contents)

omit [DecidableEq β] in
theorem listening_concat_iff :
    Listening (as ++ [act]) rx ↔
      (Listening as rx ∧ act ≠ .hub .close) ∨ act = .subscribed rx := by
  constructor
  case mp =>
    rintro ⟨xs, ys, h, hn⟩
    obtain ⟨zs, rfl, rfl⟩ | ⟨rfl, rfl, rfl⟩ := List.concat_eq_append_cons_iff.mp h
    · simp only [List.mem_append, List.mem_singleton, not_or] at hn
      exact .inl ⟨⟨xs, zs, rfl, hn.left⟩, Ne.symm hn.right⟩
    · exact .inr rfl
  case mpr =>
    rintro (⟨⟨xs, ys, rfl, hn⟩, ha⟩ | rfl)
    · exact ⟨xs, ys ++ [act], by simp, by simp [hn, ha.symm]⟩
    · exact ⟨as, [], rfl, by simp⟩

omit [DecidableEq β] in
theorem Listening.append (h : Listening as rx) (hb : .hub .close ∉ bs) :
    Listening (as ++ bs) rx := by
  obtain ⟨xs, ys, rfl, hn⟩ := h
  exact ⟨xs, ys ++ bs, by simp, by simp [hn, hb]⟩

theorem Step.owns_iff (st : Step inner net act net') :
    net'.owners[j]? = some (some rx) ↔
      net.owners[j]? = some (some rx) ∨ (act = .subscribed rx ∧ j = net.owners.length) := by
  have ho : act.owner? = some (some rx) ↔ act = .subscribed rx :=
    ⟨subscribed_of_owner?, fun h => h ▸ rfl⟩
  rw [st.owners, List.getElem?_append, ← ho]
  cases act.owner? <;> grind

omit [DecidableEq β] in
theorem Action.hub?_close : act.hub? inner = some .close ↔ act = .hub .close := by
  cases act <;> simp [hub?]
  case handled answer => cases answer <;> simp

theorem Step.registered (st : Step inner net act net')
    (hl : net.owners.length = net.hub.handles.length) :
    net'.Registered inner rx j ↔
      (net.Registered inner rx j ∧ act ≠ .hub .close) ∨
        (act = .subscribed rx ∧ j = net.owners.length) := by
  have lt (h : net.owners[j]? = some (some rx)) : j ≠ net.hub.handles.length :=
    hl ▸ (List.getElem?_eq_some_iff.mp h).fst.ne
  simp only [Registered, st.owns_iff]
  rcases st.hub_cases with ⟨hn, hb⟩ | ⟨ha, hs, sth⟩
  · have close : act ≠ .hub .close := by
      rintro rfl
      cases hn
    have subscribed : act ≠ .subscribed rx := by
      rintro rfl
      cases hn
    simp [hb, close, subscribed]
  · have close : ha = .close ↔ act = .hub .close :=
      Iff.trans (by simp [hs]) (Action.hub?_close : act.hub? inner = some .close ↔ _)
    have subscribed (h : act = .subscribed rx) : ha = .subscribe (rx.subscription inner) := by
      subst h
      exact (Option.some.inj hs).symm
    rw [sth.mem_subscriptions]
    grind

theorem registered_iff (r : (machine ρ ω inner).Run as net) :
    (∃ j, net.Registered inner rx j) ↔ Listening as rx := by
  induction as, net, r using Machine.Run.induction_on
  case init => simp [Listening, Registered, machine]
  case step as net act net' r hs ih =>
    have step {j} : net'.Registered inner rx j ↔ _ :=
      (next_step hs).registered (owners_length r.reachable)
    rw [listening_concat_iff, ← ih]
    constructor
    case mp =>
      rintro ⟨j, hj⟩
      exact step.mp hj |>.imp (fun h => ⟨⟨j, h.left⟩, h.right⟩) And.left
    case mpr =>
      rintro (⟨⟨j, hj⟩, ha⟩ | ha)
      · exact ⟨j, step.mpr <| .inl ⟨hj, ha⟩⟩
      · exact ⟨_, step.mpr <| .inr ⟨ha, rfl⟩⟩

theorem owner_exec {o : Option (Receiver β)} (he : (machine ρ ω inner).exec net as = some net')
    (h : net.owners[j]? = some o) : net'.owners[j]? = some o := by
  refine Machine.exec_stable (P := (·.owners[j]? = some o)) he h fun net act net' _ h hn => ?_
  have ⟨hl, _⟩ := List.getElem?_eq_some_iff.mp h
  rwa [(next_step hn).owners, List.getElem?_append_left hl]

theorem admitted {xs : List (Action β ρ ω)} (rs : (machine ρ ω inner).Run xs net)
    (h : net.Registered inner rx j) (q : Publisher β) (ys : List (Action β ρ ω)) :
    MemoryHub.Admitted ((xs ++ .hub (.acquire q) :: ys).filterMap (Action.hub? inner)) j q := by
  rw [List.filterMap_append]
  exact ⟨_, _, rfl, MemoryHub.openFor_iff (hub_component.run rs) |>.mpr ⟨_, h.right⟩⟩

-- A publish that takes the lock while the receive loop is registered sends to its inbox.
theorem mem_contents {xs ys : List (Action β ρ ω)} (r : (machine ρ ω inner).Run as net)
    (ha : as = xs ++ .hub (.acquire q) :: ys) (listening : Listening xs rx)
    (done : net.hub.publishes q = .done env)
    (address : rx.subscription inner = ⟨env.address.name⟩) :
    ∃ (j : ℕ) (h : SubscriptionHandle), net.owners[j]? = some (some rx) ∧
      net.hub.handles[j]? = some h ∧ (h.inbox.held → env ∈ h.inbox.contents) := by
  subst ha
  have ⟨s, rs, he⟩ := r.split
  have ⟨j, owns, registered⟩ := registered_iff rs |>.mpr listening
  cases inbox r rx
  case unsubscribed owners _ =>
    exact absurd (List.mem_of_getElem? <| owner_exec he owns) owners
  case subscribed j' h _ owned handle subscription _ =>
    obtain rfl := owned j |>.mp <| owner_exec he owns
    refine ⟨j, h, owner_exec he owns, handle, fun held => ?_⟩
    have rh := hub_component.run r
    have admitted := admitted rs ⟨owns, registered⟩ q ys
    have sent := MemoryHub.accounted rh (i := j) (p := q)
    simp only [MemoryHub.Accounted, done] at sent
    replace sent := sent.mpr ⟨admitted, by simp [MemoryHub.topic, handle, subscription, address]⟩
    have hm : some env ∈ h.inbox.contents.map some :=
      MemoryHub.contents_eq rh handle held ▸ List.mem_map.mpr
        ⟨q, sent, by simp [done, Publish.env?]⟩
    simpa using hm

-- No response is lost exactly if the receiver task is always ahead of the requests.
theorem no_response_lost (r : (machine ρ ω inner).Run as net) :
    NoResponseLost inner as net ↔ StartsListening as := by
  constructor
  case mp =>
    intro ⟨registered, _⟩ xs b i ys ha
    obtain ⟨s, rs, _⟩ := (ha ▸ r).split
    exact registered_iff rs |>.mp <| registered xs b i ys s ha rs
  case mpr =>
    intro h
    constructor
    case registered => exact fun xs b i ys s ha rs => registered_iff rs |>.mpr <| h xs b i ys ha
    case delivered =>
      intro xs b i ys q zs env ha hn done address
      have listening : Listening (xs ++ .hub (.acquire (.request b i)) :: ys) (.responses b) :=
        (h xs b i (ys ++ .hub (.acquire q) :: zs) (by simp [ha])).append <| by simpa using hn
      exact mem_contents r ha listening done <| Subscription.ext address.symm

-- A broker that sends a request to itself.
def loneStart : List (Action Unit Bytes Unit) :=
  loneRegister :: loneRequest.take 5

theorem no_response_lost_lone :
    ∃ net, (machine Bytes Unit loneBroker).Run loneStart net ∧
      (NoResponseLost loneBroker loneStart net ↔ StartsListening loneStart) := by
  have run : (machine Bytes Unit loneBroker).Run loneStart _ := Machine.Run.of_isSome rfl
  exact ⟨_, run, no_response_lost run⟩

-- The request is answered before the receiver task has been scheduled.
def lateStart : List (Action Unit Bytes Unit) := [
    loneRegister, .subscribed (.requests ()), .client () (.request "n" "m" (.ok [1]) .ok),
    .attempt () 0 "c" 0 loneEnv, .hub (.acquire (.request () 0)), .hub (.send (.request () 0) 0),
    .requested () 0 0, .receive (.requests ()) 0 loneEnv, .server () (.dispatch loneEnv),
    .handled () 0 () (some loneAnswer), .hub (.acquire (.response () 0)), .responded () 0,
    .subscribed (.responses ())
  ]

theorem late_start_loses_response :
    ∃ net, (machine Bytes Unit loneBroker).Run lateStart net ∧
      ¬NoResponseLost loneBroker lateStart net ∧
      net.hub.publishes (.response () 0) = .done loneAnswer ∧
      (net.hub.handles[1]?.map (·.inbox.contents)) = some [] ∧
      (net.clients ()).pending "c" = some 0 := by
  have run : (machine Bytes Unit loneBroker).Run lateStart _ := Machine.Run.of_isSome rfl
  refine ⟨_, run, fun h => ?_, rfl, rfl, rfl⟩
  obtain ⟨xs, ys, he, _⟩ :=
    no_response_lost run |>.mp h (lateStart.take 4) () 0 (lateStart.drop 5) rfl
  have hm : .subscribed (.responses ()) ∈ lateStart.take 4 := by simp [he]
  simp [lateStart, loneRegister] at hm

end MomRpc.Network
