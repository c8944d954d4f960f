import MomRpc.Lib.History
import MomRpc.Transport.Theorems.Memory

namespace MomRpc.MemoryHub

variable {ι : Type} {hub hub' : MemoryHub ι} {as : List (Action ι)} {a : Action ι} {i : ℕ} {p q : ι}

-- The publishes that have sent to the `i`-th subscription, in the order in which they did.
def sentTo (as : List (Action ι)) (i : ℕ) : List ι :=
  as.filterMap fun
    | .send p j => if j = i then some p else none
    | _         => none

-- The `i`-th subscription has been registered, and the hub has not been closed since.
def OpenFor (as : List (Action ι)) (i : ℕ) : Prop :=
  ∃ xs sub ys, as = xs ++ .subscribe sub :: ys ∧ xs.countP Action.isSubscribe = i ∧ .close ∉ ys

-- The publish `p` took the subscription lock after the `i`-th subscription was registered and
-- before the hub was next closed.
def Admitted (as : List (Action ι)) (i : ℕ) (p : ι) : Prop :=
  ∃ xs ys, as = xs ++ .acquire p :: ys ∧ OpenFor xs i

-- The publish `p` was over when the publish `q` took the subscription lock, as are all earlier ones
-- of a publisher that publishes sequentially.
def EndedBefore (as : List (Action ι)) (p q : ι) : Prop :=
  ∃ xs ys, as = xs ++ .acquire q :: ys ∧ (.release p ∈ xs ∨ .abandon p ∈ xs)

-- The `i`-th subscription is owed the envelope that the publish `p` carries.
def Due (as : List (Action ι)) (hub : MemoryHub ι) (i : ℕ) (p : ι) (env : Envelope) : Prop :=
  Admitted as i p ∧ hub.topic i = some ⟨env.address.name⟩

@[simp]
theorem sentTo_concat_send {j : ℕ} :
    sentTo (as ++ [.send p j]) i = if j = i then sentTo as i ++ [p] else sentTo as i := by
  by_cases h : j = i <;> simp [sentTo, List.filterMap_append, h]

theorem sentTo_concat (h : ∀ p, a ≠ .send p i) : sentTo (as ++ [a]) i = sentTo as i := by
  cases a <;> simp [sentTo]
  case send p j => exact fun hj => h p (hj ▸ rfl)

theorem openFor_concat_iff :
    OpenFor (as ++ [a]) i ↔
      (OpenFor as i ∧ a ≠ .close) ∨ (a.isSubscribe ∧ as.countP Action.isSubscribe = i) := by
  constructor
  case mp =>
    rintro ⟨xs, sub, ys, h, hc, hn⟩
    obtain ⟨zs, rfl, rfl⟩ | ⟨rfl, rfl, rfl⟩ := List.concat_eq_append_cons_iff.mp h
    · simp only [List.mem_append, List.mem_singleton, not_or] at hn
      exact .inl ⟨⟨xs, sub, zs, rfl, hc, hn.left⟩, Ne.symm hn.right⟩
    · exact .inr ⟨rfl, hc⟩
  case mpr =>
    rintro (⟨⟨xs, sub, ys, rfl, hc, hn⟩, ha⟩ | ⟨ha, hc⟩)
    · exact ⟨xs, sub, ys ++ [a], by simp, hc, by simp [hn, ha.symm]⟩
    · cases a <;> simp only [Action.isSubscribe, Bool.false_eq_true] at ha
      case subscribe sub => exact ⟨as, sub, [], rfl, hc, by simp⟩

theorem OpenFor.lt (h : OpenFor as i) : i < as.countP Action.isSubscribe := by
  obtain ⟨xs, sub, ys, rfl, rfl, _⟩ := h
  simp only [List.countP_append, List.countP_cons, Action.isSubscribe]
  grind

theorem admitted_concat_iff :
    Admitted (as ++ [a]) i p ↔ Admitted as i p ∨ (a = .acquire p ∧ OpenFor as i) := by
  constructor
  case mp =>
    rintro ⟨xs, ys, h, ho⟩
    obtain ⟨zs, rfl, rfl⟩ | ⟨rfl, rfl, rfl⟩ := List.concat_eq_append_cons_iff.mp h
    · exact .inl ⟨xs, zs, rfl, ho⟩
    · exact .inr ⟨rfl, ho⟩
  case mpr =>
    rintro (⟨xs, ys, rfl, ho⟩ | ⟨rfl, ho⟩)
    · exact ⟨xs, ys ++ [a], by simp, ho⟩
    · exact ⟨as, [], rfl, ho⟩

theorem admitted_concat (h : a ≠ .acquire p) : Admitted (as ++ [a]) i p ↔ Admitted as i p := by
  simp [admitted_concat_iff, h]

theorem Admitted.lt (h : Admitted as i p) : i < as.countP Action.isSubscribe := by
  obtain ⟨xs, ys, rfl, ho⟩ := h
  have := ho.lt
  simp only [List.countP_append]
  omega

theorem endedBefore_concat_iff :
    EndedBefore (as ++ [a]) p q ↔
      EndedBefore as p q ∨ (a = .acquire q ∧ (.release p ∈ as ∨ .abandon p ∈ as)) := by
  constructor
  case mp =>
    rintro ⟨xs, ys, h, hr⟩
    obtain ⟨zs, rfl, rfl⟩ | ⟨rfl, rfl, rfl⟩ := List.concat_eq_append_cons_iff.mp h
    · exact .inl ⟨xs, zs, rfl, hr⟩
    · exact .inr ⟨rfl, hr⟩
  case mpr =>
    rintro (⟨xs, ys, rfl, hr⟩ | ⟨rfl, hr⟩)
    · exact ⟨xs, ys ++ [a], by simp, hr⟩
    · exact ⟨as, [], rfl, hr⟩

theorem EndedBefore.ended (h : EndedBefore as p q) : .release p ∈ as ∨ .abandon p ∈ as := by
  obtain ⟨xs, ys, rfl, hr⟩ := h
  exact hr.imp (List.mem_append_left _) (List.mem_append_left _)

variable [DecidableEq ι]

theorem handles_length (r : (machine ι).Run as hub) :
    hub.handles.length = as.countP Action.isSubscribe := by
  induction as, hub, r using Machine.Run.induction_on
  case init => rfl
  case step as hub a hub' r h ih =>
    rw [(next_step h).handles_length, ih, List.countP_append, List.countP_singleton]

theorem Admitted.lt_length (r : (machine ι).Run as hub) (h : Admitted as i p) :
    i < hub.handles.length :=
  handles_length r ▸ h.lt

-- A sender is in the subscription map for as long as its subscription has not been closed.
theorem openFor_iff (r : (machine ι).Run as hub) :
    OpenFor as i ↔ ∃ sub, i ∈ hub.subscriptions sub := by
  induction as, hub, r using Machine.Run.induction_on
  case init => simp [OpenFor, machine]
  case step as hub a hub' r h ih =>
    rw [openFor_concat_iff, ih, ← handles_length r]
    cases next_step h <;> simp [Action.isSubscribe]
    case subscribe sub free =>
      constructor
      case mp =>
        rintro (⟨sub', hm⟩ | rfl)
        · refine ⟨sub', ?_⟩
          by_cases hs : sub' = sub
          · subst hs; simp [hm]
          · simp [hs, hm]
        · exact ⟨sub, by simp⟩
      case mpr =>
        rintro ⟨sub', hm⟩
        by_cases hs : sub' = sub
        · subst hs
          simp only [Function.update_self, List.mem_append, List.mem_singleton] at hm
          exact hm.imp (⟨_, ·⟩) Eq.symm
        · exact .inl ⟨sub', by simpa [hs] using hm⟩

theorem openFor_topic_iff {sub : Subscription} (r : (machine ι).Run as hub) :
    (OpenFor as i ∧ hub.topic i = some sub) ↔ i ∈ hub.subscriptions sub := by
  rw [openFor_iff r]
  constructor
  case mp =>
    rintro ⟨⟨sub', hm⟩, ht⟩
    cases topic_of_mem r.reachable hm ▸ ht
    exact hm
  case mpr => exact fun hm => ⟨⟨sub, hm⟩, topic_of_mem r.reachable hm⟩

-- What has been sent, and is still to be sent, to the `i`-th subscription on behalf of `p`.
def Accounted (as : List (Action ι)) (hub : MemoryHub ι) (i : ℕ) (p : ι) : Prop :=
  match hub.publishes p with
  | .idle | .locking _    => ¬Admitted as i p ∧ p ∉ sentTo as i
  | .sending env senders  =>
    (p ∈ sentTo as i ∨ i ∈ senders ↔ Due as hub i p env) ∧ (i ∈ senders → p ∉ sentTo as i)
  | .done env             => p ∈ sentTo as i ↔ Due as hub i p env
  | .abandoned env        => p ∈ sentTo as i → Due as hub i p env

omit [DecidableEq ι] in
theorem Accounted.congr {as'} (h : Accounted as hub i p)
    (hp : hub'.publishes p = hub.publishes p) (hs : p ∈ sentTo as' i ↔ p ∈ sentTo as i)
    (ha : Admitted as' i p ↔ Admitted as i p) (ht : Admitted as i p → hub'.topic i = hub.topic i) :
    Accounted as' hub' i p := by
  have hd {env} : Due as' hub' i p env ↔ Due as hub i p env := by
    rw [Due, Due, ha]
    exact and_congr_right fun h => by rw [ht h]
  simpa only [Accounted, hp, hs, ha, hd] using h

omit [DecidableEq ι] in
-- A send on behalf of `p`, be it accepted or ignored.
theorem Accounted.send {j : ℕ} {env : Envelope} {senders : List ℕ} (h : Accounted as hub i p)
    (hp : hub.publishes p = .sending env (j :: senders)) (hn : (j :: senders).Nodup)
    (hp' : hub'.publishes p = .sending env senders) (ht : hub'.topic i = hub.topic i) :
    Accounted (as ++ [.send p j]) hub' i p := by
  simp only [Accounted, hp, hp', Due, admitted_concat (nofun : Action.send p j ≠ .acquire p),
    sentTo_concat_send, ht, List.mem_cons] at h ⊢
  by_cases hj : j = i
  case pos =>
    subst hj
    simpa [List.nodup_cons.mp hn] using h.left.mp <| .inr <| .inl rfl
  case neg => simpa [hj, Ne.symm hj] using h

theorem accounted (r : (machine ι).Run as hub) : Accounted as hub i p := by
  induction as, hub, r using Machine.Run.induction_on
  case init => simp [Accounted, machine, Admitted, sentTo]
  case step as hub a hub' r h ih =>
    have st := next_step h
    have ht (ha : Admitted as i p) : hub'.topic i = hub.topic i :=
      st.topic fun _ => ha.lt_length r
    have ht' (hs : a.isSubscribe = false) : hub'.topic i = hub.topic i := st.topic (by simp [hs])
    cases st
    case subscribe => exact ih.congr rfl (by simp [sentTo]) (admitted_concat (by simp)) ht
    case recv      => exact ih.congr rfl (by simp [sentTo]) (admitted_concat (by simp)) ht
    case drop      => exact ih.congr rfl (by simp [sentTo]) (admitted_concat (by simp)) ht
    case close     => exact ih.congr rfl (by simp [sentTo]) (admitted_concat (by simp)) ht
    case publish q env idle =>
      by_cases hp : p = q
      case pos =>
        subst hp
        simpa [Accounted, idle, sentTo, admitted_concat_iff] using ih
      case neg => exact ih.congr (by simp [hp]) (by simp [sentTo]) (admitted_concat (by simp)) ht
    case acquire q env locking =>
      by_cases hp : p = q
      case pos =>
        -- Whether a subscription is in the map at this moment decides whether it is owed `env`.
        subst hp
        simp only [Accounted, locking] at ih
        simp [Accounted, Due, sentTo_concat, admitted_concat_iff, ih, topic, ← openFor_topic_iff r]
      case neg =>
        have ha : Action.acquire q ≠ .acquire p := by simp [Ne.symm hp]
        exact ih.congr (by simp [hp]) (by simp [sentTo]) (admitted_concat ha) ht
    case send q j env senders h inbox sending handle sent =>
      by_cases hp : p = q
      case pos =>
        subst hp
        exact ih.send sending (sending_nodup r.reachable sending) (by simp) (ht' rfl)
      case neg =>
        exact ih.congr (by simp [hp]) (by simp; split <;> simp [hp]) (admitted_concat (by simp)) ht
    case ignore q j env senders h sending handle dropped =>
      by_cases hp : p = q
      case pos =>
        subst hp
        exact ih.send sending (sending_nodup r.reachable sending) (by simp) (ht' rfl)
      case neg =>
        exact ih.congr (by simp [hp]) (by simp; split <;> simp [hp]) (admitted_concat (by simp)) ht
    case release q env sending =>
      by_cases hp : p = q
      case pos =>
        subst hp
        simpa [Accounted, sending, Due, sentTo_concat, admitted_concat_iff, topic] using ih
      case neg => exact ih.congr (by simp [hp]) (by simp [sentTo]) (admitted_concat (by simp)) ht
    case abandonLocking q env locking =>
      by_cases hp : p = q
      case pos =>
        subst hp
        simp only [Accounted, locking] at ih
        simp [Accounted, sentTo_concat, ih]
      case neg => exact ih.congr (by simp [hp]) (by simp [sentTo]) (admitted_concat (by simp)) ht
    case abandonSending q env senders sending =>
      by_cases hp : p = q
      case pos =>
        subst hp
        simp only [Accounted, sending] at ih
        simpa [Accounted, Due, sentTo_concat, admitted_concat_iff, topic] using ih.left.mp ∘ .inl
      case neg => exact ih.congr (by simp [hp]) (by simp [sentTo]) (admitted_concat (by simp)) ht

theorem Due.of_sent (r : (machine ι).Run as hub) (hs : p ∈ sentTo as i) :
    ∃ env, (hub.publishes p).env? = some env ∧ Due as hub i p env := by
  have h := accounted r (i := i) (p := p)
  simp only [Accounted] at h
  split at h
  case h_1 | h_2           => exact absurd hs h.right
  case h_3 env senders heq => exact ⟨env, by simp [heq, Publish.env?], h.left.mp <| .inl hs⟩
  case h_4 env heq         => exact ⟨env, by simp [heq, Publish.env?], h.mp hs⟩
  case h_5 env heq         => exact ⟨env, by simp [heq, Publish.env?], h hs⟩

theorem sentTo_nodup (r : (machine ι).Run as hub) : (sentTo as i).Nodup := by
  induction as, hub, r using Machine.Run.induction_on
  case init => simp [sentTo]
  case step as hub a hub' r h ih =>
    by_cases ha : ∃ p, a = .send p i
    case neg => simpa [sentTo_concat fun p hp => ha ⟨p, hp⟩] using ih
    case pos =>
      obtain ⟨p, rfl⟩ := ha
      have hn {env senders} (hs : hub.publishes p = .sending env (i :: senders)) :
          p ∉ sentTo as i := by
        have := accounted r (i := i) (p := p)
        simp only [Accounted, hs] at this
        exact this.right (List.mem_cons_self ..)
      rw [sentTo_concat_send, if_pos rfl, ← List.concat_eq_append, List.nodup_concat]
      cases next_step h <;> exact ⟨hn ‹_›, ih⟩

-- While a handle is held, its mailbox has been given exactly what was sent to it.
theorem contents_eq {h : SubscriptionHandle} (r : (machine ι).Run as hub)
    (hh : hub.handles[i]? = some h) (held : h.inbox.held) :
    h.inbox.contents.map some = (sentTo as i).map fun p => (hub.publishes p).env? := by
  induction as, hub, r using Machine.Run.induction_on generalizing h
  case init => simp [machine] at hh
  case step as hub a hub' r hs ih =>
    have st := next_step hs
    have he : (sentTo as i).map (fun p => (hub'.publishes p).env?) =
        (sentTo as i).map fun p => (hub.publishes p).env? := by
      refine List.map_congr_left fun p hp => ?_
      obtain ⟨env, hp, _⟩ := Due.of_sent r hp
      rw [hp, st.preserves_env? hp]
    cases st
    case subscribe sub free =>
      rw [sentTo_concat (by simp), he]
      simp only [List.getElem?_append] at hh
      split at hh
      case isTrue  => exact ih hh held
      case isFalse hl =>
        have hn : sentTo as i = [] := by
          refine List.eq_nil_iff_forall_not_mem.mpr fun p hp => ?_
          obtain ⟨_, _, hd⟩ := Due.of_sent r hp
          exact hl <| hd.left.lt_length r
        obtain ⟨_, rfl⟩ : i - hub.handles.length = 0 ∧ { subscription := sub } = h := by
          simpa [List.getElem?_singleton] using hh
        simp [hn, Mailbox.contents]
    case send p j env senders h' inbox sending handle sent =>
      simp only [List.getElem?_set] at hh
      split at hh
      case isTrue hj =>
        subst hj
        obtain ⟨_, rfl⟩ : _ ∧ { h' with inbox } = h := by simpa using hh
        obtain ⟨held', _⟩ := Mailbox.trySend_held sent
        rw [Mailbox.trySend_contents sent, sentTo_concat_send, if_pos rfl]
        simp only [List.map_append, he, ih handle held']
        simp [Publish.env?]
      case isFalse hj =>
        rw [sentTo_concat_send, if_neg hj, he]
        exact ih hh held
    case ignore p j env senders h' sending handle dropped =>
      by_cases hj : j = i
      case pos =>
        subst hj
        simp_all
      case neg =>
        rw [sentTo_concat_send, if_neg hj, he]
        exact ih hh held
    case recv j h' env inbox handle received =>
      rw [sentTo_concat (by simp), he]
      simp only [List.getElem?_set] at hh
      split at hh
      case isTrue hj =>
        subst hj
        obtain ⟨_, rfl⟩ : _ ∧ { h' with inbox } = h := by simpa using hh
        obtain ⟨held', _⟩ := Mailbox.recv_held received
        exact Mailbox.recv_contents received ▸ ih handle held'
      case isFalse => exact ih hh held
    case drop j h' handle =>
      rw [sentTo_concat (by simp), he]
      simp only [List.getElem?_set] at hh
      split at hh
      case isTrue hj =>
        obtain ⟨_, rfl⟩ : _ ∧ { h' with inbox := h'.inbox.drop } = h := by simpa using hh
        simp at held
      case isFalse => exact ih hh held
    all_goals
      rw [sentTo_concat (by simp), he]
      exact ih hh held

theorem map_env?_prefix (r : (machine ι).Run as hub) (hs : (machine ι).next hub a = some hub') :
    (sentTo as i).map (fun p => (hub.publishes p).env?) <+:
      (sentTo (as ++ [a]) i).map fun p => (hub'.publishes p).env? := by
  have he : (sentTo as i).map (fun p => (hub.publishes p).env?) =
      (sentTo as i).map fun p => (hub'.publishes p).env? := by
    refine List.map_congr_left fun p hp => ?_
    have ⟨env, hp, _⟩ := Due.of_sent r hp
    rw [hp, (next_step hs).preserves_env? hp]
  rw [he]
  apply List.IsPrefix.map _
  rw [sentTo, sentTo, List.filterMap_append]
  exact List.prefix_append ..

-- Whether or not a handle is still held, what has been taken out of its inbox was sent to it.
theorem received_prefix {h : SubscriptionHandle} (r : (machine ι).Run as hub)
    (hh : hub.handles[i]? = some h) :
    h.inbox.received.map some <+: (sentTo as i).map fun p => (hub.publishes p).env? := by
  induction as, hub, r using Machine.Run.induction_on generalizing h
  case init => simp [machine] at hh
  case step as hub a hub' r hs ih =>
    by_cases held : h.inbox.held
    case pos =>
      rw [← contents_eq (r.concat hs) hh held, Mailbox.contents, List.map_append]
      exact List.prefix_append ..
    case neg =>
      by_cases hl : i < hub.handles.length
      case neg =>
        obtain ⟨_, _, _, rfl⟩ := (next_step hs).fresh_handle (Nat.le_of_not_lt hl) hh
        exact List.nil_prefix
      case pos =>
        obtain ⟨h', hh', ch⟩ := (next_step hs).handle (List.getElem?_eq_getElem hl)
        cases hh ▸ hh'
        rw [ch.received, ch.held.resolve_left held, List.append_nil]
        exact ih (List.getElem?_eq_getElem hl) |>.trans <| map_env?_prefix r hs

theorem ended_publish (r : (machine ι).Run as hub) (he : .release p ∈ as ∨ .abandon p ∈ as) :
    ∃ env, hub.publishes p = .done env ∨ hub.publishes p = .abandoned env := by
  induction as, hub, r using Machine.Run.induction_on
  case init => simp at he
  case step as hub a hub' r h ih =>
    by_cases ha : a = .release p ∨ a = .abandon p
    case pos =>
      rcases ha with rfl | rfl
      all_goals
        cases next_step h
        all_goals simp
    case neg =>
      have ⟨env, hd⟩ := ih <| by simpa [not_or.mp ha |>.imp Ne.symm Ne.symm] using he
      cases next_step h <;> try exact ⟨env, hd⟩
      all_goals
        refine ⟨env, ?_⟩
        simp only [set_publishes]
        split <;> simp_all

theorem sentTo_order (r : (machine ι).Run as hub) (hc : EndedBefore as p q)
    (hp : p ∈ sentTo as i) (hq : q ∈ sentTo as i) : [p, q].Sublist (sentTo as i) := by
  induction as, hub, r using Machine.Run.induction_on
  case init => simp [sentTo] at hp
  case step as hub a hub' r h ih =>
    rcases endedBefore_concat_iff.mp hc with hc' | ⟨rfl, _⟩
    case inr =>
      -- `q` has only now taken the lock, nothing can have been sent for it yet.
      have := accounted r (i := i) (p := q)
      cases next_step h
      simp_all [Accounted, sentTo_concat]
    case inl =>
      by_cases ha : ∃ p', a = .send p' i
      case neg =>
        rw [sentTo_concat fun p' h => ha ⟨p', h⟩] at hp hq ⊢
        exact ih hc' hp hq
      case pos =>
        obtain ⟨p', rfl⟩ := ha
        have hne : p ≠ p' := by
          have ⟨env, hd⟩ := ended_publish r hc'.ended
          rintro rfl
          cases next_step h <;> simp_all
        simp only [sentTo_concat_send, ↓reduceIte, List.mem_append, List.mem_singleton, hne,
          or_false] at hp hq ⊢
        rcases hq with hq | rfl
        · exact ih hc' hp hq |>.trans (List.sublist_append_left ..)
        · exact List.singleton_sublist.mpr hp |>.append (.refl [q])

-- The reference semantics of `MemoryHub`: what a live subscription has received or still holds is
-- what was published to its address since it was registered and before the hub was next closed,
-- each publish once, and a publish never waits for a subscriber that is gone.
theorem delivery {h : SubscriptionHandle} (r : (machine ι).Run as hub)
    (hh : hub.handles[i]? = some h) (live : h.inbox.held) :
    (∃ ps : List ι,
      ps.Nodup ∧
      h.inbox.contents.map some = ps.map (fun p => (hub.publishes p).env?) ∧
      (∀ p ∈ ps, ∃ env, (hub.publishes p).env? = some env ∧ h.subscription.name = env.address.name ∧
        Admitted as i p) ∧
      (∀ p env, hub.publishes p = .done env → h.subscription.name = env.address.name →
        Admitted as i p → p ∈ ps) ∧
      (∀ p ∈ ps, ∀ q ∈ ps, EndedBefore as p q → [p, q].Sublist ps)) ∧
    (∀ p env j senders d, hub.publishes p = .sending env (j :: senders) →
      hub.handles[j]? = some d → d.inbox.held = false →
      (machine ι).next hub (.send p j) = some (hub.set p (.sending env senders))) := by
  have ht {env : Envelope} :
      hub.topic i = some ⟨env.address.name⟩ ↔ h.subscription.name = env.address.name := by
    simp [topic, hh, Subscription.ext_iff]
  constructor
  case left =>
    refine ⟨sentTo as i, sentTo_nodup r, contents_eq r hh live, ?_, ?_, ?_⟩
    · intro p hp
      obtain ⟨env, he, ha, hd⟩ := Due.of_sent r hp
      exact ⟨env, he, ht.mp hd, ha⟩
    · intro p env hp hn ha
      have := accounted r (i := i) (p := p)
      simp only [Accounted, hp] at this
      exact this.mpr ⟨ha, ht.mpr hn⟩
    · exact fun p hp q hq hc => sentTo_order r hc hp hq
  case right =>
    intro p env j senders d hs hd dropped
    simp [machine, next, send, hs, deliver, hd, dropped]

theorem delivery_one :
    let as : List (Action ℕ) := [.subscribe ⟨"a"⟩, .publish 0 (.response ⟨"a"⟩ [1] "c" "json"),
      .acquire 0, .send 0 0, .release 0]
    ∃ hub h, (machine ℕ).Run as hub ∧ hub.handles[0]? = some h ∧
      ∃ ps : List ℕ, h.inbox.contents.map some = ps.map fun p => (hub.publishes p).env? := by
  intro as
  have run : (machine ℕ).Run as _ := rfl
  have ⟨⟨ps, _, contents, _⟩, _⟩ := delivery (i := 0) run rfl rfl
  exact ⟨_, _, run, rfl, ps, contents⟩

end MomRpc.MemoryHub
