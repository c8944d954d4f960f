import MomRpc.Transport.Theorems.Delivery

namespace MomRpc

-- The subscribers that a publish has yet to send to.
def Publish.senders : Publish → List ℕ
  | sending _ senders => senders
  | _                 => []

namespace MemoryHub

variable {ι : Type} {hub hub' : MemoryHub ι} {as : List (Action ι)} {a : Action ι} {i : ℕ} {p q : ι}

-- The publish that takes the step by itself, which it does only while it holds the lock.
def Action.own? : Action ι → Option ι
  | send p _ | release p => some p
  | _                    => none

-- How many of the publishes that hold the lock have yet to send to the `i`-th subscription.
def owed (hub : MemoryHub ι) (i : ℕ) : ℕ :=
  hub.readers.countP fun p => i ∈ (hub.publishes p).senders

def Roomy (hub : MemoryHub ι) : Prop :=
  ∀ i h, hub.handles[i]? = some h → h.inbox.held →
    h.inbox.queue.length + hub.owed i ≤ inboxCapacity

variable [DecidableEq ι]

-- No subscriber is needed for those to complete which hold the lock, and for those to get it which
-- await it.
structure Unblocked (hub : MemoryHub ι) : Prop where
  holders : ∀ p env senders, hub.publishes p = .sending env senders →
    ∃ as hub', (∀ a ∈ as, a.own? = some p) ∧ (machine ι).exec hub as = some hub' ∧
      hub'.publishes p = .done env
  waiters : ∃ as hub', (∀ a ∈ as, a.own?.isSome) ∧ (machine ι).exec hub as = some hub' ∧
    (∀ sub, (hub'.subscribe sub).isSome) ∧ hub'.close.isSome ∧
      ∀ p env, hub.publishes p = .locking env → (hub'.acquire p).isSome

-- A publish that takes the lock finds room in each inbox which it is going to send to, beyond what
-- is owed to the inbox already.
def KeepsRoom (hub : MemoryHub ι) : Action ι → Prop
  | .acquire p => ∀ env i h, hub.publishes p = .locking env →
    i ∈ hub.subscriptions ⟨env.address.name⟩ → hub.handles[i]? = some h → h.inbox.held →
      h.inbox.queue.length + hub.owed i < inboxCapacity
  | _ => True

-- The lock is held by the publishes that are sending.
structure Holders (hub : MemoryHub ι) : Prop where
  nodup : hub.readers.Nodup
  mem   : ∀ p, p ∈ hub.readers ↔ ∃ env senders, hub.publishes p = .sending env senders

theorem holders (r : (machine ι).Reachable hub) : hub.Holders := by
  induction hub, r using Machine.Reachable.induction_on
  case init => constructor <;> simp [machine]
  case step hub a hub' _ h ih =>
    obtain ⟨nodup, mem⟩ := ih
    cases next_step h
    case subscribe | recv | drop | close => exact ⟨nodup, mem⟩
    case publish q env idle =>
      refine ⟨nodup, fun p => ?_⟩
      by_cases hp : p = q <;> simp [hp, mem, idle]
    case acquire q env locking =>
      refine ⟨List.nodup_cons.mpr ⟨by simp [mem, locking], nodup⟩, fun p => ?_⟩
      by_cases hp : p = q <;> simp [hp, mem]
    case send q j env senders h inbox sending _ _ | ignore q j env senders h sending _ _ =>
      refine ⟨nodup, fun p => ?_⟩
      by_cases hp : p = q <;> simp [hp, mem, sending]
    case release q env sending =>
      refine ⟨nodup.erase q, fun p => ?_⟩
      by_cases hp : p = q <;> simp [hp, mem, nodup.mem_erase_iff]
    case abandonLocking q env locking =>
      refine ⟨nodup, fun p => ?_⟩
      by_cases hp : p = q <;> simp [hp, mem, locking]
    case abandonSending q env senders sending =>
      refine ⟨nodup.erase q, fun p => ?_⟩
      by_cases hp : p = q <;> simp [hp, mem, nodup.mem_erase_iff]

section Owed

omit [DecidableEq ι] in
theorem owed_eq_zero (h : hub.readers = []) : hub.owed i = 0 := by
  simp [owed, h]

-- What is owed by one of the holders, and by the others.
theorem owed_eq (hp : p ∈ hub.readers) :
    hub.owed i = (hub.readers.erase p).countP (fun q => i ∈ (hub.publishes q).senders) +
      if i ∈ (hub.publishes p).senders then 1 else 0 := by
  rw [owed, (List.perm_cons_erase hp).countP_eq, List.countP_cons]
  simp

theorem owed_erase (progress : Publish) (nodup : hub.readers.Nodup) :
    (hub.readers.erase p).countP (fun q => i ∈ ((hub.set p progress).publishes q).senders) =
      (hub.readers.erase p).countP fun q => i ∈ (hub.publishes q).senders := by
  refine List.countP_congr fun q hq => ?_
  have ne : q ≠ p := (nodup.mem_erase_iff.mp hq).left
  simp [ne]

theorem owed_of_not_mem (progress : Publish) (hp : p ∉ hub.readers) :
    (hub.set p progress).owed i = hub.owed i := by
  refine List.countP_congr fun q hq => ?_
  have ne : q ≠ p := fun h => hp (h ▸ hq)
  simp [ne]

theorem owed_acquire (env : Envelope) (senders : List ℕ) (hp : p ∉ hub.readers) :
    owed { hub.set p (.sending env senders) with readers := p :: hub.readers } i =
      hub.owed i + if i ∈ senders then 1 else 0 := by
  have h := owed_of_not_mem (i := i) (.sending env senders) hp
  simp only [owed, set_readers, List.countP_cons, set_publishes, ↓reduceIte,
    Publish.senders] at h ⊢
  simp [h]

theorem owed_send {env : Envelope} {j : ℕ} {senders : List ℕ} (holders : hub.Holders)
    (sending : hub.publishes p = .sending env (j :: senders)) (nodup : (j :: senders).Nodup) :
    (hub.set p (.sending env senders)).owed i + (if i = j then 1 else 0) = hub.owed i := by
  have hp := holders.mem p |>.mpr ⟨_, _, sending⟩
  have hp' : p ∈ (hub.set p (.sending env senders)).readers := hp
  have hj := (List.nodup_cons.mp nodup).left
  rw [owed_eq hp', owed_eq hp, set_readers, owed_erase _ holders.nodup]
  by_cases hi : i = j
  · simp [sending, Publish.senders, hi, hj]
  · simp [sending, Publish.senders, hi]

theorem owed_leave (progress : Publish) (holders : hub.Holders) (hp : p ∈ hub.readers) :
    owed { hub.set p progress with readers := hub.readers.erase p } i +
      (if i ∈ (hub.publishes p).senders then 1 else 0) = hub.owed i := by
  rw [owed_eq hp, ← owed_erase _ holders.nodup]
  rfl

end Owed

-- An action leaves room for what is owed, unless it is a publish that takes the lock without.
theorem roomy_step (r : (machine ι).Reachable hub) (hr : hub.Roomy)
    (hn : (machine ι).next hub a = some hub') : hub'.Roomy ↔ hub.KeepsRoom a := by
  have hs := holders r
  have free {q} (h : ∀ env senders, hub.publishes q ≠ .sending env senders) : q ∉ hub.readers :=
    fun hq => have ⟨_, _, he⟩ := hs.mem q |>.mp hq; h _ _ he
  cases next_step hn
  case subscribe sub readers =>
    refine iff_of_true (fun i h hh held => ?_) trivial
    rw [owed_eq_zero (by simpa using readers)]
    exact h.inbox.bounded
  case publish q env idle =>
    refine iff_of_true (fun i h hh held => ?_) trivial
    rw [owed_of_not_mem _ (free (by simp [idle]))]
    exact hr i h hh held
  case acquire q env locking =>
    have hq := free (q := q) (by simp [locking])
    have owed i := owed_acquire (i := i) env (hub.subscriptions ⟨env.address.name⟩) hq
    constructor
    case mp =>
      intro hr' env' i h he hi hh held
      cases locking.symm.trans he
      have := hr' i h hh held
      rw [owed, if_pos hi] at this
      omega
    case mpr =>
      intro hk i h hh held
      rw [owed]
      split
      case isTrue hi  => exact hk env i h locking hi hh held
      case isFalse hi => exact hr i h hh held
  case send q j env senders h₁ inbox sending handle sent =>
    refine iff_of_true (fun i h hh held => ?_) trivial
    change h.inbox.queue.length + (hub.set q (.sending env senders)).owed i ≤ _
    have owed := owed_send (i := i) hs sending (sending_nodup r sending)
    have ⟨held₁, _, hq, _⟩ := Mailbox.trySend_iff.mp sent
    rcases List.getElem?_set_cases hh with ⟨rfl, rfl⟩ | ⟨hi, hh⟩
    · have := hr i h₁ handle held₁
      simp only [hq, List.length_append, List.length_singleton]
      rw [if_pos rfl] at owed
      omega
    · have := hr i h hh held
      omega
  case ignore q j env senders h₁ sending handle dropped =>
    refine iff_of_true (fun i h hh held => ?_) trivial
    have owed := owed_send (i := i) hs sending (sending_nodup r sending)
    have := hr i h hh held
    omega
  case release q env sending | abandonSending q env senders sending =>
    refine iff_of_true (fun i h hh held => ?_) trivial
    have owed progress := owed_leave (i := i) progress hs <| hs.mem q |>.mpr ⟨_, _, sending⟩
    have := hr i h hh held
    exact Nat.le_trans (Nat.add_le_add_left (Nat.le.intro (owed _)) _) this
  case abandonLocking q env locking =>
    refine iff_of_true (fun i h hh held => ?_) trivial
    rw [owed_of_not_mem _ (free (by simp [locking]))]
    exact hr i h hh held
  case recv j h₁ env inbox handle received =>
    refine iff_of_true (fun i h hh held => ?_) trivial
    rcases List.getElem?_set_cases hh with ⟨rfl, rfl⟩ | ⟨_, hh⟩
    · have ⟨held₁, hq, _⟩ := Mailbox.recv_iff.mp received
      have := hr i h₁ handle held₁
      simp only [hq, List.length_cons] at this
      exact Nat.le_trans (Nat.add_le_add_right (Nat.le_succ _) _) this
    · exact hr i h hh held
  case drop j h₁ handle =>
    refine iff_of_true (fun i h hh held => ?_) trivial
    rcases List.getElem?_set_cases hh with ⟨rfl, rfl⟩ | ⟨_, hh⟩
    · simp at held
    · exact hr i h hh held
  case close => exact iff_of_true hr trivial

-- What a publish that holds the lock puts into an inbox was owed to it.
theorem own_step {h : SubscriptionHandle} (r : (machine ι).Reachable hub)
    (hn : (machine ι).next hub a = some hub') (own : a.own?.isSome) (hh : hub.handles[i]? = some h)
    (held : h.inbox.held) :
    ∃ h', hub'.handles[i]? = some h' ∧ h'.inbox.held ∧
      h'.inbox.queue.length + hub'.owed i = h.inbox.queue.length + hub.owed i := by
  have hs := holders r
  cases next_step hn <;> try cases own
  case send q j env senders h₁ inbox sending handle sent =>
    have owed := owed_send (i := i) hs sending (sending_nodup r sending)
    have ⟨_, _, hq, _, held'⟩ := Mailbox.trySend_iff.mp sent
    by_cases hi : i = j
    case pos =>
      subst hi
      have ⟨hl, _⟩ := List.getElem?_eq_some_iff.mp handle
      cases hh.symm.trans handle
      refine ⟨{ h with inbox }, by simp [hl], held', ?_⟩
      change inbox.queue.length + (hub.set q (.sending env senders)).owed i = _
      simp only [hq, List.length_append, List.length_singleton]
      rw [if_pos rfl] at owed
      omega
    case neg =>
      refine ⟨h, by simpa [List.getElem?_set_ne (Ne.symm hi)] using hh, held, ?_⟩
      change h.inbox.queue.length + (hub.set q (.sending env senders)).owed i = _
      rw [← owed, if_neg hi, Nat.add_zero]
  case ignore q j env senders h₁ sending handle dropped =>
    have owed := owed_send (i := i) hs sending (sending_nodup r sending)
    have hi : i ≠ j := by
      rintro rfl
      cases hh.symm.trans handle
      simp [held] at dropped
    exact ⟨h, hh, held, by rw [← owed, if_neg hi, Nat.add_zero]⟩
  case release q env sending =>
    have owed := owed_leave (i := i) (.done env) hs <| hs.mem q |>.mpr ⟨_, _, sending⟩
    exact ⟨h, hh, held, by simpa [sending, Publish.senders] using owed⟩

-- If the lock gets free without the subscribers, then there has been room for all that was owed.
theorem roomy_of_exec (r : (machine ι).Reachable hub) (he : (machine ι).exec hub as = some hub')
    (own : ∀ a ∈ as, a.own?.isSome) (free : hub'.readers = []) : hub.Roomy := by
  intro i h hh held
  induction as generalizing hub h
  case nil =>
    cases he
    simpa [owed_eq_zero free] using h.inbox.bounded
  case cons a as ih =>
    have ⟨hub₁, hn, he⟩ := Option.bind_eq_some_iff.mp he
    have ⟨own, owns⟩ := List.forall_mem_cons.mp own
    have ⟨h₁, hh₁, held₁, load⟩ := own_step r hn own hh held
    exact load ▸ ih (r.next hn) he owns h₁ hh₁ held₁

theorem roomy_exec (r : (machine ι).Reachable hub) (hr : hub.Roomy)
    (he : (machine ι).exec hub as = some hub') (own : ∀ a ∈ as, a.own?.isSome) : hub'.Roomy := by
  induction as generalizing hub
  case nil => cases he; exact hr
  case cons a as ih =>
    have ⟨hub₁, hn, he⟩ := Option.bind_eq_some_iff.mp he
    have ⟨own, owns⟩ := List.forall_mem_cons.mp own
    have keeps : hub.KeepsRoom a := by
      cases a <;> trivial
    exact ih (r.next hn) (roomy_step r hr hn |>.mpr keeps) he owns

theorem sender_handle {env : Envelope} {senders : List ℕ} (r : (machine ι).Reachable hub)
    (sending : hub.publishes p = .sending env senders) (hi : i ∈ senders) :
    ∃ h, hub.handles[i]? = some h := by
  obtain ⟨as, r⟩ := r
  have := accounted r (i := i) (p := p)
  simp only [Accounted, sending] at this
  obtain ⟨_, topic⟩ := this.left.mp <| .inr hi
  obtain ⟨h, hh, _⟩ := Option.map_eq_some_iff.mp topic
  exact ⟨h, hh⟩

theorem send_enabled {env : Envelope} {senders : List ℕ} (r : (machine ι).Reachable hub)
    (hr : hub.Roomy) (sending : hub.publishes p = .sending env (i :: senders)) :
    ∃ hub', (machine ι).next hub (.send p i) = some hub' ∧
      hub'.publishes = Function.update hub.publishes p (.sending env senders) ∧
      hub'.readers = hub.readers := by
  have ⟨h, hh⟩ := sender_handle r sending (List.mem_cons_self ..)
  simp only [machine, next, send, sending, ↓reduceIte, deliver, hh]
  split
  case isFalse => exact ⟨_, rfl, rfl, rfl⟩
  case isTrue held =>
    have hp := (holders r).mem p |>.mpr ⟨_, _, sending⟩
    have room : h.inbox.HasRoom := by
      have := hr i h hh held
      rw [owed_eq hp] at this
      simp only [sending, Publish.senders, List.mem_cons, true_or, ↓reduceIte] at this
      simp only [Mailbox.HasRoom]
      omega
    cases hs : h.inbox.trySend env
    case none       => exact absurd room <| Mailbox.trySend_eq_none_iff.mp hs held
    case some inbox => exact ⟨_, rfl, rfl, rfl⟩

theorem complete_publish {env : Envelope} {senders : List ℕ} (r : (machine ι).Reachable hub)
    (hr : hub.Roomy) (sending : hub.publishes p = .sending env senders) :
    ∃ as hub', (∀ a ∈ as, a.own? = some p) ∧ (machine ι).exec hub as = some hub' ∧
      hub'.publishes = Function.update hub.publishes p (.done env) ∧
      hub'.readers = hub.readers.erase p := by
  induction senders generalizing hub
  case nil =>
    refine ⟨[.release p], { hub.set p (.done env) with readers := hub.readers.erase p }, ?_⟩
    simp [machine, next, release, sending, Action.own?, set]
  case cons i senders ih =>
    obtain ⟨hub₁, hn, hp, hl⟩ := send_enabled r hr sending
    obtain ⟨as, hub', own, he, hp', hl'⟩ := ih (r.next hn) (roomy_step r hr hn |>.mpr trivial) <| by
      simp [hp]
    refine ⟨.send p i :: as, hub', ?_, by simp [hn, he], by simp [hp', hp], hl ▸ hl'⟩
    simpa [Action.own?] using own

theorem free_lock (r : (machine ι).Reachable hub) (hr : hub.Roomy) :
    ∃ as hub', (∀ a ∈ as, a.own?.isSome) ∧ (machine ι).exec hub as = some hub' ∧
      hub'.readers = [] ∧
      ∀ p env, hub.publishes p = .locking env → hub'.publishes p = .locking env := by
  generalize hl : hub.readers = readers
  induction readers generalizing hub
  case nil => exact ⟨[], hub, by simp, rfl, hl, fun _ _ => id⟩
  case cons p readers ih =>
    have ⟨env, senders, sending⟩ := (holders r).mem p |>.mp (by simp [hl])
    have ⟨as, hub₁, own, he, hp, hl₁⟩ := complete_publish r hr sending
    replace own : ∀ a ∈ as, a.own?.isSome := fun a ha => by simp [own a ha]
    have ⟨bs, hub', own', he', free, locking⟩ := ih (r.exec he) (roomy_exec r hr he own) <| by
      simp [hl₁, hl]
    refine ⟨as ++ bs, hub', ?_, Machine.exec_append_iff.mpr ⟨hub₁, he, he'⟩, free, ?_⟩
    · exact List.forall_mem_append.mpr ⟨own, own'⟩
    · intro q env' hq
      apply locking q env'
      have ne : q ≠ p := by
        rintro rfl
        simp [sending] at hq
      simp [hp, ne, hq]

theorem unblocked_iff (r : (machine ι).Reachable hub) : hub.Unblocked ↔ hub.Roomy := by
  constructor
  case mp =>
    rintro ⟨_, as, hub', own, he, _, close, _⟩
    apply roomy_of_exec r he own
    simpa [MemoryHub.close] using close
  case mpr =>
    intro hr
    constructor
    case holders =>
      intro p env senders sending
      obtain ⟨as, hub', own, he, hp, _⟩ := complete_publish r hr sending
      exact ⟨as, hub', own, he, by simp [hp]⟩
    case waiters =>
      obtain ⟨as, hub', own, he, free, locking⟩ := free_lock r hr
      refine ⟨as, hub', own, he, ?_, ?_, fun p env hp => ?_⟩
      · simp [MemoryHub.subscribe, free]
      · simp [MemoryHub.close, free]
      · simp [acquire, locking p env hp]

-- Nobody has to wait for a subscriber exactly as long as no publish takes the lock with an envelope
-- for which there is no room.
theorem publish_independent (r : (machine ι).Run as hub) :
    (machine ι).Always as Unblocked ↔ (machine ι).Throughout as KeepsRoom := by
  refine Machine.always_iff_throughout r ?_ fun hub a hub' r hu hn => ?_
  · exact unblocked_iff .init |>.mpr <| by simp [Roomy, machine]
  · rw [unblocked_iff (r.next hn)]
    exact roomy_step r (unblocked_iff r |>.mp hu) hn

def loneEnvelope : Envelope :=
  .response ⟨"a"⟩ [1] "c" "json"

theorem publish_independent_lone :
    (machine ℕ).Always [.subscribe ⟨"a"⟩, .publish 0 loneEnvelope, .acquire 0] Unblocked ↔
      (machine ℕ).Throughout [.subscribe ⟨"a"⟩, .publish 0 loneEnvelope, .acquire 0] KeepsRoom :=
  publish_independent <| .of_isSome rfl

-- The publish awaits room in an inbox that is held.
structure Stuck (hub : MemoryHub ι) (p : ι) (env : Envelope) (i : ℕ) (senders : List ℕ) : Prop where
  sending : hub.publishes p = .sending env (i :: senders)
  full    : ∃ h, hub.handles[i]? = some h ∧ h.inbox.held ∧ ¬h.inbox.HasRoom

-- Only the subscriber itself can end that, or the publish is abandoned.
theorem stuck_forever {env : Envelope} {senders : List ℕ}
    (he : (machine ι).exec hub as = some hub') (hs : hub.Stuck p env i senders)
    (ha : ∀ a ∈ as, a ≠ .recv i ∧ a ≠ .drop i ∧ a ≠ .abandon p) : hub'.Stuck p env i senders := by
  refine Machine.exec_stable (P := (Stuck · p env i senders)) he hs fun hub a hub' hm hs hn => ?_
  obtain ⟨sending, h, hh, held, full⟩ := hs
  have ⟨recv, drop, abandon⟩ := ha a hm
  have other {q} {progress : Publish} (hq : q ≠ p) :
      (hub.set q progress).publishes p = .sending env (i :: senders) := by
    simp [hq.symm, sending]
  have ne {q} (hq : hub.publishes q ≠ .sending env (i :: senders)) : q ≠ p := by
    rintro rfl
    exact hq sending
  cases next_step hn
  case subscribe =>
    have ⟨hl, _⟩ := List.getElem?_eq_some_iff.mp hh
    exact ⟨sending, h, by rwa [List.getElem?_append_left hl], held, full⟩
  case publish idle | acquire locking | release locking | abandonLocking locking =>
    exact ⟨other <| ne (by simp [*]), h, hh, held, full⟩
  case abandonSending => exact ⟨other <| by grind, h, hh, held, full⟩
  case close => exact ⟨sending, h, hh, held, full⟩
  case send q j env' senders' h' inbox sending' handle sent =>
    have ⟨_, room, _⟩ := Mailbox.trySend_iff.mp sent
    have hj : j ≠ i := by
      rintro rfl
      cases hh.symm.trans handle
      exact full room
    refine ⟨other <| ne (by simp [sending', hj]), h, ?_, held, full⟩
    simpa [List.getElem?_set_ne hj] using hh
  case ignore q j env' senders' h' sending' handle dropped =>
    have hj : j ≠ i := by
      rintro rfl
      cases hh.symm.trans handle
      simp [held] at dropped
    exact ⟨other <| ne (by simp [sending', hj]), h, hh, held, full⟩
  case recv j _ _ _ _ _ | drop j _ _ =>
    have hj : j ≠ i := by grind
    exact ⟨sending, h, by rwa [List.getElem?_set_ne hj], held, full⟩

def lonePublish (p : ℕ) : List (Action ℕ) :=
  [.publish p loneEnvelope, .acquire p, .send p 0, .release p]

-- A subscriber that has stopped reading blocks the seventeenth publish, and with it the hub.
theorem stalled_reader_blocks_hub :
    ∃ hub, (machine ℕ).Run (.subscribe ⟨"a"⟩ :: (List.range 16).flatMap lonePublish ++
        [.publish 16 loneEnvelope, .acquire 16]) hub ∧ ¬hub.Unblocked ∧
      ∀ as hub', (∀ a ∈ as, a ≠ .recv 0 ∧ a ≠ .drop 0 ∧ a ≠ .abandon 16) →
        (machine ℕ).exec hub as = some hub' →
          hub'.publishes 16 = .sending loneEnvelope [0] ∧ hub'.close = none ∧
            ∀ sub, hub'.subscribe sub = none := by
  have run : (machine ℕ).Run (.subscribe ⟨"a"⟩ :: (List.range 16).flatMap lonePublish ++
    [.publish 16 loneEnvelope, .acquire 16]) _ := rfl
  refine ⟨_, run, fun hu => ?_, fun as hub' ha he => ?_⟩
  · exact absurd (unblocked_iff run.reachable |>.mp hu 0 _ rfl rfl) (by decide)
  · have stuck := stuck_forever he ⟨rfl, _, rfl, rfl, by decide⟩ ha
    have locked : hub'.readers ≠ [] := by
      have := (holders <| run.reachable.exec he).mem 16 |>.mpr ⟨_, _, stuck.sending⟩
      exact List.ne_nil_of_mem this
    simp [stuck.sending, MemoryHub.close, MemoryHub.subscribe, locked]

end MemoryHub
end MomRpc
