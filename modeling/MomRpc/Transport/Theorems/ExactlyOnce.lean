import MomRpc.Transport.Theorems.Callers
import MomRpc.Transport.Theorems.Conservation
import MomRpc.Transport.Theorems.Readers

namespace MomRpc

-- What the reader has still to take, if it is on the topic.
def DdsReader.waiting (dds : Dds) (topic : String) (reader : DdsReader) : Multiset Envelope :=
  if reader.topic = topic then ↑(reader.samples.filterMap dds.fromSlice) else 0

namespace DdsActor

open RumqttcTransport

variable {dds : Dds} {m m' : Actor (kind dds)} {act : Actor.Action Event Outcome} {topic : String}
  {k : ℕ}

-- All that one action can do to the readers and to the subscribers.
inductive Fans (dds : Dds) (m : Actor (kind dds)) (act : Actor.Action Event Outcome)
    (m' : Actor (kind dds)) : Prop
  | other {o : Option (Fanout.Action ℕ)} (idle : o.bind Fanout.Action.worker? = none)
    (quiet : ∀ event, act ≠ .task event) (readers : m'.state.readers = m.state.readers)
    (fanned : (Fanout.machine ℕ dds.fromSlice).next? m.subscribers o = some m'.subscribers)
  | subscribed {topic : String} (quiet : ∀ event, act ≠ .task event)
    (readers : m'.state.readers = m.state.readers ++ [{ topic := topic }])
    (same : m'.subscribers = m.subscribers)
  | task {event : Event} (action : act = .task event)
    (worked : Worked dds m.state m.subscribers event m'.state m'.subscribers)

theorem step_fans (st : Actor.Step m act m') : Fans dds m act m' := by
  cases st
  case register topic _ _ _ _ _ _ _ =>
    exact .other (o := some (.subscribe topic)) rfl (by simp) rfl rfl
  case caller caller =>
    have quiet event : act ≠ .task event := by
      rintro rfl
      cases caller
    rcases Fanout.conclude_cases with he | ⟨k, dropped⟩
    · exact .other (o := none) rfl quiet rfl (congrArg some he.symm)
    · exact .other (o := some (.drop k)) rfl quiet rfl dropped
  case recv received => exact .other (o := some (.recv _)) rfl (by simp) rfl received
  case dropInbox dropped => exact .other (o := some (.drop _)) rfl (by simp) rfl dropped
  case begin started => cases started; exact .other (o := none) rfl (by simp) rfl rfl
  case defer deferred => cases deferred
  case execute executed =>
    cases execute_executed executed
    case published readers _ => exact .other (o := none) rfl (by simp) readers rfl
    case failed readers _ => exact .other (o := none) rfl (by simp) readers rfl
    case subscribed => exact .subscribed (by simp) rfl rfl
  case finish finished =>
    simp only [kind] at finished
    split at finished <;> cases finished
    exact .other (o := none) rfl (by simp) rfl rfl
  case task acted => exact .task rfl <| task_worked acted
  all_goals exact .other (o := none) rfl (by simp) rfl rfl

-- A worker without a reader has nothing to do.
theorem idle_of_le (r : (Actor.machine (kind dds)).Reachable m) {w : ℕ}
    (hw : m.state.readers.length ≤ w) : m.subscribers.incoming w = .idle := by
  induction m, r using Machine.Reachable.induction_on
  case init => rfl
  case step m act m' r hn ih =>
    have same {a f'} (hn : (Fanout.machine ℕ dds.fromSlice).next m.subscribers a = some f')
        (ha : a.worker? ≠ some w) (hw : m.state.readers.length ≤ w) : f'.incoming w = .idle :=
      (Fanout.next_step hn |>.incoming_of_ne ha).trans <| ih hw
    cases step_fans (Actor.next_step hn)
    case other o none _ readers fanned =>
      rw [readers] at hw
      rcases Machine.next?_cases fanned with ⟨_, he⟩ | ⟨a, rfl, hn⟩
      · exact he ▸ ih hw
      · have none : a.worker? = Option.none := none
        exact same hn (by simp [none]) hw
    case subscribed readers he =>
      rw [readers, List.length_append] at hw
      exact he ▸ ih (Nat.le_of_succ_le hw)
    case task event action worked =>
      clear action
      generalize m'.state = s' at worked hw
      generalize m'.subscribers = f' at worked ⊢
      cases worked
      case sample => exact ih <| by simpa [sample_eq] using hw
      case take r reader _ _ handle _ _ taken =>
        have ⟨hl, _⟩ := List.getElem?_eq_some_iff.mp handle
        rw [List.length_set] at hw
        have ne : r ≠ w := Nat.ne_of_lt <| Nat.lt_of_lt_of_le hl hw
        exact same (a := .incoming r reader.topic _) taken (by simpa [Fanout.Action.worker?]) hw
      case trySend r i sent =>
        by_cases hr : r = w
        case neg => exact same (a := .trySend r i) sent (by simpa [Fanout.Action.worker?]) hw
        case pos =>
          subst hr
          simp [Fanout.trySend, ih hw] at sent
      case writeBack r written =>
        by_cases hr : r = w
        case neg => exact same (a := .writeBack r) written (by simpa [Fanout.Action.worker?]) hw
        case pos =>
          subst hr
          simp [Fanout.writeBack, ih hw] at written
      case ended => exact ih <| by simpa using hw

-- What the readers on the topic have still to take.
def waiting (dds : Dds) (s : DdsActor) (topic : String) : Multiset Envelope :=
  (s.readers.map (DdsReader.waiting dds topic)).sum

-- What the tasks have still to try to put into the inbox.
def outstanding (dds : Dds) (s : DdsActor) (f : Fanout ℕ) (topic : String) (k : ℕ) :
    Multiset Envelope :=
  ∑ r ∈ Finset.range s.readers.length, f.inFlight k r + waiting dds s topic

-- The sample that is given to the readers on the topic.
def sampleOn (topic : String) : Actor.Action Event Outcome → Option Bytes
  | .task (.sample topic' data) => if topic' = topic then some data else none
  | _                           => none

def decoded (dds : Dds) (topic : String) (as : List (Actor.Action Event Outcome)) :
    List Envelope :=
  (as.filterMap (sampleOn topic)).filterMap dds.fromSlice

-- The tasks have not ended that read the topic.
def Open (s : DdsActor) (topic : String) : Prop :=
  ∀ (r : ℕ) (reader : DdsReader), s.readers[r]? = some reader → reader.topic = topic →
    reader.ended = false

def HasRoomFor (k : ℕ) (m : Actor (kind dds)) (act : Actor.Action Event Outcome) : Prop :=
  ∀ r h, act = .task (.trySend r k) → m.subscribers.handles[k]? = some h → h.inbox.HasRoom

instance : ∀ act, Decidable (HasRoomFor k m act)
  | .task (.trySend _ i) =>
    decidable_of_iff (i = k → ∀ h ∈ m.subscribers.handles[k]?, h.inbox.HasRoom) <| by
      simp only [HasRoomFor, Actor.Action.task.injEq, Event.trySend.injEq, Option.mem_def]
      exact ⟨fun room _ h he => room he.right h, fun room he h => room _ h ⟨rfl, he⟩⟩
  | .task (.sample ..) | .task (.take _) | .task (.writeBack _) | .task (.ended _) =>
    .isTrue <| by simp [HasRoomFor]
  | .call _ | .register _ | .send _ | .resume _ | .retry _ | .join _ | .cancel _ | .recv _
  | .dropInbox _ | .pushTask | .drop | .handle | .execute _ | .ended | .finish =>
    .isTrue <| by simp [HasRoomFor]

theorem give_waiting {reader : DdsReader} {topic' : String} {data : Bytes}
    (alive : reader.topic = topic → reader.ended = false) :
    (give topic' data reader).waiting dds topic = reader.waiting dds topic +
      if reader.topic = topic then ↑(decoded dds topic [.task (.sample topic' data)]) else 0 := by
  by_cases ht : reader.topic = topic
  case neg => simp [DdsReader.waiting, ht]
  case pos =>
    have alive := alive ht
    subst ht
    by_cases hs : topic' = reader.topic
    case pos => simp [DdsReader.waiting, give, decoded, sampleOn, hs, alive, Multiset.coe_add]
    case neg => simp [DdsReader.waiting, give, decoded, sampleOn, hs, Ne.symm hs]

-- Each reader on the topic is given the sample.
theorem sample_waiting {s : DdsActor} {topic' : String} {data : Bytes} (alive : s.Open topic) :
    (s.sample topic' data).waiting dds topic = s.waiting dds topic +
      s.readersOn topic •
        (decoded dds topic [.task (.sample topic' data)] : Multiset Envelope) := by
  replace alive : ∀ reader ∈ s.readers, reader.topic = topic → reader.ended = false := by
    intro reader hr
    obtain ⟨i, h⟩ := List.mem_iff_getElem?.mp hr
    exact alive i reader h
  simp only [waiting, sample_eq, readersOn, List.map_map]
  generalize s.readers = readers at alive
  induction readers
  case nil => simp
  case cons reader readers ih =>
    obtain ⟨here, alive⟩ := List.forall_mem_cons.mp alive
    rw [List.map_cons, List.sum_cons, List.map_cons, List.sum_cons, ih alive, Function.comp,
      give_waiting here, List.countP_cons]
    by_cases ht : reader.topic = topic
    case neg => simp [ht]; ac_rfl
    case pos => simp only [ht, if_true, decide_true, add_nsmul, one_nsmul]; ac_rfl

-- No other event than a sample comes with something to be given to the inbox.
theorem decoded_of_other {event : Event} (h : ∀ topic data, event ≠ .sample topic data) :
    decoded dds topic [.task event] = [] := by
  cases event
  case sample topic' data => exact absurd rfl <| h topic' data
  all_goals rfl

-- What the inbox has been given and what it is still to be given grows by each sample once for each
-- reader on the topic.
theorem Worked.outstanding {s s' : DdsActor} {f f' : Fanout ℕ} {event : Event}
    (r : (Fanout.machine ℕ dds.fromSlice).Reachable f) (w : Worked dds s f event s' f')
    (idle : ∀ w, s.readers.length ≤ w → f.incoming w = .idle) (sub : f.Subscribed topic k)
    (held : f'.Holds k)
    (room : ∀ r h, event = .trySend r k → f.handles[k]? = some h → h.inbox.HasRoom)
    (alive : s.Open topic) :
    f'.delivered k + outstanding dds s' f' topic k =
      f.delivered k + DdsActor.outstanding dds s f topic k +
        s.readersOn topic • (decoded dds topic [.task event] : Multiset Envelope) := by
  have hk := (Fanout.sender_lt r).left topic k sub.registered
  have lt {w} (h : f.incoming w ≠ .idle) : w < s.readers.length :=
    Nat.lt_of_not_le fun hw => h <| idle w hw
  cases w
  case sample topic' data =>
    rw [DdsActor.outstanding, sample_waiting alive]
    simp only [sample_eq, List.length_map, DdsActor.outstanding, add_assoc]
  case take w reader data samples handle hs _ taken =>
    have ⟨hl, _⟩ := List.getElem?_eq_some_iff.mp handle
    have st : Fanout.Step dds.fromSlice f (.incoming w reader.topic data) f' :=
      Fanout.next_step taken
    have conserves := st.conserves (s := Finset.range s.readers.length) hk held
      (by simp [Fanout.HasRoomFor]) (by simpa [Fanout.Action.worker?] using hl)
    -- What the reader no longer waits to take is what the worker is about to send.
    have moved : reader.waiting dds topic =
        f'.inFlight k w + DdsReader.waiting dds topic { reader with samples } := by
      rw [Fanout.incoming_inFlight r sub taken]
      by_cases ht : reader.topic = topic
      case neg => simp [DdsReader.waiting, ht]
      case pos =>
        cases hd : dds.fromSlice data <;> simp [DdsReader.waiting, ht, hs, hd]
    have waits := List.sum_map_set (f := DdsReader.waiting dds topic)
      (b := { reader with samples }) handle
    rw [moved, ← add_assoc] at waits
    have waits := add_right_cancel waits
    rw [decoded_of_other (by simp), Multiset.coe_nil, nsmul_zero, add_zero]
    simp only [DdsActor.outstanding, waiting, List.length_set]
    rw [← add_assoc, conserves, ← waits]
    ac_rfl
  case trySend w i sent =>
    have st : Fanout.Step dds.fromSlice f (.trySend w i) f' := Fanout.next_step sent
    have hw := lt (w := w) fun h => by simp [Fanout.trySend, h] at sent
    have conserves := st.conserves (s := Finset.range s.readers.length) hk held
      (fun r h he => room r h <| by cases he; rfl) (by simpa [Fanout.Action.worker?] using hw)
    rw [decoded_of_other (by simp), Multiset.coe_nil, nsmul_zero, add_zero]
    simp only [DdsActor.outstanding]
    rw [← add_assoc, conserves]
    simp only [Fanout.begun, add_zero, add_assoc]
  case writeBack w written =>
    have st : Fanout.Step dds.fromSlice f (.writeBack w) f' := Fanout.next_step written
    have hw := lt (w := w) fun h => by simp [Fanout.writeBack, h] at written
    have conserves := st.conserves (s := Finset.range s.readers.length) hk held
      (by simp [Fanout.HasRoomFor]) (by simpa [Fanout.Action.worker?] using hw)
    rw [decoded_of_other (by simp), Multiset.coe_nil, nsmul_zero, add_zero]
    simp only [DdsActor.outstanding]
    rw [← add_assoc, conserves]
    simp only [Fanout.begun, add_zero, add_assoc]
  case ended w reader handle _ =>
    have waits := List.sum_map_set (f := DdsReader.waiting dds topic)
      (b := { reader with ended := true }) handle
    have waits := add_right_cancel waits
    rw [decoded_of_other (by simp), Multiset.coe_nil, nsmul_zero, add_zero]
    simp only [DdsActor.outstanding, waiting, List.length_set, waits]

-- What the inbox has been given and what it is still to be given grows by each sample once for each
-- reader on the topic.
theorem step_outstanding (r : (Actor.machine (kind dds)).Reachable m)
    (hn : (Actor.machine (kind dds)).next m act = some m')
    (sub : m.subscribers.Subscribed topic k) (held : m'.subscribers.Holds k)
    (room : HasRoomFor k m act) (alive : m.state.Open topic) :
    m'.subscribers.delivered k + outstanding dds m'.state m'.subscribers topic k =
      m.subscribers.delivered k + outstanding dds m.state m.subscribers topic k +
        m.state.readersOn topic • (decoded dds topic [act] : Multiset Envelope) := by
  have rf := Actor.fanout_reachable (fansOut dds) r
  have hk := (Fanout.sender_lt rf).left topic k sub.registered
  have nothing (quiet : ∀ event, act ≠ .task event) : decoded dds topic [act] = [] := by
    cases act
    case task event => exact absurd rfl <| quiet event
    all_goals rfl
  cases step_fans (Actor.next_step hn)
  case other o none quiet readers fanned =>
    rw [nothing quiet, Multiset.coe_nil, nsmul_zero, add_zero]
    simp only [outstanding, waiting, readers]
    rcases Machine.next?_cases fanned with ⟨_, he⟩ | ⟨a, rfl, hn⟩
    · rw [he]
    · have none : a.worker? = Option.none := none
      have conserves := (Fanout.next_step hn).conserves
        (s := Finset.range m.state.readers.length) hk held
        (fun w h he => by simp [he, Fanout.Action.worker?] at none) (by simp [none])
      rw [← add_assoc, conserves, Fanout.begun_of_no_worker none, add_zero, add_assoc]
  case subscribed topic' quiet readers same =>
    rw [nothing quiet, Multiset.coe_nil, nsmul_zero, add_zero]
    have idle : m.subscribers.inFlight k m.state.readers.length = 0 := by
      simp [Fanout.inFlight, idle_of_le r (Nat.le_refl _)]
    simp [outstanding, waiting, readers, same, Finset.sum_range_succ, idle, DdsReader.waiting]
  case task event action worked =>
    subst action
    refine worked.outstanding rf (fun _ => idle_of_le r) sub held (fun r h he => ?_) alive
    exact room r h <| he ▸ rfl

theorem Fans.fanned (fans : Fans dds m act m') (room : HasRoomFor k m act) :
    ∃ o, (Fanout.machine ℕ dds.fromSlice).next? m.subscribers o = some m'.subscribers ∧
      ∀ a, o = some a → m.subscribers.HasRoomFor k a := by
  cases fans
  case other o none _ _ fanned =>
    refine ⟨o, fanned, ?_⟩
    rintro a rfl w h rfl
    cases none
  case subscribed same => exact ⟨.none, congrArg some same.symm, nofun⟩
  case task event action worked =>
    subst action
    generalize m'.state = s' at worked
    generalize m'.subscribers = f' at worked
    cases worked
    case sample | ended => exact ⟨none, rfl, nofun⟩
    case take r reader data _ _ _ _ taken =>
      exact ⟨some (.incoming r reader.topic data), taken, by simp [Fanout.HasRoomFor]⟩
    case writeBack r written => exact ⟨some (.writeBack r), written, by simp [Fanout.HasRoomFor]⟩
    case trySend r i sent =>
      refine ⟨some (.trySend r i), sent, ?_⟩
      intro a ha w h he
      cases ha
      cases he
      exact room r h rfl

theorem step_subscribed (hn : (Actor.machine (kind dds)).next m act = some m')
    (r : (Actor.machine (kind dds)).Reachable m) (sub : m.subscribers.Subscribed topic k)
    (held : m'.subscribers.Holds k) (room : HasRoomFor k m act) :
    m.subscribers.Holds k ∧ m'.subscribers.Subscribed topic k := by
  have rf := Actor.fanout_reachable (fansOut dds) r
  have hk := (Fanout.sender_lt rf).left topic k sub.registered
  have ⟨o, fanned, room⟩ := (step_fans (Actor.next_step hn)).fanned room
  rcases Machine.next?_cases fanned with ⟨_, he⟩ | ⟨a, rfl, hn⟩
  · rw [he] at held ⊢
    exact ⟨held, sub⟩
  · have st := Fanout.next_step hn
    have held := st.holds hk held
    exact ⟨held, sub.step held (room a rfl) st⟩

-- A task that has ended does not come back.
theorem step_open (hn : (Actor.machine (kind dds)).next m act = some m')
    (alive : m'.state.Open topic) : m.state.Open topic := by
  intro r reader h ht
  have set {i : ℕ} {old new : DdsReader} (hi : m.state.readers[i]? = some old)
      (topic : new.topic = old.topic) (ended : new.ended = false → old.ended = false) :
      ∃ reader', (m.state.readers.set i new)[r]? = some reader' ∧ reader'.topic = reader.topic ∧
        (reader'.ended = false → reader.ended = false) :=
    List.getElem?_set_related
      (R := fun d d' => d'.topic = d.topic ∧ (d'.ended = false → d.ended = false)) hi h
      (fun _ => ⟨topic, ended⟩) fun _ => ⟨rfl, id⟩
  obtain ⟨reader', h', ht', ended⟩ : ∃ reader', m'.state.readers[r]? = some reader' ∧
      reader'.topic = reader.topic ∧ (reader'.ended = false → reader.ended = false) := by
    cases step_fans (Actor.next_step hn)
    case other readers _ => exact ⟨reader, readers ▸ h, rfl, id⟩
    case subscribed readers _ =>
      obtain ⟨hl, _⟩ := List.getElem?_eq_some_iff.mp h
      exact ⟨reader, by rwa [readers, List.getElem?_append_left hl], rfl, id⟩
    case task event action worked =>
      clear action
      generalize m'.state = s' at worked
      generalize m'.subscribers = f' at worked
      cases worked
      case sample topic' data =>
        refine ⟨give topic' data reader, by simp [sample_eq, h], give_topic, ?_⟩
        simp only [give]
        split <;> exact id
      case take handle _ _ _ => exact set handle rfl id
      case ended handle _    => exact set handle rfl (by simp)
      case trySend | writeBack => exact ⟨reader, h, rfl, id⟩
  exact ended <| alive r reader' h' <| ht'.trans ht

-- What `dust_dds` does to a `Subscribe` command: the names of the topics of a participant are
-- unique, so `create_topic` fails if there is a reader on the topic.
def Refuses (m : Actor (kind dds)) (act : Actor.Action Event Outcome) : Prop :=
  match m.phase, act with
  | .handling (.subscribe topic _), .execute (.subscribe calls) =>
    0 < m.state.readersOn topic → ¬calls.createTopic.isOk
  | _, _ => True

instance : Decidable (Refuses m act) := by
  unfold Refuses
  split <;> infer_instance

theorem execute_subscribed {s s' : DdsActor} {resp : ℕ} {outcome : Outcome}
    (h : s.execute dds (.subscribe topic resp) outcome = some (s', .ok ())) :
    ∃ calls, outcome = .subscribe calls ∧ calls.createTopic.isOk := by
  cases outcome
  case publish         => cases h
  case subscribe calls =>
    refine ⟨calls, rfl, ?_⟩
    simp only [execute, createReader, Option.some.injEq] at h
    cases hc : calls.createTopic
    case ok    => rfl
    case error =>
      rw [hc] at h
      cases h

-- A reader is made only for a topic that `dust_dds` does not refuse.
theorem readersOn_step (hn : (Actor.machine (kind dds)).next m act = some m')
    (refuses : Refuses m act) :
    m'.state.readersOn topic = m.state.readersOn topic ∨
      m.state.readersOn topic = 0 ∧ m'.state.readersOn topic = 1 := by
  cases Actor.next_step hn <;> try exact .inl rfl
  case defer deferred  => cases deferred
  case begin started   => cases started; exact .inl rfl
  case task acted      => exact .inl (task_worked acted).readersOn
  case finish finished =>
    simp only [kind] at finished
    split at finished <;> cases finished
    exact .inl rfl
  case execute cmd outcome state result handling executed =>
    cases execute_executed executed
    case published readers _ => exact .inl <| congrArg (List.countP _) readers
    case failed readers _    => exact .inl <| congrArg (List.countP _) readers
    case subscribed topic' resp =>
      obtain ⟨calls, rfl, created⟩ := execute_subscribed executed
      simp only [Refuses, handling] at refuses
      have none : m.state.readersOn topic' = 0 := by
        by_contra some
        exact refuses (Nat.pos_of_ne_zero some) created
      by_cases ht : topic' = topic
      case neg => exact .inl <| by simp [readersOn, ht]
      case pos =>
        subst ht
        refine .inr ⟨none, ?_⟩
        rw [readersOn] at none
        simp [readersOn, none]

theorem readersOn_le_one {as : List (Actor.Action Event Outcome)}
    (r : (Actor.machine (kind dds)).Run as m)
    (refuses : (Actor.machine (kind dds)).Throughout as Refuses) :
    m.state.readersOn topic ≤ 1 := by
  induction as, m, r using Machine.Run.induction_on
  case init => exact Nat.zero_le _
  case step as m act m' r hn ih =>
    have le := ih refuses.left
    rcases readersOn_step hn (refuses.last r) with he | ⟨_, he⟩
    · exact he ▸ le
    · exact he.le

-- The call that has pushed the sender has returned `Ok`.
def Succeeded (m : Actor (kind dds)) (topic : String) (k : ℕ) : Prop :=
  ∃ (i : ℕ) (c : MethodCall), m.owners[k]? = some i ∧ m.calls[i]? = some c ∧
    c.method = .subscribe topic ∧ c.phase = .returned (.ok ())

theorem Succeeded.readersOn_pos (r : (Actor.machine (kind dds)).Reachable m)
    (succeeded : Succeeded m topic k) : 0 < m.state.readersOn topic := by
  have ⟨i, c, _, h, method, ok⟩ := succeeded
  rw [readersOn_eq r, List.countP_pos_iff]
  exact ⟨c, List.mem_of_getElem? h, served_of_returned r h method ok⟩

-- The inbox has been given all that it was to be given, and each sample on the topic once.
def ReceivesOnce (m m' : Actor (kind dds)) (topic : String) (k : ℕ)
    (as : List (Actor.Action Event Outcome)) : Prop :=
  m'.subscribers.delivered k = m.subscribers.delivered k +
    outstanding dds m.state m.subscribers topic k + decoded dds topic as

theorem decoded_cons (act : Actor.Action Event Outcome) (as : List (Actor.Action Event Outcome)) :
    decoded dds topic (act :: as) = decoded dds topic [act] ++ decoded dds topic as := by
  simp only [decoded, ← List.filterMap_append]
  rfl

section Exec

variable {as : List (Actor.Action Event Outcome)}

theorem exec_holds (he : (Actor.machine (kind dds)).exec m as = some m')
    (hk : k < m.subscribers.handles.length) (held : m'.subscribers.Holds k) :
    m.subscribers.Holds k := by
  induction as generalizing m
  case nil => cases he; exact held
  case cons act as ih =>
    have ⟨t, hn, he⟩ := Option.bind_eq_some_iff.mp he
    have ⟨o, fanned⟩ := (Actor.next_step hn).fanout (fansOut dds)
    rcases Machine.next?_cases fanned with ⟨_, eq⟩ | ⟨a, rfl, hn⟩
    · exact eq ▸ ih he (eq ▸ hk)
    · have st := Fanout.next_step hn
      exact st.holds hk <| ih he <| Nat.lt_of_lt_of_le hk st.length_le

theorem exec_open (he : (Actor.machine (kind dds)).exec m as = some m')
    (alive : m'.state.Open topic) : m.state.Open topic := by
  induction as generalizing m
  case nil => cases he; exact alive
  case cons act as ih =>
    have ⟨t, hn, he⟩ := Option.bind_eq_some_iff.mp he
    exact step_open hn <| ih he

theorem exec_outstanding (r : (Actor.machine (kind dds)).Reachable m)
    (he : (Actor.machine (kind dds)).exec m as = some m') (one : m.state.readersOn topic = 1)
    (refuses : (Actor.machine (kind dds)).Meets Refuses m as)
    (sub : m.subscribers.Subscribed topic k)
    (room : (Actor.machine (kind dds)).Meets (HasRoomFor k) m as)
    (held : m'.subscribers.Holds k) (alive : m'.state.Open topic) :
    m'.subscribers.delivered k + outstanding dds m'.state m'.subscribers topic k =
      m.subscribers.delivered k + outstanding dds m.state m.subscribers topic k +
        decoded dds topic as := by
  induction as generalizing m
  case nil => cases he; simp [decoded]
  case cons act as ih =>
    have rf := Actor.fanout_reachable (fansOut dds) r
    have hk := (Fanout.sender_lt rf).left topic k sub.registered
    have alive₀ := exec_open he alive
    have ⟨t, hn, he⟩ := Option.bind_eq_some_iff.mp he
    have held' : t.subscribers.Holds k := by
      refine exec_holds he ?_ held
      have ⟨o, fanned⟩ := (Actor.next_step hn).fanout (fansOut dds)
      exact Nat.lt_of_lt_of_le hk <| Fanout.next?_grows fanned
    have ⟨_, sub'⟩ := step_subscribed hn r sub held' room.left
    have one' : t.state.readersOn topic = 1 := by
      rcases readersOn_step hn refuses.left with he | ⟨_, he⟩
      · exact he.trans one
      · exact he
    have rest := ih (r.next hn) he one' (refuses.right t hn) sub' (room.right t hn)
    have first := step_outstanding r hn sub held' room.left alive₀
    rw [one, one_nsmul] at first
    rw [rest, first, decoded_cons act as, ← Multiset.coe_add, add_assoc]

end Exec

-- Nothing has been given to the readers on the topic.
structure Fresh (m : Actor (kind dds)) (topic : String) : Prop where
  fanout  : m.subscribers.Fresh topic
  untaken : ∀ (r : ℕ) (reader : DdsReader), m.state.readers[r]? = some reader →
    reader.topic = topic → reader.samples = []

theorem fresh_step (hn : (Actor.machine (kind dds)).next m act = some m') (fresh : Fresh m topic)
    (silent : sampleOn topic act = none) : Fresh m' topic := by
  have ⟨fanout, untaken⟩ := fresh
  cases step_fans (Actor.next_step hn)
  case other o none _ readers fanned =>
    refine ⟨?_, readers ▸ untaken⟩
    rcases Machine.next?_cases fanned with ⟨_, he⟩ | ⟨a, rfl, hn⟩
    · exact he ▸ fanout
    · have none : a.worker? = Option.none := none
      exact fanout.step (Fanout.next_step hn) fun w message he => by
        simp [he, Fanout.Action.worker?] at none
  case subscribed topic' _ readers same =>
    refine ⟨same ▸ fanout, fun r reader h ht => ?_⟩
    rw [readers] at h
    rcases List.mem_append.mp <| List.mem_of_getElem? h with hr | hr
    · have ⟨r, h⟩ := List.mem_iff_getElem?.mp hr
      exact untaken r reader h ht
    · cases List.mem_singleton.mp hr
      rfl
  case task event action worked =>
    have silent := action ▸ silent
    clear action
    suffices h : m'.subscribers.Fresh topic ∧ ∀ (r : ℕ) (reader : DdsReader),
        m'.state.readers[r]? = some reader → reader.topic = topic → reader.samples = [] from
      ⟨h.left, h.right⟩
    generalize m'.state = s' at worked ⊢
    generalize m'.subscribers = f' at worked ⊢
    have set {i : ℕ} {old new : DdsReader} (hi : m.state.readers[i]? = some old)
        (hs : new.topic = topic → new.samples = []) (r : ℕ) (reader : DdsReader)
        (h : (m.state.readers.set i new)[r]? = some reader) (ht : reader.topic = topic) :
        reader.samples = [] := by
      rcases List.getElem?_set_cases h with ⟨rfl, rfl⟩ | ⟨_, h⟩
      · exact hs ht
      · exact untaken r reader h ht
    cases worked
    case sample topic' data =>
      have ne : topic' ≠ topic := by simpa [sampleOn] using silent
      refine ⟨fanout, fun r reader' h ht => ?_⟩
      simp only [sample_eq, List.getElem?_map, Option.map_eq_some_iff] at h
      obtain ⟨reader, h, rfl⟩ := h
      have ht : reader.topic = topic := give_topic.symm.trans ht
      simp [give, ht, ne.symm, untaken r reader h ht]
    case take r reader data samples handle waiting alive taken =>
      have ne : reader.topic ≠ topic := by
        intro ht
        simp [untaken r reader handle ht] at waiting
      refine ⟨?_, set handle fun ht => absurd ht ne⟩
      have st : Fanout.Step dds.fromSlice m.subscribers (.incoming r reader.topic data) f' :=
        Fanout.next_step taken
      exact fanout.step st fun w message he => ne <| by cases he; rfl
    case trySend r i sent =>
      have st : Fanout.Step dds.fromSlice m.subscribers (.trySend r i) f' := Fanout.next_step sent
      exact ⟨fanout.step st (by simp), untaken⟩
    case writeBack r written =>
      have st : Fanout.Step dds.fromSlice m.subscribers (.writeBack r) f' :=
        Fanout.next_step written
      exact ⟨fanout.step st (by simp), untaken⟩
    case ended r reader handle _ => exact ⟨fanout, set handle <| untaken r reader handle⟩

theorem fresh {as : List (Actor.Action Event Outcome)} (r : (Actor.machine (kind dds)).Run as m)
    (silent : ∀ act ∈ as, sampleOn topic act = none) : Fresh m topic := by
  refine Machine.exec_stable (P := (Fresh · topic)) r ?_ fun m act m' ha h hn =>
    fresh_step hn h <| silent act ha
  exact ⟨⟨by simp [Actor.machine, Fanout.HasTopic], by simp [Actor.machine]⟩,
    by simp [Actor.machine, kind]⟩

-- The second call of `subscribe` is refused, the task of the reader tries both senders.
def loneSubscribe (i : ℕ) (createTopic : Except String Unit) :
    List (Actor.Action Event Outcome) :=
  [.call (.subscribe "t"), .register i, .send i, .handle, .execute (.subscribe { createTopic }),
    .resume i]

def loneSubscribes : List (Actor.Action Event Outcome) :=
  loneSubscribe 0 (.ok ()) ++ loneSubscribe 1 (.error "PreconditionNotMet")

def loneSample : List (Actor.Action Event Outcome) :=
  [.task (.sample "t" []), .task (.take 0), .task (.trySend 0 0), .task (.trySend 0 1),
    .task (.writeBack 0)]

theorem open_of_all {s : DdsActor} (h : s.readers.all (!·.ended)) : s.Open topic := by
  intro r reader hr _
  simpa using List.all_eq_true.mp h reader <| List.mem_of_getElem? hr

end DdsActor
end MomRpc
