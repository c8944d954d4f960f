import MomRpc.Transport.Theorems.Answers
import MomRpc.Transport.Theorems.Callers
import MomRpc.Transport.Theorems.Readers

namespace MomRpc.DdsActor

open RumqttcTransport

variable {dds : Dds} {m m' : Actor (kind dds)} {as : List (Actor.Action Event Outcome)} {i : ℕ}
  {c : MethodCall} {env : Envelope} {result : Except RpcError Unit}

-- The steps of the creation of a writer, of the wait for a matched reader, and of all that the
-- handling of a publish takes.
def WriterCalls.Succeed (calls : WriterCalls) : Prop :=
  calls.createTopic.isOk ∧ calls.createPublisher.isOk ∧ calls.createDatawriter.isOk ∧
    calls.matchedStatus.isOk

def MatchCalls.Succeed (calls : MatchCalls) : Prop :=
  ∃ n, calls.matchedStatus = .ok n ∧ (0 < n ∨
    calls.setEnabledStatuses.isOk ∧ calls.attachCondition.isOk ∧ calls.wait = some (.ok ()) ∧
      ∃ n', calls.matchedStatus' = .ok n' ∧ 0 < n')

def Succeeds (dds : Dds) (s : DdsActor) (env : Envelope) : Outcome → Prop
  | .publish writer reader write =>
    (env.address.name ∈ s.writers ∨ writer.Succeed) ∧ reader.Succeed ∧ (dds.toVec env).isOk ∧
      write.isOk
  | .subscribe _ => False

-- The actor writes the sample for the envelope when it handles the command of the call.
def Wrote (dds : Dds) (as : List (Actor.Action Event Outcome)) (i : ℕ) (env : Envelope) : Prop :=
  ∃ (m : Actor (kind dds)) (outcome : Outcome) (s : DdsActor) (result : Except RpcError Unit)
    (ddsEnv : DdsEnvelope), Actor.Handled (kind dds) as i env m outcome ∧
    m.state.execute dds (.publish env i) outcome = some (s, result) ∧
    tryFrom dds env = .ok ddsEnv ∧ s.written = m.state.written ++ [ddsEnv]

-- What the actor answers when it has failed to do so.
def Failed (dds : Dds) (as : List (Actor.Action Event Outcome)) (i : ℕ) (env : Envelope)
    (err : RpcError) : Prop :=
  ∃ (m : Actor (kind dds)) (outcome : Outcome) (s : DdsActor),
    Actor.Handled (kind dds) as i env m outcome ∧
    m.state.execute dds (.publish env i) outcome = some (s, .error err)

structure Reports (dds : Dds) (as : List (Actor.Action Event Outcome)) (i : ℕ) (env : Envelope)
    (result : Except RpcError Unit) : Prop where
  ok    : result = .ok () ↔ Wrote dds as i env
  error : ∀ err, Failed dds as i env err → result = .error err

theorem failed_eq_ok_iff {β : Type} {what : String} {outcome : Except String β} {b : β} :
    failed what outcome = .ok b ↔ outcome = .ok b := by
  cases outcome <;> simp [failed, Except.mapError]

theorem isOk_iff {β : Type} {outcome : Except String β} :
    outcome.isOk ↔ ∃ b, outcome = .ok b := by
  cases outcome <;> simp [Except.isOk, Except.toBool]

theorem ensureWriter_ok_iff {s : DdsActor} {topic : String} {calls : WriterCalls} :
    (∃ s', s.ensureWriter topic calls = .ok s') ↔ topic ∈ s.writers ∨ calls.Succeed := by
  simp only [ensureWriter]
  split
  case isTrue h => simp [h]
  case isFalse h =>
    simp only [createWriter, Except.bind_eq_ok_iff, failed_eq_ok_iff, WriterCalls.Succeed, isOk_iff]
    simp [h, pure, Except.pure]

theorem ensureWriter_mem {s s' : DdsActor} {topic : String} {calls : WriterCalls}
    (h : s.ensureWriter topic calls = .ok s') : topic ∈ s'.writers := by
  simp only [ensureWriter] at h
  split at h
  case isTrue hm => cases h; exact hm
  case isFalse =>
    simp only [createWriter, Except.bind_eq_ok_iff] at h
    obtain ⟨_, _, _, _, _, _, _, _, h⟩ := h
    cases h
    simp

theorem throw_ne_ok {β : Type} {err : RpcError} {b : β} :
    (throw err : Except RpcError β) ≠ .ok b :=
  nofun

theorem waitForMatchedReader_ok_iff {tid topic : String} {timeout : ℕ} {calls : MatchCalls} :
    waitForMatchedReader tid topic timeout calls = .ok () ↔ calls.Succeed := by
  simp only [waitForMatchedReader, Except.bind_eq_ok_iff, failed_eq_ok_iff, MatchCalls.Succeed]
  refine exists_congr fun n => and_congr_right fun _ => ?_
  split
  case isTrue hn => simp [hn, pure, Except.pure]
  case isFalse hn =>
    have matched {n : ℕ} {err : RpcError} :
        ((if n = 0 then throw err else pure () : Except RpcError Unit) = .ok ()) ↔ 0 < n := by
      cases n <;> simp [throw_ne_ok, pure, Except.pure]
    cases calls.wait
    case none =>
      simp [Except.bind_eq_ok_iff, failed_eq_ok_iff, throw_ne_ok, hn]
    case some outcome =>
      simpa [Except.bind_eq_ok_iff, failed_eq_ok_iff, matched, isOk_iff, hn] using
        fun _ _ _ _ _ _ _ => ⟨fun ⟨_, h⟩ => h, fun h => ⟨_, h⟩⟩

theorem tryFrom_ok_iff : (∃ ddsEnv, tryFrom dds env = .ok ddsEnv) ↔ (dds.toVec env).isOk := by
  simp [tryFrom, Except.bind_eq_ok_iff, failed_eq_ok_iff, isOk_iff, pure, Except.pure]

theorem handlePublish_ok_iff {s : DdsActor} {writer : WriterCalls} {reader : MatchCalls}
    {write : Except String Unit} :
    (s.handlePublish dds env.address.name env writer reader write).2 = .ok () ↔
      Succeeds dds s env (.publish writer reader write) := by
  simp only [Succeeds, ← ensureWriter_ok_iff, ← tryFrom_ok_iff]
  cases hs : s.ensureWriter env.address.name writer
  case error err => simp [handlePublish, hs]
  case ok s' =>
    have mem := ensureWriter_mem hs
    simp only [handlePublish, hs, mem, not_true_eq_false, if_false]
    split
    case h_1 err prepared =>
      simp only [reduceCtorEq, false_iff]
      rintro ⟨_, matched, ⟨ddsEnv, serialized⟩, written⟩
      obtain ⟨_, rfl⟩ := isOk_iff.mp written
      have matched : waitForMatchedReader dds.transportId env.address.name 5 _ = .ok () :=
        waitForMatchedReader_ok_iff.mpr matched
      rw [matched, serialized] at prepared
      cases prepared
    case h_2 ddsEnv prepared =>
      obtain ⟨_, matched, prepared⟩ := Except.bind_eq_ok_iff.mp prepared
      obtain ⟨_, serialized, prepared⟩ := Except.bind_eq_ok_iff.mp prepared
      obtain ⟨_, written, _⟩ := Except.bind_eq_ok_iff.mp prepared
      have matched := waitForMatchedReader_ok_iff.mp matched
      have written := isOk_iff.mpr ⟨_, failed_eq_ok_iff.mp written⟩
      simp [matched, serialized, written]

theorem execute_ok_iff {s s' : DdsActor} {outcome : Outcome}
    (h : s.execute dds (.publish env i) outcome = some (s', result)) :
    result = .ok () ↔ Succeeds dds s env outcome := by
  cases outcome
  case subscribe => cases h
  case publish writer reader write =>
    obtain ⟨_, rfl⟩ := Prod.ext_iff.mp <| Option.some.inj h
    exact handlePublish_ok_iff

-- A call of `publish` that has returned reports what has happened if and only if each step of the
-- handling of its command has succeeded.
theorem dds_publish_reports (r : (Actor.machine (kind dds)).Run as m) (h : m.calls[i]? = some c)
    (method : c.method = .publish env) (returned : c.phase = .returned result) :
    Reports dds as i env result ↔
      ∀ (s : Actor (kind dds)) outcome, Actor.Handled (kind dds) as i env s outcome →
        Succeeds dds s.state env outcome := by
  cases Actor.answered r h method
  case unheard unhandled _ fails =>
    obtain ⟨err, rfl⟩ := fails result returned
    refine iff_of_true ⟨?_, ?_⟩ fun s outcome handled => absurd handled <| unhandled s outcome
    · exact iff_of_false (by simp) fun ⟨s, outcome, _, _, _, handled, _⟩ =>
        unhandled s outcome handled
    · exact fun _ ⟨s, outcome, _, handled, _⟩ => absurd handled <| unhandled s outcome
  case answered s outcome state answer handled once executed reply received =>
    -- Whatever the answer, the call returns `Ok`.
    obtain rfl : result = .ok () := by
      have ⟨c₀, method₀, he⟩ := received result returned
      have he : c = DustddsTransport.receive c₀ _ := he
      simp only [DustddsTransport.receive, method₀, method] at he
      simpa [he] using returned.symm
    have succeeds := execute_ok_iff executed
    have effect : Executed dds s.state (.publish env i) state answer := execute_executed executed
    cases effect
    case published ddsEnv serialized _ written =>
      have wrote : Wrote dds as i env :=
        ⟨s, outcome, _, _, ddsEnv, handled, executed, serialized, written⟩
      refine iff_of_true ⟨iff_of_true rfl wrote, ?_⟩ fun s' outcome' handled' => ?_
      · rintro err ⟨s', outcome', _, handled', failed⟩
        obtain ⟨rfl, rfl⟩ := once s' outcome' handled'
        cases failed.symm.trans executed
      · obtain ⟨rfl, rfl⟩ := once s' outcome' handled'
        exact succeeds.mp rfl
    case failed err _ same =>
      refine iff_of_false (fun reports => ?_) fun h => ?_
      · cases reports.error err ⟨s, outcome, _, handled, executed⟩
      · cases succeeds.mpr <| h s outcome handled

-- The two agree for the one call of `publish` of this run, whose sample is written.
theorem dds_publish_reports_lone :
    let as : List (Actor.Action Event Outcome) :=
      [.call (.publish MqttActor.loneEnvelope), .send 0, .handle,
        .execute (.publish {} {} (.ok ())), .resume 0]
    Reports loneDds as 0 MqttActor.loneEnvelope (.ok ()) ↔
      ∀ (s : Actor (kind loneDds)) outcome,
        Actor.Handled (kind loneDds) as 0 MqttActor.loneEnvelope s outcome →
          Succeeds loneDds s.state MqttActor.loneEnvelope outcome :=
  dds_publish_reports (.of_isSome rfl) rfl rfl rfl

-- There is no matched reader, so the actor writes nothing and says so, but the call returns `Ok`.
theorem unmatched_publish_reports_ok :
    let as : List (Actor.Action Event Outcome) :=
      [.call (.publish MqttActor.loneEnvelope), .send 0, .handle,
        .execute (.publish {} { matchedStatus := .ok 0, wait := none } (.ok ())), .resume 0]
    ∃ (m : Actor (kind loneDds)) (c : MethodCall),
      (Actor.machine (kind loneDds)).Run as m ∧ m.calls[0]? = some c ∧
      c.method = .publish MqttActor.loneEnvelope ∧ c.phase = .returned (.ok ()) ∧
      ¬Reports loneDds as 0 MqttActor.loneEnvelope (.ok ()) := by
  intro as
  have run : (Actor.machine (kind loneDds)).Run as _ := .of_isSome rfl
  refine ⟨_, _, run, rfl, rfl, rfl, fun reports => ?_⟩
  have handling : (Actor.machine (kind loneDds)).Run (as.take 3) _ := .of_isSome rfl
  cases reports.error _ ⟨_, _, _, ⟨as.take 3, as.drop 4, rfl, handling, rfl⟩, rfl⟩

end MomRpc.DdsActor
