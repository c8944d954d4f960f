import MomRpc.Broker.Shutdown
import MomRpc.Lib.History

namespace MomRpc.RpcBroker

inductive Step (inner : Inner) (s : RpcBroker) : Action → RpcBroker → Prop
  | clone {b : ℕ} : s.Holds b → Step inner s (.clone b) { s with clones := s.clones ++ [true] }
  | drop {b : ℕ} : s.Owns b →
    Step inner s (.drop b) { s with clones := s.clones.set b false }.release
  | run {b : ℕ} : s.Owns b →
    Step inner s (.run b) ({ s with clones := s.clones.set b false }.run inner)
  | wake {k : ℕ} : s.runs[k]? = some .waiting → s.channel.sender = false →
    Step inner s (.wake k) (s.leave k <| .returned <| .ok ())
  | dropRun {k : ℕ} : s.runs[k]? = some .waiting →
    Step inner s (.dropRun k) (s.leave k .dropped)
  | shutdown {b : ℕ} : s.Holds b →
    Step inner s (.shutdown b) { s with shutdowns := s.shutdowns ++ [{ clone := b }] }
  | signal {k b : ℕ} : s.shutdowns[k]? = some ⟨b, .called⟩ →
    Step inner s (.signal k) { s.signal with shutdowns := s.shutdowns.set k ⟨b, .closing⟩ }
  | closed {k b : ℕ} : s.shutdowns[k]? = some ⟨b, .closing⟩ →
    Step inner s (.closed k) { s with shutdowns := s.shutdowns.set k ⟨b, .returned⟩ }
  | dropShutdown {k b : ℕ} : s.shutdowns[k]? = some ⟨b, .closing⟩ →
    Step inner s (.dropShutdown k) { s with shutdowns := s.shutdowns.set k ⟨b, .dropped⟩ }

variable {inner : Inner} {s s' : RpcBroker} {as : List Action} {act : Action} {b k : ℕ}
  {c : RunCall}

theorem next_step (h : (machine inner).next s act = some s') : Step inner s act s' := by
  cases act <;> simp only [machine, next] at h <;> split at h <;> cases h
  · exact .clone ‹_›
  · exact .drop ‹_›
  · exact .run ‹_›
  · exact .wake ‹_› <| Oneshot.recv_isSome.mp <| Option.isSome_of_eq_some ‹_›
  · exact .dropRun ‹_›
  · exact .shutdown ‹_›
  · exact .signal ‹_›
  · exact .closed ‹_›
  · exact .dropShutdown ‹_›

@[simp]
theorem release_runs : s.release.runs = s.runs := by
  unfold release
  split <;> rfl

@[simp]
theorem release_clones : s.release.clones = s.clones := by
  unfold release
  split <;> rfl

@[simp]
theorem release_shutdowns : s.release.shutdowns = s.shutdowns := by
  unfold release
  split <;> rfl

@[simp]
theorem signal_runs : s.signal.runs = s.runs := by
  unfold signal
  split <;> rfl

@[simp]
theorem leave_runs : (s.leave k c).runs = s.runs.set k c :=
  release_runs

@[simp]
theorem leave_shutdowns : (s.leave k c).shutdowns = s.shutdowns :=
  release_shutdowns

@[simp]
theorem run_shutdowns : (s.run inner).shutdowns = s.shutdowns := by
  unfold run
  split <;> try split
  all_goals simp

theorem run_runs (serves : inner.mode.serves) : (s.run inner).runs =
    s.runs ++ [if s.shutdownRx then .waiting else .returned <| .ok ()] := by
  simp only [run, serves, ↓reduceIte]
  split <;> simp

theorem release_shared (h : s.Shared) : s.release = s :=
  if_pos h

@[simp]
theorem shared_release : s.release.Shared ↔ s.Shared := by
  simp [Shared]

theorem shared_of_holds (h : s.Holds b) : s.Shared :=
  .inl <| List.mem_of_getElem? h

theorem shared_of_waiting (h : .waiting ∈ s.runs) : s.Shared :=
  .inr ⟨_, h, trivial⟩

-- A call of `run` has returned only if one of `shutdown` has been made, and once one has given its
-- signal, each call of `run` that still waits returns by its own next step.
structure Blocks (inner : Inner) (s : RpcBroker) : Prop where
  blocked  : ∀ result, .returned result ∈ s.runs → s.shutdowns ≠ []
  released : (∃ c ∈ s.shutdowns, c.phase ≠ .called) → ∀ k : ℕ, s.runs[k]? = some .waiting →
    ∃ s', (machine inner).next s (.wake k) = some s' ∧ s'.runs[k]? = some (.returned <| .ok ())

-- Until a call of `shutdown` has been made, there is no second call of `run`.
def Alone (s : RpcBroker) : Action → Prop
  | .run _ => s.runs = [] ∨ s.shutdowns ≠ []
  | _      => True

instance : Decidable (s.Alone act) := by
  unfold Alone
  split <;> infer_instance

structure Sound (s : RpcBroker) : Prop where
  halves    : s.channel.sender = s.shutdownTx
  signaled  : (∃ c ∈ s.shutdowns, c.phase ≠ .called) → s.shutdownTx = false
  sent      : s.shutdownTx = false → s.Shared → s.shutdowns ≠ []
  untouched : s.runs = [] → s.Shared → s.shutdownRx
  taken     : s.runs ≠ [] → s.shutdownRx = false

namespace Sound

theorem init : Sound {} where
  halves    := rfl
  signaled  := by simp
  sent      := by simp
  untouched := by simp
  taken     := by simp

theorem release (so : s.Sound) : s.release.Sound := by
  by_cases h : s.Shared
  case pos => rwa [release_shared h]
  case neg =>
    exact {
      halves    := by simp [RpcBroker.release, h]
      signaled  := by simp [RpcBroker.release, h]
      sent      := fun _ hs => absurd (shared_release.mp hs) h
      untouched := fun _ hs => absurd (shared_release.mp hs) h
      taken     := by simp [RpcBroker.release, h]
    }

-- While a reference to `Inner` is left, the other fields settle everything else.
theorem of_shared (so : s.Sound) (hs : s.Shared) (tx : s'.shutdownTx = s.shutdownTx)
    (sender : s'.channel.sender = s.channel.sender) (shutdowns : s'.shutdowns = s.shutdowns)
    (untouched : s'.runs = [] → s'.shutdownRx) (taken : s'.runs ≠ [] → s'.shutdownRx = false) :
    s'.Sound where
  halves        := by rw [sender, tx, so.halves]
  signaled      := by simpa [shutdowns, tx] using so.signaled
  sent h _      := shutdowns ▸ so.sent (tx ▸ h) hs
  untouched h _ := untouched h
  taken         := taken

theorem of_progress (so : s.Sound) {c c' : ShutdownCall} (handle : s.shutdowns[k]? = some c)
    (past : c.phase ≠ .called) : Sound { s with shutdowns := s.shutdowns.set k c' } where
  halves     := so.halves
  signaled _ := so.signaled ⟨c, List.mem_of_getElem? handle, past⟩
  sent tx hs := by simpa using so.sent tx hs
  untouched  := so.untouched
  taken      := so.taken

theorem run (so : s.Sound) (hs : s.Shared) (serves : inner.mode.serves) (clones : List Bool) :
    ({ s with clones } : RpcBroker).run inner |>.Sound := by
  simp only [RpcBroker.run, serves, ↓reduceIte]
  split
  case isTrue rx => exact so.of_shared hs rfl rfl rfl (by simp) (by simp)
  case isFalse rx =>
    refine release <| so.of_shared hs rfl rfl rfl (by simp) fun _ => ?_
    simpa using rx

theorem leave (so : s.Sound) (handle : s.runs[k]? = some .waiting) : (s.leave k c).Sound := by
  have hm := List.mem_of_getElem? handle
  have ne : s.runs ≠ [] := List.ne_nil_of_mem hm
  refine release <| so.of_shared (shared_of_waiting hm) rfl rfl rfl (fun h => ?_) fun _ =>
    so.taken ne
  exact absurd (by simpa using h) ne

theorem signal (so : s.Sound) {c c' : ShutdownCall} (handle : s.shutdowns[k]? = some c) :
    Sound { s.signal with shutdowns := s.shutdowns.set k c' } := by
  have ne : s.shutdowns ≠ [] := List.ne_nil_of_mem <| List.mem_of_getElem? handle
  simp only [RpcBroker.signal]
  split
  case isTrue =>
    exact {
      halves    := rfl
      signaled  := by simp
      sent _ _  := by simpa using ne
      untouched := so.untouched
      taken     := so.taken
    }
  case isFalse tx =>
    exact {
      halves    := so.halves
      signaled _ := by simpa using tx
      sent _ _  := by simpa using ne
      untouched := so.untouched
      taken     := so.taken
    }

theorem step (so : s.Sound) (serves : inner.mode.serves) (st : Step inner s act s') :
    s'.Sound := by
  cases st
  case clone holds =>
    have hs := shared_of_holds holds
    exact so.of_shared hs rfl rfl rfl (so.untouched · hs) so.taken
  case drop owns =>
    have hs := shared_of_holds owns.left
    exact release <| so.of_shared hs rfl rfl rfl (so.untouched · hs) so.taken
  case run owns                            => exact so.run (shared_of_holds owns.left) serves _
  case wake handle _ | dropRun handle      => exact so.leave handle
  case signal handle                       => exact so.signal handle
  case closed handle | dropShutdown handle => exact so.of_progress handle (by simp)
  case shutdown holds =>
    exact { so with
      signaled := by simpa [or_and_right, exists_or] using so.signaled
      sent     := by simp
    }

end Sound

theorem sound (serves : inner.mode.serves) (r : (machine inner).Reachable s) : s.Sound := by
  induction s, r using Machine.Reachable.induction_on
  case init       => exact .init
  case step hn ih => exact ih.step serves (next_step hn)

-- A signal reaches the call that waits for it, whichever of them comes first.
theorem Sound.released (so : s.Sound) (signaled : ∃ c ∈ s.shutdowns, c.phase ≠ .called)
    (handle : s.runs[k]? = some .waiting) :
    ∃ s', (machine inner).next s (.wake k) = some s' ∧
      s'.runs[k]? = some (.returned <| .ok ()) := by
  have ready := Oneshot.recv_of_sender <| so.halves.trans <| so.signaled signaled
  refine ⟨s.leave k <| .returned <| .ok (), by simp [machine, next, handle, ready], ?_⟩
  have ⟨hl, _⟩ := List.getElem?_eq_some_iff.mp handle
  simp [hl]

-- The calls that return in a step.
theorem Step.returned (st : Step inner s act s') (serves : inner.mode.serves) (so : s.Sound)
    {result : Except RpcError Unit} (h : .returned result ∈ s'.runs) :
    .returned result ∈ s.runs ∨ s.shutdowns ≠ [] ∨ (∃ b, act = .run b) ∧ s.runs ≠ [] := by
  cases st <;> try exact .inl h
  case drop   => exact .inl <| by simpa only [release_runs] using h
  case signal => exact .inl <| by simpa using h
  case run owns =>
    have hs := shared_of_holds owns.left
    rw [run_runs serves] at h
    rcases List.mem_append.mp h with h | h
    · exact .inl h
    · refine .inr <| .inr ⟨⟨_, rfl⟩, fun empty => ?_⟩
      simp [so.untouched empty hs] at h
  case wake handle sender =>
    have hs := shared_of_waiting <| List.mem_of_getElem? handle
    exact .inr <| .inl <| so.sent (so.halves ▸ sender) hs
  case dropRun =>
    rcases List.mem_or_eq_of_mem_set (leave_runs ▸ h) with h | h
    · exact .inl h
    · cases h

theorem Step.keeps_shutdowns (st : Step inner s act s') (h : s.shutdowns ≠ []) :
    s'.shutdowns ≠ [] := by
  cases st
  case shutdown => simp
  all_goals simpa using h

theorem blocks_step (serves : inner.mode.serves) (r : (machine inner).Reachable s)
    (hb : s.Blocks inner) (hn : (machine inner).next s act = some s') :
    s'.Blocks inner ↔ s.Alone act := by
  have so := sound serves r
  have st := next_step hn
  constructor
  case mp =>
    intro hb'
    cases st <;> try trivial
    case run b owns =>
      by_contra h
      simp only [Alone, not_or, not_not] at h
      have rx := so.taken h.left
      refine hb'.blocked (.ok ()) ?_ (by simpa using h.right)
      simp [run_runs serves, rx]
  case mpr =>
    intro alone
    refine ⟨fun result h => ?_, fun signaled k => Sound.released (so.step serves st) signaled⟩
    apply st.keeps_shutdowns
    rcases st.returned serves so h with h | h | ⟨⟨b, rfl⟩, again⟩
    · exact hb.blocked result h
    · exact h
    · exact alone.resolve_left again

theorem blocks_init : Blocks inner (machine inner).init where
  blocked  := by simp [machine]
  released := by simp [machine]

theorem run_blocks (serves : inner.mode.serves) (r : (machine inner).Run as s) :
    (machine inner).Always as (Blocks inner) ↔ (machine inner).Throughout as Alone :=
  Machine.always_iff_throughout r blocks_init fun _ _ _ r => blocks_step serves r

def loneServer : Inner where
  nodeId := "n"
  mode   := .server

theorem run_blocks_lone :
    (machine loneServer).Always [.clone 0, .run 0, .shutdown 1, .signal 0, .wake 0, .closed 0]
      (Blocks loneServer) :=
  run_blocks rfl (.of_isSome rfl) |>.mpr <| Machine.throughout_of_meets <| by decide

-- The first call of `run` has taken the receiver, so the one on the other clone returns at once.
theorem second_run_returns :
    ∃ s, (machine loneServer).Run [.clone 0, .run 0, .run 1] s ∧ s.shutdowns = [] ∧
      s.runs = [.waiting, .returned <| .ok ()] ∧ ¬s.Blocks loneServer :=
  ⟨_, rfl, rfl, rfl, fun h => h.blocked (.ok ()) (.tail _ <| .head _) rfl⟩

end MomRpc.RpcBroker
