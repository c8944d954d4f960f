import Mathlib.Data.List.Basic
import MomRpc.Broker.Server
import MomRpc.Lib.History

namespace MomRpc

namespace HandlerTask

variable {ω : Type} {task : HandlerTask ω}

-- The task as it was when it was spawned.
def fresh (task : HandlerTask ω) : HandlerTask ω :=
  { task with phase := .calling }

-- What the task has handed to `transport.publish`.
def response? (task : HandlerTask ω) : Option Envelope :=
  match task.phase with
  | .responded response _ => some response
  | _                     => none

end HandlerTask

namespace Server

variable {ω : Type} {inner : Inner} {s s' : Server ω} {act : Action ω} {as : List (Action ω)}

-- All that one action can do to a server.
inductive Step (inner : Inner) (s : Server ω) : Action ω → Server ω → Prop
  | register {method handler} (serves : inner.mode.serves) :
    Step inner s (.register method handler) { s with
      handlers := Function.update s.handlers method (some handler)
    }
  | subscribed (starting : s.task = .starting) : Step inner s .subscribed { s with task := .idle }
  | subscribeFailed (starting : s.task = .starting) :
    Step inner s .subscribeFailed { s with task := .stopped }
  | take {env} (idle : s.task = .idle) : Step inner s (.take env) { s with task := .taken env }
  | inboxClosed (idle : s.task = .idle) : Step inner s .inboxClosed { s with task := .stopped }
  | dispatch {env} (taken : s.task = .taken env) :
    Step inner s (.dispatch env) { s with
      tasks := s.tasks ++ (accept s.handlers env).toList
      task  := .idle
    }
  | handled {t world task phase} (handle : s.tasks[t]? = some task)
    (calling : task.phase = .calling)
    (answer : HandlerTask.response? { task with phase } =
      task.answer (task.handler.call task.payload world))
    (ended : phase ≠ .calling) :
    Step inner s (.handled t world (task.answer (task.handler.call task.payload world)))
      { s with tasks := s.tasks.set t { task with phase } }
  | published {t task response} (handle : s.tasks[t]? = some task)
    (responded : task.phase = .responded response false) :
    Step inner s (.published t)
      { s with tasks := s.tasks.set t { task with phase := .responded response true } }

theorem next_step (h : (machine ω inner).next s act = some s') : Step inner s act s' := by
  cases act <;> simp only [machine, next] at h
  case register method handler =>
    simp only [registerRpcHandler] at h
    split at h <;> cases h
    exact .register ‹_›
  case subscribed =>
    simp only [Server.subscribed] at h
    split at h <;> cases h
    exact .subscribed ‹_›
  case subscribeFailed =>
    simp only [Server.subscribeFailed] at h
    split at h <;> cases h
    exact .subscribeFailed ‹_›
  case take env =>
    simp only [Server.take] at h
    split at h <;> cases h
    exact .take ‹_›
  case inboxClosed =>
    simp only [Server.inboxClosed] at h
    split at h <;> cases h
    exact .inboxClosed ‹_›
  case dispatch env =>
    simp only [Server.dispatch] at h
    split at h <;> try cases h
    case _ env' taken =>
      simp only [Option.ite_none_right_eq_some, Option.some.injEq] at h
      obtain ⟨rfl, rfl⟩ := h
      exact .dispatch taken
  case handled t world answer =>
    simp only [Server.handled] at h
    split at h <;> try cases h
    case _ task handle =>
      split at h <;> try cases h
      case _ calling =>
        simp only [Option.ite_none_right_eq_some, Option.some.injEq] at h
        obtain ⟨rfl, rfl⟩ := h
        refine .handled handle calling ?_ ?_ <;> split <;> simp_all [HandlerTask.response?]
  case published t =>
    simp only [Server.published] at h
    split at h <;> try cases h
    case _ task handle =>
      split at h <;> cases h
      exact .published handle ‹_›

-- A task is either an earlier one or the one that the dispatched envelope has been accepted as.
theorem Step.task_cases {t : ℕ} {task : HandlerTask ω} (st : Step inner s act s')
    (h : s'.tasks[t]? = some task) :
    (∃ task₀, s.tasks[t]? = some task₀ ∧ task₀.fresh = task.fresh) ∨
      ∃ env, act = .dispatch env ∧ s.task = .taken env ∧ t = s.tasks.length ∧
        accept s.handlers env = some task := by
  have set {t' task' phase} (handle : s.tasks[t']? = some task')
      (hs : (s.tasks.set t' { task' with phase })[t]? = some task) :
      ∃ task₀, s.tasks[t]? = some task₀ ∧ task₀.fresh = task.fresh := by
    rw [List.getElem?_set] at hs
    split at hs
    case isFalse => exact ⟨task, hs, rfl⟩
    case isTrue ht =>
      subst ht
      obtain ⟨_, rfl⟩ : _ ∧ { task' with phase } = task := by simpa using hs
      exact ⟨task', handle, rfl⟩
  cases st <;> try exact .inl ⟨task, h, rfl⟩
  case handled handle _ _ _ => exact .inl <| set handle h
  case published handle _   => exact .inl <| set handle h
  case dispatch env taken =>
    by_cases hl : t < s.tasks.length
    case pos => exact .inl ⟨task, by rwa [List.getElem?_append_left hl] at h, rfl⟩
    case neg =>
      cases ha : accept s.handlers env
      case none => simp [ha, hl] at h
      case some task' =>
        have ⟨hl', _⟩ := List.getElem?_eq_some_iff.mp h
        obtain rfl : t = s.tasks.length := by simp [ha] at hl'; omega
        exact .inr ⟨env, rfl, taken, rfl, by simpa [ha] using h⟩

theorem Step.starting (st : Step inner s act s') (h : s'.task = .starting) :
    s.task = .starting ∧ act ≠ .subscribed := by
  cases st <;> simp_all

-- What a task has handed to `transport.publish` stays the same.
theorem Step.response {t : ℕ} {task : HandlerTask ω} {env : Envelope} (st : Step inner s act s')
    (h : s.tasks[t]? = some task) (hr : task.response? = some env) :
    ∃ task', s'.tasks[t]? = some task' ∧ task'.response? = some env := by
  have ⟨hl, _⟩ := List.getElem?_eq_some_iff.mp h
  cases st <;> try exact ⟨task, h, hr⟩
  case dispatch => exact ⟨task, by rwa [List.getElem?_append_left hl], hr⟩
  case handled t' _ task' _ handle calling _ _ =>
    have ht : t' ≠ t := by
      rintro rfl
      cases h.symm.trans handle
      simp [HandlerTask.response?, calling] at hr
    exact ⟨task, by rwa [List.getElem?_set_ne ht], hr⟩
  case published t' task' response handle responded =>
    refine List.exists_getElem?_set handle ⟨task, h, hr⟩ fun _ hr => ?_
    simpa [HandlerTask.response?, responded] using hr

-- Only a broker that serves requests has handlers.
theorem serves_of_handler {method : String} {handler : HandlerFn ω}
    (r : (machine ω inner).Reachable s) (h : s.handlers method = some handler) :
    inner.mode.serves := by
  induction s, r using Machine.Reachable.induction_on
  case init => simp [machine, init] at h
  case step s act s' _ hs ih =>
    cases next_step hs <;> try exact ih h
    case register serves => exact serves

end Server
end MomRpc
