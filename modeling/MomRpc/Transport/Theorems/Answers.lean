import MomRpc.Transport.Theorems.ActorCalls

namespace MomRpc.Actor

open RumqttcTransport

variable {ι σ α τ : Type} {kind : ActorKind ι σ α τ} {m m' s : Actor kind} {act : Action α τ}
  {as : List (Action α τ)} {outcome : τ} {i : ℕ} {c c' : MethodCall} {env : Envelope}

-- In the course of the run, the actor executes the command of the `i`-th call.
def Handled (kind : ActorKind ι σ α τ) (as : List (Action α τ)) (i : ℕ) (env : Envelope)
    (s : Actor kind) (outcome : τ) : Prop :=
  ∃ xs ys, as = xs ++ .execute outcome :: ys ∧ (machine kind).Run xs s ∧
    s.phase = .handling (.publish env i)

theorem Handled.mono (h : Handled kind as i env s outcome) :
    Handled kind (as ++ [act]) i env s outcome := by
  obtain ⟨xs, ys, rfl, r, hp⟩ := h
  exact ⟨xs, ys ++ [act], by simp, r, hp⟩

theorem Handled.cases (r : (machine kind).Run as m)
    (h : Handled kind (as ++ [act]) i env s outcome) :
    Handled kind as i env s outcome ∨
      (s = m ∧ act = .execute outcome ∧ m.phase = .handling (.publish env i)) := by
  obtain ⟨xs, ys, he, rs, hp⟩ := h
  rcases List.eq_nil_or_concat ys with rfl | ⟨ys, last, rfl⟩
  case inl =>
    obtain ⟨rfl, rfl⟩ := List.append_inj' he rfl |>.imp_right List.singleton_inj.mp
    obtain rfl := rs.deterministic r
    exact .inr ⟨rfl, rfl, hp⟩
  case inr =>
    rw [List.concat_eq_append, ← List.cons_append, ← List.append_assoc] at he
    obtain ⟨rfl, _⟩ := List.append_inj' he rfl
    exact .inl ⟨xs, ys, rfl, rs, hp⟩

theorem Handled.lt (r : (machine kind).Run as m) (h : Handled kind as i env s outcome) :
    i < m.calls.length := by
  obtain ⟨xs, ys, rfl, rs, hp⟩ := h
  have pending : .publish env i ∈ s.pending := by simp [pending_of_handling hp]
  have ⟨_, hc, _⟩ := (consistent rs.reachable).pending _ pending
  have ⟨_, rs', he⟩ := r.split
  cases rs.deterministic rs'
  refine Machine.exec_stable (P := (i < ·.calls.length)) he ?_ fun _ _ _ _ hi hn => ?_
  · exact (List.getElem?_eq_some_iff.mp hc).choose
  · exact Nat.lt_of_lt_of_le hi (next_step hn).calls.length_le

-- What has become of a call of `publish`: its command has not been executed, and it can only fail,
-- or its command has been executed once, and the call can only receive the answer to it.
inductive Answered (kind : ActorKind ι σ α τ) (as : List (Action α τ)) (i : ℕ) (env : Envelope)
    (c : MethodCall) : Prop
  | unheard (unhandled : ∀ s outcome, ¬Handled kind as i env s outcome)
    (unanswered : c.reply = none)
    (fails : ∀ result, c.phase = .returned result → ∃ err, result = .error err)
  | answered {s outcome state result} (handled : Handled kind as i env s outcome)
    (once : ∀ s' outcome', Handled kind as i env s' outcome' → s' = s ∧ outcome' = outcome)
    (executed : kind.execute s.state (.publish env i) outcome = some (state, result))
    (reply : c.reply = some (result.map fun _ => .ok))
    (received : ∀ result', c.phase = .returned result' →
      ∃ c₀, c₀.method = c.method ∧ c = kind.caller.receive c₀ (result.map fun _ => .ok))

theorem Answered.mono (h : Answered kind as i env c)
    (other : ∀ s outcome, Handled kind (as ++ [act]) i env s outcome →
      Handled kind as i env s outcome) : Answered kind (as ++ [act]) i env c := by
  cases h
  case unheard unhandled unanswered fails =>
    exact .unheard (fun s o h => unhandled s o <| other s o h) unanswered fails
  case answered handled once executed reply received =>
    exact .answered handled.mono (fun s o h => once s o <| other s o h) executed reply received

-- A step that neither executes the command of the call nor answers it may end it.
theorem Answered.keep (h : Answered kind as i env c)
    (other : ∀ s outcome, Handled kind (as ++ [act]) i env s outcome →
      Handled kind as i env s outcome)
    (reply : c'.reply = c.reply)
    (fails : c.reply = none → ∀ result, c'.phase = .returned result → ∃ err, result = .error err)
    (received : ∀ result : Except RpcError Unit, c.reply = some (result.map fun _ => .ok) →
      ∀ result', c'.phase = .returned result' →
        ∃ c₀, c₀.method = c'.method ∧ c' = kind.caller.receive c₀ (result.map fun _ => .ok)) :
    Answered kind (as ++ [act]) i env c' := by
  cases h
  case unheard unhandled unanswered _ =>
    refine .unheard (fun s o h => unhandled s o <| other s o h) (reply.trans unanswered) ?_
    exact fails unanswered
  case answered handled once executed answer _ =>
    exact .answered handled.mono (fun s o h => once s o <| other s o h) executed
      (reply.trans answer) <| received _ answer

theorem Answered.fail {err : RpcError} (h : Answered kind as i env c)
    (other : ∀ s outcome, Handled kind (as ++ [act]) i env s outcome →
      Handled kind as i env s outcome)
    (unanswered : c.reply = none) :
    Answered kind (as ++ [act]) i env { c with phase := .returned (.error err) } := by
  refine h.keep other rfl (fun _ result returned => ?_) (by simp [unanswered])
  cases returned
  exact ⟨err, rfl⟩

theorem Answered.receive {answer : Except RpcError Ack} (h : Answered kind as i env c)
    (other : ∀ s outcome, Handled kind (as ++ [act]) i env s outcome →
      Handled kind as i env s outcome)
    (method : c.method = .publish env) (replied : c.reply = some answer) :
    Answered kind (as ++ [act]) i env (kind.caller.receive c answer) := by
  cases h
  case unheard unanswered _ => simp [unanswered] at replied
  case answered result handled once executed reply _ =>
    obtain rfl := Option.some.inj <| replied.symm.trans reply
    rcases kind.caller.receive_cases c (result.map fun _ => .ok) with
      ⟨_, result', he⟩ | ⟨_, retry, _⟩ | ⟨method', _⟩
    · refine .answered handled.mono (fun s o h => once s o <| other s o h) executed ?_ ?_
      · rw [he]; exact reply
      · exact fun _ _ => ⟨c, by rw [he], rfl⟩
    · cases result <;> cases retry
    · cases method.symm.trans method'

-- The actor executes the command of the call, which has not been told anything by then.
theorem Answered.execute (r : (machine kind).Run as m)
    (hn : (machine kind).next m (.execute outcome) = some m') (h : m.calls[i]? = some c)
    (h' : m'.calls[i]? = some c') (hp : m.phase = .handling (.publish env i))
    (answered : Answered kind as i env c) : Answered kind (as ++ [.execute outcome]) i env c' := by
  have hi : i ∈ m.responders := by simp [responders, pending_of_handling hp, Cmd.resp]
  have unanswered := unreplied r.reachable hi h
  obtain ⟨_, hc, waiting⟩ := (owned r.reachable).waiting i hi
  cases h.symm.trans hc
  cases answered
  case answered reply _ => simp [unanswered] at reply
  case unheard unhandled _ _ =>
    cases next_step hn
    case caller caller => cases caller
    case execute cmd state result handling executed =>
      cases hp.symm.trans handling
      obtain rfl : { c with reply := some (result.map fun _ => .ok) } = c' := by
        simpa [Actor.reply, Cmd.resp, h] using h'
      refine .answered ⟨as, [], rfl, r, hp⟩ ?_ executed rfl fun result' returned => ?_
      · intro s' outcome' handled
        rcases handled.cases r with handled | ⟨rfl, same, _⟩
        · exact absurd handled <| unhandled s' outcome'
        · cases same
          exact ⟨rfl, rfl⟩
      · have returned : c.phase = .returned result' := returned
        simp [MethodCall.Waiting, returned] at waiting

theorem Answered.step (r : (machine kind).Run as m) (hn : (machine kind).next m act = some m')
    (h : m.calls[i]? = some c) (method : c.method = .publish env) (h' : m'.calls[i]? = some c')
    (ch : CallChange m act i c c') (answered : Answered kind as i env c) :
    Answered kind (as ++ [act]) i env c' := by
  have publishes : c.cmd i = .publish env i := by simp [MethodCall.cmd, method]
  by_cases now : m.phase = .handling (.publish env i) ∧ ∃ outcome, act = .execute outcome
  case pos =>
    obtain ⟨hp, _, rfl⟩ := now
    exact answered.execute r hn h h' hp
  case neg =>
    have other s outcome (handled : Handled kind (as ++ [act]) i env s outcome) :
        Handled kind as i env s outcome := by
      rcases handled.cases r with handled | ⟨_, action, hp⟩
      · exact handled
      · exact absurd ⟨hp, outcome, action⟩ now
    have asking := (owned r.reachable).asking i c h
    cases ch
    case same => exact answered.mono other
    case send sending => exact answered.keep other rfl (by simp) (by simp)
    case reply result told =>
      have consistent := consistent r.reachable
      have own {cmd : Cmd} (hc : cmd ∈ m.pending) (hi : cmd.resp = i) : cmd = .publish env i := by
        obtain ⟨c₀, h₀, he⟩ := consistent.pending cmd hc
        cases h.symm.trans (hi ▸ h₀)
        exact he.symm.trans <| hi ▸ publishes
      cases told
      case close queued => cases own queued rfl
      case defer queued hi deferred =>
        obtain ⟨_, _, he⟩ := kind.start_defers _ _ _ deferred
        cases he.symm.trans <| own queued hi
      case execute cmd outcome _ _ action handling hi _ =>
        have := own (by simp [pending_of_handling handling]) hi
        exact absurd ⟨this ▸ handling, outcome, action⟩ now
    case step st =>
      cases st
      case register topic method' _ => cases method.symm.trans method'
      case await method' _ => cases method.symm.trans method'
      case joined method' _ => cases method.symm.trans method'
      case retry | cancel => exact answered.keep other rfl (by simp) (by simp)
      case receive replied => exact answered.receive other method replied
      case closed _ sending =>
        rcases kind.caller.closed_cases c with ⟨_, err, he⟩ | ⟨method', _⟩
        · exact he ▸ answered.fail other (asking <| .inr <| .inl sending)
        · cases method.symm.trans method'
      case disconnected _ _ unanswered =>
        rcases kind.caller.disconnected_cases c with ⟨_, err, he⟩ | ⟨method', _⟩
        · exact he ▸ answered.fail other unanswered
        · cases method.symm.trans method'

theorem answered (r : (machine kind).Run as m) (h : m.calls[i]? = some c)
    (method : c.method = .publish env) : Answered kind as i env c := by
  induction as, m, r using Machine.Run.induction_on generalizing i c
  case init => simp [machine] at h
  case step as m act m' r hn ih =>
    have st := next_step hn
    rcases st.change h with ⟨c₀, h₀, ch⟩ | ⟨hi, begun⟩
    case inl =>
      have method₀ := ch.method.symm.trans method
      exact (ih h₀ method₀).step r hn h₀ method₀ h ch
    case inr =>
      have new s outcome (handled : Handled kind (as ++ [act]) i env s outcome) : False := by
        rcases handled.cases r with handled | ⟨_, rfl, hp⟩
        · exact Nat.lt_irrefl _ <| hi ▸ handled.lt r
        · cases begun
      cases begun <;> exact .unheard new rfl (by simp)

end MomRpc.Actor
