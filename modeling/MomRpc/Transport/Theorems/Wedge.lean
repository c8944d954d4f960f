import MomRpc.Transport.Theorems.Mqtt

namespace MomRpc.MqttActor

variable {rumqttc : Rumqttc} {m m' : MqttActor} {act : Action} {as : List Action}

-- The actor awaits room in the request channel.
def Suspended (m : MqttActor) : Prop :=
  ∃ reqs, m.phase = .suspended reqs

-- How many requests the actor makes in the step.
def demand (rumqttc : Rumqttc) (m : MqttActor) : Action → ℕ
  | .handle                 => m.commands.queue.head?.elim 0 (cmdDemand rumqttc m)
  | .poll (.connack topics) =>
    if m.reconnect then (topics.filter (rumqttc.subscribeError · = none)).length else 0
  | _                       => 0

def KeepsRoom (rumqttc : Rumqttc) (m : MqttActor) (act : Action) : Prop :=
  m.eventLoop.requests.queue.length + m.demand rumqttc act ≤ requestCapacity

instance : Decidable (m.KeepsRoom rumqttc act) :=
  inferInstanceAs (Decidable (_ ≤ _))

theorem keepsRoom_of_no_demand (h : m.demand rumqttc act = 0) : m.KeepsRoom rumqttc act := by
  simpa [KeepsRoom, h] using m.eventLoop.requests.bounded

theorem Awaited.suspended_iff {reqs : List Request} {next : MqttActor → MqttActor}
    (aw : Awaited m reqs next m') (hs : ¬m.Suspended)
    (hn : ∀ m : MqttActor, ¬m.Suspended → ¬(next m).Suspended) :
    ¬m'.Suspended ↔ m.eventLoop.requests.queue.length + reqs.length ≤ requestCapacity := by
  cases aw
  case made made => exact iff_of_true (hn _ hs) made.length_le
  case suspended eventLoop done req rest split made full =>
    refine iff_of_false (fun h => h ⟨_, rfl⟩) ?_
    simp only [Mailbox.HasRoom, made.queue, List.length_append] at full
    simp only [split, List.length_append, List.length_cons]
    omega

theorem Handled.suspended_iff {cmd : Cmd} (h : Handled rumqttc m cmd m') (hs : ¬m.Suspended) :
    ¬m'.Suspended ↔
      m.eventLoop.requests.queue.length + cmdDemand rumqttc m cmd ≤ requestCapacity := by
  cases h
  case refused demand _ =>
    exact iff_of_true hs <| by simpa [demand] using m.eventLoop.requests.bounded
  case publish demand awaited => exact demand ▸ awaited.suspended_iff hs fun _ h => h
  case subscribe demand _ _ awaited => exact demand ▸ awaited.suspended_iff hs fun _ h => h
  case close awaited => exact awaited.suspended_iff hs nofun

theorem demand_of_call {i : ℕ} (h : act.call? = some i) : m.demand rumqttc act = 0 := by
  cases act <;> first | rfl | cases h

theorem not_suspended_step (r : (machine rumqttc).Reachable m) (hs : ¬m.Suspended)
    (hn : (machine rumqttc).next m act = some m') :
    ¬m'.Suspended ↔ m.KeepsRoom rumqttc act := by
  -- Only two steps make requests.
  have quiet (hs' : ¬m'.Suspended) (hd : m.demand rumqttc act = 0) :
    ¬m'.Suspended ↔ m.KeepsRoom rumqttc act := iff_of_true hs' <| keepsRoom_of_no_demand hd
  cases next_step hn
  case call | send | pushTask | drop | transmit | error => exact quiet hs rfl
  case caller caller => exact quiet hs <| demand_of_call caller
  case closed => exact quiet nofun rfl
  case ignored other => exact quiet hs <| by rcases other with rfl | ⟨_, _, rfl⟩ <;> rfl
  case suback codes eventLoop _ _ =>
    refine quiet ?_ rfl
    rcases handleSuback_cases rumqttc { m with eventLoop } codes with ⟨_, he⟩ | ⟨_, _, _, he⟩
    all_goals simpa [he, Suspended] using hs
  case handle cmd commands selecting received =>
    have ⟨_, hq, _⟩ := Mailbox.recv_iff.mp received
    have h := selecting_handled r selecting commands cmd |>.suspended_iff hs
    have hd : cmdDemand rumqttc { m with commands } cmd = cmdDemand rumqttc m cmd := by
      cases cmd <;> rfl
    simpa [KeepsRoom, demand, hq, hd] using h
  case connack topics selecting _ _ =>
    rcases selecting_connacked r selecting topics with ⟨hr, he⟩ | ⟨hr, awaited⟩
    · exact quiet (by rwa [he]) <| if_neg <| Bool.eq_false_iff.mp hr
    · have h := awaited.suspended_iff hs fun _ h => h
      simpa [KeepsRoom, demand, resubscribe, hr] using h

theorem never_suspended (r : (machine rumqttc).Run as m) :
    (machine rumqttc).Always as (¬Suspended ·) ↔
      (machine rumqttc).Throughout as (KeepsRoom rumqttc) :=
  Machine.always_iff_throughout r nofun fun _ _ _ r hs hn => not_suspended_step r hs hn

def loneRumqttc : Rumqttc where
  transportId    := "n"
  toVec          := fun _ => .ok []
  publishError   := fun _ => none
  subscribeError := fun _ => none

def loneEnvelope : Envelope where
  address       := ⟨"t"⟩
  method        := none
  payload       := []
  correlationId := none
  replyTo       := none
  contentType   := none

def lonePublish (i : ℕ) : List Action :=
  [.call (.publish loneEnvelope), .send i, .handle]

theorem never_suspended_lone :
    (machine loneRumqttc).Always (lonePublish 0) (¬Suspended ·) ↔
      (machine loneRumqttc).Throughout (lonePublish 0) (KeepsRoom loneRumqttc) :=
  never_suspended (m := _) rfl

-- The eleventh request that is made without a poll in between waits for room.
theorem eleventh_publish_suspends :
    ∃ m, (machine loneRumqttc).Run ((List.range 11).flatMap lonePublish) m ∧ m.Suspended :=
  ⟨_, rfl, _, rfl⟩

-- Nothing but the actor itself makes room, so it stays suspended forever.
theorem suspended_forever (he : (machine rumqttc).exec m as = some m') (hs : m.Suspended) :
    m'.Suspended := by
  refine Machine.exec_stable he hs fun m act m' _ hs hn => ?_
  have ne : m.phase ≠ .selecting := by
    have ⟨_, h⟩ := hs
    simp [h]
  cases next_step hn
  case call | send | pushTask | drop | caller => exact hs
  all_goals exact absurd ‹m.phase = .selecting› ne

end MomRpc.MqttActor
