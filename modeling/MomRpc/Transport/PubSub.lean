import MomRpc.Transport.Redis

namespace MomRpc

-- The actor with its Pub/Sub connection: `session` are the topics for which the broker has
-- confirmed a SUBSCRIBE on the connection, `none` from its loss on. `reachable` tells that the
-- broker would accept a new one.
structure RedisPubSub (redis : Redis) where
  actor     : Actor (RedisActor.kind redis) := {}
  session   : Option (List String)          := some []
  reachable : Bool                          := true

namespace RedisPubSub

variable {redis : Redis}

inductive Action
  | actor (act : Actor.Action RedisActor.Event (Except String Unit))
  | lost
  | recovered

-- What a step of the actor makes of the connection, if the connection admits the step at all. The
-- stream ends when it has delivered what has arrived before the loss.
def connection (l : RedisPubSub redis) :
    Actor.Action RedisActor.Event (Except String Unit) → Option (Option (List String))
  | .execute (.ok _)          =>
    match l.actor.phase with
    | .handling (.subscribe topic _) => l.session.map fun topics => some (topics ++ [topic])
    | _                              => some l.session
  | .task (.message topic _) =>
    match l.session with
    | some topics => if topic ∈ topics then some l.session else none
    | none        => if l.actor.state.reconnect then none else some none
  | .task .ended             => if l.session.isNone then some none else none
  | _                        => some l.session

def next (l : RedisPubSub redis) : Action → Option (RedisPubSub redis)
  | .actor act => do
    let session ← l.connection act
    let actor ← l.actor.next act
    some { l with actor, session }
  | .lost      => some { l with session := none, reachable := false }
  | .recovered => some { l with reachable := true }

def machine (redis : Redis) : Machine (RedisPubSub redis) Action where
  init := {}
  next := next

end RedisPubSub
end MomRpc
