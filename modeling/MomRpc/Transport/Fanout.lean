import Mathlib.Logic.Function.Basic
import MomRpc.Domain.Transport
import MomRpc.Lib.Machine

namespace MomRpc

-- How far a call of `handle_incoming` has come: `senders` is the snapshot it has taken (whose
-- length is `original_len`), `rest` are those still to be tried.
inductive Incoming
  | idle
  | sending (topic : String) (env : Envelope) (senders rest survivors : List ℕ)

-- The subscribers of a brokered transport. A sender is the index of the handle whose inbox it sends
-- to, and each `ι` stands for one task that fans out incoming messages.
structure Fanout (ι : Type) where
  subscribers : String → Option (List ℕ) := fun _ => none
  handles     : List SubscriptionHandle  := []
  incoming    : ι → Incoming             := fun _ => .idle

namespace Fanout

variable {ι : Type} [DecidableEq ι]

-- `subscribe` pushes its sender before it asks the actor to subscribe.
def subscribe (f : Fanout ι) (topic : String) : Fanout ι :=
  let senders := (f.subscribers topic).getD [] ++ [f.handles.length]
  { f with
    subscribers := Function.update f.subscribers topic (some senders)
    handles     := f.handles ++ [{ subscription := ⟨topic⟩ }] }

-- `handle_incoming` is split where other tasks can interfere: the snapshot, one `try_send` for each
-- sender, and the write-back.
def handleIncoming (decode : Bytes → Option Envelope) (f : Fanout ι) (w : ι) (topic : String)
    (message : Bytes) : Option (Fanout ι) :=
  match f.incoming w with
  | .idle =>
    match decode message, f.subscribers topic with
    | some env, some senders =>
      let incoming := .sending topic env senders senders []
      some { f with incoming := Function.update f.incoming w incoming }
    | _, _ => some f
  | _ => none

-- A sender to a full or dropped inbox does not survive.
def trySend (f : Fanout ι) (w : ι) (i : ℕ) : Option (Fanout ι) :=
  match f.incoming w with
  | .sending topic env senders (j :: rest) survivors =>
    match f.handles[j]? with
    | none   => none
    | some h =>
      if i = j then
        match h.inbox.trySend env with
        | some inbox =>
          let incoming := .sending topic env senders rest (survivors ++ [j])
          some { f with
            handles  := f.handles.set j { h with inbox }
            incoming := Function.update f.incoming w incoming
          }
        | none =>
          let incoming := .sending topic env senders rest survivors
          some { f with incoming := Function.update f.incoming w incoming }
      else
        none
  | _ => none

def writeBack (f : Fanout ι) (w : ι) : Option (Fanout ι) :=
  match f.incoming w with
  | .sending topic _ senders [] survivors =>
    let incoming := Function.update f.incoming w .idle
    if survivors.length = senders.length then
      some { f with incoming }
    else
      some { f with
        incoming
        subscribers := Function.update f.subscribers topic (some survivors)
      }
  | _ => none

def recv (f : Fanout ι) (i : ℕ) : Option (Fanout ι) := do
  let h ← f.handles[i]?
  let (_, inbox) ← h.inbox.recv
  some { f with handles := f.handles.set i { h with inbox } }

def drop (f : Fanout ι) (i : ℕ) : Option (Fanout ι) :=
  f.handles[i]?.map fun h =>
    { f with handles := f.handles.set i { h with inbox := h.inbox.drop } }

inductive Action (ι : Type)
  | subscribe (topic : String)
  | incoming (w : ι) (topic : String) (message : Bytes)
  | trySend (w : ι) (i : ℕ)
  | writeBack (w : ι)
  | recv (i : ℕ)
  | drop (i : ℕ)

def next (decode : Bytes → Option Envelope) (f : Fanout ι) : Action ι → Option (Fanout ι)
  | .subscribe topic          => some <| f.subscribe topic
  | .incoming w topic message => f.handleIncoming decode w topic message
  | .trySend w i              => f.trySend w i
  | .writeBack w              => f.writeBack w
  | .recv i                   => f.recv i
  | .drop i                   => f.drop i

def machine (ι : Type) [DecidableEq ι] (decode : Bytes → Option Envelope) :
    Machine (Fanout ι) (Action ι) where
  init := {}
  next := next decode

end Fanout

-- The MQTT and the Redis actor each fan out the messages of all topics by themselves, DDS has a
-- task for each reader.
def MqttActor.fanout (fromSlice : Bytes → Option Envelope) :
    Machine (Fanout Unit) (Fanout.Action Unit) :=
  Fanout.machine Unit fromSlice

def RedisActor.fanout (getPayload : Bytes → Option String) (fromStr : String → Option Envelope) :
    Machine (Fanout Unit) (Fanout.Action Unit) :=
  Fanout.machine Unit fun message => getPayload message |>.bind fromStr

def DdsActor.fanout (fromSlice : Bytes → Option Envelope) : Machine (Fanout ℕ) (Fanout.Action ℕ) :=
  Fanout.machine ℕ fromSlice

end MomRpc
