import Zdeceptron.Wire.Value

/-!
# The read side of the deployed router

`once` answers a poll and `opening` gives the frames a watch stream starts with.
Both send the current value of every key asked for, with a reading of the clock
as its `seq`.
-/

namespace Zdeceptron
namespace Live

open Library
open Wire (Value units)

structure Response where
  status : Nat
  body : Units

def json (value : Value) (status : Nat) : Response :=
  { status := status, body := Wire.stringify value }

def refusal (message : Units) : Value := .record [(units "error", .str message)]

/-- The `keys` parameter of a query, narrowed to the keys the program declares. -/
def watchedKeys (keys : Option Units) (durableKeys : List Units) : List Units :=
  ((keys.getD []).splitOn 44).filter (fun key => key != [] && durableKeys.contains key)

/-- What `store.get` answers, or the message of what it throws. -/
abbrev Reads := Units → Except Units Value

def pollEvent (key : Units) (value : Value) (seq : Float) : Value :=
  .record [(units "event", .str (units "update")), (units "key", .str key),
    (units "value", value), (units "seq", .num seq)]

def pollEvents (get : Reads) (seq : Float) : List Units → Except Units (List Value)
  | [] => .ok []
  | key :: keys =>
      match get key with
      | .error message => .error message
      | .ok value =>
          match pollEvents get seq keys with
          | .error message => .error message
          | .ok events => .ok (pollEvent key value seq :: events)

def once (get : Reads) (now : Float) (keys : List Units) : Response :=
  if keys = [] then json (refusal (units "`poll` needs `?keys=`")) 400
  else
    match pollEvents get now keys with
    | .error message => json (refusal message) 500
    | .ok events => json (.list events) 200

/-- A frame of an event stream, as the browser's `EventSource` hands it on. -/
structure Frame where
  event : Units
  data : Units
  lastEventId : Units

def emit (key : Units) (value : Value) (latest : Float) : Frame :=
  { event := units "update"
    data := Wire.stringify
      (.record [(units "key", .str key), (units "value", value), (units "seq", .num latest)])
    lastEventId := numberToString latest }

/-- The frames a stream starts with.  Every frame reads the clock anew, and a read
that throws ends them with an error; `id` is the last event identifier so far. -/
def opening (get : Reads) (clock : Nat → Float) : Nat → Units → List Units → List Frame
  | _, _, [] => []
  | reading, id, key :: keys =>
      match get key with
      | .error message =>
          [{ event := units "error"
             data := Wire.stringify (refusal message)
             lastEventId := id }]
      | .ok value =>
          emit key value (clock reading) ::
            opening get clock (reading + 1) (numberToString (clock reading)) keys

end Live
end Zdeceptron
