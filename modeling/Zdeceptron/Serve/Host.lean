import Zdeceptron.Serve.Bundle
import Mathlib.Logic.Function.Basic

/-!
# The host over the embedded store

The store façade records: reads go through what the invocation wrote so far, writes
wait for the commit.  All calls of a transaction share one recording and commit at
once.  Requests come one at a time, so no read is stale at the commit.
-/

namespace Zdeceptron
namespace Serve
namespace Host

open Library
open Library.EcmaJson (Data)
open Wire (Value units encode decode)

section Pending

abbrev Store := Units → Option Data

inductive Write
  | set (key : Units) (value : Data)
  | incr (key : Units) (delta : Float)
  | delete (key : Units)

/-- What each key holds as far as the invocation is concerned, and the writes it asked
for. -/
structure Pending where
  view : Units → Option (Option Data)
  writes : List Write

def Pending.fresh : Pending := ⟨fun _ => none, []⟩

def Pending.peek (pending : Pending) (store : Store) (key : Units) : Option Data :=
  (pending.view key).getD (store key)

def Pending.read (pending : Pending) (store : Store) (key : Units) : Pending :=
  { pending with view := Function.update pending.view key (some (pending.peek store key)) }

def Pending.set (pending : Pending) (key : Units) (value : Data) : Pending where
  view := Function.update pending.view key (some (some value))
  writes := pending.writes ++ [.set key value]

def Pending.delete (pending : Pending) (key : Units) : Pending where
  view := Function.update pending.view key (some none)
  writes := pending.writes ++ [.delete key]

def Pending.incr (pending : Pending) (key : Units) (delta : Float) : Pending :=
  { pending with writes := pending.writes ++ [.incr key delta] }

end Pending

section Errors

def quoted (key : Units) : Units := units "`" ++ key ++ units "`"

def notANumberMessage (key found : Units) : Units :=
  quoted key ++ units " holds " ++ found ++
    units ", which cannot be incremented; `add` needs a number"

def outOfRangeMessage (key : Units) : Units :=
  units "incrementing " ++ quoted key ++ units " left the range a number can represent"

def added (key : Units) (current : Option Data) (delta : Float) : Except Units Float :=
  match current with
  | none => inRange (Float.ofNat 0 + delta)
  | some (.num value) => inRange (value + delta)
  | some other => .error (notANumberMessage key (EcmaJson.stringify other))
where
  inRange (sum : Float) : Except Units Float :=
    if sum.isFinite then .ok sum else .error (outOfRangeMessage key)

end Errors

section Facade

variable (number : Units → Float) (store : Store)

/-- `$store.get`. -/
def get (pending : Pending) (key : Units) : Except Units Value :=
  match pending.peek store key with
  | none => .ok .undefined
  | some d =>
      match decode d with
      | .ok value => .ok value
      | .error error => .error error.message

def zdAt (key : Units) (change : Value → Except Units Value) :
    List Step → Value → Except Units Value
  | [], container => change container
  | step :: path, .map entries =>
      (zdAt key change path (entryOf entries step.key)).map
        (fun value => .map (Wire.setEntry entries step.key value))
  | step :: path, .list items =>
      (zdAt key change path (itemOf items step.key)).map
        (fun value => .list (assignItem items step.key value))
  | step :: _, .undefined => .error (nowhere step)
  | step :: _, .null => .error (nowhere step)
  | step :: path, container =>
      (zdAt key change path
        ((fieldOf (spread container) (toText step.key)).getD .undefined)).map
          (fun value =>
            .record (EcmaJson.defineField (spread container) (toText step.key) value))
where
  nowhere (step : Step) : Units :=
    quoted key ++ units " holds nothing at `" ++ toText step.key ++
      units "`, so there is nowhere to write inside it"

def orStarting (current base : Value) : Value :=
  match current with
  | .undefined => base
  | value => value

def zdPut (pending : Pending) (key : Units) (path : List Step) (base : Value)
    (change : Value → Except Units Value) : Except Units Pending :=
  match get store pending key with
  | .error message => .error message
  | .ok current =>
      (zdAt key change path (orStarting current base)).map
        (fun next => (pending.read store key).set key (encode next).reread)

def zdNumber (key : Units) (value : Value) : Except Units Float :=
  match value with
  | .undefined => .ok (Float.ofNat 0)
  | .null => .ok (Float.ofNat 0)
  | .num value => .ok value
  | other =>
      .error (quoted key ++ units " holds `" ++ toText other ++
        units "`, which is not a number")

def zdList (key verb : Units) (value : Value) : Except Units (List Value) :=
  match value with
  | .undefined => .ok []
  | .null => .ok []
  | .list items => .ok items
  | _ =>
      .error (quoted key ++ units " does not hold a list, so `" ++ verb ++
        units "` cannot use it")

def zdIncr (pending : Pending) (key : Units) (delta : Float) : Except Units Pending :=
  (added key (pending.peek store key) delta).map (fun _ => pending.incr key delta)

def removeFrom (key : Units) (item : Value) (current : Value) : Except Units Value :=
  match current with
  | .map entries => .ok (.map (entries.filter (fun p => !strictEqual p.1 item)))
  | value =>
      (zdList key (units "remove") value).map
        (fun items => .list (items.filter (fun entry => !strictEqual entry item)))

def changeOf (key : Units) (value : Value) : Verb → Value → Except Units Value
  | .set => fun _ => .ok value
  | .incr => fun current => (zdNumber key current).map (fun n => plus number n value)
  | .decr => fun current =>
      (zdNumber key current).map (fun n => .num (n - toNumber number value))
  | .append => fun current =>
      (zdList key (units "append") current).map (fun items => .list (items ++ [value]))
  | .remove => removeFrom key value

/-- The five verbs of `$store`.  Without a path `set` reads nothing, and `incr` and
`decr` are blind. -/
def perform (operation : Operation) (pending : Pending) : Except Units Pending :=
  match operation.verb, operation.place with
  | .set, none => .ok (pending.set operation.key (encode operation.value).reread)
  | .incr, none => zdIncr store pending operation.key (toNumber number operation.value)
  | .decr, none => zdIncr store pending operation.key (-toNumber number operation.value)
  | verb, none =>
      zdPut store pending operation.key [] .undefined
        (changeOf number operation.key operation.value verb)
  | verb, some (path, base) =>
      zdPut store pending operation.key path base
        (changeOf number operation.key operation.value verb)

end Facade

section Commit

def Write.apply (store : Store) : Write → Except Units (Store × Data)
  | .set key value => .ok (Function.update store key (some value), value)
  | .incr key delta =>
      (added key (store key) delta).map
        (fun sum => (Function.update store key (some (.num sum)), .num sum))
  | .delete key => .ok (Function.update store key none, .null)

def apply (store : Store) : List Write → Except Units (Store × Option Data)
  | [] => .ok (store, none)
  | write :: writes =>
      match write.apply store with
      | .error message => .error message
      | .ok (store, value) =>
          (apply store writes).map (fun p => (p.1, some (p.2.getD value)))

end Commit

section Invoke

inductive HostError
  | unknown (name : Units)
  | badRequest (message : Units)
  | failed (endpoint message : Units)

variable (number : Units → Float) (environment : Units → Option Units) (bundle : Bundle)

/-- `$env`. -/
def env (key : Units) : Except Units Value :=
  match environment key with
  | some value => .ok (.str value)
  | none =>
      .error (units "this endpoint reads a value from the environment " ++
        units "that is not set on this host")

def record (store : Store) :
    List (Units × Command × List Data) → Pending → Except HostError Pending
  | [], pending => .ok pending
  | (name, command, args) :: calls, pending =>
      match perform number store (command.operation args) pending with
      | .error message => .error (.failed name message)
      | .ok pending => record store calls pending

def commit (store : Store) (name : Units) (single : Bool) (pending : Pending) :
    Except HostError (Store × Data) :=
  match apply store pending.writes with
  | .error message => .error (.failed name message)
  | .ok (store, value) => .ok (store, if single then value.getD .null else .null)

def runAll (store : Store) (calls : List (Units × Command × List Data)) :
    Except HostError (Store × Data) :=
  match record number store calls .fresh with
  | .error error => .error error
  | .ok pending =>
      commit store ((calls.head?.map Prod.fst).getD []) (calls.length = 1) pending

def invoke (store : Store) (name : Units) (args : List Data) :
    Except HostError (Store × Data) :=
  match bundle.endpoints name with
  | none => .error (.unknown name)
  | some (.command command) => runAll number store [(name, command, args)]
  | some (.value inputs body) =>
      if args.length ≠ inputs.length then
        .error (.badRequest (units "this endpoint takes " ++ digitCodes inputs.length ++
          units " argument(s), and the request carried " ++ digitCodes args.length))
      else
        match (body (parameters inputs args)).run (get store .fresh) (env environment) with
        | .error message => .error (.failed name message)
        | .ok value => .ok (store, (encode value).reread)

def resolveAll : List Call → Except HostError (List (Units × Command × List Data))
  | [] => .ok []
  | call :: calls =>
      match bundle.endpoints call.name with
      | none => .error (.unknown call.name)
      | some (.value _ _) =>
          .error (.badRequest (quoted call.name ++
            units " is a value endpoint, and only writes can be part of a transaction"))
      | some (.command command) =>
          (resolveAll calls).map (fun rest => (call.name, command, call.sent) :: rest)

def invokeAll (store : Store) (calls : List Call) : Except HostError (Store × Data) :=
  match resolveAll bundle calls with
  | .error error => .error error
  | .ok calls => runAll number store calls

def serve (store : Store) (request : Request) : Store × Option Data :=
  match
    match request with
    | .invoke call => invoke number environment bundle store call.name call.sent
    | .atomic first rest => invokeAll number bundle store (first :: rest) with
  | .ok (store, answer) => (store, some answer)
  | .error _ => (store, none)

end Invoke

end Host
end Serve
end Zdeceptron
