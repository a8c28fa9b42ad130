import Zdeceptron.Serve.Script

/-!
# An emitted bundle and what a browser asks of it

A value endpoint computes from its inputs, the durable cells and the environment; a
command is one store operation on its arguments.  The browser invokes an endpoint or
posts the commands of a handler as one transaction.
-/

namespace Zdeceptron
namespace Serve

open Library
open Library.EcmaJson (Data)
open Wire (Value units encode IsZed IsFieldName)

section Endpoints

inductive Verb
  | set
  | incr
  | decr
  | append
  | remove
deriving DecidableEq

inductive Segment
  | index
  | field (name : Units)

inductive Step
  | at (index : Value)
  | field (name : Units)

def Step.key : Step → Value
  | .at index => index
  | .field name => .str name

structure Command where
  key : Units
  verb : Verb
  path : List Segment
  base : Option Value
  fields : ∀ name, .field name ∈ path → IsFieldName name

/-- A value handler.  A read of a cell falls back to the literal the signal starts at
and whatever is computed between the reads is in `next`. -/
inductive Body
  | done (value : Value)
  | throw (message : Units)
  | read (key : Units) (starting : Option Value) (next : Value → Body)
  | environment (key : Units) (next : Value → Body)

inductive Endpoint
  | value (inputs : List Units) (body : (Units → Value) → Body)
  | command (command : Command)

/-- The endpoints by name.  No name of the language has a `~` in it. -/
structure Bundle where
  endpoints : Units → Option Endpoint
  named : ∀ name endpoint, endpoints name = some endpoint → 126 ∉ name

end Endpoints

section Handlers

/-- An argument of a handler, `undefined` past the last. -/
def argument (args : List Data) (i : Nat) : Value := (args[i]?.map raw).getD .undefined

/-- The place a command writes: its indices are the arguments from the second on. -/
def resolve (args : List Data) : Nat → List Segment → List Step
  | _, [] => []
  | i, .index :: path => .at (argument args i) :: resolve args (i + 1) path
  | i, .field name :: path => .field name :: resolve args i path

/-- A call of the store.  Path and starting value are there together or not at all. -/
structure Operation where
  verb : Verb
  key : Units
  value : Value
  place : Option (List Step × Value)

def Command.operation (command : Command) (args : List Data) : Operation where
  verb := command.verb
  key := command.key
  value := argument args 0
  place :=
    match command.path with
    | [] => none
    | path => some (resolve args 1 path, command.base.getD .undefined)

def parameters (inputs : List Units) (args : List Data) (name : Units) : Value :=
  ((inputs.zipIdx.reverse.find? (fun p => p.1 == name)).map
    (fun p => argument args p.2)).getD .undefined

def Body.run (get environment : Units → Except Units Value) : Body → Except Units Value
  | .done value => .ok value
  | .throw message => .error message
  | .read key starting next =>
      match get key with
      | .error message => .error message
      | .ok value =>
          (next (if isNullish value then starting.getD value else value)).run get environment
  | .environment key next =>
      match environment key with
      | .error message => .error message
      | .ok value => (next value).run get environment

end Handlers

section Requests

structure Call where
  name : Units
  args : List Value
  zed : ∀ value ∈ args, IsZed value

def Call.sent (call : Call) : List Data := call.args.map (fun value => (encode value).reread)

inductive Request
  | invoke (call : Call)
  | atomic (first : Call) (rest : List Call)

end Requests

end Serve
end Zdeceptron
