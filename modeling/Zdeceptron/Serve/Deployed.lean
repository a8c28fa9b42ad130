import Zdeceptron.Serve.Bundle
import Mathlib.Logic.Function.Basic

/-!
# The deployed router over Deno KV

A durable signal lives in cells, one for each subkey: an index of a written place
names a cell, a field lies inside of one.  The router looks the posted name up in the
table of endpoints, and a command goes to the store at once.
-/

namespace Zdeceptron
namespace Serve
namespace Deployed

open Library
open Library.EcmaJson (Data)
open Wire (Value units encode)

section Cells

abbrev Cells := Units → List (Units × Value)

def isAt : Step → Bool
  | .at _ => true
  | .field _ => false

def joinBlank : List Units → Units
  | [] => []
  | [text] => text
  | text :: texts => text ++ 32 :: joinBlank texts

def subkey (steps : List Step) : Units :=
  joinBlank ((steps.takeWhile isAt).map (fun step => toText step.key))

def fieldPath (steps : List Step) : List Units :=
  (steps.dropWhile isAt).map (fun step => toText step.key)

def isObject : Value → Bool
  | .list _ => true
  | .map _ => true
  | .record _ => true
  | .append _ _ => true
  | _ => false

def replace (produce : Value → Value) : List Units → Value → Value
  | [], current => produce current
  | head :: path, current =>
      let base := if isObject current then spread current else []
      let inner :=
        match fieldOf base head with
        | none => .null
        | some .undefined => .null
        | some value => value
      .record (assignField base head (replace produce path inner))

def appended (current item : Value) : Value :=
  match current with
  | .list items => .list (items ++ [item])
  | _ => .list [item]

def removed (current item : Value) : Value :=
  match current with
  | .list items =>
      .list (items.filter (fun element =>
        EcmaJson.stringify (encode element) != EcmaJson.stringify (encode item)))
  | value => value

def asNumber (number : Units → Float) (value : Value) : Float :=
  if (toNumber number value).isFinite then toNumber number value else Float.ofNat 0

end Cells

section Deno

def putCell (sub : Units) (value : Value) : List (Units × Value) → List (Units × Value)
  | [] => [(sub, value)]
  | (name, other) :: cells =>
      if name = sub then (sub, value) :: cells
      else if sub < name then (sub, value) :: (name, other) :: cells
      else (name, other) :: putCell sub value cells

def modify (cells : Cells) (operation : Operation) (produce : Value → Value → Value) :
    Cells × Value :=
  let steps := (operation.place.map Prod.fst).getD []
  let sub := subkey steps
  let entry := (fieldOf (cells operation.key) sub).getD .null
  let next := replace (fun inner => produce inner operation.value) (fieldPath steps)
    (if isNullish entry then .null else entry)
  (Function.update cells operation.key (putCell sub next (cells operation.key)), next)

def isNull : Value → Bool
  | .null => true
  | _ => false

/-- `store.get` of a whole key: its one cell, or its cells as a record. -/
def get (cells : Cells) (key : Units) : Value :=
  let entries := (cells key).filter (fun cell => cell.1 != units "~version")
  let scalar := (fieldOf entries []).getD .null
  let out := (entries.filter (fun cell => cell.1 != [])).foldl
    (fun out cell => assignField out cell.1 cell.2) []
  if entries = [] then .null
  else if entries.length = 1 ∧ isNull scalar = false then scalar
  else .record (if isNull scalar then out else assignField out [] scalar)

def produceOf (number : Units → Float) : Verb → Value → Value → Value
  | .set => fun _ value => value
  | .append => appended
  | .remove => removed
  | .incr => fun current by' => .num (asNumber number current + asNumber number by')
  | .decr => fun current by' => .num (asNumber number current - asNumber number by')

def perform (number : Units → Float) (cells : Cells) (operation : Operation) :
    Cells × Value :=
  modify cells operation (produceOf number operation.verb)

end Deno

section Router

structure Posted where
  name : Units
  post : Bool
  version : Option Units
  body : Option Data

structure Response where
  status : Nat
  value : Value

def wireVersion : Units := units "1"

def refusal (status : Nat) (message : Units) : Response :=
  ⟨status, .record [(units "error", .str message)]⟩

def refuseVersion (named : Option Units) (what : Units) : Option Response :=
  if named = some wireVersion then none
  else
    some (refusal 400 (what ++ units " was called in wire format " ++
      named.getD (units "none") ++ units " and this server reads " ++ wireVersion ++
      units ". The page was built by a different compiler; reload it."))

variable (number : Units → Float) (environment : Units → Option Units) (bundle : Bundle)

/-- `$env`, `undefined` where nothing is set. -/
def env (key : Units) : Except Units Value :=
  .ok ((environment key).elim .undefined Value.str)

def handle (cells : Cells) (args : List Data) : Endpoint → Cells × Response
  | .command command =>
      let result := perform number cells (command.operation args)
      (result.1, ⟨200, result.2⟩)
  | .value inputs body =>
      match (body (parameters inputs args)).run (fun key => .ok (get cells key))
        (env environment) with
      | .error message => (cells, refusal 500 message)
      | .ok value => (cells, ⟨200, value⟩)

/-- Dispatch a request.  A posted one carries no `wire` parameter, which the two
transports ask for. -/
def route (cells : Cells) (request : Posted) : Cells × Response :=
  if request.name = units "live" then
    (cells, (refuseVersion none (units "`live`")).getD ⟨200, .null⟩)
  else if request.name = units "poll" then
    (cells, (refuseVersion none (units "`poll`")).getD ⟨200, .null⟩)
  else
    match bundle.endpoints request.name with
    | none => (cells, refusal 404 (units "no endpoint named " ++ request.name))
    | some endpoint =>
        if request.post = false then
          (cells, refusal 405 (units "an endpoint takes POST"))
        else
          match refuseVersion request.version request.name with
          | some refused => (cells, refused)
          | none =>
              match request.body with
              | some (.arr args) => handle number environment cells args endpoint
              | _ => (cells, refusal 400 (units "the body must be a JSON array of arguments"))

def posted : Request → Posted
  | .invoke call => ⟨call.name, true, some wireVersion, some (.arr call.sent)⟩
  | .atomic first rest =>
      ⟨units "~atomic", true, some wireVersion,
        some (.arr ((first :: rest).map
          (fun call => .arr [.str call.name, .arr call.sent])))⟩

def serve (cells : Cells) (request : Request) : Cells × Option Data :=
  let result := route number environment bundle cells (posted request)
  (result.1,
    if result.2.status = 200 then some (encode result.2.value).reread else none)

end Router

end Deployed
end Serve
end Zdeceptron
