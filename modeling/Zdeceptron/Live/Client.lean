import Zdeceptron.Live.Router

/-!
# The browser half of live sync

`decodeEvent` turns an event of either transport into one with a value of the
language, and `receive` routes it to the cells of the page unless its `seq` shows
that it was seen.
-/

namespace Zdeceptron
namespace Live

open Library
open Library.EcmaJson (Data)
open Wire (Value units)

/-- What the cell of a durable key was told: the values it was given, the last of
them last, and how often to read again. -/
structure Cell where
  given : List Value
  refetches : Nat

def Cell.apply (cell : Cell) (value : Value) : Cell :=
  { cell with given := cell.given ++ [value] }

def Cell.refetch (cell : Cell) : Cell :=
  { cell with refetches := cell.refetches + 1 }

abbrev Page := Units → List Cell

def applyUpdate (page : Page) (key : Option Data) (value : Value) : Page :=
  match key with
  | some (.str name) => Function.update page name ((page name).map (fun cell => cell.apply value))
  | _ => page

def resyncAll (page : Page) : Page := fun key => (page key).map Cell.refetch

section Events

/-- An event before its value is decoded: the properties that are looked up. -/
structure RawEvent where
  event : Option Data
  seq : Option Data
  key : Option Data
  value : Option Data

/-- A property of data, `none` being `undefined`. -/
def property (name : Units) : Data → Option Data
  | .obj fields => (fields.find? (fun field => field.1 == name)).map Prod.snd
  | _ => none

/-- The properties of an event of a poll.  Looking at one of `null` throws. -/
def rawEvent : Data → Option RawEvent
  | .null => none
  | data => some
      { event := property (units "event") data
        seq := property (units "seq") data
        key := property (units "key") data
        value := property (units "value") data }

structure Event where
  event : Option Data
  seq : Option Float
  key : Option Data
  value : Value

/-- A `seq` that is a finite number. -/
def finiteSeq : Option Data → Option Float
  | some (.num seq) => if seq.isFinite then some seq else none
  | _ => none

/-- The event with its value decoded.  One whose value is refused asks for a
resync. -/
def decodeEvent (event : RawEvent) : Event :=
  let seq := finiteSeq event.seq
  match event.value with
  | none => { event := event.event, seq := seq, key := event.key, value := .null }
  | some data =>
      match Wire.decode data with
      | .ok value => { event := event.event, seq := seq, key := event.key, value := value }
      | .error _ =>
          { event := some (.str (units "resync")), seq := seq, key := none, value := .null }

/-- The `seq` of a frame: that of its payload if it is a number, else its
identifier, `number` being what `Number` makes of a text. -/
def frameSeq (number : Units → Float) (payload : Data) (lastEventId : Units) : Option Data :=
  match property (units "seq") payload with
  | some (.num seq) => some (.num seq)
  | _ => if lastEventId = [] then none else some (.num (number lastEventId))

/-- A frame as an event; a frame whose data is `null` throws. -/
def decodeFrame (number : Units → Float) (frame : Frame) : Option Event :=
  match (EcmaJson.parse frame.data).getD (.obj []) with
  | .null => none
  | payload => some (decodeEvent
      { event := some (.str frame.event)
        seq := frameSeq number payload frame.lastEventId
        key := property (units "key") payload
        value := property (units "value") payload })

end Events

section Receive

/-- An event whose `seq` does not advance the cursor. -/
def seen (event : Event) (cursor : Option Float) : Bool :=
  match event.seq, cursor with
  | some seq, some cursor => decide (seq ≤ cursor)
  | _, _ => false

def isResync : Option Data → Bool
  | some (.str name) => name == units "resync"
  | _ => false

def isUpdate : Option Data → Bool
  | some (.str name) => name == units "update"
  | _ => false

theorem isResync_update : isResync (some (.str (units "update"))) = false := rfl

theorem isUpdate_update : isUpdate (some (.str (units "update"))) = true := rfl

def advance (event : Event) (cursor : Option Float) : Option Float :=
  if seen event cursor then cursor else event.seq.or cursor

def receive (event : Event) (page : Page) (cursor : Option Float) : Page × Option Float :=
  if isResync event.event then (resyncAll page, advance event cursor)
  else if isUpdate event.event then
    if seen event cursor then (page, cursor)
    else (applyUpdate page event.key event.value, event.seq.or cursor)
  else (page, advance event cursor)

def receiveAll : List Event → Page → Option Float → Page × Option Float
  | [], page, cursor => (page, cursor)
  | event :: events, page, cursor =>
      receiveAll events (receive event page cursor).1 (receive event page cursor).2

/-- An event that `receive` does nothing with: an update that was seen. -/
def discarded (event : Event) (cursor : Option Float) : Bool :=
  !isResync event.event && isUpdate event.event && seen event cursor

/-- No event of a list is discarded when they are routed one after another. -/
def NoneDiscarded : List Event → Page → Option Float → Prop
  | [], _, _ => True
  | event :: events, page, cursor =>
      discarded event cursor = false ∧
        NoneDiscarded events (receive event page cursor).1 (receive event page cursor).2

end Receive

section Transports

def decodedEvents : List Data → List Event
  | [] => []
  | item :: items =>
      match rawEvent item with
      | none => []
      | some event => decodeEvent event :: decodedEvents items

/-- The events a poll feeds to `receive`: those of a good answer. -/
def polledEvents (response : Response) : List Event :=
  if 200 ≤ response.status ∧ response.status ≤ 299 then
    match EcmaJson.parse response.body with
    | some (.arr items) => decodedEvents items
    | _ => []
  else []

/-- The events a stream feeds to `receive`: those of the frames it listens to, up
to an error. -/
def streamedEvents (number : Units → Float) : List Frame → List Event
  | [] => []
  | frame :: frames =>
      if frame.event = units "error" then []
      else if frame.event = units "update" ∨ frame.event = units "resync" ∨
          frame.event = units "ready" then
        match decodeFrame number frame with
        | none => streamedEvents number frames
        | some event => event :: streamedEvents number frames
      else streamedEvents number frames

end Transports

end Live
end Zdeceptron
