import Zdeceptron.Live.Client

/-!
# What a page's cells show

An event tells the cells of one key a value, or all cells to read again.  A cell is told a
value at once; a reading asks the server, and only the answer to the last call counts.
-/

namespace Zdeceptron
namespace Live

open Library
open Library.EcmaJson (Data)
open Wire (Value units)

section Actions

inductive Action
  | apply (key : Option Data) (value : Value)
  | resync
  | nothing

/-- What `receive` does with an event. -/
def actionOf (event : Event) (cursor : Option Float) : Action :=
  if isResync event.event then .resync
  else if isUpdate event.event then
    if seen event cursor then .nothing else .apply event.key event.value
  else .nothing

variable {κ : Type}

def Action.perform (apply : Value → κ → κ) (refetch : κ → κ) (cells : Units → List κ) :
    Action → Units → List κ
  | .apply (some (.str name)) value =>
      Function.update cells name ((cells name).map (apply value))
  | .apply _ _ => cells
  | .resync => fun key => (cells key).map refetch
  | .nothing => cells

end Actions

section Remote

inductive Shown
  | loading
  | ready (value : Value)
  | failed (message : Units)

/-- A `durable` signal read from the browser: what it shows, the number of its last call or
push, and the calls that are on their way. -/
structure RemoteCell where
  shown : Shown
  generation : Nat
  calls : List Nat

namespace RemoteCell

def start (cell : RemoteCell) : RemoteCell where
  shown := .loading
  generation := cell.generation + 1
  calls := cell.calls ++ [cell.generation + 1]

/-- The cell of `durable`, which calls when it is made. -/
def new : RemoteCell := start ⟨.loading, 0, []⟩

def apply (value : Value) (cell : RemoteCell) : RemoteCell :=
  { cell with shown := .ready value, generation := cell.generation + 1 }

def refetch (cell : RemoteCell) : RemoteCell := cell.start

def answered (mine : Nat) (answer : Except Units Value) (cell : RemoteCell) : RemoteCell where
  shown :=
    if mine = cell.generation then
      match answer with
      | .ok value => .ready value
      | .error message => .failed message
    else cell.shown
  generation := cell.generation
  calls := cell.calls.erase mine

theorem answered_of_stale {mine : Nat} {cell : RemoteCell} (h : mine ≠ cell.generation)
    (answer : Except Units Value) : (cell.answered mine answer).shown = cell.shown :=
  if_neg h

end RemoteCell

end Remote

section Items

/-- What a transport hands over: a frame of a stream, or one event of a poll's answer. -/
inductive Item
  | frame (frame : Frame)
  | polled (data : Data)

def Item.raw (number : Units → Float) : Item → Option RawEvent
  | .frame sent =>
      match (EcmaJson.parse sent.data).getD (.obj []) with
      | .null => none
      | payload => some
          { event := some (.str sent.event)
            seq := frameSeq number payload sent.lastEventId
            key := property (units "key") payload
            value := property (units "value") payload }
  | .polled data => rawEvent data

def Item.event (number : Units → Float) : Item → Option Event
  | .frame sent => decodeFrame number sent
  | .polled data => (rawEvent data).map decodeEvent

theorem Item.event_eq (number : Units → Float) (item : Item) :
    item.event number = (item.raw number).map decodeEvent := by
  cases item with
  | polled data => rfl
  | frame sent =>
      simp only [Item.event, Item.raw, decodeFrame]
      cases (EcmaJson.parse sent.data).getD (.obj []) <;> rfl

end Items

end Live
end Zdeceptron
