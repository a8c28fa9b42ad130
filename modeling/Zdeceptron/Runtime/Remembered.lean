import Zdeceptron.Library.Machine
import Zdeceptron.Wire.RoundTrip

/-!
# A remembered signal

A `remembered` signal keeps its value in the browser's own storage.  A tab reads the entry
when it opens, writes the entry and its own cell at once, and hears of the other tabs'
writes through storage events, which come later and in order.
-/

namespace Zdeceptron
namespace Remembered

open Library
open Wire (Value ParseError stringify parse settle units)

section Signal

/-- An event of the browser's storage.  One of a `clear` has no key, and one of a removed
entry has no new value. -/
structure StorageEvent where
  key : Option Units
  newValue : Option Units

abbrev Storage := Units → Option Units

/-- Where a `remembered` signal's entry lives, given its source name. -/
def rememberedKey (name : Units) : Units := units "zd:" ++ name

/-- The value a signal starts with; `none` is a browser without storage. -/
def load (store : Option Storage) (key : Units) (initial : Value) : Except ParseError Value :=
  match store with
  | none => .ok initial
  | some entries =>
      match entries key with
      | none => .ok initial
      | some stored => parse stored

def save (store : Option Storage) (key : Units) (value : Value) : Option Storage :=
  store.map (fun entries => Function.update entries key (some (stringify value)))

/-- What the listener of one signal leaves in its cell.  A text that does not decode throws,
and the cell stays. -/
def listen (key : Units) (initial : Value) (event : StorageEvent) (cell : Value) : Value :=
  if event.key = some key then
    match event.newValue with
    | none => initial
    | some text =>
        match parse text with
        | .ok value => value
        | .error _ => cell
  else cell

inductive Next
  | value (v : Value)
  | function (f : Value → Value)

def Next.resolve (read : Value) : Next → Value
  | .value v => v
  | .function f => f read

theorem rememberedKey_inj {a b : Units} : rememberedKey a = rememberedKey b ↔ a = b :=
  List.append_right_inj _

end Signal

section Browser

/-- The remembered signals of a program and what each of them starts with. -/
structure Program where
  names : List Units
  initial : Units → Value

/-- One tab: the cell of each signal and the events in flight to it, in order. -/
structure Tab where
  cells : Units → Value
  inbox : List StorageEvent

structure Browser where
  store : Storage
  tabs : List Tab

/-- One step: a tab opens or closes, writes a signal, or hears the first event in flight to
it; or something else removes an entry. -/
inductive Step
  | opens
  | closes (tab : Nat)
  | writes (tab : Nat) (name : Units) (next : Next)
  | hears (tab : Nat)
  | removed (name : Units)

variable (program : Program)

/-- A tab that opens loads every signal; one entry that does not decode stops it. -/
def Program.start (store : Storage) : Option Tab :=
  if program.names.all (fun name =>
      (load (some store) (rememberedKey name) (program.initial name)).isOk) then
    let cells (name : Units) : Value :=
      match load (some store) (rememberedKey name) (program.initial name) with
      | .ok value => value
      | .error _ => program.initial name
    some { cells := cells, inbox := [] }
  else none

def Tab.hear (tab : Tab) (event : StorageEvent) : Tab :=
  let cells (name : Units) : Value :=
    listen (rememberedKey name) (program.initial name) event (tab.cells name)
  { tab with cells := cells }

def Tab.post (tab : Tab) (event : StorageEvent) : Tab :=
  { tab with inbox := tab.inbox ++ [event] }

def Tab.set (tab : Tab) (name : Units) (value : Value) : Tab :=
  { tab with cells := Function.update tab.cells name value }

/-- The tabs after one of them wrote: its own cell, and an event to every other. -/
def written (tabs : List Tab) (i : Nat) (name : Units) (value : Value) : List Tab :=
  tabs.mapIdx (fun j tab =>
    if j = i then tab.set name value
    else tab.post ⟨some (rememberedKey name), some (stringify value)⟩)

def heard (tabs : List Tab) (i : Nat) (tab : Tab) (event : StorageEvent)
    (rest : List StorageEvent) : List Tab :=
  tabs.set i (Tab.hear program { tab with inbox := rest } event)

local instance : LawfulBEq Units := inferInstance

/-- One step of the browser; `none` is a step that cannot happen. -/
def step (s : Browser) : Step → Option Browser
  | .opens => (program.start s.store).map (fun tab => { s with tabs := s.tabs ++ [tab] })
  | .closes i => if i < s.tabs.length then some { s with tabs := s.tabs.eraseIdx i } else none
  | .writes i name next =>
      match s.tabs[i]? with
      | none => none
      | some tab =>
          if name ∈ program.names then
            let value := next.resolve (tab.cells name)
            (save (some s.store) (rememberedKey name) value).map (fun store =>
              { store := store, tabs := written s.tabs i name value })
          else none
  | .hears i =>
      match s.tabs[i]? with
      | none => none
      | some tab =>
          match tab.inbox with
          | [] => none
          | event :: rest => some { s with tabs := heard program s.tabs i tab event rest }
  | .removed name =>
      some
        { store := Function.update s.store (rememberedKey name) none
          tabs := s.tabs.map (fun tab => tab.post ⟨some (rememberedKey name), none⟩) }

def machine : Machine Browser Step := ⟨step program⟩

def closed (store : Storage) : Browser := ⟨store, []⟩

def Quiet (s : Browser) : Prop := ∀ tab ∈ s.tabs, tab.inbox = []

/-- Two values the language does not tell apart: links as lists and `-0` as `0`. -/
def Same (a b : Value) : Prop := settle a = settle b

/-- A value is what the entry of a signal decodes to, or its starting value. -/
def Stored (store : Storage) (name : Units) (value : Value) : Prop :=
  ∃ decoded, load (some store) (rememberedKey name) (program.initial name) = .ok decoded ∧
    Same value decoded

def OneValue (s : Browser) : Prop :=
  ∀ tab ∈ s.tabs, ∀ name ∈ program.names, Stored program s.store name (tab.cells name)

/-- A write that is a function of the old value is applied to the value it replaces. -/
def Applied (s : Browser) : Step → Prop
  | .writes i name (.function _) =>
      ∀ tab, s.tabs[i]? = some tab → name ∈ program.names →
        Stored program s.store name (tab.cells name)
  | _ => True

/-- What a tab holds once it has heard what is in flight, if it holds `value` now. -/
def Tab.received (tab : Tab) (name : Units) (value : Value) : Value :=
  tab.inbox.foldl (fun cell event =>
    listen (rememberedKey name) (program.initial name) event cell) value

/-- What is in flight to the tab that writes leaves standing the value that is written, as
it is read back. -/
def Lands (s : Browser) : Step → Prop
  | .writes i name next =>
      ∀ tab, s.tabs[i]? = some tab → name ∈ program.names →
        ∃ decoded, parse (stringify (next.resolve (tab.cells name))) = .ok decoded ∧
          Same (tab.received program name (next.resolve (tab.cells name))) decoded
  | _ => True

/-- What is in flight to a tab that writes a function of the old value leaves the value it
reads standing. -/
def Reads (s : Browser) : Step → Prop
  | .writes i name (.function _) =>
      ∀ tab, s.tabs[i]? = some tab → name ∈ program.names →
        Same (tab.received program name (tab.cells name)) (tab.cells name)
  | _ => True

/-- Neither what a write reads nor what it leaves is undone by what is in flight. -/
def Undisturbed (s : Browser) (e : Step) : Prop := Lands program s e ∧ Reads program s e

end Browser

section Steps

variable {program : Program} {s s' : Browser} {e : Step}

theorem step_cases (h : step program s e = some s') :
    (e = .opens ∧ ∃ tab, program.start s.store = some tab ∧
      s' = { s with tabs := s.tabs ++ [tab] }) ∨
    (∃ i, e = .closes i ∧ s' = { s with tabs := s.tabs.eraseIdx i }) ∨
    (∃ i name next tab, e = .writes i name next ∧ s.tabs[i]? = some tab ∧
      name ∈ program.names ∧ s' =
        { store := Function.update s.store (rememberedKey name)
            (some (stringify (next.resolve (tab.cells name))))
          tabs := written s.tabs i name (next.resolve (tab.cells name)) }) ∨
    (∃ i tab event rest, e = .hears i ∧ s.tabs[i]? = some tab ∧ tab.inbox = event :: rest ∧
      s' = { s with tabs := heard program s.tabs i tab event rest }) ∨
    (∃ name, e = .removed name ∧ s' =
      { store := Function.update s.store (rememberedKey name) none
        tabs := s.tabs.map (fun tab => tab.post ⟨some (rememberedKey name), none⟩) }) := by
  cases e with
  | opens =>
      obtain ⟨tab, htab, rfl⟩ := Option.map_eq_some_iff.mp h
      exact .inl ⟨rfl, tab, htab, rfl⟩
  | closes i =>
      simp only [step, Option.ite_none_right_eq_some, Option.some.injEq] at h
      exact .inr (.inl ⟨i, rfl, h.2.symm⟩)
  | writes i name next =>
      simp only [step] at h
      cases htab : s.tabs[i]? with
      | none => simp [htab] at h
      | some tab =>
          simp only [htab, save, Option.map_some, Option.ite_none_right_eq_some,
            Option.some.injEq] at h
          exact .inr (.inr (.inl ⟨i, name, next, tab, rfl, htab, h.1, h.2.symm⟩))
  | hears i =>
      simp only [step] at h
      cases htab : s.tabs[i]? with
      | none => simp [htab] at h
      | some tab =>
          cases hinbox : tab.inbox with
          | nil => simp [htab, hinbox] at h
          | cons event rest =>
              simp only [htab, hinbox, Option.some.injEq] at h
              exact .inr (.inr (.inr (.inl ⟨i, tab, event, rest, rfl, htab, hinbox, h.symm⟩)))
  | removed name =>
      simp only [step, Option.some.injEq] at h
      exact .inr (.inr (.inr (.inr ⟨name, rfl, h.symm⟩)))

theorem step_writes {i : Nat} {name : Units} {next : Next} {tab : Tab}
    (htab : s.tabs[i]? = some tab) (hname : name ∈ program.names) :
    step program s (.writes i name next) = some
      { store := Function.update s.store (rememberedKey name)
          (some (stringify (next.resolve (tab.cells name))))
        tabs := written s.tabs i name (next.resolve (tab.cells name)) } := by
  simp [step, htab, hname, save]

theorem getElem?_written (tabs : List Tab) (i j : Nat) (name : Units) (value : Value) :
    (written tabs i name value)[j]? = (tabs[j]?).map (fun tab =>
      if j = i then tab.set name value
      else tab.post ⟨some (rememberedKey name), some (stringify value)⟩) :=
  List.getElem?_mapIdx

end Steps

section Received

variable {program : Program} {store : Storage} {tab : Tab} {name other : Units}
  {value decoded : Value} {text : Units} {newValue : Option Units}

theorem listen_other (h : other ≠ name) (initial : Value) :
    listen (rememberedKey other) initial ⟨some (rememberedKey name), newValue⟩ value = value := by
  have hkey : some (rememberedKey name) ≠ some (rememberedKey other) := by
    simpa [rememberedKey_inj] using h.symm
  rw [listen, if_neg hkey]

theorem listen_text (h : parse text = .ok decoded) (initial : Value) :
    listen (rememberedKey name) initial ⟨some (rememberedKey name), some text⟩ value = decoded := by
  simp [listen, h]

theorem listen_none (initial : Value) :
    listen (rememberedKey name) initial ⟨some (rememberedKey name), none⟩ value = initial := by
  simp [listen]

theorem received_post (event : StorageEvent) :
    (tab.post event).received program name value =
      listen (rememberedKey name) (program.initial name) event
        (tab.received program name value) := by
  simp [Tab.received, Tab.post]

theorem received_hear {event : StorageEvent} {rest : List StorageEvent}
    (h : tab.inbox = event :: rest) :
    (Tab.hear program { tab with inbox := rest } event).received program name
        ((Tab.hear program { tab with inbox := rest } event).cells name) =
      tab.received program name (tab.cells name) := by
  simp [Tab.received, Tab.hear, h]

theorem received_idle (h : tab.inbox = []) : tab.received program name value = value := by
  simp [Tab.received, h]

theorem stored_update_other (h : other ≠ name) (entry : Option Units) :
    Stored program (Function.update store (rememberedKey name) entry) other value ↔
      Stored program store other value := by
  have hkey : rememberedKey other ≠ rememberedKey name := by
    simpa [rememberedKey_inj] using h
  simp only [Stored, load, Function.update_of_ne hkey]

theorem stored_update_some :
    Stored program (Function.update store (rememberedKey name) (some text)) name value ↔
      ∃ decoded, parse text = .ok decoded ∧ Same value decoded := by
  simp only [Stored, load, Function.update_self]

theorem stored_update_none :
    Stored program (Function.update store (rememberedKey name) none) name value ↔
      Same value (program.initial name) := by
  simp [Stored, load]

theorem stored_start (h : program.start store = some tab) (hname : name ∈ program.names) :
    tab.inbox = [] ∧ Stored program store name (tab.cells name) := by
  unfold Program.start at h
  split_ifs at h with hall
  obtain rfl := Option.some.inj h
  refine ⟨rfl, ?_⟩
  have hload := List.all_eq_true.mp hall name hname
  cases hdecoded : load (some store) (rememberedKey name) (program.initial name) with
  | error error => simp [hdecoded, Except.isOk, Except.toBool] at hload
  | ok decoded => exact ⟨decoded, hdecoded, by simp only [hdecoded]; rfl⟩

end Received

end Remembered
end Zdeceptron
