import Zdeceptron.Calls.Slots

/-!
# What takes arguments

A call, an element that is a view of a foreign, a record or a variant, and a component.  The
checker, the emitter and the expansion of components each match the arguments with the
parameters in a loop of their own.
-/

namespace Zdeceptron
namespace Calls

open Bodies (Arg Param fillSlots allFilled orderedArguments)

variable {α β : Type}

section Messages

def count (n : Nat) (noun : String) : String :=
  if n = 1 then s!"1 {noun}" else s!"{n} {noun}s"

def quoted (names : List String) : List String := names.map fun name => s!"`{name}`"

def english_list (nothing : String) (names : List String) : String :=
  match (quoted names).reverse with
  | [] => nothing
  | [last] => last
  | last :: rest =>
      let front := ", ".intercalate rest.reverse
      s!"{front}, and {last}"

structure Report (α : Type) where
  message : String
  argument : Option α

structure Wording where
  passes_more : String
  parameters : List String → String
  -- what a mismatch of types begins with
  subject : String → String → String

end Messages

section Checker

structure Matching (α : Type) where
  slots : List (Option α)
  next : Nat
  reports : List (Report α)

namespace Matching

def start (names : List String) : Matching α := ⟨List.replicate names.length none, 0, []⟩

def report (m : Matching α) (message : String) (argument : Option α) : Matching α :=
  { m with reports := m.reports ++ [⟨message, argument⟩] }

def take (w : Wording) (name : String) (names : List String) (m : Matching α) :
    Arg α → Matching α
  | .positional expr =>
      if m.slots.length ≤ m.next then
        let takes := count names.length "argument"
        m.report s!"`{name}` takes {takes}, and this {w.passes_more} more." (some expr)
      else { m with slots := m.slots.set m.next (some expr), next := m.next + 1 }
  | .named written expr =>
      match names.idxOf? written with
      | some index => { m with slots := m.slots.set index (some expr) }
      | none =>
          let parameters := w.parameters names
          m.report s!"`{name}` has no parameter named `{written}`. Its parameters are {parameters}."
            (some expr)

end Matching

def judgeSlot (w : Wording) (expect : Nat → α → Bool) (name param : String) (index : Nat) :
    Option α → List (Report α)
  | some expr => if expect index expr then [] else [⟨w.subject name param, some expr⟩]
  | none => [⟨s!"`{name}` is missing an argument for `{param}`.", none⟩]

def judge (w : Wording) (expect : Nat → α → Bool) (name : String) :
    List String → Nat → List (Option α) → List (Report α)
  | param :: names, index, slot :: slots =>
      judgeSlot w expect name param index slot ++ judge w expect name names (index + 1) slots
  | _, _, _ => []

/-- What is compared with the types of the parameters, and what is reported.  `expect` says
whether the solver accepts the type found for an argument as that of a parameter. -/
def matched (w : Wording) (expect : Nat → α → Bool) (name : String) (names : List String)
    (args : List (Arg α)) : List (Option α) × List (Report α) :=
  let m := args.foldl (Matching.take w name names) (Matching.start names)
  (m.slots, m.reports ++ judge w expect name names 0 m.slots)

def Checker.call (expect : Nat → α → Bool) (name : String) (names : List String)
    (args : List (Arg α)) : List (Option α) × List (Report α) :=
  matched ⟨"call passes", english_list "none", fun name param => s!"`{param}` of `{name}` is"⟩
    expect name names args

def Checker.view_foreign_element (expect : Nat → α → Bool) (name : String) (names : List String)
    (args : List (Arg α)) : List (Option α) × List (Report α) :=
  matched ⟨"writes", ", ".intercalate, fun _ param => s!"`{param}` is"⟩ expect name names args

namespace Construct

/-- A record is built by naming its fields, and its types are compared at once. -/
def take (expect : Nat → α → Bool) (owner : String) (names : List String) (m : Matching α) :
    Arg α → Matching α
  | .positional expr =>
      let first := names.head?.getD "field"
      let fields := english_list "none" names
      m.report
        s!"`{owner}` is built by naming its fields, so write `{first} is …`. Its fields are {fields}."
        (some expr)
  | .named name expr =>
      match names.idxOf? name with
      | some index =>
          let twice := if (m.slots[index]?.join).isSome then
            [⟨s!"`{name}` is given twice here. A field is named once.", some expr⟩] else []
          let mismatch := if expect index expr then [] else
            [⟨s!"`{name}` of `{owner}` is", some expr⟩]
          { m with
            slots := m.slots.set index (some expr)
            reports := m.reports ++ twice ++ mismatch }
      | none =>
          let fields := english_list "none" names
          m.report s!"`{owner}` has no field named `{name}`. Its fields are {fields}." (some expr)

end Construct

def missing (names : List String) (slots : List (Option α)) : List String :=
  ((names.zip slots).filter fun slot => slot.2.isNone).map Prod.fst

def Checker.construct (expect : Nat → α → Bool) (owner : String) (names : List String)
    (args : List (Arg α)) : List (Option α) × List (Report α) :=
  let m := args.foldl (Construct.take expect owner names) (Matching.start names)
  match missing names m.slots with
  | [] => (m.slots, m.reports)
  | absent =>
      let fields := english_list "none" absent
      let message := s!"`{owner}` is missing {fields}. Every field is given a value, " ++
        "because there is no value in ZDeceptron that stands for nothing."
      (m.slots, m.reports ++ [⟨message, none⟩])

end Checker

section Emitter

def Emitter.ordered_arguments (params : List String) (args : List (Arg α)) : Option (List α) :=
  orderedArguments params args

def ViewEmitter.foreign_arguments (names : List String) (args : List (Arg α)) :
    Option (List α) :=
  orderedArguments names args

def fillFields (fields : List String) :
    List (Arg α) → List (Option α) → Option (List (Option α))
  | [], slots => some slots
  | .positional _ :: _, _ => none
  | .named name value :: args, slots =>
      match fields.idxOf? name with
      | some index => fillFields fields args (slots.set index (some value))
      | none => none

def Emitter.by_declaration_order (fields : List String) (args : List (Arg α)) :
    Option (List α) :=
  (fillFields fields args (List.replicate fields.length none)).bind allFilled

end Emitter

section Instantiate

structure Component where
  params : List Param
  distinct : (params.map Param.id).Nodup

def Component.names (component : Component) : List String := component.params.map Param.name

structure Binding (α : Type) where
  bound : Nat → Option α
  positional : Nat
  reports : List (Report α)
  failed : Bool

namespace Binding

def start : Binding α := ⟨fun _ => none, 0, [], false⟩

def fail (b : Binding α) (message : String) (argument : Option α) : Binding α :=
  { b with reports := b.reports ++ [⟨message, argument⟩], failed := true }

def insert (b : Binding α) (param : Param) (value : α) : Binding α :=
  { b with bound := Function.update b.bound param.id (some value) }

def take (name : String) (component : Component) (b : Binding α) : Arg α → Binding α
  | .positional value =>
      match component.params[b.positional]? with
      | none =>
          let takes := count component.params.length "argument"
          b.fail s!"`{name}` takes {takes}, and this is one more." (some value)
      | some param => { b.insert param value with positional := b.positional + 1 }
  | .named written value =>
      match component.params.find? (fun param => param.name == written) with
      | none =>
          let takes := english_list "no arguments" component.names
          b.fail s!"`{name}` has no parameter called `{written}`. It takes {takes}." (some value)
      | some param =>
          if (b.bound param.id).isSome then
            (b.insert param value).fail
              s!"`{written}` is given twice here. Each parameter takes one value." (some value)
          else b.insert param value

end Binding

/-- What the parameters of a component stand for in this use, and what is reported. -/
def Instantiate.bind_arguments (name : String) (component : Component) (args : List (Arg α)) :
    Option (Nat → Option α) × List (Report α) :=
  let b := args.foldl (Binding.take name component) Binding.start
  let absent := (component.params.filter fun param => (b.bound param.id).isNone).map Param.name
  let b := if absent = [] then b else
    let needs := english_list "no arguments" absent
    b.fail s!"`{name}` needs {needs}, which this does not give it." none
  (if b.failed then none else some b.bound, b.reports)

end Instantiate

section Uses

inductive Use
  | call (name : String) (params : List String)
  | element (name : String) (params : List String)
  | record (name : String) (fields : List String)
  | component (name : String) (component : Component)

namespace Use

def params : Use → List String
  | call _ params => params
  | element _ params => params
  | record _ fields => fields
  | component _ declared => declared.names

def reports (expect : Nat → α → Bool) (args : List (Arg α)) : Use → List (Report α)
  | call name params => (Checker.call expect name params args).2
  | element name params => (Checker.view_foreign_element expect name params args).2
  | record name fields => (Checker.construct expect name fields args).2
  | component name declared => (Instantiate.bind_arguments name declared args).2

/-- What is emitted for each parameter.  A component is emitted as its body, in which each
parameter is what it stands for. -/
def passed (args : List (Arg α)) : Use → Option (List α)
  | call _ params => Emitter.ordered_arguments params args
  | element _ params => ViewEmitter.foreign_arguments params args
  | record _ fields => Emitter.by_declaration_order fields args
  | component name declared =>
      (Instantiate.bind_arguments name declared args).1.bind fun bound =>
        allFilled (declared.params.map fun param => bound param.id)

/-- What the checker compares with the type of each parameter.  It reads the body of a
component with what each parameter stands for. -/
def compared (expect : Nat → α → Bool) (args : List (Arg α)) : Use → List (Option α)
  | call name params => (Checker.call expect name params args).1
  | element name params => (Checker.view_foreign_element expect name params args).1
  | record name fields => (Checker.construct expect name fields args).1
  | component name declared =>
      declared.params.map fun param =>
        (Instantiate.bind_arguments name declared args).1.bind fun bound => bound param.id

def numbered (args : List (Arg α)) : List (Arg (Nat × α)) :=
  args.mapIdx fun i arg => arg.map fun value => (i, value)

def Receives (use : Use) (args : List (Arg α)) (param position : Nat) : Prop :=
  ∃ es, use.passed (numbered args) = some es ∧ es[param]?.map Prod.fst = some position

structure OneEach (use : Use) (expect : Nat → α → Bool) (args : List (Arg α)) : Prop where
  receives : ∀ param < use.params.length, ∃! i, i < args.length ∧ use.Receives args param i
  received : ∀ i < args.length, ∃! param, use.Receives args param i
  passes : ∃ es, use.passed args = some es ∧ use.compared expect args = es.map some

end Use

end Uses

end Calls
end Zdeceptron
