import Zdeceptron.Component.Declare
import Mathlib.Logic.Function.Basic

/-!
# One declaration in two places

The cell a declaration becomes is run beside the rest of its page: the page's schedulers
fire, its handlers write, its other cells move.  A declaration gives its readers the same
values in both places, and takes the same writes, exactly when its clause is not that of a
stepping clock and no input element is bound to it.
-/

namespace Zdeceptron
namespace Component

open Types
open Wire (Value)

section Run

inductive Scheduler
  | setInterval
  | requestAnimationFrame
  | setTimeout

/-- What happens on a page, to one declaration of it: its timer of a kind fires at a moment,
the handler of a use runs, with what the visitor has typed, or another cell moves. -/
inductive Event
  | fires (scheduler : Scheduler) (now : Float)
  | runs (use : Nat) (typed : Value)
  | moves (name : String) (value : Value)

structure Page where
  cells : String → Value
  value : Value
  start : Float
  base : Option Float

variable {Expr : Type} (X : Expressions Expr)

def resting_value : Clock → Value
  | .interval _ => .num 0
  | .frame => .num 0
  | .delay _ => .bool false

def Rest.value (ρ : String → Value) : Rest Expr → Value
  | .written e => X.value ρ e
  | .resting clock => resting_value clock

namespace Construct

def load (cells : String → Value) (now : Float) : Construct Expr → Page
  | signal value => ⟨cells, value.value X cells, now, none⟩
  | derived _ => ⟨cells, .undefined, now, none⟩
  | everyMs _ => ⟨cells, .num 0, now, none⟩
  | everyFrame => ⟨cells, .num 0, now, none⟩
  | afterMs _ => ⟨cells, .bool false, now, none⟩
  | steppingMs _ start _ => ⟨cells, start.value X cells, now, none⟩
  | steppingFrame start _ => ⟨cells, start.value X cells, now, none⟩

def read (page : Page) : Construct Expr → Value
  | derived body => body.value X page.cells
  | _ => page.value

/-- The value an expression has on the page, the declaration's own name in scope. -/
def here (name : String) (page : Page) (call : Construct Expr) (e : Expr) : Value :=
  X.value (Function.update page.cells name (call.read X page)) e

def fire (name : String) (scheduler : Scheduler) (now : Float) (page : Page)
    (call : Construct Expr) : Page :=
  match call, scheduler with
  | everyMs _, .setInterval => { page with value := .num (now - page.start) }
  | everyFrame, .requestAnimationFrame =>
      { page with
        value := .num (now - page.base.getD now)
        base := some (page.base.getD now) }
  | afterMs _, .setTimeout => { page with value := .bool true }
  | steppingMs ms start step, .setInterval =>
      { page with value := here X name page (steppingMs ms start step) step }
  | steppingFrame start step, .requestAnimationFrame =>
      { page with value := here X name page (steppingFrame start step) step }
  | _, _ => page

end Construct

/-- A handler's write goes through the setter; without one there is nothing to call. -/
def Emitted.write (emitted : Emitted Expr) (value : Value) (page : Page) : Page :=
  if emitted.setter then { page with value := value } else page

def Emitted.step (emitted : Emitted Expr) (name : String) (uses : List (Use Expr))
    (page : Page) : Event → Page
  | .fires scheduler now => emitted.construct.fire X name scheduler now page
  | .runs use typed =>
      match uses[use]? with
      | some (.statement value) =>
          emitted.write (emitted.construct.here X name page value) page
      | some .element => emitted.write typed page
      | none => page
  | .moves other value => { page with cells := Function.update page.cells other value }

/-- What the readers are given: when the page is loaded and after each event. -/
def Emitted.readings (emitted : Emitted Expr) (name : String) (uses : List (Use Expr)) :
    Page → List Event → List Value
  | page, [] => [emitted.construct.read X page]
  | page, event :: events =>
      emitted.construct.read X page ::
        emitted.readings name uses (emitted.step X name uses page event) events

def Emitted.observed (emitted : Emitted Expr) (name : String) (uses : List (Use Expr))
    (cells : String → Value) (now : Float) (events : List Event) : List Value :=
  emitted.readings X name uses (emitted.construct.load X cells now) events

end Run

section Plain

variable {Expr : Type} {X : Expressions Expr} {outer : List String} {state : StateDecl Expr}
  {uses : List (Use Expr)}

variable {l : LocalSignal Expr} {scope : List String}

theorem check_local_use_eq {s : Signal Expr}
    (hty : l.ty = s.ty) (hsource : l.is_source = s.is_source) (hclock : l.clock = s.clock)
    (hstep : l.step = s.step) {use : Use Expr} (huse : use ≠ .element) :
    check_local_use X scope l use = check_use X scope s use := by
  cases use with
  | element => exact absurd rfl huse
  | statement value =>
      rw [check_local_use, check_use, hty, hsource, hclock, hstep]

theorem all_check_local_use {s : Signal Expr}
    (hty : l.ty = s.ty) (hsource : l.is_source = s.is_source) (hclock : l.clock = s.clock)
    (hstep : l.step = s.step) (huses : Use.element ∉ uses) :
    uses.all (check_local_use X scope l) = uses.all (check_use X scope s) := by
  rw [Bool.eq_iff_iff, List.all_eq_true, List.all_eq_true]
  refine forall₂_congr fun use hmem => ?_
  rw [check_local_use_eq hty hsource hclock hstep fun helement => huses (helement ▸ hmem)]

theorem instantiated_of_top_level {emitted : Emitted Expr} (hplain : ¬ state.init.Stepping)
    (huses : Use.element ∉ uses) (htop : top_level X outer state uses = some emitted) :
    instantiated X outer state uses = some emitted := by
  obtain ⟨s, hsignal, hcycle, hbody, hwrites, hemit⟩ := (top_level_eq_some X).mp htop
  rw [instantiated_eq_some]
  rw [signal] at hsignal
  cases hinit : state.init with
  | clock spec =>
      rw [hinit] at hsignal
      cases hsignal
      refine ⟨⟨state.ty, false, some spec, none, .resting spec⟩, ?_, hbody, ?_, hemit⟩
      · rw [component_state, hinit]
      · exact (all_check_local_use rfl rfl rfl rfl huses).trans hwrites
  | stepping clock start step =>
      rw [hinit] at hplain
      exact absurd trivial hplain
  | _ e =>
      rw [hinit] at hsignal
      obtain ⟨init, hresolved, hs⟩ := Option.bind_eq_some_iff.mp hsignal
      cases hs
      have hsame := ((expr_eq_some X).mp hresolved).2
      subst hsame
      have hname : state.name ∉ X.names e := by
        simpa [derivation_cycle_check, Rest.mentions] using hcycle
      refine ⟨⟨state.ty, _, none, none, .written e⟩, ?_, hbody, ?_, hemit⟩
      · rw [component_state, hinit]
        simp only [expr_outer X hresolved hname, Option.bind_eq_bind, Option.bind_some]
      · exact (all_check_local_use rfl rfl rfl rfl huses).trans hwrites

end Plain

section Stepping

variable {Expr : Type} {X : Expressions Expr} {outer : List String} {state : StateDecl Expr}
  {uses : List (Use Expr)} {clock : Clock} {start step : Expr}

variable {emitted : Emitted Expr}

theorem construct_of_top_level (hinit : state.init = .stepping clock start step)
    (htop : top_level X outer state uses = some emitted) :
    emitted.construct = stepping_call clock (.written start) step := by
  obtain ⟨s, hsignal, -, -, -, hemit⟩ := (top_level_eq_some X).mp htop
  rw [signal, hinit] at hsignal
  obtain ⟨init, hresolved, hsignal⟩ := Option.bind_eq_some_iff.mp hsignal
  obtain ⟨stepped, hstep, hs⟩ := Option.bind_eq_some_iff.mp hsignal
  cases hs
  obtain rfl := ((expr_eq_some X).mp hresolved).2
  obtain rfl := ((expr_eq_some X).mp hstep).2
  rw [← hemit]
  rfl

theorem construct_of_instantiated (hinit : state.init = .stepping clock start step)
    (hinstance : instantiated X outer state uses = some emitted) :
    emitted.construct = clock_call clock := by
  obtain ⟨s, hcomponent, -, -, hemit⟩ := (instantiated_eq_some X).mp hinstance
  rw [component_state, hinit] at hcomponent
  obtain ⟨stepped, -, hcomponent⟩ := Option.bind_eq_some_iff.mp hcomponent
  obtain ⟨init, -, hs⟩ := Option.bind_eq_some_iff.mp hcomponent
  cases hs
  rw [← hemit]
  rfl

theorem elapsed_ne : Value.num (1 - 0) ≠ Value.num (2 - 0) := by
  intro h
  injection h with h
  have hone := congrArg (fun elapsed : Float => elapsed == 1) h
  revert hone
  decide +kernel

theorem exists_observed_ne {folding plain : Emitted Expr}
    (hfolding : folding.construct = stepping_call clock (.written start) step)
    (hplain : plain.construct = clock_call clock) (name : String) (cells : String → Value) :
    ∃ events, plain.observed X name uses cells 0 events ≠
      folding.observed X name uses cells 0 events := by
  by_contra hsame
  push Not at hsame
  cases clock with
  | interval ms =>
      -- the folded value does not depend on the moment of the tick
      have hone := hsame [.fires .setInterval 1]
      have htwo := hsame [.fires .setInterval 2]
      simp only [Emitted.observed, Emitted.readings, Emitted.step, hfolding, hplain, clock_call,
        stepping_call, Construct.load, Construct.fire, Construct.read, List.cons.injEq,
        and_true] at hone htwo
      exact elapsed_ne (hone.2.trans htwo.2.symm)
  | frame =>
      have hone := hsame [.fires .requestAnimationFrame 0, .fires .requestAnimationFrame 1]
      have htwo := hsame [.fires .requestAnimationFrame 0, .fires .requestAnimationFrame 2]
      simp only [Emitted.observed, Emitted.readings, Emitted.step, hfolding, hplain, clock_call,
        stepping_call, Construct.load, Construct.fire, Construct.read, List.cons.injEq,
        and_true, Option.getD_none, Option.getD_some] at hone htwo
      exact elapsed_ne (hone.2.2.trans htwo.2.2.symm)
  | delay ms =>
      -- the fold of a delay waits for a frame, which never comes
      have hwaits := hsame [.fires .setTimeout 0]
      simp only [Emitted.observed, Emitted.readings, Emitted.step, hfolding, hplain, clock_call,
        stepping_call, Construct.load, Construct.fire, Construct.read, List.cons.injEq,
        and_true] at hwaits
      have htruth := hwaits.1.trans hwaits.2.symm
      injection htruth with htruth
      cases htruth

end Stepping

section Placements

variable {Expr : Type} (X : Expressions Expr)

/-- A declaration that the top level accepts gives its readers the same values in a
component with one instance, and takes the same writes, on every page and for all that
happens there, exactly when it is no stepping clock and no input element is bound to it. -/
theorem placements_agree_iff (outer : List String) (state : StateDecl Expr)
    (uses : List (Use Expr)) (haccepted : (top_level X outer state uses).isSome = true) :
    (∀ cells now events,
      (instantiated X outer state uses).map
          (fun emitted => emitted.observed X state.name uses cells now events) =
        (top_level X outer state uses).map
          (fun emitted => emitted.observed X state.name uses cells now events)) ↔
      ¬ state.init.Stepping ∧ Use.element ∉ uses := by
  obtain ⟨emitted, htop⟩ := Option.isSome_iff_exists.mp haccepted
  constructor
  · intro hsame
    have hinstance : ∃ local_cell, instantiated X outer state uses = some local_cell := by
      have hmap := hsame (fun _ => .undefined) 0 []
      rw [htop] at hmap
      obtain ⟨local_cell, hcell, -⟩ := Option.map_eq_some_iff.mp hmap
      exact ⟨local_cell, hcell⟩
    obtain ⟨local_cell, hcell⟩ := hinstance
    refine ⟨fun hstepping => ?_, fun helement => ?_⟩
    · cases hinit : state.init with
      | stepping clock start step =>
          have htold : ∃ events,
              local_cell.observed X state.name uses (fun _ => .undefined) 0 events ≠
                emitted.observed X state.name uses (fun _ => .undefined) 0 events :=
            exists_observed_ne (construct_of_top_level hinit htop)
              (construct_of_instantiated hinit hcell) state.name (fun _ => .undefined)
          obtain ⟨events, hne⟩ := htold
          refine hne ?_
          have hmap := hsame (fun _ => .undefined) 0 events
          rw [htop, hcell] at hmap
          exact Option.some.inj hmap
      | starting e => rw [hinit] at hstepping; exact hstepping
      | derived e => rw [hinit] at hstepping; exact hstepping
      | clock spec => rw [hinit] at hstepping; exact hstepping
    · obtain ⟨s, -, -, hwrites, -⟩ := (instantiated_eq_some X).mp hcell
      have hrefused := List.all_eq_true.mp hwrites _ helement
      cases hrefused
  · rintro ⟨hplain, huses⟩ cells now events
    rw [instantiated_of_top_level hplain huses htop, htop]

inductive Figure
  | number (value : Float)
  | cell (name : String)

def figures : Expressions Figure where
  names
    | .number _ => []
    | .cell name => [name]
  has_type
    | .number _, .decimal => true
    | .cell _, .decimal => true
    | _, _ => false
  value ρ
    | .number value => .num value
    | .cell name => ρ name

def counter : StateDecl Figure := ⟨"count", .decimal, .starting (.number 5)⟩

theorem placements_agree_iff_counter :
    (top_level figures ["other"] counter [.statement (.cell "other")]).isSome = true ∧
      ((∀ cells now events,
        (instantiated figures ["other"] counter [.statement (.cell "other")]).map
            (fun emitted => emitted.observed figures counter.name
              [.statement (.cell "other")] cells now events) =
          (top_level figures ["other"] counter [.statement (.cell "other")]).map
            (fun emitted => emitted.observed figures counter.name
              [.statement (.cell "other")] cells now events)) ↔
        ¬ counter.init.Stepping ∧
          Use.element ∉ [(Use.statement (.cell "other") : Use Figure)]) :=
  ⟨by decide, placements_agree_iff figures ["other"] counter _ (by decide)⟩

def folded : StateDecl Figure :=
  ⟨"count", .decimal, .stepping (.interval 200) (.number 5) (.number 7)⟩

/-- At the top level the cell starts at five, in a component at zero. -/
theorem folded_moves :
    (top_level figures [] folded []).isSome = true ∧
      (instantiated figures [] folded []).map
          (fun emitted => emitted.observed figures "count" [] (fun _ => .undefined) 0 []) ≠
        (top_level figures [] folded []).map
          (fun emitted => emitted.observed figures "count" [] (fun _ => .undefined) 0 []) := by
  refine ⟨by decide, fun hsame => ?_⟩
  have hstart : [Value.num 0] = [Value.num 5] := Option.some.inj hsame
  injection hstart with hstart
  injection hstart with hstart
  have hzero := congrArg (fun value : Float => value == 0) hstart
  revert hzero
  decide +kernel

end Placements

end Component
end Zdeceptron
