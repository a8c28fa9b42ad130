import Zdeceptron.Library.Machine
import Mathlib.Data.List.Nodup
import Mathlib.Order.Nat

/-!
# The generations of a remote cell

A remote cell calls its endpoint when an input changes and when it is told to read again, is
handed the values a server pushes, and is told when live sync has given up.  Any number of
calls may be on their way, and they settle in any order.  Every writer claims the generation
of the cell, and a call that settles writes only where its own generation is still the
cell's.

* `remoteCell_latest`: what a cell shows at the end of any run.
-/

namespace Zdeceptron
namespace Rpc

open Library

section Remote

/-- The closed set of `Failed` codes. -/
inductive Code
  | unreachable
  | timeout
  | rejected
  deriving DecidableEq

/-- What a transport rejects with: `zdCode` is present on a `TransportFailure` alone, an
empty `message` is as good as none, and `text` is what `String` makes of the whole. -/
structure Error where
  zdCode : Option Code
  name : String
  message : String
  text : String
  deriving DecidableEq

def codeOf (error : Error) : Code :=
  match error.zdCode with
  | some code => code
  | none =>
      if error.name = "AbortError" ∨ error.name = "TimeoutError" then .timeout
      else .unreachable

inductive Remote (α : Type)
  | loading
  | ready (value : α)
  | failed (message : String) (code : Code)
  deriving DecidableEq

variable {α : Type}

def failed (error : Error) : Remote α :=
  .failed (if error.message = "" then error.text else error.message) (codeOf error)

def settled : Except Error α → Remote α
  | .ok value => .ready value
  | .error error => failed error

end Remote

section Cell

variable {α β : Type}

/-- A remote cell.  A start has claimed its generation and written `Loading` before it
invokes its endpoint; whatever reads the cell runs in between, so there are starts that are
`begun` and calls that are on their way. -/
structure Cell (α β : Type) where
  read : Remote α
  generation : Nat
  latest : Option β
  begun : List Nat
  sent : List Nat

inductive Event (α β : Type)
  | inputs (args : β)
  | refetch
  | invoke (mine : Nat)
  | settle (mine : Nat) (outcome : Except Error α)
  | apply (value : α)
  | fail (error : Error)

namespace Cell

/-- The first half of `start`: all of it up to the call of its endpoint. -/
def start (cell : Cell α β) : Cell α β :=
  { cell with
    read := .loading
    generation := cell.generation + 1
    begun := cell.begun ++ [cell.generation + 1] }

/-- The effect of a cell: it reads the inputs, keeps them for `refetch`, and calls. -/
def effect (args : β) (cell : Cell α β) : Cell α β :=
  start { cell with latest := some args }

def refetch (cell : Cell α β) : Cell α β :=
  match cell.latest with
  | some _ => cell.start
  | none => cell

def invoke (mine : Nat) (cell : Cell α β) : Cell α β :=
  { cell with begun := cell.begun.erase mine, sent := cell.sent ++ [mine] }

def settle (mine : Nat) (outcome : Except Error α) (cell : Cell α β) : Cell α β :=
  { cell with
    read := if mine = cell.generation then settled outcome else cell.read
    sent := cell.sent.erase mine }

def apply (value : α) (cell : Cell α β) : Cell α β :=
  { cell with read := .ready value, generation := cell.generation + 1 }

def fail (error : Error) (cell : Cell α β) : Cell α β :=
  { cell with read := failed error, generation := cell.generation + 1 }

def bare : Cell α β := ⟨.loading, 0, none, [], []⟩

def Outstanding (cell : Cell α β) (mine : Nat) : Prop := mine ∈ cell.begun ∨ mine ∈ cell.sent

end Cell

/-- A remote cell as a machine: a start calls its endpoint once, and a call settles once. -/
def remoteCell : Machine (Cell α β) (Event α β) where
  step cell event :=
    match event with
    | .inputs args => some (cell.effect args)
    | .refetch => some cell.refetch
    | .invoke mine => if mine ∈ cell.begun then some (cell.invoke mine) else none
    | .settle mine outcome => if mine ∈ cell.sent then some (cell.settle mine outcome) else none
    | .apply value => some (cell.apply value)
    | .fail error => some (cell.fail error)

def Event.Starts : Event α β → Prop
  | .inputs _ => True
  | .refetch => True
  | _ => False

def Event.Writes : Event α β → Prop
  | .invoke _ => False
  | .settle _ _ => False
  | _ => True

end Cell

section Steps

variable {α β : Type} {cell cell' : Cell α β} {event : Event α β} {es : List (Event α β)}

/-- The numbers of the calls of a cell: each has claimed a generation of its own. -/
structure Numbered (cell : Cell α β) : Prop where
  begun : ∀ mine ∈ cell.begun, mine ≤ cell.generation
  sent : ∀ mine ∈ cell.sent, mine ≤ cell.generation
  nodup : (cell.begun ++ cell.sent).Nodup

theorem Numbered.le (h : Numbered cell) {mine : Nat} (hmine : cell.Outstanding mine) :
    mine ≤ cell.generation := by
  rcases hmine with hbegun | hsent
  · exact h.begun mine hbegun
  · exact h.sent mine hsent

theorem Numbered.bare : Numbered (Cell.bare : Cell α β) where
  begun _ hmine := nomatch hmine
  sent _ hmine := nomatch hmine
  nodup := List.nodup_nil

theorem Numbered.start (h : Numbered cell) : Numbered cell.start where
  begun := by
    intro mine hmine
    rcases List.mem_append.mp hmine with hold | hnew
    · exact Nat.le_succ_of_le (h.begun mine hold)
    · exact (List.mem_singleton.mp hnew).le
  sent mine hmine := Nat.le_succ_of_le (h.sent mine hmine)
  nodup := by
    have hfresh : cell.generation + 1 ∉ cell.begun ++ cell.sent := by
      intro hmem
      have hle : cell.generation + 1 ≤ cell.generation := h.le (List.mem_append.mp hmem)
      omega
    have hperm : (cell.begun ++ [cell.generation + 1] ++ cell.sent).Perm
        ((cell.generation + 1) :: (cell.begun ++ cell.sent)) := by
      rw [List.append_assoc]
      exact List.perm_middle
    exact hperm.nodup_iff.mpr (List.nodup_cons.mpr ⟨hfresh, h.nodup⟩)

theorem Numbered.claim (h : Numbered cell) (read : Remote α) :
    Numbered { cell with read := read, generation := cell.generation + 1 } where
  begun mine hmine := Nat.le_succ_of_le (h.begun mine hmine)
  sent mine hmine := Nat.le_succ_of_le (h.sent mine hmine)
  nodup := h.nodup

theorem Numbered.invoke (h : Numbered cell) {mine : Nat} (hmine : mine ∈ cell.begun) :
    Numbered (cell.invoke mine) where
  begun n hn := h.begun n (List.mem_of_mem_erase hn)
  sent := by
    intro n hn
    rcases List.mem_append.mp hn with hold | hnew
    · exact h.sent n hold
    · rw [List.mem_singleton.mp hnew]
      exact h.begun mine hmine
  nodup := by
    have hperm : (cell.begun.erase mine ++ (cell.sent ++ [mine])).Perm
        (cell.begun ++ cell.sent) := by
      rw [← List.append_assoc]
      refine List.perm_append_comm.trans ?_
      rw [← List.append_assoc]
      exact (List.perm_cons_erase hmine).symm.append_right cell.sent
    exact hperm.nodup_iff.mpr h.nodup

theorem Numbered.settle (h : Numbered cell) (mine : Nat) (outcome : Except Error α) :
    Numbered (cell.settle mine outcome) where
  begun := h.begun
  sent n hn := h.sent n (List.mem_of_mem_erase hn)
  nodup := h.nodup.sublist (List.Sublist.append_left List.erase_sublist cell.begun)

theorem Numbered.step (h : Numbered cell) (hstep : remoteCell.step cell event = some cell') :
    Numbered cell' := by
  cases event with
  | inputs args =>
      cases hstep
      have hkept : Numbered { cell with latest := some args } := ⟨h.begun, h.sent, h.nodup⟩
      exact hkept.start
  | refetch =>
      cases hstep
      unfold Cell.refetch
      split
      · exact h.start
      · exact h
  | invoke mine =>
      simp only [remoteCell, Option.ite_none_right_eq_some, Option.some.injEq] at hstep
      obtain ⟨hmine, rfl⟩ := hstep
      exact h.invoke hmine
  | settle mine outcome =>
      simp only [remoteCell, Option.ite_none_right_eq_some, Option.some.injEq] at hstep
      obtain ⟨-, rfl⟩ := hstep
      exact h.settle mine outcome
  | apply value =>
      cases hstep
      exact h.claim (.ready value)
  | fail error =>
      cases hstep
      exact h.claim (failed error)

theorem Numbered.run (h : Numbered cell) (hrun : remoteCell.run cell es = some cell') :
    Numbered cell' :=
  remoteCell.run_invariant (fun _ _ _ hI hstep => Numbered.step hI hstep) h hrun

end Steps

section Runs

variable {α β : Type} {cell cell' now : Cell α β} {event writer : Event α β}
  {es rest : List (Event α β)}

theorem latest_step (hlatest : cell.latest.isSome)
    (hstep : remoteCell.step cell event = some cell') : cell'.latest.isSome := by
  cases event with
  | inputs args =>
      cases hstep
      rfl
  | refetch =>
      cases hstep
      unfold Cell.refetch
      split <;> exact hlatest
  | invoke _ | settle _ _ =>
      simp only [remoteCell, Option.ite_none_right_eq_some, Option.some.injEq] at hstep
      obtain ⟨-, rfl⟩ := hstep
      exact hlatest
  | apply value =>
      cases hstep
      exact hlatest
  | fail error =>
      cases hstep
      exact hlatest

theorem generation_step_le (hstep : remoteCell.step cell event = some cell') :
    cell.generation ≤ cell'.generation := by
  cases event with
  | refetch =>
      cases hstep
      unfold Cell.refetch
      split
      · exact Nat.le_succ _
      · exact le_rfl
  | invoke _ | settle _ _ =>
      simp only [remoteCell, Option.ite_none_right_eq_some, Option.some.injEq] at hstep
      obtain ⟨-, rfl⟩ := hstep
      exact le_rfl
  | _ =>
      cases hstep
      exact Nat.le_succ _

theorem generation_run_le (hrun : remoteCell.run cell es = some now) :
    cell.generation ≤ now.generation :=
  remoteCell.run_invariant (I := fun c => cell.generation ≤ c.generation)
    (fun _ _ _ hle hstep => le_trans hle (generation_step_le hstep)) le_rfl hrun

def Event.written : Event α β → Remote α
  | .apply value => .ready value
  | .fail error => failed error
  | _ => .loading

theorem writes_step (hlatest : writer = .refetch → cell.latest.isSome) (hwrites : writer.Writes)
    (hstep : remoteCell.step cell writer = some cell') :
    cell'.read = writer.written ∧ cell'.generation = cell.generation + 1 := by
  cases writer with
  | refetch =>
      obtain ⟨args, hargs⟩ := Option.isSome_iff_exists.mp (hlatest rfl)
      cases hstep
      unfold Cell.refetch
      rw [hargs]
      exact ⟨rfl, rfl⟩
  | invoke mine => exact hwrites.elim
  | settle mine outcome => exact hwrites.elim
  | _ =>
      cases hstep
      exact ⟨rfl, rfl⟩

def Unsettled (mine : Nat) (es : List (Event α β)) : Prop :=
  ∀ outcome, Event.settle mine outcome ∉ es

theorem quiet_step (h : Numbered cell) (hquiet : ¬event.Writes)
    (hstep : remoteCell.step cell event = some cell') :
    cell'.generation = cell.generation ∧ (∀ mine, cell'.Outstanding mine → cell.Outstanding mine) ∧
      ((∃ outcome, event = .settle cell.generation outcome ∧
          cell.Outstanding cell.generation ∧ ¬cell'.Outstanding cell.generation ∧
          cell'.read = settled outcome) ∨
        (∀ outcome, event ≠ .settle cell.generation outcome) ∧ cell'.read = cell.read) := by
  cases event with
  | invoke mine =>
      simp only [remoteCell, Option.ite_none_right_eq_some, Option.some.injEq] at hstep
      obtain ⟨hmine, rfl⟩ := hstep
      refine ⟨rfl, ?_, .inr ⟨nofun, rfl⟩⟩
      rintro n (hbegun | hsent)
      · exact .inl (List.mem_of_mem_erase hbegun)
      · rcases List.mem_append.mp hsent with hold | hnew
        · exact .inr hold
        · rw [List.mem_singleton.mp hnew]
          exact .inl hmine
  | settle mine outcome =>
      simp only [remoteCell, Option.ite_none_right_eq_some, Option.some.injEq] at hstep
      obtain ⟨hmine, rfl⟩ := hstep
      refine ⟨rfl, ?_, ?_⟩
      · rintro n (hbegun | hsent)
        · exact .inl hbegun
        · exact .inr (List.mem_of_mem_erase hsent)
      · by_cases hown : mine = cell.generation
        · subst hown
          refine .inl ⟨outcome, rfl, .inr hmine, ?_, if_pos rfl⟩
          have hnodup := List.nodup_append.mp h.nodup
          rintro (hbegun | hsent)
          · exact hnodup.2.2 _ hbegun _ hmine rfl
          · exact hnodup.2.1.not_mem_erase hsent
        · refine .inr ⟨fun o heq => ?_, if_neg hown⟩
          cases heq
          exact hown rfl
  | _ => exact absurd trivial hquiet

theorem settled_run (h : Numbered cell) (hquiet : ∀ e ∈ es, ¬e.Writes)
    (hdone : ¬cell.Outstanding cell.generation) (hrun : remoteCell.run cell es = some now) :
    Unsettled cell.generation es ∧ now.read = cell.read := by
  induction es generalizing cell with
  | nil =>
      cases hrun
      exact ⟨fun _ hmem => absurd hmem List.not_mem_nil, rfl⟩
  | cons e es ih =>
      obtain ⟨mid, hstep, hrest⟩ := remoteCell.run_cons_eq_some.mp hrun
      obtain ⟨hgen, hsub, hown | ⟨hother, hread⟩⟩ :=
        quiet_step h (hquiet e List.mem_cons_self) hstep
      · obtain ⟨outcome, -, hout, -⟩ := hown
        exact absurd hout hdone
      · obtain ⟨hunsettled, hnow⟩ := ih (h.step hstep)
          (fun e he => hquiet e (List.mem_cons_of_mem _ he))
          (fun hout => hdone (hsub _ (hgen ▸ hout))) hrest
        rw [hgen] at hunsettled
        refine ⟨fun outcome hmem => ?_, hnow.trans hread⟩
        rcases List.mem_cons.mp hmem with heq | hmem
        · exact hother outcome heq.symm
        · exact hunsettled outcome hmem

theorem shown_run (h : Numbered cell) (hquiet : ∀ e ∈ es, ¬e.Writes)
    (hrun : remoteCell.run cell es = some now) :
    (Unsettled cell.generation es → now.read = cell.read) ∧
      ∀ outcome, .settle cell.generation outcome ∈ es → now.read = settled outcome := by
  induction es generalizing cell with
  | nil =>
      cases hrun
      exact ⟨fun _ => rfl, fun _ hmem => absurd hmem List.not_mem_nil⟩
  | cons e es ih =>
      obtain ⟨mid, hstep, hrest⟩ := remoteCell.run_cons_eq_some.mp hrun
      have hquiet' : ∀ e ∈ es, ¬e.Writes := fun e he => hquiet e (List.mem_cons_of_mem _ he)
      obtain ⟨hgen, -, hown | ⟨hother, hread⟩⟩ :=
        quiet_step h (hquiet e List.mem_cons_self) hstep
      · obtain ⟨outcome, rfl, -, hdone, hread⟩ := hown
        obtain ⟨hunsettled, hnow⟩ := settled_run (h.step hstep) hquiet'
          (fun hout => hdone (hgen ▸ hout)) hrest
        refine ⟨fun hnone => absurd List.mem_cons_self (hnone outcome), fun o hmem => ?_⟩
        rcases List.mem_cons.mp hmem with heq | hmem
        · cases heq
          exact hnow.trans hread
        · exact absurd hmem (hgen ▸ hunsettled o)
      · obtain ⟨hsame, hcalled⟩ := ih (h.step hstep) hquiet' hrest
        rw [hgen] at hsame hcalled
        refine ⟨fun hnone => ?_, fun outcome hmem => ?_⟩
        · exact (hsame (fun o hmem => hnone o (List.mem_cons_of_mem _ hmem))).trans hread
        · rcases List.mem_cons.mp hmem with heq | hmem
          · exact absurd heq.symm (hother outcome)
          · exact hcalled outcome hmem

theorem stale_settle {mine : Nat} {outcome : Except Error α} (hmine : mine < cell.generation)
    (hstep : remoteCell.step cell (.settle mine outcome) = some cell') :
    cell'.read = cell.read := by
  simp only [remoteCell, Option.ite_none_right_eq_some, Option.some.injEq] at hstep
  obtain ⟨-, rfl⟩ := hstep
  exact if_neg hmine.ne

theorem not_outstanding_of_claim {cell : Cell α β} (h : Numbered cell)
    (hwrites : writer.Writes) (hstarts : ¬writer.Starts)
    (hstep : remoteCell.step cell writer = some cell') :
    ¬cell'.Outstanding (cell.generation + 1) := by
  have hnone : ¬cell.Outstanding (cell.generation + 1) := fun hout =>
    absurd (h.le hout) (Nat.not_succ_le_self _)
  cases writer with
  | apply value =>
      cases hstep
      exact hnone
  | fail error =>
      cases hstep
      exact hnone
  | inputs args => exact absurd trivial hstarts
  | refetch => exact absurd trivial hstarts
  | invoke mine => exact hwrites.elim
  | settle mine outcome => exact hwrites.elim

theorem latest_of_made {args : β} {first : List (Event α β)} {before : Cell α β}
    (hmade : (first ++ .refetch :: rest).head? = some (.inputs args))
    (hbefore : remoteCell.run Cell.bare first = some before) : before.latest.isSome := by
  cases first with
  | nil => cases hmade
  | cons e es =>
      obtain ⟨mid, hstep, hrun⟩ := remoteCell.run_cons_eq_some.mp hbefore
      cases hmade
      cases hstep
      exact remoteCell.run_invariant (I := fun c => c.latest.isSome)
        (fun _ _ _ hI hstep => latest_step hI hstep) rfl hrun

/-- What a cell shows at the end of a run: a call that was outstanding before some start,
push or failure writes nothing after it, and what shows is what the last of these left, or
the outcome of its own call once that has settled. -/
theorem remoteCell_latest (args : β) (first : List (Event α β)) (writer : Event α β)
    (rest : List (Event α β)) (before now : Cell α β)
    (hmade : (first ++ writer :: rest).head? = some (.inputs args)) (hwriter : writer.Writes)
    (hbefore : remoteCell.run Cell.bare first = some before)
    (hnow : remoteCell.run before (writer :: rest) = some now) :
    (∀ mine outcome next, before.Outstanding mine →
        remoteCell.step now (.settle mine outcome) = some next → next.read = now.read) ∧
      ((∀ e ∈ rest, ¬e.Writes) →
        (∀ value, writer = .apply value → now.read = .ready value) ∧
          (∀ error, writer = .fail error → now.read = failed error) ∧
          (writer.Starts →
            (∀ outcome, .settle (before.generation + 1) outcome ∈ rest →
                now.read = settled outcome) ∧
              (Unsettled (before.generation + 1) rest → now.read = .loading))) := by
  have hnumbered := Numbered.bare.run hbefore
  obtain ⟨written, hstep, hrest⟩ := remoteCell.run_cons_eq_some.mp hnow
  have hlatest : writer = .refetch → before.latest.isSome := by
    rintro rfl
    exact latest_of_made hmade hbefore
  obtain ⟨hread, hgen⟩ := writes_step hlatest hwriter hstep
  constructor
  · intro mine outcome next hmine hsettle
    have hle : mine ≤ before.generation := hnumbered.le hmine
    have hle' : written.generation ≤ now.generation := generation_run_le hrest
    exact stale_settle (by omega) hsettle
  · intro hquiet
    obtain ⟨hsame, hcalled⟩ := shown_run (hnumbered.step hstep) hquiet hrest
    rw [hgen] at hsame hcalled
    have hclaimed (hstarts : ¬writer.Starts) : now.read = writer.written := by
      have hdone := not_outstanding_of_claim hnumbered hwriter hstarts hstep
      obtain ⟨-, hnow⟩ := settled_run (hnumbered.step hstep) hquiet (hgen ▸ hdone) hrest
      exact hnow.trans hread
    refine ⟨?_, ?_, fun hstarts => ⟨hcalled, fun hnone => ?_⟩⟩
    · rintro value rfl
      exact hclaimed id
    · rintro error rfl
      exact hclaimed id
    · rw [hsame hnone, hread]
      cases writer <;> first | rfl | exact hstarts.elim

/-- A call that settles late, after a push, while the call of a second reading is still on
its way. -/
theorem remoteCell_latest_late :
    ∃ now : Cell Nat Unit,
      remoteCell.run Cell.bare
          [.inputs (), .invoke 1, .apply 7, .settle 1 (.ok 3)] = some now ∧
        now.read = .ready 7 ∧
        ((∀ e ∈ [Event.settle (β := Unit) 1 (.ok 3)], ¬e.Writes) →
          ∀ value, Event.apply (β := Unit) 7 = .apply value → now.read = .ready value) := by
  refine ⟨_, rfl, rfl, fun hquiet => ?_⟩
  exact ((remoteCell_latest () [.inputs (), .invoke 1] (.apply 7) [.settle 1 (.ok 3)] _ _ rfl
    trivial rfl rfl).2 hquiet).1

/-- The outcome of the latest call is not what shows once a push has come in between, and a
pushed value is not what shows once live sync has given up. -/
theorem remoteCell_overwritten :
    (∃ now : Cell Nat Unit,
      remoteCell.run Cell.bare [.inputs (), .invoke 1, .apply 7, .settle 1 (.ok 3)] = some now ∧
        now.read ≠ settled (.ok 3)) ∧
      ∃ now : Cell Nat Unit,
        remoteCell.run Cell.bare [.inputs (), .invoke 1, .apply 7, .fail ⟨none, "", "", "lost"⟩] =
            some now ∧
          now.read ≠ .ready 7 := by
  refine ⟨⟨_, rfl, ?_⟩, _, rfl, ?_⟩
  · decide
  · decide

end Runs

end Rpc
end Zdeceptron
