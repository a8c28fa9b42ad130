import Zdeceptron.Bodies.Functions
import Zdeceptron.Library.Closure

/-!
# Which functions call one another in tail position
-/

namespace Zdeceptron
namespace Bodies

open Library Relation

section Walks

variable {Op Effect : Type}

mutual

def stmtTailCallees : Stmt (HirExpr Op) Effect → List Nat
  | .give e => (calledDef e).toList
  | .when _ as => armsTailCallees as
  | .each _ _ body => tailCallees body
  | .ifThen _ then_ none => tailCallees then_
  | .ifThen _ then_ (some otherwise) => tailCallees then_ ++ tailCallees otherwise
  -- none of the others is in tail position
  | _ => []

def tailCallees : Block (HirExpr Op) Effect → List Nat
  | [] => []
  | s :: stmts => stmtTailCallees s ++ tailCallees stmts

def armsTailCallees : List (Arm (HirExpr Op) Effect) → List Nat
  | [] => []
  | .mk _ _ body :: rest => armTailCallees body ++ armsTailCallees rest

def armTailCallees : ArmBody (HirExpr Op) Effect → List Nat
  | .show_ e => (calledDef e).toList
  | .block stmts => tailCallees stmts

end

def isSelfCall (id : Nat) (e : HirExpr Op) : Bool := calledDef e == some id

mutual

def stmtGivesASelfCall (id : Nat) : Stmt (HirExpr Op) Effect → Bool
  | .give e => isSelfCall id e
  | .when _ as => armsGiveASelfCall id as
  | .each _ _ body => givesASelfCall id body
  | .ifThen _ then_ none => givesASelfCall id then_
  | .ifThen _ then_ (some otherwise) => givesASelfCall id then_ || givesASelfCall id otherwise
  | _ => false

def givesASelfCall (id : Nat) : Block (HirExpr Op) Effect → Bool
  | [] => false
  | s :: stmts => stmtGivesASelfCall id s || givesASelfCall id stmts

def armsGiveASelfCall (id : Nat) : List (Arm (HirExpr Op) Effect) → Bool
  | [] => false
  | .mk _ _ body :: rest => armGivesASelfCall id body || armsGiveASelfCall id rest

def armGivesASelfCall (id : Nat) : ArmBody (HirExpr Op) Effect → Bool
  | .show_ e => isSelfCall id e
  | .block stmts => givesASelfCall id stmts

end

end Walks

namespace Program

variable {Op Verb : Type} (program : Program Op Verb)

section Groups

def isFunction (id : Nat) : Bool :=
  match program[id]? with
  | some (.function _ _) => true
  | _ => false

def functionIds : List Nat := (List.range program.length).filter program.isFunction

def calleesOf (id : Nat) : List Nat :=
  match program[id]? with
  | some (.function _ body) => tailCallees body
  | _ => []

def GivesCallOf (id callee : Nat) : Prop :=
  ∃ params body, program[id]? = some (.function params body) ∧ callee ∈ tailCallees body

/-- One step of the relation: who each function gives the result of calling. -/
def oneStep : Finset (Nat × Nat) :=
  (program.functionIds.flatMap (fun id => (program.calleesOf id).map (fun callee =>
    (id, callee)))).toFinset

def reach : Finset (Nat × Nat) := transClosure program.functionIds program.oneStep

def othersOf (id : Nat) : List Nat :=
  program.functionIds.filter (fun other =>
    other != id && decide ((id, other) ∈ program.reach) && decide ((other, id) ∈ program.reach))

/-- The cycle a function belongs to, with itself, if there is another function in it. -/
def groupOf (id : Nat) : Option (List Nat) :=
  if program.isFunction id && !(program.othersOf id).isEmpty then some (id :: program.othersOf id)
  else none

variable {program} {id callee other : Nat}

theorem mem_functionIds : id ∈ program.functionIds ↔ program.isFunction id = true := by
  unfold functionIds
  rw [List.mem_filter, List.mem_range, and_iff_right_iff_imp]
  intro h
  by_contra hlength
  unfold isFunction at h
  rw [List.getElem?_eq_none (not_lt.mp hlength)] at h
  cases h

theorem isFunction_iff :
    program.isFunction id = true ↔ ∃ params body, program[id]? = some (.function params body) := by
  unfold isFunction
  split
  · exact ⟨fun _ => ⟨_, _, ‹_›⟩, fun _ => rfl⟩
  · rename_i h
    refine ⟨fun h' => (by cases h'), ?_⟩
    rintro ⟨params, body, hbody⟩
    exact (h params body hbody).elim

theorem mem_oneStep : (id, callee) ∈ program.oneStep ↔ program.GivesCallOf id callee := by
  unfold oneStep GivesCallOf
  rw [List.mem_toFinset, List.mem_flatMap]
  constructor
  · rintro ⟨id', hid', hmem⟩
    obtain ⟨callee', hcallee, heq⟩ := List.mem_map.mp hmem
    cases heq
    obtain ⟨params, body, hbody⟩ := isFunction_iff.mp (mem_functionIds.mp hid')
    refine ⟨params, body, hbody, ?_⟩
    unfold calleesOf at hcallee
    rwa [hbody] at hcallee
  · rintro ⟨params, body, hbody, hcallee⟩
    refine ⟨id, mem_functionIds.mpr (isFunction_iff.mpr ⟨params, body, hbody⟩), ?_⟩
    refine List.mem_map.mpr ⟨callee, ?_, rfl⟩
    unfold calleesOf
    rwa [hbody]

theorem mem_reach : (id, other) ∈ program.reach ↔ TransGen program.GivesCallOf id other := by
  have hsources : ∀ p ∈ program.oneStep, p.1 ∈ program.functionIds := by
    rintro ⟨x, y⟩ hp
    obtain ⟨params, body, hbody, -⟩ := mem_oneStep.mp hp
    exact mem_functionIds.mpr (isFunction_iff.mpr ⟨params, body, hbody⟩)
  have hstep : (fun x y => (x, y) ∈ program.oneStep) = program.GivesCallOf :=
    funext fun x => funext fun y => propext mem_oneStep
  unfold reach
  rw [mem_transClosure hsources, hstep]

theorem isFunction_of_transGen (h : TransGen program.GivesCallOf id other) :
    program.isFunction id = true := by
  obtain ⟨callee, ⟨params, body, hbody, -⟩, -⟩ := TransGen.head'_iff.mp h
  exact isFunction_iff.mpr ⟨params, body, hbody⟩

def InCycle (program : Program Op Verb) (id other : Nat) : Prop :=
  TransGen program.GivesCallOf id other ∧ TransGen program.GivesCallOf other id

theorem mem_othersOf :
    other ∈ program.othersOf id ↔ other ≠ id ∧ program.InCycle id other := by
  unfold othersOf
  rw [List.mem_filter, mem_functionIds]
  simp only [Bool.and_eq_true, decide_eq_true_eq, bne_iff_ne, mem_reach, InCycle]
  constructor
  · rintro ⟨-, ⟨hne, hto⟩, hback⟩
    exact ⟨hne, hto, hback⟩
  · rintro ⟨hne, hto, hback⟩
    exact ⟨isFunction_of_transGen hback, ⟨hne, hto⟩, hback⟩

theorem groupOf_eq_some {group : List Nat} (h : program.groupOf id = some group) :
    (∃ other, other ≠ id ∧ program.InCycle id other) ∧
      ∀ member, member ∈ group ↔ member = id ∨ program.InCycle id member := by
  unfold groupOf at h
  split_ifs at h with hothers
  cases h
  rw [Bool.and_eq_true, Bool.not_eq_true', List.isEmpty_eq_false_iff] at hothers
  obtain ⟨other, hother⟩ := List.exists_mem_of_ne_nil _ hothers.2
  obtain ⟨hne, hcycle⟩ := mem_othersOf.mp hother
  refine ⟨⟨other, hne, hcycle⟩, fun member => ?_⟩
  rw [List.mem_cons, mem_othersOf]
  constructor
  · rintro (rfl | ⟨-, hmember⟩)
    · exact .inl rfl
    · exact .inr hmember
  · rintro (rfl | hmember)
    · exact .inl rfl
    · by_cases hsame : member = id
      · exact .inl hsame
      · exact .inr ⟨hsame, hmember⟩

theorem groupOf_isSome (hne : other ≠ id) (h : program.InCycle id other) :
    ∃ group, program.groupOf id = some group := by
  have hother := mem_othersOf.mpr ⟨hne, h⟩
  have hothers : (program.othersOf id).isEmpty = false :=
    List.isEmpty_eq_false_iff.mpr (List.ne_nil_of_mem hother)
  unfold groupOf
  rw [isFunction_of_transGen h.1, hothers]
  exact ⟨_, rfl⟩

theorem mem_groupOf (hne : other ≠ id) :
    (∃ group, program.groupOf id = some group ∧ other ∈ group) ↔ program.InCycle id other := by
  constructor
  · rintro ⟨group, hgroup, hmem⟩
    exact (((groupOf_eq_some hgroup).2 other).mp hmem).resolve_left hne
  · intro h
    obtain ⟨group, hgroup⟩ := groupOf_isSome hne h
    exact ⟨group, hgroup, ((groupOf_eq_some hgroup).2 other).mpr (.inr h)⟩

theorem groupOf_member {group : List Nat} (h : program.groupOf id = some group)
    (hmember : callee ∈ group) :
    ∃ group', program.groupOf callee = some group' ∧ ∀ member, member ∈ group' ↔ member ∈ group := by
  by_cases hsame : callee = id
  · rw [hsame]
    exact ⟨group, h, fun _ => Iff.rfl⟩
  · have hmem := (groupOf_eq_some h).2
    have hcycle : program.InCycle id callee := ((hmem callee).mp hmember).resolve_left hsame
    have hback : program.InCycle callee id := ⟨hcycle.2, hcycle.1⟩
    obtain ⟨group', hgroup'⟩ := groupOf_isSome (Ne.symm hsame) hback
    refine ⟨group', hgroup', fun member => ?_⟩
    rw [(groupOf_eq_some hgroup').2, hmem]
    constructor
    · rintro (rfl | hmember)
      · exact .inr hcycle
      · exact .inr ⟨hcycle.1.trans hmember.1, hmember.2.trans hcycle.2⟩
    · rintro (rfl | hmember)
      · exact .inr hback
      · exact .inr ⟨hback.1.trans hmember.1, hmember.2.trans hback.2⟩

end Groups

end Program

end Bodies
end Zdeceptron
