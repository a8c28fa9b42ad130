import Mathlib.Data.List.Basic

/-!
# Paths and links

A file system gives a node to locations, lists of names from the root.  A path is walked from a
location one component at a time, through the links on the way, of which one walk follows only
so many.  Where something is created, the missing directories that the path itself names are
made; a link makes none.
-/

namespace Library
namespace PosixPaths

section Walking

abbrev Name := List Char

abbrev Location := List Name

inductive Component
  | up
  | name (n : Name)
  deriving DecidableEq

inductive Node
  | file
  | directory
  | link (absolute : Bool) (parts : List Component)
  deriving DecidableEq

structure FileSystem where
  node : Location → Option Node
  root : node [] = some .directory
  parent : ∀ l n, (node (l ++ [n])).isSome = true → node l = some .directory
  /-- How many links one walk follows. -/
  symloop : Nat

def base (absolute : Bool) (l : Location) : Location := if absolute then [] else l

variable (fs : FileSystem)

def walkWith (follow : Location → List Component → Option Location) :
    Location → List Component → Option Location
  | l, [] => some l
  | l, .up :: cs => walkWith follow l.dropLast cs
  | l, .name n :: cs =>
      match fs.node (l ++ [n]) with
      | none => none
      | some .directory => walkWith follow (l ++ [n]) cs
      | some .file => if cs = [] then some (l ++ [n]) else none
      | some (.link absolute parts) => follow (base absolute l) (parts ++ cs)

def walk : Nat → Location → List Component → Option Location
  | 0 => walkWith fs fun _ _ => none
  | links + 1 => walkWith fs (walk links)

/-- Where a path leads once its missing directories are made.  A component of the path itself
is marked; one that a link brought is not. -/
def landWith (follow : Location → List (Bool × Component) → Option Location) :
    Location → List (Bool × Component) → Option Location
  | l, [] => some l
  | l, (_, .up) :: cs => landWith follow l.dropLast cs
  | l, (own, .name n) :: cs =>
      match fs.node (l ++ [n]) with
      | none =>
          if cs = [] then some (l ++ [n])
          else if own then landWith follow (l ++ [n]) cs
          else none
      | some .directory => landWith follow (l ++ [n]) cs
      | some .file => if cs = [] then some (l ++ [n]) else none
      | some (.link absolute parts) =>
          follow (base absolute l) (parts.map (fun c => (false, c)) ++ cs)

def land : Nat → Location → List (Bool × Component) → Option Location
  | 0 => landWith fs fun _ _ => none
  | links + 1 => landWith fs (land links)

end Walking

section Rules

variable {fs : FileSystem}

def walkLink (fs : FileSystem) : Nat → Location → List Component → Option Location
  | 0 => fun _ _ => none
  | links + 1 => walk fs links

def landLink (fs : FileSystem) : Nat → Location → List (Bool × Component) → Option Location
  | 0 => fun _ _ => none
  | links + 1 => land fs links

theorem walk_nil (links : Nat) (l : Location) : walk fs links l [] = some l := by
  cases links <;> rfl

theorem walk_up (links : Nat) (l : Location) (cs : List Component) :
    walk fs links l (.up :: cs) = walk fs links l.dropLast cs := by
  cases links <;> rfl

theorem walk_name (links : Nat) (l : Location) (n : Name) (cs : List Component) :
    walk fs links l (.name n :: cs) =
      match fs.node (l ++ [n]) with
      | none => none
      | some .directory => walk fs links (l ++ [n]) cs
      | some .file => if cs = [] then some (l ++ [n]) else none
      | some (.link absolute parts) => walkLink fs links (base absolute l) (parts ++ cs) := by
  cases links <;> rfl

theorem land_nil (links : Nat) (l : Location) : land fs links l [] = some l := by
  cases links <;> rfl

theorem land_up (links : Nat) (l : Location) (own : Bool) (cs : List (Bool × Component)) :
    land fs links l ((own, .up) :: cs) = land fs links l.dropLast cs := by
  cases links <;> rfl

theorem land_name (links : Nat) (l : Location) (own : Bool) (n : Name)
    (cs : List (Bool × Component)) :
    land fs links l ((own, .name n) :: cs) =
      match fs.node (l ++ [n]) with
      | none =>
          if cs = [] then some (l ++ [n])
          else if own then land fs links (l ++ [n]) cs
          else none
      | some .directory => land fs links (l ++ [n]) cs
      | some .file => if cs = [] then some (l ++ [n]) else none
      | some (.link absolute parts) =>
          landLink fs links (base absolute l) (parts.map (fun c => (false, c)) ++ cs) := by
  cases links <;> rfl

def unmarked (cs : List (Bool × Component)) : List Component := cs.map Prod.snd

theorem unmarked_link (parts : List Component) (cs : List (Bool × Component)) :
    unmarked (parts.map (fun c => (false, c)) ++ cs) = parts ++ unmarked cs := by
  rw [unmarked, List.map_append, List.map_map]
  congr 1
  exact List.map_id parts

theorem land_of_walk_step {links : Nat}
    (hlink : ∀ {l loc cs}, walkLink fs links l (unmarked cs) = some loc →
      landLink fs links l cs = some loc) {l loc : Location} {cs : List (Bool × Component)}
    (h : walk fs links l (unmarked cs) = some loc) : land fs links l cs = some loc := by
  induction cs generalizing l with
  | nil => rwa [land_nil, ← walk_nil]
  | cons c cs ih =>
      obtain ⟨own, c⟩ := c
      cases c with
      | up =>
          rw [land_up]
          rw [unmarked, List.map_cons, walk_up] at h
          exact ih h
      | name n =>
          rw [land_name]
          rw [unmarked, List.map_cons, walk_name] at h
          cases hnode : fs.node (l ++ [n]) with
          | none =>
              rw [hnode] at h
              cases h
          | some node =>
              rw [hnode] at h
              cases node with
              | file =>
                  simp only [List.map_eq_nil_iff] at h
                  exact h
              | directory => exact ih h
              | link absolute parts =>
                  refine hlink ?_
                  rw [unmarked_link]
                  exact h

variable {links : Nat}

theorem land_of_walk {l loc : Location} {cs : List (Bool × Component)}
    (h : walk fs links l (unmarked cs) = some loc) : land fs links l cs = some loc := by
  induction links generalizing l loc cs with
  | zero => exact land_of_walk_step (fun h => by cases h) h
  | succ links ih => exact @land_of_walk_step fs (links + 1) ih l loc cs h

/-- A path goes on from where its front leads, with the links that are left. -/
def GoesOn (fs : FileSystem) (walkFrom : Location → List Component → Option Location)
    (landFrom : Location → List (Bool × Component) → Option Location) : Prop :=
  ∀ l loc (front : List (Bool × Component)), walkFrom l (unmarked front) = some loc →
    (∃ links, ∀ cs, walkFrom l (unmarked (front ++ cs)) = walk fs links loc (unmarked cs) ∧
      landFrom l (front ++ cs) = land fs links loc cs) ∨
    ∀ cs, cs ≠ [] → landFrom l (front ++ cs) = none

theorem goesOn_step (hlink : GoesOn fs (walkLink fs links) (landLink fs links)) :
    GoesOn fs (walk fs links) (land fs links) := by
  intro l loc front h
  induction front generalizing l with
  | nil =>
      rw [unmarked, List.map_nil, walk_nil] at h
      obtain rfl := Option.some.inj h
      exact .inl ⟨links, fun cs => ⟨rfl, rfl⟩⟩
  | cons c front ih =>
      obtain ⟨own, c⟩ := c
      cases c with
      | up =>
          simp only [unmarked, List.map_cons, List.cons_append, walk_up, land_up] at h ⊢
          exact ih _ h
      | name n =>
          simp only [unmarked, List.map_cons, List.cons_append, walk_name, land_name] at h ⊢
          cases hnode : fs.node (l ++ [n]) with
          | none =>
              rw [hnode] at h
              cases h
          | some node =>
              rw [hnode] at h
              cases node with
              | file =>
                  right
                  intro cs hcs
                  simp only
                  rw [if_neg (by simp [hcs])]
              | directory => exact ih _ h
              | link absolute parts =>
                  have hfront : walkLink fs links (base absolute l)
                      (unmarked (parts.map (fun c => (false, c)) ++ front)) = some loc := by
                    rw [unmarked_link]
                    exact h
                  rcases hlink _ _ _ hfront with ⟨rest, hrest⟩ | hnone
                  · refine .inl ⟨rest, fun cs => ?_⟩
                    have hcs := hrest cs
                    rw [List.append_assoc, unmarked_link] at hcs
                    exact hcs
                  · refine .inr fun cs hcs => ?_
                    have hland := hnone cs hcs
                    rwa [List.append_assoc] at hland

theorem goesOn (links : Nat) : GoesOn fs (walk fs links) (land fs links) := by
  induction links with
  | zero => exact goesOn_step fun _ _ _ h => by cases h
  | succ links ih => exact goesOn_step ih

def brought (cs : List Component) : List (Bool × Component) := cs.map fun c => (false, c)

theorem land_of_broken_step {links : Nat}
    (hlink : ∀ {l cs more}, walkLink fs links l cs = none → more ≠ [] →
      landLink fs links l (brought cs ++ more) = none)
    {l : Location} {cs : List Component} {more : List (Bool × Component)}
    (h : walk fs links l cs = none) (hmore : more ≠ []) :
    land fs links l (brought cs ++ more) = none := by
  induction cs generalizing l with
  | nil =>
      rw [walk_nil] at h
      cases h
  | cons c cs ih =>
      cases c with
      | up =>
          rw [walk_up] at h
          rw [brought, List.map_cons, List.cons_append, land_up]
          exact ih h
      | name n =>
          have hne : cs.map (fun c => (false, c)) ++ more ≠ [] := by simp [hmore]
          rw [walk_name] at h
          rw [brought, List.map_cons, List.cons_append, land_name]
          cases hnode : fs.node (l ++ [n]) with
          | none =>
              simp only
              rw [if_neg hne]
              rfl
          | some node =>
              rw [hnode] at h
              cases node with
              | file =>
                  simp only
                  rw [if_neg hne]
              | directory => exact ih h
              | link absolute parts =>
                  have hrest := @hlink (base absolute l) (parts ++ cs) more h hmore
                  rw [brought, List.map_append, List.append_assoc] at hrest
                  exact hrest

variable {l : Location}

variable {more : List (Bool × Component)} {cs : List Component}

theorem land_of_broken (h : walk fs links l cs = none) (hmore : more ≠ []) :
    land fs links l (brought cs ++ more) = none := by
  induction links generalizing l cs more with
  | zero => exact land_of_broken_step (fun _ _ => rfl) h hmore
  | succ links ih => exact @land_of_broken_step fs (links + 1) ih l cs more h hmore

def owned (cs : List Component) : List (Bool × Component) := cs.map fun c => (true, c)

theorem node_below (h : fs.node l = none) (n : Name) :
    fs.node (l ++ [n]) = none := by
  cases hnode : fs.node (l ++ [n]) with
  | none => rfl
  | some node =>
      have hparent := fs.parent l n (by rw [hnode]; rfl)
      rw [h] at hparent
      cases hparent

theorem land_missing (links : Nat) (h : fs.node l = none) (names : List Name) :
    land fs links l (owned (names.map Component.name)) = some (l ++ names) := by
  induction names generalizing l with
  | nil => rw [List.append_nil]; exact land_nil links l
  | cons n names ih =>
      have hbelow := node_below h n
      have hrest := ih hbelow
      rw [owned, List.map_cons, List.map_cons, land_name, hbelow]
      simp only
      by_cases hnil : names = []
      · subst hnil
        rfl
      · rw [if_neg (by simpa using hnil), if_true]
        rw [owned] at hrest
        rw [hrest, List.append_assoc, List.singleton_append]

theorem land_made (links : Nat) {n : Name} (h : fs.node (l ++ [n]) = none) (names : List Name) :
    land fs links l (owned (.name n :: names.map Component.name)) = some (l ++ n :: names) := by
  have hrest := land_missing links h names
  rw [owned, List.map_cons, land_name, h]
  simp only
  by_cases hnil : names = []
  · subst hnil
    rfl
  · rw [if_neg (by simpa using hnil), if_true]
    rw [owned] at hrest
    rw [hrest, List.append_assoc, List.singleton_append]

theorem landLink_of_broken (h : walkLink fs links l cs = none) (hmore : more ≠ []) :
    landLink fs links l (brought cs ++ more) = none := by
  cases links with
  | zero => rfl
  | succ links => exact land_of_broken h hmore

end Rules

end PosixPaths
end Library
