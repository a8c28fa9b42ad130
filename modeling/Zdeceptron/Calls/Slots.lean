import Zdeceptron.Bodies.Functions

/-!
# Arguments in slots

Every argument is written for one parameter: a positional one for the next, a named one for
the parameter of its name.  `given` says for which, and `lastGiven` what is in the slot of a
parameter when all arguments have been put there.
-/

namespace Zdeceptron
namespace Calls

open Bodies (Arg fillSlots allFilled orderedArguments)

variable {α β : Type}

section Given

/-- For which parameter each argument is written, unless one is written for none. -/
def given (names : List String) : Nat → List (Arg α) → Option (List (Nat × α))
  | _, [] => some []
  | next, .positional value :: args =>
      if names.length ≤ next then none
      else (given names (next + 1) args).map ((next, value) :: ·)
  | next, .named name value :: args =>
      match names.idxOf? name with
      | some index => (given names next args).map ((index, value) :: ·)
      | none => none

variable {names : List String} {args : List (Arg α)} {ps : List (Nat × α)}

theorem given_values {next : Nat} (h : given names next args = some ps) :
    ps.map Prod.snd = args.map Arg.value := by
  induction args generalizing next ps with
  | nil =>
      simp [given] at h
      simp [← h]
  | cons arg args ih =>
      cases arg with
      | positional value =>
          rw [given] at h
          split_ifs at h
          obtain ⟨rest, hrest, rfl⟩ := Option.map_eq_some_iff.mp h
          simp [ih hrest, Arg.value]
      | named name value =>
          rw [given] at h
          split at h
          · obtain ⟨rest, hrest, rfl⟩ := Option.map_eq_some_iff.mp h
            simp [ih hrest, Arg.value]
          · cases h

theorem given_lt {next : Nat}
    (h : given names next args = some ps) : ∀ p ∈ ps, p.1 < names.length := by
  induction args generalizing next ps with
  | nil =>
      simp [given] at h
      simp [h]
  | cons arg args ih =>
      cases arg with
      | positional value =>
          rw [given] at h
          split_ifs at h with hnext
          obtain ⟨rest, hrest, rfl⟩ := Option.map_eq_some_iff.mp h
          simp only [List.forall_mem_cons]
          exact ⟨by omega, ih hrest⟩
      | named name value =>
          rw [given] at h
          split at h
          · next index hindex =>
            obtain ⟨rest, hrest, rfl⟩ := Option.map_eq_some_iff.mp h
            obtain ⟨hlt, -⟩ := List.idxOf?_eq_some_iff.mp hindex
            simp only [List.forall_mem_cons]
            exact ⟨hlt, ih hrest⟩
          · cases h

theorem given_map (f : α → β) (names : List String) (next : Nat) (args : List (Arg α)) :
    given names next (args.map (Arg.map f)) =
      (given names next args).map (List.map (Prod.map id f)) := by
  induction args generalizing next with
  | nil => rfl
  | cons arg args ih =>
      cases arg with
      | positional value =>
          simp only [List.map_cons, Arg.map, given, ih]
          split_ifs
          · rfl
          · cases given names (next + 1) args <;> simp
      | named name value =>
          simp only [List.map_cons, Arg.map, given, ih]
          cases names.idxOf? name with
          | none => rfl
          | some index => cases given names next args <;> simp

def givenOnce (names : List String) (args : List (Arg α)) : Bool :=
  match given names 0 args with
  | some ps => decide (ps.map Prod.fst).Nodup
  | none => true

end Given

section Last

def lastGiven (slot : Nat) : List (Nat × α) → Option α
  | [] => none
  | p :: ps => (lastGiven slot ps).or (if p.1 = slot then some p.2 else none)

def place (ps : List (Nat × α)) (slots : List (Option α)) : List (Option α) :=
  ps.foldl (fun slots p => slots.set p.1 (some p.2)) slots

variable (ps : List (Nat × α))

theorem length_place (slots : List (Option α)) :
    (place ps slots).length = slots.length := by
  induction ps generalizing slots with
  | nil => rfl
  | cons p ps ih => simpa [place] using ih (slots.set p.1 (some p.2))

theorem getElem?_place (slots : List (Option α)) (slot : Nat) :
    (place ps slots)[slot]? = slots[slot]?.map fun s => (lastGiven slot ps).or s := by
  induction ps generalizing slots with
  | nil => simp [place, lastGiven]
  | cons p ps ih =>
      have hplace := ih (slots.set p.1 (some p.2))
      rw [place] at hplace ⊢
      rw [List.foldl_cons, hplace, lastGiven, List.getElem?_set]
      by_cases hp : p.1 = slot
      · subst hp
        by_cases hlt : p.1 < slots.length
        · simp [hlt]
        · simp [hlt]
      · simp [hp]

theorem getElem?_place_none {n slot : Nat} (h : slot < n) :
    (place ps (List.replicate n none))[slot]? = some (lastGiven slot ps) := by
  rw [getElem?_place]
  simp [h]

variable {ps : List (Nat × α)}

theorem mem_of_lastGiven {slot : Nat} {value : α}
    (h : lastGiven slot ps = some value) : (slot, value) ∈ ps := by
  induction ps with
  | nil => cases h
  | cons p ps ih =>
      rw [lastGiven, Option.or_eq_some_iff] at h
      rcases h with hlater | ⟨-, hfirst⟩
      · exact List.mem_cons_of_mem _ (ih hlater)
      · split_ifs at hfirst with hp
        cases hfirst
        simp [← hp]

theorem lastGiven_isSome {slot : Nat} :
    (lastGiven slot ps).isSome = true ↔ slot ∈ ps.map Prod.fst := by
  induction ps with
  | nil => simp [lastGiven]
  | cons p ps ih =>
      rw [lastGiven, Option.isSome_or, Bool.or_eq_true, ih, List.map_cons, List.mem_cons]
      constructor
      · rintro (hlater | hfirst)
        · exact .inr hlater
        · split_ifs at hfirst with hp
          · exact .inl hp.symm
          · cases hfirst
      · rintro (rfl | hlater)
        · simp
        · exact .inl hlater

theorem all_last_iff (hvalues : (ps.map Prod.snd).Nodup) :
    (∀ p ∈ ps, lastGiven p.1 ps = some p.2) ↔ (ps.map Prod.fst).Nodup := by
  induction ps with
  | nil => simp
  | cons p ps ih =>
      simp only [List.map_cons, List.nodup_cons] at hvalues ⊢
      obtain ⟨hvalue, hrest⟩ := hvalues
      constructor
      · intro h
        have hfresh : p.1 ∉ ps.map Prod.fst := by
          intro hmem
          obtain ⟨value, hlast⟩ := Option.isSome_iff_exists.mp (lastGiven_isSome.mpr hmem)
          have hfirst := h p List.mem_cons_self
          rw [lastGiven, hlast, Option.some_or] at hfirst
          cases hfirst
          exact hvalue (List.mem_map_of_mem (f := Prod.snd) (mem_of_lastGiven hlast))
        refine ⟨hfresh, (ih hrest).mp ?_⟩
        intro q hq
        have hlast := h q (List.mem_cons_of_mem _ hq)
        have hne : p.1 ≠ q.1 := by
          intro heq
          exact hfresh (heq ▸ List.mem_map_of_mem (f := Prod.fst) hq)
        simpa [lastGiven, hne] using hlast
      · rintro ⟨hfresh, hnodup⟩ q hq
        rcases List.mem_cons.mp hq with rfl | hq
        · have hnone : lastGiven q.1 ps = none := by
            rw [← Option.not_isSome_iff_eq_none, lastGiven_isSome]
            exact hfresh
          simp [lastGiven, hnone]
        · rw [lastGiven, (ih hrest).mpr hnodup q hq]
          rfl

end Last

section Filled

theorem fillSlots_eq (names : List String) (args : List (Arg α)) (next : Nat)
    (slots : List (Option α)) (h : slots.length = names.length) :
    fillSlots names args next slots = (given names next args).map fun ps => place ps slots := by
  induction args generalizing next slots with
  | nil => rfl
  | cons arg args ih =>
      cases arg with
      | positional value =>
          rw [fillSlots, given, h]
          split_ifs
          · rfl
          · rw [ih _ _ (by simpa using h), Option.map_map]
            rfl
      | named name value =>
          rw [fillSlots, given]
          cases names.idxOf? name with
          | none => rfl
          | some index =>
              have hset : (slots.set index (some value)).length = names.length := by simpa using h
              simp only [ih next _ hset, Option.map_map]
              rfl

theorem allFilled_eq_some {slots : List (Option α)} {values : List α} :
    allFilled slots = some values ↔ slots = values.map some := by
  induction slots generalizing values with
  | nil => cases values <;> simp [allFilled]
  | cons slot slots ih =>
      cases slot with
      | none => cases values <;> simp [allFilled]
      | some value =>
          cases values with
          | nil => simp [allFilled]
          | cons value' values => simp [allFilled, ih, and_comm]

end Filled

end Calls
end Zdeceptron
