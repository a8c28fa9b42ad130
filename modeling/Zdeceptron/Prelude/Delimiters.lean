import Mathlib.Data.List.Infix
import Mathlib.Tactic.Common

/-!
# The delimiter family of the prelude

Every function of the family takes a text apart at the occurrences of a delimiter that one scan
from the left finds without overlap, and joins some of the pieces again.

* `cuts_iff`: the laws of the family hold where no occurrence starts after the last cut.
-/

namespace Zdeceptron
namespace Prelude
namespace Delimiters

abbrev Text := List Char

section Texts

def cut (delimiter : Text) : Text → Option (Text × Text)
  | [] => none
  | c :: value =>
      if delimiter <+: c :: value then some ([], (c :: value).drop delimiter.length)
      else (cut delimiter value).map fun p => (c :: p.1, p.2)

def pieces (delimiter : Text) : Nat → Text → List Text
  | 0, value => [value]
  | fuel + 1, value =>
      match cut delimiter value with
      | none => [value]
      | some (front, back) => front :: pieces delimiter fuel back

/-- `String.prototype.split`, and the characters where the delimiter is empty. -/
def split (value delimiter : Text) : List Text :=
  if delimiter = [] then value.map fun c => [c] else pieces delimiter value.length value

def textAt (value : Text) (index : Int) : Option Char :=
  if 0 ≤ index then value[index.toNat]? else none

def sliceStep (value : Text) (index stop : Int) (taken : Text) : Text :=
  if index < stop then
    match textAt value index with
    | none => taken
    | some ch => sliceStep value (index + 1) stop (taken ++ [ch])
  else taken
termination_by (stop - index).toNat

def slice (value : Text) (start stop : Int) : Text := sliceStep value start stop []

def startsWith (value front : Text) : Bool := slice value 0 front.length == front

def dropFirst (value : Text) (count : Int) : Text := slice value count value.length

def endsWith (value suffix : Text) : Bool :=
  dropFirst value ((value.length : Int) - suffix.length) == suffix

def joinFrom (parts : List Text) (delimiter : Text) (start index : Nat) (joined : Text) : Text :=
  match _hpiece : parts[index]? with
  | none => joined
  | some piece =>
      if index = start then joinFrom parts delimiter start (index + 1) piece
      else joinFrom parts delimiter start (index + 1) (joined ++ delimiter ++ piece)
termination_by parts.length - index
decreasing_by
  all_goals
    obtain ⟨hlt, -⟩ := List.getElem?_eq_some_iff.mp _hpiece
    omega

def join (parts : List Text) (delimiter : Text) : Text := joinFrom parts delimiter 0 0 []

def joinUntil (parts : List Text) (delimiter : Text) (stop : Int) (index : Nat) (joined : Text) :
    Text :=
  if stop ≤ index then joined
  else if index = 0 then joinUntil parts delimiter stop 1 (parts[0]?.getD [])
  else joinUntil parts delimiter stop (index + 1) (joined ++ delimiter ++ parts[index]?.getD [])
termination_by (stop - index).toNat

def joinAllButLast (parts : List Text) (delimiter : Text) : Text :=
  joinUntil parts delimiter ((parts.length : Int) - 1) 0 []

def textContains (value needle : Text) : Bool :=
  if needle = [] then true else 1 < (split value needle).length

def before (value delimiter : Text) : Text :=
  if delimiter = [] then [] else (split value delimiter).head?.getD value

def after (value delimiter : Text) : Text :=
  if delimiter = [] then value else joinFrom (split value delimiter) delimiter 1 1 []

def beforeLast (value delimiter : Text) : Text :=
  if delimiter = [] then [] else joinAllButLast (split value delimiter) delimiter

def afterLast (value delimiter : Text) : Text :=
  if delimiter = [] then value else (split value delimiter).getLast?.getD value

def indexOf (value needle : Text) : Option Nat :=
  if needle = [] then some 0
  else if textContains value needle then some (before value needle).length
  else none

def withoutPrefix (value front : Text) : Text :=
  if front = [] then value
  else if startsWith value front then after value front
  else value

def withoutSuffix (value suffix : Text) : Text :=
  if suffix = [] then value
  else if endsWith value suffix then beforeLast value suffix
  else value

end Texts

section Occurrences

variable {delimiter value : Text}

def OccursAt (delimiter value : Text) (i : Nat) : Prop := delimiter <+: value.drop i

theorem cut_some {front back : Text} (h : cut delimiter value = some (front, back)) :
    value = front ++ (delimiter ++ back) ∧ ∀ i < front.length, ¬ OccursAt delimiter value i := by
  induction value generalizing front with
  | nil => cases h
  | cons c value ih =>
      rw [cut] at h
      split at h
      · rename_i hhere
        cases h
        refine ⟨?_, fun i hi => absurd hi (Nat.not_lt_zero i)⟩
        rw [List.nil_append, ← List.prefix_iff_eq_append.mp hhere]
        simp
      · rename_i hhere
        obtain ⟨⟨front, back⟩, hcut, hpair⟩ := Option.map_eq_some_iff.mp h
        cases hpair
        obtain ⟨hvalue, hnone⟩ := ih hcut
        refine ⟨by rw [hvalue]; rfl, fun i hi => ?_⟩
        cases i with
        | zero => exact hhere
        | succ i => exact hnone i (Nat.lt_of_succ_lt_succ hi)

theorem cut_none (hne : delimiter ≠ []) (h : cut delimiter value = none) (i : Nat) :
    ¬ OccursAt delimiter value i := by
  induction value generalizing i with
  | nil =>
      rw [OccursAt, List.drop_nil, List.prefix_nil]
      exact hne
  | cons c value ih =>
      rw [cut] at h
      split at h
      · cases h
      · rename_i hhere
        cases i with
        | zero => exact hhere
        | succ i => exact ih (Option.map_eq_none_iff.mp h) i

inductive Splits (delimiter : Text) : Text → List Text → Prop
  | whole {value : Text} (h : cut delimiter value = none) : Splits delimiter value [value]
  | cons {value front back : Text} {parts : List Text}
      (h : cut delimiter value = some (front, back)) (hrest : Splits delimiter back parts) :
      Splits delimiter value (front :: parts)

theorem splits_pieces (hne : delimiter ≠ []) (fuel : Nat) (hfuel : value.length ≤ fuel) :
    Splits delimiter value (pieces delimiter fuel value) := by
  induction fuel generalizing value with
  | zero =>
      obtain rfl := List.length_eq_zero_iff.mp (Nat.le_zero.mp hfuel)
      exact .whole rfl
  | succ fuel ih =>
      rw [pieces]
      cases hcut : cut delimiter value with
      | none => exact .whole hcut
      | some p =>
          obtain ⟨hvalue, -⟩ := cut_some hcut
          have hlength := congrArg List.length hvalue
          have hpos := List.length_pos_iff.mpr hne
          simp only [List.length_append] at hlength
          exact .cons hcut (ih (by omega))

theorem splits_split (hne : delimiter ≠ []) (value : Text) :
    Splits delimiter value (split value delimiter) := by
  rw [split, if_neg hne]
  exact splits_pieces hne _ le_rfl

end Occurrences

section Joins

theorem sliceStep_eq (value : Text) (index stop : Int) (taken : Text) (h : 0 ≤ index) :
    sliceStep value index stop taken =
      taken ++ (value.drop index.toNat).take (stop - index).toNat := by
  fun_induction sliceStep value index stop taken with
  | case1 index taken hlt hnone =>
      rw [textAt, if_pos h, List.getElem?_eq_none_iff] at hnone
      rw [List.drop_eq_nil_of_le hnone, List.take_nil, List.append_nil]
  | case2 index taken hlt ch hsome ih =>
      rw [textAt, if_pos h] at hsome
      obtain ⟨hbound, hat⟩ := List.getElem?_eq_some_iff.mp hsome
      have hnext : (index + 1).toNat = index.toNat + 1 := by omega
      have hcount : (stop - index).toNat = (stop - (index + 1)).toNat + 1 := by omega
      rw [ih (by omega), hnext, hcount, List.drop_eq_getElem_cons hbound, List.take_succ_cons, hat,
        List.append_assoc, List.singleton_append]
  | case3 index taken hge =>
      rw [Int.toNat_of_nonpos (by omega), List.take_zero, List.append_nil]

theorem startsWith_iff {value front : Text} : startsWith value front = true ↔ front <+: value := by
  rw [startsWith, beq_iff_eq, slice, sliceStep_eq _ _ _ _ (by omega), List.prefix_iff_eq_take, eq_comm]
  simp

theorem endsWith_iff {value suffix : Text} (hne : suffix ≠ []) :
    endsWith value suffix = true ↔ suffix <:+ value := by
  rw [endsWith, beq_iff_eq, dropFirst, slice, List.suffix_iff_eq_drop, eq_comm]
  by_cases hle : suffix.length ≤ value.length
  · rw [sliceStep_eq _ _ _ _ (by omega), List.nil_append, List.take_of_length_le]
    · rw [show ((value.length : Int) - suffix.length).toNat = value.length - suffix.length by omega]
    · rw [List.length_drop]
      omega
  · have hstep : sliceStep value ((value.length : Int) - suffix.length) value.length [] = [] := by
      rw [sliceStep, if_pos (by omega), textAt, if_neg (by omega)]
    rw [hstep]
    refine iff_of_false hne fun heq => hle ?_
    rw [heq, List.length_drop]
    omega

theorem intercalate_cons (delimiter part : Text) (parts : List Text) :
    delimiter.intercalate (part :: parts) = part ++ parts.flatMap (delimiter ++ ·) := by
  induction parts generalizing part with
  | nil => simp
  | cons next parts ih =>
      rw [List.intercalate_cons_cons, ih, List.flatMap_cons]
      simp

variable (parts : List Text)

theorem joinFrom_eq (delimiter : Text) (start index : Nat) (joined : Text)
    (h : start < index) : joinFrom parts delimiter start index joined =
      joined ++ (parts.drop index).flatMap (delimiter ++ ·) := by
  fun_induction joinFrom parts delimiter start index joined with
  | case1 index joined hnone =>
      rw [List.drop_eq_nil_of_le (List.getElem?_eq_none_iff.mp hnone)]
      simp
  | case2 joined piece hpiece _ => exact absurd h (lt_irrefl _)
  | case3 index joined piece hpiece hother ih =>
      obtain ⟨hlt, hat⟩ := List.getElem?_eq_some_iff.mp hpiece
      rw [ih (by omega), List.drop_eq_getElem_cons hlt, hat, List.flatMap_cons]
      simp

theorem joinFrom_none {parts : List Text} {index : Nat} (h : parts[index]? = none)
    (delimiter : Text) (start : Nat) (joined : Text) :
    joinFrom parts delimiter start index joined = joined := by
  rw [joinFrom]
  split
  · rfl
  · rename_i hsome
    rw [h] at hsome
    cases hsome

theorem joinFrom_some {parts : List Text} {index : Nat} {piece : Text}
    (h : parts[index]? = some piece) (delimiter : Text) (start : Nat) (joined : Text) :
    joinFrom parts delimiter start index joined = joinFrom parts delimiter start (index + 1)
      (if index = start then piece else joined ++ delimiter ++ piece) := by
  rw [joinFrom]
  split
  · rename_i hnone
    rw [h] at hnone
    cases hnone
  · rename_i hsome
    obtain rfl := Option.some.inj (h.symm.trans hsome)
    split
    · rfl
    · rfl

theorem joinFrom_start (delimiter : Text) (start : Nat) :
    joinFrom parts delimiter start start [] = delimiter.intercalate (parts.drop start) := by
  cases hpiece : parts[start]? with
  | none =>
      rw [joinFrom_none hpiece, List.drop_eq_nil_of_le (List.getElem?_eq_none_iff.mp hpiece)]
      rfl
  | some piece =>
      obtain ⟨hlt, hat⟩ := List.getElem?_eq_some_iff.mp hpiece
      rw [joinFrom_some hpiece, if_pos rfl, joinFrom_eq _ _ _ _ _ (Nat.lt_succ_self start),
        List.drop_eq_getElem_cons hlt, hat, intercalate_cons]

theorem joinUntil_eq (delimiter : Text) (stop : Int) (index : Nat)
    (joined : Text) (h : stop ≤ parts.length) : joinUntil parts delimiter stop index joined =
      joinFrom (parts.take stop.toNat) delimiter 0 index joined := by
  have htake : ∀ i : Nat, ¬ stop ≤ i →
      (parts.take stop.toNat)[i]? = some (parts[i]?.getD []) := by
    intro i hi
    rw [List.getElem?_take_of_lt (by omega), List.getElem?_eq_getElem (by omega)]
    rfl
  fun_induction joinUntil parts delimiter stop index joined with
  | case1 index joined hstop =>
      rw [joinFrom_none]
      rw [List.getElem?_eq_none_iff, List.length_take]
      omega
  | case2 joined hstop ih => rw [ih, joinFrom_some (htake 0 hstop), if_pos rfl]
  | case3 index joined hstop hpos ih => rw [ih, joinFrom_some (htake index hstop), if_neg hpos]

theorem joinAllButLast_eq (delimiter : Text) :
    joinAllButLast parts delimiter = delimiter.intercalate parts.dropLast := by
  have hcount : ((parts.length : Int) - 1).toNat = parts.length - 1 := by omega
  rw [joinAllButLast, joinUntil_eq _ _ _ _ _ (by omega), joinFrom_start, List.drop_zero, hcount,
    List.dropLast_eq_take]

end Joins

section Pieces

variable {delimiter value : Text} {parts : List Text}

theorem Splits.of_none (h : Splits delimiter value parts) (hcut : cut delimiter value = none) :
    parts = [value] := by
  cases h with
  | whole => rfl
  | cons h => cases hcut.symm.trans h

theorem Splits.of_some (h : Splits delimiter value parts) {p : Text × Text}
    (hcut : cut delimiter value = some p) :
    ∃ rest, parts = p.1 :: rest ∧ Splits delimiter p.2 rest := by
  cases h with
  | whole h => cases hcut.symm.trans h
  | cons h hrest =>
      obtain rfl := Option.some.inj (hcut.symm.trans h)
      exact ⟨_, rfl, hrest⟩

theorem Splits.ne_nil (h : Splits delimiter value parts) : parts ≠ [] := by
  cases h with
  | whole => exact List.cons_ne_nil _ _
  | cons => exact List.cons_ne_nil _ _

theorem Splits.intercalate (h : Splits delimiter value parts) :
    delimiter.intercalate parts = value := by
  induction h with
  | whole h => simp
  | @cons value front back parts hcut hrest ih =>
      obtain ⟨next, parts, rfl⟩ := List.exists_cons_of_ne_nil hrest.ne_nil
      rw [List.intercalate_cons_cons, ih, (cut_some hcut).1]
      simp

inductive Taken (delimiter : Text) : Text → Nat → Prop
  | here {value front back : Text} (h : cut delimiter value = some (front, back)) :
      Taken delimiter value front.length
  | later {value front back : Text} {i : Nat} (h : cut delimiter value = some (front, back))
      (hrest : Taken delimiter back i) :
      Taken delimiter value (front.length + delimiter.length + i)

theorem not_taken (hcut : cut delimiter value = none) (i : Nat) : ¬ Taken delimiter value i := by
  rintro (h | ⟨h, -⟩)
  · cases hcut.symm.trans h
  · cases hcut.symm.trans h

theorem taken_cases {front back : Text} (hcut : cut delimiter value = some (front, back)) {i : Nat}
    (h : Taken delimiter value i) : i = front.length ∨
      ∃ j, Taken delimiter back j ∧ i = front.length + delimiter.length + j := by
  cases h with
  | here h =>
      cases hcut.symm.trans h
      exact .inl rfl
  | later h hrest =>
      cases hcut.symm.trans h
      exact .inr ⟨_, hrest, rfl⟩

def Clear (delimiter value : Text) : Prop :=
  ∀ j, OccursAt delimiter value j → ∃ i, Taken delimiter value i ∧ j ≤ i

theorem Splits.last (h : Splits delimiter value parts) (hcut : cut delimiter value ≠ none) :
    value = delimiter.intercalate parts.dropLast ++ (delimiter ++ parts.getLast?.getD []) ∧
      Taken delimiter value (delimiter.intercalate parts.dropLast).length ∧
      ∀ i, Taken delimiter value i → i ≤ (delimiter.intercalate parts.dropLast).length := by
  induction h with
  | whole h => exact absurd h hcut
  | @cons value front back parts hhere hrest ih =>
      have hvalue := (cut_some hhere).1
      cases hback : cut delimiter back with
      | none =>
          obtain rfl := hrest.of_none hback
          refine ⟨by simpa using hvalue, by simpa using Taken.here hhere, fun i hi => ?_⟩
          rcases taken_cases hhere hi with rfl | ⟨j, hj, -⟩
          · simp
          · exact absurd hj (not_taken hback j)
      | some p =>
          obtain ⟨hlast, htaken, hmost⟩ := ih (by simp [hback])
          obtain ⟨parts, rfl, hmore⟩ := hrest.of_some hback
          obtain ⟨next, parts, rfl⟩ := List.exists_cons_of_ne_nil hmore.ne_nil
          have hdrop : delimiter.intercalate (front :: p.1 :: next :: parts).dropLast =
              front ++ (delimiter ++ delimiter.intercalate (p.1 :: next :: parts).dropLast) := by
            rw [List.dropLast_cons_cons, List.dropLast_cons_cons, List.intercalate_cons_cons]
            simp
          rw [hdrop, List.getLast?_cons_cons]
          refine ⟨?_, ?_, fun i hi => ?_⟩
          · rw [hvalue]
            conv_lhs => rw [hlast]
            simp
          · simpa [Nat.add_assoc] using Taken.later hhere htaken
          · simp only [List.length_append]
            rcases taken_cases hhere hi with rfl | ⟨j, hj, rfl⟩
            · omega
            · have := hmost j hj
              omega

end Pieces

section Laws

variable {delimiter value : Text}

structure Cuts (value delimiter : Text) : Prop where
  joined : join (split value delimiter) delimiter = value
  contains : textContains value delimiter = true ↔ ∃ i, OccursAt delimiter value i
  first : textContains value delimiter = true →
    value = before value delimiter ++ (delimiter ++ after value delimiter) ∧
      ∀ i < (before value delimiter).length, ¬ OccursAt delimiter value i
  last : textContains value delimiter = true →
    value = beforeLast value delimiter ++ (delimiter ++ afterLast value delimiter) ∧
      ∀ i, (beforeLast value delimiter).length < i → ¬ OccursAt delimiter value i
  absent : textContains value delimiter = false → before value delimiter = value ∧
    after value delimiter = [] ∧ beforeLast value delimiter = [] ∧
      afterLast value delimiter = value
  position : ∀ i, indexOf value delimiter = some i ↔
    OccursAt delimiter value i ∧ ∀ j < i, ¬ OccursAt delimiter value j
  missing : indexOf value delimiter = none ↔ textContains value delimiter = false
  prefixed : withoutPrefix (delimiter ++ value) delimiter = value
  suffixed : withoutSuffix (value ++ delimiter) delimiter = value
  unprefixed : ¬ delimiter <+: value → withoutPrefix value delimiter = value
  unsuffixed : ¬ delimiter <:+ value → withoutSuffix value delimiter = value

theorem whole_spec (hne : delimiter ≠ []) (h : cut delimiter value = none) :
    textContains value delimiter = false ∧ before value delimiter = value ∧
      after value delimiter = [] ∧ beforeLast value delimiter = [] ∧
        afterLast value delimiter = value := by
  have hsplit := (splits_split hne value).of_none h
  rw [textContains, before, after, beforeLast, afterLast, hsplit, joinFrom_start,
    joinAllButLast_eq]
  simp [hne]

theorem cut_spec (hne : delimiter ≠ []) {front back : Text}
    (h : cut delimiter value = some (front, back)) :
    textContains value delimiter = true ∧ before value delimiter = front ∧
      after value delimiter = back := by
  obtain ⟨parts, hsplit, hrest⟩ := (splits_split hne value).of_some h
  have hlength := List.length_pos_iff.mpr hrest.ne_nil
  rw [textContains, before, after, hsplit, joinFrom_start, if_neg hne, if_neg hne, if_neg hne]
  exact ⟨by simpa using hlength, rfl, hrest.intercalate⟩

theorem last_spec (hne : delimiter ≠ []) (h : cut delimiter value ≠ none) :
    value = beforeLast value delimiter ++ (delimiter ++ afterLast value delimiter) ∧
      Taken delimiter value (beforeLast value delimiter).length ∧
      ∀ i, Taken delimiter value i → i ≤ (beforeLast value delimiter).length := by
  have hsplits := splits_split hne value
  have hafter : afterLast value delimiter = (split value delimiter).getLast?.getD [] := by
    rw [afterLast, if_neg hne, List.getLast?_eq_some_getLast hsplits.ne_nil]
    rfl
  rw [hafter, beforeLast, if_neg hne, joinAllButLast_eq]
  exact hsplits.last h

theorem clear_iff (hne : delimiter ≠ []) (h : cut delimiter value ≠ none) :
    Clear delimiter value ↔
      ∀ i, (beforeLast value delimiter).length < i → ¬ OccursAt delimiter value i := by
  obtain ⟨-, htaken, hmost⟩ := last_spec hne h
  constructor
  · intro hclear i hlt hoccurs
    obtain ⟨j, hj, hle⟩ := hclear i hoccurs
    have := hmost j hj
    omega
  · intro hafter i hoccurs
    exact ⟨_, htaken, not_lt.mp fun hlt => hafter i hlt hoccurs⟩

theorem occursAt_of_eq {front back : Text} (h : value = front ++ (delimiter ++ back)) :
    OccursAt delimiter value front.length := by
  rw [OccursAt, h, List.drop_left]
  exact List.prefix_append _ _

theorem contains_iff (hne : delimiter ≠ []) :
    textContains value delimiter = true ↔ ∃ i, OccursAt delimiter value i := by
  cases h : cut delimiter value with
  | none =>
      rw [(whole_spec hne h).1]
      exact iff_of_false Bool.false_ne_true fun ⟨i, hi⟩ => cut_none hne h i hi
  | some p => exact iff_of_true (cut_spec hne h).1 ⟨_, occursAt_of_eq (cut_some h).1⟩

theorem cut_ne_none (hne : delimiter ≠ []) {i : Nat} (h : OccursAt delimiter value i) :
    cut delimiter value ≠ none := fun hcut => cut_none hne hcut i h

theorem indexOf_eq_some (hne : delimiter ≠ []) (i : Nat) : indexOf value delimiter = some i ↔
    OccursAt delimiter value i ∧ ∀ j < i, ¬ OccursAt delimiter value j := by
  rw [indexOf, if_neg hne]
  cases h : cut delimiter value with
  | none =>
      rw [(whole_spec hne h).1]
      exact iff_of_false (by simp) fun hi => cut_none hne h i hi.1
  | some p =>
      obtain ⟨hcontains, hbefore, -⟩ := cut_spec hne h
      obtain ⟨hvalue, hnone⟩ := cut_some h
      rw [hcontains, if_pos rfl, hbefore, Option.some.injEq]
      constructor
      · rintro rfl
        exact ⟨occursAt_of_eq hvalue, hnone⟩
      · rintro ⟨hi, hfirst⟩
        rcases lt_trichotomy p.1.length i with hlt | heq | hgt
        · exact absurd (occursAt_of_eq hvalue) (hfirst _ hlt)
        · exact heq
        · exact absurd hi (hnone i hgt)

theorem withoutPrefix_append (hne : delimiter ≠ []) (value : Text) :
    withoutPrefix (delimiter ++ value) delimiter = value := by
  have hcut : cut delimiter (delimiter ++ value) = some ([], value) := by
    obtain ⟨c, rest, rfl⟩ := List.exists_cons_of_ne_nil hne
    rw [List.cons_append, cut, if_pos (by simp)]
    simp
  rw [withoutPrefix, if_neg hne, if_pos (startsWith_iff.mpr (List.prefix_append _ _)),
    (cut_spec hne hcut).2.2]

theorem withoutSuffix_append_iff (hne : delimiter ≠ []) (value : Text) :
    withoutSuffix (value ++ delimiter) delimiter = value ↔ Clear delimiter (value ++ delimiter) := by
  have hend : OccursAt delimiter (value ++ delimiter) value.length :=
    occursAt_of_eq (by rw [List.append_nil])
  have hcut := cut_ne_none hne hend
  obtain ⟨hvalue, htaken, hmost⟩ := last_spec hne hcut
  rw [withoutSuffix, if_neg hne, if_pos ((endsWith_iff hne).mpr (List.suffix_append _ _)),
    clear_iff hne hcut]
  have hlength := congrArg List.length hvalue
  simp only [List.length_append] at hlength
  constructor
  · intro heq i hlt hoccurs
    rw [heq] at hlt
    have hbound := hoccurs.length_le
    rw [List.length_drop, List.length_append] at hbound
    have := List.length_pos_iff.mpr hne
    omega
  · intro hafter
    have hle := not_lt.mp fun hlt => hafter value.length hlt hend
    have hnone : afterLast (value ++ delimiter) delimiter = [] :=
      List.length_eq_zero_iff.mp (by omega)
    rw [hnone, List.append_nil] at hvalue
    exact (List.append_cancel_right hvalue).symm

end Laws

end Delimiters
end Prelude
end Zdeceptron
