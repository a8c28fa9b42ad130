import Mathlib.Data.List.Forall2
import Mathlib.Data.Set.Insert

/-!
# Paths of segments
-/

namespace Library

section Rendered

def rendered (segments : List (List Char)) : List Char :=
  segments.flatMap (fun segment => '/' :: segment)

@[simp] theorem rendered_nil : rendered [] = [] := rfl

@[simp] theorem rendered_cons (segment : List Char) (segments : List (List Char)) :
    rendered (segment :: segments) = '/' :: (segment ++ rendered segments) := rfl

@[simp] theorem rendered_append (front back : List (List Char)) :
    rendered (front ++ back) = rendered front ++ rendered back :=
  List.flatMap_append

theorem rendered_eq_nil {segments : List (List Char)} :
    rendered segments = [] ↔ segments = [] := by
  cases segments <;> simp

variable {front back : List (List Char)}

theorem segment_inj {s t : List Char} (hs : '/' ∉ s)
    (ht : '/' ∉ t) (h : s ++ rendered front = t ++ rendered back) :
    s = t ∧ rendered front = rendered back := by
  induction s generalizing t with
  | nil =>
      cases t with
      | nil => exact ⟨rfl, h⟩
      | cons d t =>
          cases front with
          | nil => cases h
          | cons segment front =>
              injection h with hd
              exact absurd (hd ▸ List.mem_cons_self) ht
  | cons c s ih =>
      cases t with
      | nil =>
          cases back with
          | nil => cases h
          | cons segment back =>
              injection h with hc
              exact absurd (hc ▸ List.mem_cons_self) hs
      | cons d t =>
          injection h with hcd hrest
          obtain ⟨hst, hfront⟩ := ih (fun hmem => hs (List.mem_cons_of_mem _ hmem))
            (fun hmem => ht (List.mem_cons_of_mem _ hmem)) hrest
          exact ⟨by rw [hcd, hst], hfront⟩

theorem rendered_inj (hfront : ∀ s ∈ front, '/' ∉ s)
    (hback : ∀ s ∈ back, '/' ∉ s) (h : rendered front = rendered back) : front = back := by
  induction front generalizing back with
  | nil => exact (rendered_eq_nil.mp h.symm).symm
  | cons s front ih =>
      cases back with
      | nil => cases h
      | cons t back =>
          injection h with _ hrest
          obtain ⟨hst, htail⟩ := segment_inj (hfront s List.mem_cons_self)
            (hback t List.mem_cons_self) hrest
          rw [hst, ih (fun s hs => hfront s (List.mem_cons_of_mem _ hs))
            (fun t ht => hback t (List.mem_cons_of_mem _ ht)) htail]

end Rendered

section Shapes

universe u

variable {α : Type u}

/-- A path whose segments a shape admits one by one. -/
def Admits (shape : List (Set α)) (path : List α) : Prop :=
  List.Forall₂ (fun values segment => segment ∈ values) shape path

variable {front back : List (Set α)}

theorem Admits.append {first second : List α}
    (hfront : Admits front first) (hback : Admits back second) :
    Admits (front ++ back) (first ++ second) :=
  List.rel_append hfront hback

theorem Admits.split {path : List α} (h : Admits (front ++ back) path) :
    ∃ first second, path = first ++ second ∧ Admits front first ∧ Admits back second := by
  induction front generalizing path with
  | nil => exact ⟨[], path, rfl, .nil, h⟩
  | cons values front ih =>
      cases h with
      | cons hsegment hrest =>
          obtain ⟨first, second, rfl, hfirst, hsecond⟩ := ih hrest
          exact ⟨_ :: first, second, rfl, .cons hsegment hfirst, hsecond⟩

theorem admits_singletons_iff {path other : List α} :
    Admits (path.map (fun segment => ({segment} : Set α))) other ↔ other = path := by
  constructor
  · intro h
    induction path generalizing other with
    | nil =>
        cases h
        rfl
    | cons segment path ih =>
        cases h with
        | cons hsegment hrest => rw [Set.mem_singleton_iff.mp hsegment, ih hrest]
  · rintro rfl
    induction other with
    | nil => exact .nil
    | cons segment other ih => exact .cons rfl ih

theorem exists_admitted_iff {shape other : List (Set α)} :
    (∃ path, Admits shape path ∧ Admits other path) ↔
      List.Forall₂ (fun values also => (values ∩ also).Nonempty) shape other := by
  constructor
  · rintro ⟨path, hshape, hother⟩
    induction hshape generalizing other with
    | nil =>
        cases hother
        exact .nil
    | cons hsegment _ ih =>
        cases hother with
        | cons halso hrest => exact .cons ⟨_, hsegment, halso⟩ (ih hrest)
  · intro h
    induction h with
    | nil => exact ⟨[], .nil, .nil⟩
    | cons hcommon _ ih =>
        obtain ⟨segment, hsegment, halso⟩ := hcommon
        obtain ⟨path, hshape, hother⟩ := ih
        exact ⟨segment :: path, .cons hsegment hshape, .cons halso hother⟩

end Shapes

end Library
