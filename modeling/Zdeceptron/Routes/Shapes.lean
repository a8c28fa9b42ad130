import Zdeceptron.Library.Segments
import Zdeceptron.Routes.Check

/-!
# The shapes of a route's URLs
-/

namespace Zdeceptron
namespace Routes

open Library

section Segments

def pathSegments (path : Text) : List Text :=
  if path = ['/'] then [] else path.tail.splitOn '/'

def urlOf (segments : List Text) : Text :=
  if rendered segments = [] then ['/'] else rendered segments

def IsSegment (segment : Text) : Prop := segment ≠ [] ∧ '/' ∉ segment

theorem isSegment_of_chars {segment : Text} (hne : segment ≠ [])
    (h : segment.all segmentChar = true) : IsSegment segment := by
  refine ⟨hne, fun hmem => ?_⟩
  have := List.all_eq_true.mp h '/' hmem
  exact absurd this (by decide)

theorem segmentIsSafe.isSegment {segment : Text} (h : segmentIsSafe segment = true) :
    IsSegment segment := by
  simp only [segmentIsSafe, Bool.and_eq_true, Bool.not_eq_true', List.isEmpty_eq_false_iff] at h
  exact isSegment_of_chars h.1 h.2

theorem rendered_eq_intercalate (segment : Text) (segments : List Text) :
    rendered (segment :: segments) = '/' :: ['/'].intercalate (segment :: segments) := by
  induction segments generalizing segment with
  | nil => simp [List.intercalate]
  | cons next segments ih =>
      rw [rendered_cons, ih next, List.intercalate_cons_cons]
      simp

variable {path : Text}

theorem safe_cases (h : routePathIsSafe path = true) :
    path = ['/'] ∨ path ≠ ['/'] ∧ path.head? = some '/' ∧ path.getLast? ≠ some '/' ∧
        ∀ segment ∈ path.tail.splitOn '/', segment ≠ [] ∧ segment.all segmentChar = true := by
  unfold routePathIsSafe at h
  split_ifs at h with hroot hends
  · exact .inl hroot
  · rw [not_or, not_not] at hends
    refine .inr ⟨hroot, hends.1, hends.2, ?_⟩
    intro segment hsegment
    have hsafe := List.all_eq_true.mp h segment hsegment
    simp only [Bool.and_eq_true, Bool.not_eq_true', List.isEmpty_eq_false_iff] at hsafe
    exact ⟨hsafe.1.1.1, hsafe.2⟩

theorem isSegment_pathSegments (h : routePathIsSafe path = true) :
    ∀ segment ∈ pathSegments path, IsSegment segment := by
  rcases safe_cases h with rfl | ⟨hroot, -, -, hsegments⟩
  · simp [pathSegments]
  · intro segment hsegment
    rw [pathSegments, if_neg hroot] at hsegment
    exact isSegment_of_chars (hsegments segment hsegment).1 (hsegments segment hsegment).2

theorem trimEndMatches_of_last (h : path.getLast? ≠ some '/') : trimEndMatches path = path := by
  unfold trimEndMatches
  cases hrev : path.reverse with
  | nil => simpa using hrev.symm
  | cons c rest =>
      have hlast : path.getLast? = some c := by
        rw [← List.head?_reverse, hrev]
        rfl
      have hc : (c == '/') = false := by
        rw [hlast] at h
        simpa using h
      rw [List.dropWhile_cons, hc, if_neg (by decide), ← hrev, List.reverse_reverse]

theorem trimEndMatches_eq (h : routePathIsSafe path = true) :
    trimEndMatches path = rendered (pathSegments path) := by
  rcases safe_cases h with rfl | ⟨hroot, hhead, hlast, -⟩
  · decide
  · rw [trimEndMatches_of_last hlast, pathSegments, if_neg hroot]
    obtain ⟨tail, rfl⟩ : ∃ tail, path = '/' :: tail := by
      cases path with
      | nil => cases hhead
      | cons c tail =>
          rw [List.head?_cons, Option.some.injEq] at hhead
          exact ⟨tail, by rw [hhead]⟩
    rw [List.tail_cons]
    have hjoin : ['/'].intercalate (tail.splitOn '/') = tail := List.intercalate_splitOn _
    cases hsplit : tail.splitOn '/' with
    | nil => exact absurd hsplit (List.splitOn_ne_nil _ _)
    | cons segment segments =>
        rw [rendered_eq_intercalate, ← hsplit, hjoin]

theorem foldl_rendered (start : Text) (values : List Text) :
    values.foldl (fun out value => out ++ '/' :: value) start = start ++ rendered values := by
  induction values generalizing start with
  | nil => simp
  | cons value values ih => rw [List.foldl_cons, ih, rendered_cons]; simp

theorem url_eq {table : RouteTable} {index : Nat} {variant : RouteVariantInfo}
    (h : table.variants[index]? = some variant) (values : List Text) :
    table.url index values = urlOf (pathSegments variant.path ++ values) := by
  unfold RouteTable.url urlOf
  rw [h]
  simp only [foldl_rendered, trimEndMatches_eq variant.safe, rendered_append]

theorem urlOf_inj {front back : List Text} (hfront : ∀ s ∈ front, IsSegment s)
    (hback : ∀ s ∈ back, IsSegment s) (h : urlOf front = urlOf back) : front = back := by
  have hroot : ∀ segments : List Text, (∀ s ∈ segments, IsSegment s) →
      rendered segments ≠ ['/'] := by
    intro segments hsegments hroot
    cases segments with
    | nil => cases hroot
    | cons segment segments =>
        rw [rendered_cons, List.cons.injEq, List.append_eq_nil_iff] at hroot
        exact (hsegments segment List.mem_cons_self).1 hroot.2.1
  refine rendered_inj (fun s hs => (hfront s hs).2) (fun s hs => (hback s hs).2) ?_
  unfold urlOf at h
  split_ifs at h with hf hb hb
  · rw [hf, hb]
  · exact absurd h.symm (hroot back hback)
  · exact absurd h (hroot front hfront)
  · exact h

end Segments

section Slots

inductive Slot
  | literal (segment : Text)
  | among (values : List Text)
  | any

namespace Slot

def admits : Slot → Text → Bool
  | literal segment, value => segment == value
  | among values, value => values.contains value
  | any, value => segmentIsSafe value

def meets : Slot → Slot → Bool
  | literal segment, other => other.admits segment
  | among values, other => values.any other.admits
  | any, literal segment => segmentIsSafe segment
  | any, among values => values.any segmentIsSafe
  | any, any => true

theorem meets_iff (slot other : Slot) :
    slot.meets other = true ↔
      ({value | slot.admits value = true} ∩ {value | other.admits value = true}).Nonempty := by
  constructor
  · intro h
    cases slot with
    | literal segment => exact ⟨segment, by simp [admits], h⟩
    | among values =>
        obtain ⟨value, hvalue, hadmits⟩ := List.any_eq_true.mp h
        exact ⟨value, by simpa [admits] using hvalue, hadmits⟩
    | any =>
        cases other with
        | literal segment => exact ⟨segment, h, by simp [admits]⟩
        | among values =>
            obtain ⟨value, hvalue, hsafe⟩ := List.any_eq_true.mp h
            exact ⟨value, hsafe, by simpa [admits] using hvalue⟩
        | any => exact ⟨['a'], by decide, by decide⟩
  · rintro ⟨value, hslot, hother⟩
    simp only [Set.mem_ofPred_eq] at hslot hother
    cases slot with
    | literal segment =>
        simp only [admits, beq_iff_eq] at hslot
        rw [meets, hslot]
        exact hother
    | among values =>
        simp only [admits, List.contains_iff_mem] at hslot
        exact List.any_eq_true.mpr ⟨value, hslot, hother⟩
    | any =>
        cases other with
        | literal segment =>
            simp only [admits, beq_iff_eq] at hother
            rw [meets, hother]
            exact hslot
        | among values =>
            simp only [admits, List.contains_iff_mem] at hother
            exact List.any_eq_true.mpr ⟨value, hother, hslot⟩
        | any => rfl

end Slot

def overlap : List Slot → List Slot → Bool
  | [], [] => true
  | slot :: slots, other :: others => slot.meets other && overlap slots others
  | _, _ => false

def Fits (shape : List Slot) (path : List Text) : Prop :=
  Admits (shape.map (fun slot => {value | slot.admits value = true})) path

theorem overlap_iff (shape other : List Slot) :
    overlap shape other = true ↔ ∃ path, Fits shape path ∧ Fits other path := by
  unfold Fits
  rw [exists_admitted_iff, List.forall₂_map_left_iff, List.forall₂_map_right_iff]
  induction shape generalizing other with
  | nil => cases other <;> simp [overlap]
  | cons slot shape ih =>
      cases other with
      | nil => simp [overlap]
      | cons next other =>
          rw [overlap, Bool.and_eq_true, List.forall₂_cons, ih, Slot.meets_iff]

theorem fits_literals_iff (segments path : List Text) :
    Fits (segments.map Slot.literal) path ↔ path = segments := by
  rw [← admits_singletons_iff, Fits, List.map_map]
  have hset : (fun slot : Slot => {value | slot.admits value = true}) ∘ Slot.literal =
      fun segment => ({segment} : Set Text) := by
    funext segment
    ext value
    rw [Function.comp_apply, Set.mem_ofPred_eq, Set.mem_singleton_iff, Slot.admits, beq_iff_eq]
    exact eq_comm
  rw [hset]

theorem fits_append_iff (front : List Text) (shape : List Slot) (path : List Text) :
    Fits (front.map Slot.literal ++ shape) path ↔
      ∃ values, path = front ++ values ∧ Fits shape values := by
  constructor
  · intro h
    rw [Fits, List.map_append] at h
    obtain ⟨first, values, rfl, hfirst, hvalues⟩ := h.split
    exact ⟨values, by rw [(fits_literals_iff front first).mp hfirst], hvalues⟩
  · rintro ⟨values, rfl, hvalues⟩
    rw [Fits, List.map_append]
    exact Admits.append ((fits_literals_iff front front).mpr rfl) hvalues

end Slots

end Routes
end Zdeceptron
