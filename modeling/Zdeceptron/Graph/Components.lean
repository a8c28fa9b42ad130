import Mathlib.Algebra.Ring.Nat
import Mathlib.Data.List.Nodup
import Mathlib.Logic.Relation
import Zdeceptron.Graph.Hir
import Zdeceptron.Library.Loop

/-!
# The cycles of a graph

Tarjan's strongly connected components with an explicit call stack, restricted to the ones
that are cycles.  The maps and sets of the search are functions; its two stacks are lists,
their top first.
-/

namespace Zdeceptron
namespace Graph

open Library Relation

section Search

abbrev Edges := List (DefId × List DefId)

namespace Edges

def get (edges : Edges) (id : DefId) : Option (List DefId) := List.lookup id edges

def containsKey (edges : Edges) (id : DefId) : Bool := (edges.get id).isSome

def keys (edges : Edges) : List DefId := edges.map Prod.fst

def neighbours (edges : Edges) (id : DefId) : List DefId := (edges.get id).getD []

def Leads (edges : Edges) (x y : DefId) : Prop :=
  y ∈ edges.neighbours x ∧ edges.containsKey y = true

end Edges

structure Search where
  index : DefId → Option Nat
  low : DefId → Option Nat
  onStack : DefId → Bool
  stack : List DefId
  next : Nat
  found : List (List DefId)
  callStack : List (DefId × Nat)

namespace Search

def start : Search := ⟨fun _ => none, fun _ => none, fun _ => false, [], 0, [], []⟩

def enter (s : Search) (node : DefId) : Search :=
  { s with
    index := Function.update s.index node (some s.next)
    low := Function.update s.low node (some s.next)
    onStack := Function.update s.onStack node true
    stack := node :: s.stack
    next := s.next + 1
    callStack := (node, 0) :: s.callStack }

def setLow (s : Search) (node : DefId) (low : Nat) : Search :=
  { s with low := Function.update s.low node (some low) }

def setCalls (s : Search) (calls : List (DefId × Nat)) : Search := { s with callStack := calls }

/-- Take from a stack down to a node: what is taken, the top first, and what stays. -/
def popTo (at_ : DefId) : List DefId → List DefId × List DefId
  | [] => ([], [])
  | popped :: stack =>
      if popped = at_ then ([popped], stack)
      else
        let (component, rest) := popTo at_ stack
        (popped :: component, rest)

variable (edges : Edges)

def selfLoop (component : List DefId) : Bool :=
  component.length == 1 &&
    match component with
    | [] => false
    | node :: _ => (edges.get node).any (fun targets => targets.contains node)

/-- The component whose first node is `at_` leaves the stack. -/
def close (s : Search) (at_ : DefId) : Search :=
  let (component, rest) := popTo at_ s.stack
  { s with
    onStack := fun node => if node ∈ component then false else s.onStack node
    stack := rest
    found :=
      if component.length > 1 || selfLoop edges component then s.found ++ [component.reverse]
      else s.found }

/-- The parent on the call stack, if any, learns how low a node that is left gets. -/
def lower (s : Search) (at_ : DefId) : Option Search :=
  match s.callStack with
  | [] => some s
  | (parent, _) :: _ => do
      let child ← s.low at_
      let current ← s.low parent
      return s.setLow parent (min current child)

/-- One turn: the next neighbour of the node on top of the call stack, or the end of that
node. -/
def visit (s : Search) : Option (Option Search) :=
  match s.callStack with
  | [] => some none
  | (at_, position) :: rest =>
      match (edges.neighbours at_)[position]? with
      | some nextNode =>
          let s := s.setCalls ((at_, position + 1) :: rest)
          if edges.containsKey nextNode then
            match s.index nextNode with
            | none => some (some (s.enter nextNode))
            | some candidate =>
                if s.onStack nextNode then do
                  let current ← s.low at_
                  return some (s.setLow at_ (min current candidate))
                else some (some s)
          else some (some s)
      | none => do
          let s ← (s.setCalls rest).lower at_
          if (← s.low at_) = (← s.index at_) then return some (s.close edges at_)
          else return some s

end Search

/-- The strongly connected components that are cycles; `none` is a panic or a search that
does not end. -/
def stronglyConnected (edges : Edges) : Option (List (List DefId)) := do
  let s ← edges.keys.foldlM (fun s start =>
    if (s.index start).isSome then some s else loop (Search.visit edges) (s.enter start))
    Search.start
  return s.found

/-- The nodes of a list lie on a common cycle, and no other node lies on one with them. -/
structure IsCycle (leads : DefId → DefId → Prop) (component : List DefId) : Prop where
  nodup : component.Nodup
  cyclic : ∃ v ∈ component, TransGen leads v v
  together : ∀ v ∈ component, ∀ w,
    w ∈ component ↔ ReflTransGen leads v w ∧ ReflTransGen leads w v

end Search

namespace Search

variable {edges : Edges} {s : Search}

section Invariant

def rank (s : Search) (v : DefId) : Nat := (s.index v).getD 0

def lowOf (s : Search) (v : DefId) : Nat := (s.low v).getD 0

def gray (s : Search) : List DefId := s.callStack.map Prod.fst

def Done (s : Search) (v : DefId) : Prop := (s.index v).isSome ∧ v ∉ s.stack

def Seen (edges : Edges) (s : Search) (x y : DefId) : Prop :=
  edges.Leads x y ∧ (s.index x).isSome ∧
    ∀ p, (x, p) ∈ s.callStack → y ∈ (edges.neighbours x).take p

structure Inv (edges : Edges) (s : Search) : Prop where
  keys : ∀ v, (s.index v).isSome → edges.containsKey v = true
  below : ∀ v i, s.index v = some i → i < s.next
  inj : ∀ v w i, s.index v = some i → s.index w = some i → v = w
  lows : ∀ v i, s.index v = some i → ∃ l, s.low v = some l ∧ l ≤ i
  onStack : ∀ v, s.onStack v = true ↔ v ∈ s.stack
  visited : ∀ v ∈ s.stack, (s.index v).isSome
  sorted : s.stack.Pairwise (fun x y => s.rank y < s.rank x)
  grays : s.gray.Pairwise (fun x y => s.rank y < s.rank x)
  grayOnStack : ∀ v ∈ s.gray, v ∈ s.stack
  reaches : ∀ g ∈ s.gray, ∀ x ∈ s.stack, s.rank g ≤ s.rank x → ReflTransGen edges.Leads g x
  climbs : ∀ x ∈ s.stack, ∃ g ∈ s.gray, s.rank g ≤ s.rank x ∧ ReflTransGen edges.Leads x g
  lowSeen : ∀ x ∈ s.stack, ∃ u ∈ s.stack, s.lowOf x = s.rank u ∧ ReflTransGen edges.Leads x u
  -- the lowest of what lies above a gray node is no lower than the node itself
  above : ∀ x ∈ s.stack, x ∉ s.gray → ∀ g ∈ s.gray, s.rank g < s.rank x →
    (∀ g' ∈ s.gray, s.rank g' < s.rank x → s.rank g' ≤ s.rank g) → s.lowOf g ≤ s.lowOf x
  seen : ∀ x y, s.Seen edges x y →
    s.Done y ∨ (x ∈ s.stack ∧ y ∈ s.stack ∧ s.lowOf x ≤ s.rank y)
  found : ∀ component ∈ s.found, IsCycle edges.Leads component ∧ ∀ v ∈ component, s.Done v
  foundAll : ∀ v, s.Done v → TransGen edges.Leads v v → ∃ component ∈ s.found, v ∈ component
  apart : s.found.Pairwise List.Disjoint

theorem inv_start (edges : Edges) : Inv edges start := by
  constructor <;> simp [start, Done, Seen, gray]

variable {v : DefId}

theorem rank_of_index {i : Nat} (h : s.index v = some i) : s.rank v = i := by
  rw [rank, h, Option.getD_some]

theorem lowOf_of_low {l : Nat} (h : s.low v = some l) : s.lowOf v = l := by
  rw [lowOf, h, Option.getD_some]

theorem Inv.index_eq (h : Inv edges s) (hv : v ∈ s.stack) :
    s.index v = some (s.rank v) := by
  obtain ⟨i, hi⟩ := Option.isSome_iff_exists.mp (h.visited v hv)
  rw [hi, rank_of_index hi]

theorem Inv.low_eq (h : Inv edges s) (hv : v ∈ s.stack) :
    s.low v = some (s.lowOf v) ∧ s.lowOf v ≤ s.rank v := by
  obtain ⟨l, hl, hle⟩ := h.lows v _ (h.index_eq hv)
  rw [hl, lowOf_of_low hl]
  exact ⟨rfl, hle⟩

theorem Inv.rank_inj (h : Inv edges s) {v w : DefId} (hv : v ∈ s.stack) (hw : w ∈ s.stack)
    (hrank : s.rank v = s.rank w) : v = w :=
  h.inj v w _ (h.index_eq hv) (hrank ▸ h.index_eq hw)

theorem Inv.frame_unique (h : Inv edges s) {x : DefId} {p q : Nat} (hp : (x, p) ∈ s.callStack)
    (hq : (x, q) ∈ s.callStack) : p = q := by
  have hnodup : s.gray.Nodup := h.grays.imp (fun hlt heq => by
    subst heq
    exact Nat.lt_irrefl _ hlt)
  exact congrArg Prod.snd (List.inj_on_of_nodup_map hnodup hp hq rfl)

theorem Inv.closed (h : Inv edges s) {x y : DefId} (hx : s.Done x)
    (hxy : ReflTransGen edges.Leads x y) : s.Done y := by
  induction hxy with
  | refl => exact hx
  | @tail b c _ hstep ih =>
      have hseen : s.Seen edges b c := by
        refine ⟨hstep, ih.1, fun p hp => ?_⟩
        exact absurd (h.grayOnStack _ (List.mem_map_of_mem (f := Prod.fst) hp)) ih.2
      rcases h.seen _ _ hseen with hdone | ⟨hstack, -⟩
      · exact hdone
      · exact absurd hstack ih.2

end Invariant

section Moves

variable {node : DefId}

theorem lowOf_setLow_self (v : DefId) (l : Nat) : (s.setLow v l).lowOf v = l := by
  simp [lowOf, setLow]

theorem lowOf_setLow_of_ne {v x : DefId} (h : x ≠ v) (l : Nat) :
    (s.setLow v l).lowOf x = s.lowOf x := by
  simp [lowOf, setLow, h]

theorem Inv.lowered (h : Inv edges s) {v u : DefId} (hv : v ∈ s.gray) (hu : u ∈ s.stack)
    (hreach : ReflTransGen edges.Leads v u) :
    Inv edges (s.setLow v (min (s.lowOf v) (s.rank u))) := by
  have hvs := h.grayOnStack v hv
  have hle (x : DefId) : (s.setLow v (min (s.lowOf v) (s.rank u))).lowOf x ≤ s.lowOf x := by
    by_cases hx : x = v
    · subst hx
      rw [lowOf_setLow_self]
      exact Nat.min_le_left ..
    · rw [lowOf_setLow_of_ne hx]
  refine { h with lows := ?_, lowSeen := ?_, above := ?_, seen := ?_ }
  · intro x i hi
    by_cases hx : x = v
    · subst hx
      refine ⟨_, Function.update_self .., ?_⟩
      have hrank : s.rank x = i := rank_of_index hi
      have := (h.low_eq hvs).2
      omega
    · obtain ⟨l, hl, hli⟩ := h.lows x i hi
      exact ⟨l, (Function.update_of_ne hx ..).trans hl, hli⟩
  · intro x hx
    by_cases hxv : x = v
    · subst hxv
      rw [lowOf_setLow_self]
      rcases Nat.le_total (s.lowOf x) (s.rank u) with hmin | hmin
      · rw [Nat.min_eq_left hmin]
        exact h.lowSeen x hx
      · rw [Nat.min_eq_right hmin]
        exact ⟨u, hu, rfl, hreach⟩
    · rw [lowOf_setLow_of_ne hxv]
      exact h.lowSeen x hx
  · intro x hx hgray g hg hlt hnearest
    have hxv : x ≠ v := by
      rintro rfl
      exact hgray hv
    rw [lowOf_setLow_of_ne hxv]
    exact (hle g).trans (h.above x hx hgray g hg hlt hnearest)
  · intro x y hseen
    rcases h.seen x y hseen with hdone | ⟨hx, hy, hlow⟩
    · exact .inl hdone
    · exact .inr ⟨hx, hy, (hle x).trans hlow⟩

variable {rest : List (DefId × Nat)} {position : Nat}

theorem Inv.advance (h : Inv edges s) (above : List (DefId × Nat)) {at_ next : DefId}
    (hcalls : s.callStack = above ++ (at_, position) :: rest)
    (hnext : (edges.neighbours at_)[position]? = some next) (hseen : edges.containsKey next = true →
      s.Done next ∨ (next ∈ s.stack ∧ s.lowOf at_ ≤ s.rank next)) :
    Inv edges (s.setCalls (above ++ (at_, position + 1) :: rest)) := by
  have hgray : (s.setCalls (above ++ (at_, position + 1) :: rest)).gray = s.gray := by
    simp [gray, setCalls, hcalls]
  have hmem : at_ ∈ s.gray := by simp [gray, hcalls]
  refine { h with grays := ?_, grayOnStack := ?_, reaches := ?_, climbs := ?_, above := ?_,
                  seen := ?_ }
  · rw [hgray]
    exact h.grays
  · rw [hgray]
    exact h.grayOnStack
  · rw [hgray]
    exact h.reaches
  · rw [hgray]
    exact h.climbs
  · rw [hgray]
    exact h.above
  · rintro x y ⟨hedge, hvisited, htake⟩
    by_cases hx : x = at_
    · subst hx
      have hy := htake (position + 1) (by simp [setCalls])
      rw [List.take_add_one, hnext] at hy
      rcases List.mem_append.mp hy with hbefore | hlast
      · refine h.seen x y ⟨hedge, hvisited, fun p hp => ?_⟩
        obtain rfl := h.frame_unique hp (q := position) (by simp [hcalls])
        exact hbefore
      · obtain rfl : y = next := by simpa using hlast
        rcases hseen hedge.2 with hdone | ⟨hstack, hlow⟩
        · exact .inl hdone
        · exact .inr ⟨h.grayOnStack x hmem, hstack, hlow⟩
    · refine h.seen x y ⟨hedge, hvisited, fun p hp => htake p ?_⟩
      rw [hcalls] at hp
      simp only [setCalls, List.mem_append, List.mem_cons, Prod.mk.injEq] at hp ⊢
      rcases hp with hp | ⟨rfl, -⟩ | hp
      · exact .inl hp
      · exact absurd rfl hx
      · exact .inr (.inr hp)

theorem rank_enter_self (node : DefId) : (s.enter node).rank node = s.next := by
  simp [rank, enter]

variable {x : DefId}

theorem rank_enter_of_ne (h : x ≠ node) : (s.enter node).rank x = s.rank x := by
  simp [rank, enter, h]

theorem lowOf_enter_self (node : DefId) : (s.enter node).lowOf node = s.next := by
  simp [lowOf, enter]

theorem lowOf_enter_of_ne (h : x ≠ node) : (s.enter node).lowOf x = s.lowOf x := by
  simp [lowOf, enter, h]

theorem done_enter (hnew : s.index node = none) :
    (s.enter node).Done x ↔ s.Done x := by
  by_cases hx : x = node
  · subst hx
    simp [Done, enter, hnew]
  · simp [Done, enter, hx]

theorem Inv.enter (h : Inv edges s) (hnew : s.index node = none)
    (hkey : edges.containsKey node = true)
    (hreach : ∀ g ∈ s.gray, ReflTransGen edges.Leads g node) : Inv edges (s.enter node) := by
  have hold {x : DefId} (hx : x ∈ s.stack) : x ≠ node := by
    rintro rfl
    have := h.visited x hx
    rw [hnew] at this
    cases this
  have holdGray {x : DefId} (hx : x ∈ s.gray) : x ≠ node := hold (h.grayOnStack x hx)
  have hlt {x : DefId} (hx : x ∈ s.stack) : s.rank x < s.next := h.below x _ (h.index_eq hx)
  have hstack {x : DefId} : x ∈ (s.enter node).stack ↔ x = node ∨ x ∈ s.stack := List.mem_cons
  have hgray {x : DefId} : x ∈ (s.enter node).gray ↔ x = node ∨ x ∈ s.gray := by
    simp [gray, Search.enter]
  constructor
  case keys =>
    intro v hv
    by_cases hvn : v = node
    · rw [hvn]
      exact hkey
    · simp only [Search.enter, Function.update_of_ne hvn] at hv
      exact h.keys v hv
  case below =>
    intro v i hv
    by_cases hvn : v = node
    · subst hvn
      simp only [Search.enter, Function.update_self, Option.some.injEq] at hv ⊢
      omega
    · simp only [Search.enter, Function.update_of_ne hvn] at hv ⊢
      have := h.below v i hv
      omega
  case inj =>
    intro v w i hv hw
    simp only [Search.enter, Function.update_apply] at hv hw
    split_ifs at hv hw with hvn hwn hwn
    · rw [hvn, hwn]
    · have := h.below w i hw
      cases hv
      omega
    · have := h.below v i hv
      cases hw
      omega
    · exact h.inj v w i hv hw
  case lows =>
    intro v i hv
    by_cases hvn : v = node
    · subst hvn
      simp only [Search.enter, Function.update_self, Option.some.injEq] at hv
      exact ⟨s.next, Function.update_self .., by omega⟩
    · simp only [Search.enter, Function.update_of_ne hvn] at hv ⊢
      exact h.lows v i hv
  case onStack =>
    intro v
    by_cases hvn : v = node
    · subst hvn
      simp [Search.enter]
    · simp [Search.enter, hvn, h.onStack v]
  case visited =>
    intro v hv
    rcases hstack.mp hv with rfl | hv
    · simp [Search.enter]
    · simp [Search.enter, hold hv, h.visited v hv]
  case sorted =>
    refine List.pairwise_cons.mpr ⟨?_, ?_⟩
    · intro x hx
      rw [rank_enter_self, rank_enter_of_ne (hold hx)]
      exact hlt hx
    · refine h.sorted.imp_of_mem ?_
      intro x y hx hy hxy
      rwa [rank_enter_of_ne (hold hx), rank_enter_of_ne (hold hy)]
  case grays =>
    refine List.pairwise_cons.mpr ⟨?_, ?_⟩
    · intro x hx
      rw [rank_enter_self, rank_enter_of_ne (holdGray hx)]
      exact hlt (h.grayOnStack x hx)
    · refine h.grays.imp_of_mem ?_
      intro x y hx hy hxy
      rwa [rank_enter_of_ne (holdGray hx), rank_enter_of_ne (holdGray hy)]
  case grayOnStack =>
    intro v hv
    exact hstack.mpr ((hgray.mp hv).imp id (h.grayOnStack v))
  case reaches =>
    intro g hg x hx hle
    rcases hgray.mp hg with rfl | hg'
    · rcases hstack.mp hx with rfl | hx'
      · exact .refl
      · rw [rank_enter_self, rank_enter_of_ne (hold hx')] at hle
        have := hlt hx'
        omega
    · rcases hstack.mp hx with rfl | hx'
      · exact hreach g hg'
      · rw [rank_enter_of_ne (holdGray hg'), rank_enter_of_ne (hold hx')] at hle
        exact h.reaches g hg' x hx' hle
  case climbs =>
    intro x hx
    rcases hstack.mp hx with rfl | hx
    · exact ⟨x, hgray.mpr (.inl rfl), Nat.le_refl _, .refl⟩
    · obtain ⟨g, hg, hle, hreach⟩ := h.climbs x hx
      refine ⟨g, hgray.mpr (.inr hg), ?_, hreach⟩
      rwa [rank_enter_of_ne (holdGray hg), rank_enter_of_ne (hold hx)]
  case lowSeen =>
    intro x hx
    rcases hstack.mp hx with rfl | hx
    · refine ⟨x, hstack.mpr (.inl rfl), ?_, .refl⟩
      rw [lowOf_enter_self, rank_enter_self]
    · obtain ⟨u, hu, hlow, hreach⟩ := h.lowSeen x hx
      refine ⟨u, hstack.mpr (.inr hu), ?_, hreach⟩
      rwa [lowOf_enter_of_ne (hold hx), rank_enter_of_ne (hold hu)]
  case above =>
    intro x hx hxg g hg hgx hnearest
    rcases hstack.mp hx with rfl | hx'
    · exact absurd (hgray.mpr (.inl rfl)) hxg
    · rcases hgray.mp hg with rfl | hg'
      · rw [rank_enter_self, rank_enter_of_ne (hold hx')] at hgx
        have := hlt hx'
        omega
      · rw [rank_enter_of_ne (holdGray hg'), rank_enter_of_ne (hold hx')] at hgx
        rw [lowOf_enter_of_ne (holdGray hg'), lowOf_enter_of_ne (hold hx')]
        refine h.above x hx' (fun hmem => hxg (hgray.mpr (.inr hmem))) g hg' hgx ?_
        intro other hother hlt'
        have hle := hnearest other (hgray.mpr (.inr hother))
        rw [rank_enter_of_ne (holdGray hother), rank_enter_of_ne (hold hx'),
          rank_enter_of_ne (holdGray hg')] at hle
        exact hle hlt'
  case seen =>
    rintro x y ⟨hedge, hvisited, htake⟩
    by_cases hx : x = node
    · subst hx
      have hy := htake 0 List.mem_cons_self
      rw [List.take_zero] at hy
      cases hy
    · have hseen : s.Seen edges x y := by
        refine ⟨hedge, ?_, fun p hp => htake p (List.mem_cons_of_mem _ hp)⟩
        simpa [Search.enter, hx] using hvisited
      rcases h.seen x y hseen with hdone | ⟨hxs, hys, hlow⟩
      · exact .inl ((done_enter hnew).mpr hdone)
      · refine .inr ⟨hstack.mpr (.inr hxs), hstack.mpr (.inr hys), ?_⟩
        rwa [lowOf_enter_of_ne (hold hxs), rank_enter_of_ne (hold hys)]
  case found =>
    intro component hc
    obtain ⟨hcycle, hdone⟩ := h.found component hc
    exact ⟨hcycle, fun v hv => (done_enter hnew).mpr (hdone v hv)⟩
  case foundAll => exact fun v hv => h.foundAll v ((done_enter hnew).mp hv)
  case apart => exact h.apart

theorem Inv.leave (h : Inv edges s) {at_ : DefId} (hcalls : s.callStack = (at_, position) :: rest)
    (hend : (edges.neighbours at_)[position]? = none) (hlow : s.lowOf at_ < s.rank at_)
    (hparent : ∀ p ∈ rest.map Prod.fst, (∀ g ∈ rest.map Prod.fst, s.rank g ≤ s.rank p) →
      s.lowOf p ≤ s.lowOf at_) : Inv edges (s.setCalls rest) := by
  have hgray : s.gray = at_ :: rest.map Prod.fst := by simp [gray, hcalls]
  have hmem : at_ ∈ s.gray := by simp [hgray]
  have hat := h.grayOnStack at_ hmem
  have hsub {g : DefId} (hg : g ∈ rest.map Prod.fst) : g ∈ s.gray := by
    rw [hgray]
    exact List.mem_cons_of_mem _ hg
  have htop {g : DefId} (hg : g ∈ rest.map Prod.fst) : s.rank g < s.rank at_ := by
    have hsorted := h.grays
    rw [hgray] at hsorted
    exact (List.pairwise_cons.mp hsorted).1 g hg
  refine { h with grays := ?_, grayOnStack := ?_, reaches := ?_, climbs := ?_, above := ?_,
                  seen := ?_ }
  · have hsorted := h.grays
    rw [hgray] at hsorted
    exact (List.pairwise_cons.mp hsorted).2
  · exact fun v hv => h.grayOnStack v (hsub hv)
  · exact fun g hg => h.reaches g (hsub hg)
  · intro x hx
    obtain ⟨g, hg, hle, hreach⟩ := h.climbs x hx
    rw [hgray] at hg
    rcases List.mem_cons.mp hg with rfl | hg
    · obtain ⟨u, hu, hlowu, hreachu⟩ := h.lowSeen g hat
      obtain ⟨g', hg', hle', hreach'⟩ := h.climbs u hu
      rw [hgray] at hg'
      rcases List.mem_cons.mp hg' with rfl | hg'
      · omega
      · refine ⟨g', hg', ?_, (hreach.trans hreachu).trans hreach'⟩
        have : s.rank g' ≤ s.rank x := by omega
        exact this
    · exact ⟨g, hg, hle, hreach⟩
  · intro x hx hxg g hg hgx hnearest
    have hbelow : (∀ g' ∈ rest.map Prod.fst, s.rank g' < s.rank x → s.rank g' ≤ s.rank g) :=
      hnearest
    have hhighest (hxat : s.rank at_ ≤ s.rank x) : s.lowOf g ≤ s.lowOf at_ := by
      refine hparent g hg (fun g' hg' => hbelow g' hg' ?_)
      have := htop hg'
      omega
    by_cases hxat : x = at_
    · subst hxat
      exact hhighest (Nat.le_refl _)
    · have hxgray : x ∉ s.gray := by
        rw [hgray]
        exact fun hmem => (List.mem_cons.mp hmem).elim hxat hxg
      by_cases hlt : s.rank at_ < s.rank x
      · refine (hhighest hlt.le).trans (h.above x hx hxgray at_ hmem hlt ?_)
        intro g' hg' _
        rw [hgray] at hg'
        rcases List.mem_cons.mp hg' with rfl | hg'
        · exact Nat.le_refl _
        · exact (htop hg').le
      · refine h.above x hx hxgray g (hsub hg) hgx ?_
        intro g' hg' hlt'
        rw [hgray] at hg'
        rcases List.mem_cons.mp hg' with rfl | hg'
        · exact absurd hlt' hlt
        · exact hbelow g' hg' hlt'
  · rintro x y ⟨hedge, hvisited, htake⟩
    refine h.seen x y ⟨hedge, hvisited, fun p hp => ?_⟩
    rw [hcalls] at hp
    rcases List.mem_cons.mp hp with heq | hp
    · cases heq
      rw [List.take_of_length_le (List.getElem?_eq_none_iff.mp hend)]
      exact hedge.1
    · exact htake p hp

theorem popTo_spec {at_ : DefId} {stack : List DefId} (h : at_ ∈ stack) :
    ∃ taken rest, popTo at_ stack = (taken ++ [at_], rest) ∧ stack = taken ++ at_ :: rest := by
  induction stack with
  | nil => cases h
  | cons popped stack ih =>
      by_cases hat : popped = at_
      · exact ⟨[], stack, by simp [popTo, hat], by simp [hat]⟩
      · have hmem : at_ ∈ stack := (List.mem_cons.mp h).resolve_left (Ne.symm hat)
        obtain ⟨taken, rest, hpop, rfl⟩ := ih hmem
        exact ⟨popped :: taken, rest, by simp [popTo, hat, hpop], rfl⟩

/-- A node from which nothing below it is reached, and what lies above it on the stack. -/
structure Root (edges : Edges) (s : Search) (at_ : DefId) (component rest : List DefId) :
    Prop where
  pop : popTo at_ s.stack = (component, rest)
  stack : ∀ x, x ∈ s.stack ↔ x ∈ component ∨ x ∈ rest
  here : at_ ∈ component
  high : ∀ x ∈ component, s.rank at_ ≤ s.rank x
  low : ∀ x ∈ rest, s.rank x < s.rank at_
  nodup : component.Nodup
  sorted : rest.Pairwise (fun x y => s.rank y < s.rank x)
  seen : ∀ x ∈ component, ∀ y, ReflTransGen edges.Leads x y → s.Done y ∨ y ∈ component
  together : ∀ x ∈ component, ∀ y ∈ component, ReflTransGen edges.Leads x y

theorem Inv.root (h : Inv edges s) {at_ : DefId} (hcalls : s.callStack = (at_, position) :: rest)
    (hend : (edges.neighbours at_)[position]? = none) (hlow : s.lowOf at_ = s.rank at_) :
    ∃ component below, s.Root edges at_ component below := by
  have hgray : s.gray = at_ :: rest.map Prod.fst := by simp [gray, hcalls]
  have hmem : at_ ∈ s.gray := by simp [hgray]
  have hat := h.grayOnStack at_ hmem
  have htop {g : DefId} (hg : g ∈ s.gray) : s.rank g ≤ s.rank at_ := by
    have hsorted := h.grays
    rw [hgray] at hg hsorted
    rcases List.mem_cons.mp hg with rfl | hg
    · exact Nat.le_refl _
    · exact ((List.pairwise_cons.mp hsorted).1 g hg).le
  obtain ⟨taken, below, hpop, hstack⟩ := popTo_spec hat
  have hsorted := h.sorted
  rw [hstack, List.pairwise_append, List.pairwise_cons] at hsorted
  obtain ⟨htaken, ⟨hbelow, hrest⟩, hcross⟩ := hsorted
  have hhigh : ∀ x ∈ taken ++ [at_], s.rank at_ ≤ s.rank x := by
    intro x hx
    rcases List.mem_append.mp hx with hx | hx
    · exact (hcross x hx at_ List.mem_cons_self).le
    · rw [List.mem_singleton.mp hx]
  have hsplit (x : DefId) : x ∈ s.stack ↔ x ∈ taken ++ [at_] ∨ x ∈ below := by
    rw [hstack]
    simp [or_assoc]
  have hlowest : ∀ x ∈ taken ++ [at_], s.rank at_ ≤ s.lowOf x := by
    intro x hx
    by_cases hxat : x = at_
    · rw [hxat, hlow]
    · have hxs := (hsplit x).mpr (.inl hx)
      have hlt : s.rank at_ < s.rank x := by
        refine Nat.lt_of_le_of_ne (hhigh x hx) (fun heq => hxat ?_)
        exact h.rank_inj hxs hat heq.symm
      have hxgray : x ∉ s.gray := fun hg => by
        have := htop hg
        omega
      have := h.above x hxs hxgray at_ hmem hlt (fun g hg _ => htop hg)
      omega
  have hstep : ∀ x ∈ taken ++ [at_], ∀ y, edges.Leads x y → s.Done y ∨ y ∈ taken ++ [at_] := by
    intro x hx y hxy
    have hxs := (hsplit x).mpr (.inl hx)
    have hseen : s.Seen edges x y := by
      refine ⟨hxy, h.visited x hxs, fun p hp => ?_⟩
      have hxg : x ∈ s.gray := List.mem_map_of_mem (f := Prod.fst) hp
      obtain rfl := h.rank_inj hxs hat (Nat.le_antisymm (htop hxg) (hhigh x hx))
      obtain rfl := h.frame_unique hp (q := position) (by simp [hcalls])
      rw [List.take_of_length_le (List.getElem?_eq_none_iff.mp hend)]
      exact hxy.1
    rcases h.seen x y hseen with hdone | ⟨-, hys, hle⟩
    · exact .inl hdone
    · rcases (hsplit y).mp hys with hy | hy
      · exact .inr hy
      · have := hbelow y hy
        have := hlowest x hx
        omega
  have hclosed : ∀ x ∈ taken ++ [at_], ∀ y, ReflTransGen edges.Leads x y →
      s.Done y ∨ y ∈ taken ++ [at_] := by
    intro x hx y hxy
    induction hxy with
    | refl => exact .inr hx
    | tail _ hlast ih =>
        rcases ih with hdone | hin
        · exact .inl (h.closed hdone (.single hlast))
        · exact hstep _ hin _ hlast
  have hup : ∀ x ∈ taken ++ [at_], ReflTransGen edges.Leads x at_ := by
    intro x hx
    obtain ⟨g, hg, -, hreach⟩ := h.climbs x ((hsplit x).mpr (.inl hx))
    rcases hclosed x hx g hreach with hdone | hin
    · exact absurd (h.grayOnStack g hg) hdone.2
    · obtain rfl := h.rank_inj (h.grayOnStack g hg) hat
        (Nat.le_antisymm (htop hg) (hhigh g hin))
      exact hreach
  refine ⟨taken ++ [at_], below, hpop, hsplit, by simp, hhigh, hbelow, ?_, hrest, hclosed, ?_⟩
  · have hnodup : s.stack.Nodup := h.sorted.imp (fun hlt heq => by
      subst heq
      exact Nat.lt_irrefl _ hlt)
    rw [hstack] at hnodup
    have hpart : List.Sublist (taken ++ [at_]) (taken ++ at_ :: below) :=
      List.Sublist.append_left (List.singleton_sublist.mpr List.mem_cons_self) taken
    exact hnodup.sublist hpart
  · intro x hx y hy
    exact (hup x hx).trans (h.reaches at_ hmem y ((hsplit y).mpr (.inl hy)) (hhigh y hy))

variable {at_ : DefId} {component below : List DefId}

theorem Root.mutual (hr : s.Root edges at_ component below) (h : Inv edges s) {v : DefId}
    (hv : v ∈ component) (w : DefId) :
    w ∈ component ↔ ReflTransGen edges.Leads v w ∧ ReflTransGen edges.Leads w v := by
  constructor
  · exact fun hw => ⟨hr.together v hv w hw, hr.together w hw v hv⟩
  · rintro ⟨hvw, hwv⟩
    rcases hr.seen v hv w hvw with hdone | hin
    · exact absurd ((hr.stack v).mpr (.inl hv)) (h.closed hdone hwv).2
    · exact hin

theorem leads_self {node : DefId} :
    (edges.get node).any (fun targets => targets.contains node) = true ↔ edges.Leads node node := by
  unfold Edges.Leads Edges.neighbours Edges.containsKey
  cases edges.get node <;> simp

theorem Root.cyclic_iff (hr : s.Root edges at_ component below) (h : Inv edges s) :
    (component.length > 1 || selfLoop edges component) = true ↔
      ∃ v ∈ component, TransGen edges.Leads v v := by
  constructor
  · intro htest
    match component, hr, htest with
    | [node], hr, htest =>
        have hself : (edges.get node).any (fun targets => targets.contains node) = true := by
          simpa [selfLoop] using htest
        exact ⟨node, List.mem_cons_self, .single (leads_self.mp hself)⟩
    | v :: w :: others, hr, _ =>
        have hne : v ≠ w := by
          have hnodup := hr.nodup
          rintro rfl
          simp at hnodup
        have hvw := hr.together v (by simp) w (by simp)
        have hwv := hr.together w (by simp) v (by simp)
        rcases reflTransGen_iff_eq_or_transGen.mp hvw with heq | htrans
        · exact absurd heq.symm hne
        · exact ⟨v, by simp, htrans.trans_left hwv⟩
  · rintro ⟨v, hv, hcycle⟩
    match component, hr, hv with
    | [node], hr, hv =>
        obtain rfl := List.mem_singleton.mp hv
        obtain ⟨z, hvz, hzv⟩ := TransGen.head'_iff.mp hcycle
        have hz := (hr.mutual h hv z).mpr ⟨.single hvz, hzv⟩
        obtain rfl := List.mem_singleton.mp hz
        have hself := leads_self.mpr hvz
        simpa [selfLoop] using hself
    | _ :: _ :: _, _, _ => simp

theorem Inv.close (h : Inv edges s) (hcalls : s.callStack = (at_, position) :: rest)
    (hr : s.Root edges at_ component below) :
    Inv edges ((s.setCalls rest).close edges at_) := by
  have hgray : s.gray = at_ :: rest.map Prod.fst := by simp [gray, hcalls]
  have hsub {g : DefId} (hg : g ∈ rest.map Prod.fst) : g ∈ s.gray := by
    rw [hgray]
    exact List.mem_cons_of_mem _ hg
  have hgrays := h.grays
  rw [hgray, List.pairwise_cons] at hgrays
  have hpop : popTo at_ (s.setCalls rest).stack = (component, below) := hr.pop
  have hstackOf {x : DefId} (hx : x ∈ below) : x ∈ s.stack := (hr.stack x).mpr (.inr hx)
  have hbelow {x : DefId} (hx : x ∈ s.stack) (hlt : s.rank x < s.rank at_) : x ∈ below := by
    rcases (hr.stack x).mp hx with hin | hin
    · have := hr.high x hin
      omega
    · exact hin
  have hnotBoth {x : DefId} (hx : x ∈ component) : x ∉ below := fun hin => by
    have := hr.high x hx
    have := hr.low x hin
    omega
  have hdone {x : DefId} :
      ((s.setCalls rest).close edges at_).Done x ↔ s.Done x ∨ x ∈ component := by
    simp only [Search.close, hpop, Done]
    constructor
    · rintro ⟨hvisited, hnot⟩
      by_cases hx : x ∈ component
      · exact .inr hx
      · exact .inl ⟨hvisited, fun hin => ((hr.stack x).mp hin).elim hx hnot⟩
    · rintro (⟨hvisited, hnot⟩ | hx)
      · exact ⟨hvisited, fun hin => hnot (hstackOf hin)⟩
      · exact ⟨h.visited x ((hr.stack x).mpr (.inl hx)), hnotBoth hx⟩
  have hcycle (htest : (component.length > 1 || selfLoop edges component) = true) :
      IsCycle edges.Leads component.reverse := by
    refine ⟨List.nodup_reverse.mpr hr.nodup, ?_, ?_⟩
    · simpa only [List.mem_reverse] using (hr.cyclic_iff h).mp htest
    · simpa only [List.mem_reverse] using fun v hv => hr.mutual h hv
  have hfound : ((s.setCalls rest).close edges at_).found =
      if component.length > 1 || selfLoop edges component then s.found ++ [component.reverse]
      else s.found := by
    simp only [Search.close, hpop]
    rfl
  constructor
  case keys => exact h.keys
  case below => exact h.below
  case inj => exact h.inj
  case lows => exact h.lows
  case onStack =>
    intro v
    simp only [Search.close, hpop]
    by_cases hv : v ∈ component
    · simp [hv, hnotBoth hv]
    · simp only [hv, if_false]
      refine (h.onStack v).trans ((hr.stack v).trans ?_)
      exact or_iff_right hv
  case visited =>
    intro v hv
    simp only [Search.close, hpop] at hv
    exact h.visited v (hstackOf hv)
  case sorted =>
    simp only [Search.close, hpop]
    exact hr.sorted
  case grays => exact hgrays.2
  case grayOnStack =>
    intro v hv
    simp only [Search.close, hpop]
    exact hbelow (h.grayOnStack v (hsub hv)) (hgrays.1 v hv)
  case reaches =>
    intro g hg x hx hle
    simp only [Search.close, hpop] at hx
    exact h.reaches g (hsub hg) x (hstackOf hx) hle
  case climbs =>
    intro x hx
    simp only [Search.close, hpop] at hx
    obtain ⟨g, hg, hle, hreach⟩ := h.climbs x (hstackOf hx)
    rw [hgray] at hg
    rcases List.mem_cons.mp hg with rfl | hg'
    · have := hr.low x hx
      omega
    · exact ⟨g, hg', hle, hreach⟩
  case lowSeen =>
    intro x hx
    simp only [Search.close, hpop] at hx
    obtain ⟨u, hu, hlow, hreach⟩ := h.lowSeen x (hstackOf hx)
    have hle := (h.low_eq (hstackOf hx)).2
    have hlt := hr.low x hx
    refine ⟨u, ?_, hlow, hreach⟩
    simp only [Search.close, hpop]
    exact hbelow hu (by omega)
  case above =>
    intro x hx hxg g hg hgx hnearest
    simp only [Search.close, hpop] at hx
    have hlt := hr.low x hx
    have hxgray : x ∉ s.gray := by
      rw [hgray]
      intro hmem
      rcases List.mem_cons.mp hmem with rfl | hmem
      · omega
      · exact hxg hmem
    refine h.above x (hstackOf hx) hxgray g (hsub hg) hgx ?_
    intro g' hg' hlt'
    rw [hgray] at hg'
    rcases List.mem_cons.mp hg' with rfl | hg'
    · omega
    · exact hnearest g' hg' hlt'
  case seen =>
    rintro x y ⟨hedge, hvisited, htake⟩
    by_cases hx : x ∈ component
    · exact .inl (hdone.mpr (hr.seen x hx y (.single hedge)))
    · have hseen : s.Seen edges x y := by
        refine ⟨hedge, hvisited, fun p hp => ?_⟩
        rw [hcalls] at hp
        rcases List.mem_cons.mp hp with heq | hp
        · cases heq
          exact absurd hr.here hx
        · exact htake p hp
      rcases h.seen x y hseen with hydone | ⟨hxs, hys, hle⟩
      · exact .inl (hdone.mpr (.inl hydone))
      · rcases (hr.stack y).mp hys with hy | hy
        · exact .inl (hdone.mpr (.inr hy))
        · refine .inr ⟨?_, ?_, hle⟩
          · simp only [Search.close, hpop]
            exact ((hr.stack x).mp hxs).resolve_left hx
          · simp only [Search.close, hpop]
            exact hy
  case found =>
    rw [hfound]
    intro c hc
    have hold (hc : c ∈ s.found) : IsCycle edges.Leads c ∧
        ∀ v ∈ c, ((s.setCalls rest).close edges at_).Done v :=
      ⟨(h.found c hc).1, fun v hv => hdone.mpr (.inl ((h.found c hc).2 v hv))⟩
    split_ifs at hc with htest
    · rcases List.mem_append.mp hc with hc | hc
      · exact hold hc
      · obtain rfl := List.mem_singleton.mp hc
        exact ⟨hcycle htest, fun v hv => hdone.mpr (.inr (List.mem_reverse.mp hv))⟩
    · exact hold hc
  case foundAll =>
    rw [hfound]
    intro v hv htrans
    rcases hdone.mp hv with hv | hv
    · obtain ⟨c, hc, hvc⟩ := h.foundAll v hv htrans
      split_ifs
      · exact ⟨c, List.mem_append_left _ hc, hvc⟩
      · exact ⟨c, hc, hvc⟩
    · rw [if_pos ((hr.cyclic_iff h).mpr ⟨v, hv, htrans⟩)]
      exact ⟨component.reverse, by simp, List.mem_reverse.mpr hv⟩
  case apart =>
    rw [hfound]
    split_ifs
    · refine List.pairwise_append.mpr ⟨h.apart, List.pairwise_singleton .., ?_⟩
      intro c hc c' hc' v hv hv'
      obtain rfl := List.mem_singleton.mp hc'
      have hvc := List.mem_reverse.mp hv'
      exact ((h.found c hc).2 v hv).2 ((hr.stack v).mpr (.inl hvc))
    · exact h.apart

end Moves

section Runs

/-- What is left to do: the nodes that were not met, and the neighbours of those the search
is in. -/
def size (edges : Edges) (s : Search) : Nat :=
  ((edges.keys.filter (fun v => (s.index v).isNone)).map
      (fun v => (edges.neighbours v).length + 2)).sum +
    (s.callStack.map (fun frame => (edges.neighbours frame.1).length - frame.2 + 1)).sum

theorem sum_filter_le {f : DefId → Nat} {p q : DefId → Bool} (h : ∀ x, q x = true → p x = true)
    (l : List DefId) : ((l.filter q).map f).sum ≤ ((l.filter p).map f).sum := by
  induction l with
  | nil => exact Nat.le_refl _
  | cons x l ih =>
      by_cases hq : q x = true
      · simp only [List.filter_cons_of_pos hq, List.filter_cons_of_pos (h x hq), List.map_cons,
          List.sum_cons]
        omega
      · rw [List.filter_cons_of_neg hq]
        by_cases hp : p x = true
        · simp only [List.filter_cons_of_pos hp, List.map_cons, List.sum_cons]
          omega
        · rwa [List.filter_cons_of_neg hp]

theorem sum_filter_drop {f : DefId → Nat} {p q : DefId → Bool} {c : DefId}
    (h : ∀ x, q x = true → p x = true) (hp : p c = true) (hq : q c = false) {l : List DefId}
    (hc : c ∈ l) : ((l.filter q).map f).sum + f c ≤ ((l.filter p).map f).sum := by
  induction l with
  | nil => cases hc
  | cons x l ih =>
      by_cases hx : x = c
      · subst hx
        rw [List.filter_cons_of_neg (by simp [hq]), List.filter_cons_of_pos hp, List.map_cons,
          List.sum_cons]
        have := sum_filter_le (f := f) h l
        omega
      · have hle := ih ((List.mem_cons.mp hc).resolve_left (Ne.symm hx))
        by_cases hqx : q x = true
        · simp only [List.filter_cons_of_pos hqx, List.filter_cons_of_pos (h x hqx),
            List.map_cons, List.sum_cons]
          omega
        · rw [List.filter_cons_of_neg hqx]
          by_cases hpx : p x = true
          · simp only [List.filter_cons_of_pos hpx, List.map_cons, List.sum_cons]
            omega
          · rwa [List.filter_cons_of_neg hpx]

theorem mem_keys {v : DefId} : v ∈ edges.keys ↔ edges.containsKey v = true := by
  unfold Edges.keys Edges.containsKey Edges.get
  rw [List.lookup_isSome_iff]
  simp

theorem size_enter {node : DefId} (hnew : s.index node = none)
    (hkey : edges.containsKey node = true) : (s.enter node).size edges < s.size edges := by
  have hdrop := sum_filter_drop (f := fun v => (edges.neighbours v).length + 2)
    (p := fun v => (s.index v).isNone) (q := fun v => ((s.enter node).index v).isNone)
    (c := node) (l := edges.keys) ?_ ?_ ?_ (mem_keys.mpr hkey)
  · simp only [size, Search.enter, List.map_cons, List.sum_cons] at hdrop ⊢
    omega
  · intro x hx
    by_cases hxn : x = node
    · rw [hxn, hnew]
      rfl
    · simpa [Search.enter, hxn] using hx
  · rw [hnew]
    rfl
  · simp [Search.enter]

theorem Inv.lower (h : Inv edges s) {rest : List (DefId × Nat)} {at_ : DefId} {position : Nat}
    (hcalls : s.callStack = (at_, position) :: rest) :
    ∃ s', Inv edges s' ∧ (s.setCalls rest).lower at_ = some (s'.setCalls rest) ∧
      s'.index = s.index ∧ s'.low at_ = s.low at_ ∧ s'.callStack = s.callStack ∧
      ∀ p ∈ rest.map Prod.fst, (∀ g ∈ rest.map Prod.fst, s'.rank g ≤ s'.rank p) →
        s'.lowOf p ≤ s'.lowOf at_ := by
  have hgray : s.gray = at_ :: rest.map Prod.fst := by simp [gray, hcalls]
  have hat := h.grayOnStack at_ (by simp [hgray])
  cases rest with
  | nil => exact ⟨s, h, rfl, rfl, rfl, rfl, by simp⟩
  | cons frame rest =>
      obtain ⟨parent, q⟩ := frame
      have hparent : parent ∈ s.gray := by simp [hgray]
      have hgrays := h.grays
      rw [hgray, List.map_cons, List.pairwise_cons, List.pairwise_cons] at hgrays
      have hlt : s.rank parent < s.rank at_ := hgrays.1 parent List.mem_cons_self
      obtain ⟨u, hu, hlow, hreach⟩ := h.lowSeen at_ hat
      have hto := h.reaches parent hparent at_ hat hlt.le
      have hne : at_ ≠ parent := by
        rintro rfl
        omega
      refine ⟨_, h.lowered hparent hu (hto.trans hreach), ?_, rfl, ?_, rfl, ?_⟩
      · have hchild := (h.low_eq hat).1
        have hcurrent := (h.low_eq (h.grayOnStack parent hparent)).1
        simp [Search.lower, setCalls, hchild, hcurrent, hlow, setLow]
      · simp [setLow, hne]
      · intro p hp hhighest
        have hpp : p = parent := by
          by_contra hpp
          have hpr : p ∈ rest.map Prod.fst := (List.mem_cons.mp hp).resolve_left hpp
          have hbelow : s.rank p < s.rank parent := hgrays.2.1 p hpr
          have hle : s.rank parent ≤ s.rank p := hhighest parent List.mem_cons_self
          omega
        subst hpp
        rw [lowOf_setLow_self, lowOf_setLow_of_ne hne]
        omega

theorem size_advance {s' : Search} {rest : List (DefId × Nat)} {at_ : DefId} {position : Nat}
    (hcalls : s.callStack = (at_, position) :: rest)
    (hlt : position < (edges.neighbours at_).length) (hindex : s'.index = s.index)
    (hcalls' : s'.callStack = (at_, position + 1) :: rest) : s'.size edges < s.size edges := by
  simp only [size, hindex, hcalls, hcalls', List.map_cons, List.sum_cons]
  omega

theorem size_leave {s' : Search} {rest : List (DefId × Nat)} {at_ : DefId} {position : Nat}
    (hcalls : s.callStack = (at_, position) :: rest) (hindex : s'.index = s.index)
    (hcalls' : s'.callStack = rest) : s'.size edges < s.size edges := by
  simp only [size, hindex, hcalls, hcalls', List.map_cons, List.sum_cons]
  omega

/-- What a turn of the search does: it keeps the invariant and what was met, and leaves less
to do. -/
structure Turn (edges : Edges) (s s' : Search) : Prop where
  inv : Inv edges s'
  size : s'.size edges < s.size edges
  grows : ∀ v, (s.index v).isSome → (s'.index v).isSome

variable {rest : List (DefId × Nat)} {at_ : DefId} {position : Nat}

theorem visit_next (h : Inv edges s) (hcalls : s.callStack = (at_, position) :: rest)
    {nextNode : DefId} (hnext : (edges.neighbours at_)[position]? = some nextNode) :
    ∃ s', visit edges s = some (some s') ∧ Turn edges s s' := by
  have hmem : at_ ∈ s.gray := by simp [gray, hcalls]
  have hat := h.grayOnStack at_ hmem
  obtain ⟨hlt, -⟩ := List.getElem?_eq_some_iff.mp hnext
  have hnb := List.mem_of_getElem? hnext
  simp only [visit, hcalls, hnext]
  by_cases hkey : edges.containsKey nextNode = true
  · rw [if_pos hkey]
    have hedge : edges.Leads at_ nextNode := ⟨hnb, hkey⟩
    cases hindex : (s.setCalls ((at_, position + 1) :: rest)).index nextNode with
    | none =>
        refine ⟨_, rfl, ?_, ?_, ?_⟩
        · -- the new node is on top of the call stack, and its parent has moved on below it
          have hreach : ∀ g ∈ s.gray, ReflTransGen edges.Leads g nextNode := by
            intro g hg
            refine (h.reaches g hg at_ hat ?_).tail hedge
            have hgrays := h.grays
            simp only [gray, hcalls, List.map_cons, List.pairwise_cons, List.mem_cons] at hg hgrays
            rcases hg with rfl | hg
            · exact Nat.le_refl _
            · exact (hgrays.1 g hg).le
          have hne : at_ ≠ nextNode := by
            rintro rfl
            have hvisited := h.visited at_ hat
            rw [show s.index at_ = none from hindex] at hvisited
            cases hvisited
          have hentered := h.enter hindex hkey hreach
          have hcalls' : (s.enter nextNode).callStack =
              [(nextNode, 0)] ++ (at_, position) :: rest := by
            simp [Search.enter, hcalls]
          refine hentered.advance [(nextNode, 0)] hcalls' hnext
            (fun _ => .inr ⟨List.mem_cons_self, ?_⟩)
          · rw [rank_enter_self, lowOf_enter_of_ne hne]
            have := (h.low_eq hat).2
            have := h.below at_ _ (h.index_eq hat)
            omega
        · refine (size_enter hindex hkey).trans ?_
          exact size_advance hcalls hlt rfl rfl
        · intro v hv
          by_cases hvn : v = nextNode
          · simp [Search.enter, hvn]
          · simpa [Search.enter, setCalls, hvn] using hv
    | some candidate =>
        simp only
        have hrank : s.rank nextNode = candidate := rank_of_index hindex
        by_cases hon : (s.setCalls ((at_, position + 1) :: rest)).onStack nextNode = true
        · rw [if_pos hon]
          have hstack := (h.onStack nextNode).mp hon
          have hlow : (s.setCalls ((at_, position + 1) :: rest)).low at_ = some (s.lowOf at_) :=
            (h.low_eq hat).1
          rw [hlow]
          refine ⟨_, rfl, ?_, size_advance hcalls hlt rfl rfl, fun _ hv => hv⟩
          have hlowered := h.lowered hmem hstack (.single hedge)
          rw [hrank] at hlowered
          refine hlowered.advance [] hcalls hnext (fun _ => .inr ⟨hstack, ?_⟩)
          rw [lowOf_setLow_self]
          exact (Nat.min_le_right ..).trans hrank.ge
        · rw [if_neg hon]
          refine ⟨_, rfl, ?_, size_advance hcalls hlt rfl rfl, fun _ hv => hv⟩
          refine h.advance [] hcalls hnext (fun _ => .inl ⟨?_, ?_⟩)
          · exact Option.isSome_iff_exists.mpr ⟨candidate, hindex⟩
          · exact fun hstack => hon ((h.onStack nextNode).mpr hstack)
  · rw [if_neg hkey]
    refine ⟨_, rfl, ?_, size_advance hcalls hlt rfl rfl, fun _ hv => hv⟩
    exact h.advance [] hcalls hnext (fun hcontains => absurd hcontains hkey)

theorem visit_end (h : Inv edges s) (hcalls : s.callStack = (at_, position) :: rest)
    (hend : (edges.neighbours at_)[position]? = none) :
    ∃ s', visit edges s = some (some s') ∧ Turn edges s s' := by
  have hat := h.grayOnStack at_ (by simp [gray, hcalls])
  obtain ⟨s₁, h₁, hlower, hindex, hlow, hcalls₁, hparent⟩ := h.lower hcalls
  rw [hcalls] at hcalls₁
  have hat₁ := h₁.grayOnStack at_ (by simp [gray, hcalls₁])
  obtain ⟨hlowSome, hle⟩ := h₁.low_eq hat₁
  simp only [visit, hcalls, hend, hlower, Option.bind_eq_bind, Option.bind_some]
  rw [show (s₁.setCalls rest).low at_ = some (s₁.lowOf at_) from hlowSome,
    show (s₁.setCalls rest).index at_ = some (s₁.rank at_) from h₁.index_eq hat₁]
  simp only [Option.bind_some]
  by_cases heq : s₁.lowOf at_ = s₁.rank at_
  · rw [if_pos heq]
    obtain ⟨component, below, hroot⟩ := h₁.root hcalls₁ hend heq
    refine ⟨_, rfl, h₁.close hcalls₁ hroot, size_leave hcalls hindex rfl, fun v hv => ?_⟩
    exact (congrFun hindex v).symm ▸ hv
  · rw [if_neg heq]
    have hlt : s₁.lowOf at_ < s₁.rank at_ := Nat.lt_of_le_of_ne hle heq
    refine ⟨_, rfl, h₁.leave hcalls₁ hend hlt hparent, size_leave hcalls hindex rfl,
      fun v hv => ?_⟩
    exact (congrFun hindex v).symm ▸ hv

theorem visit_spec (h : Inv edges s) :
    (s.callStack = [] ∧ visit edges s = some none) ∨
      ∃ s', visit edges s = some (some s') ∧ Turn edges s s' := by
  cases hcalls : s.callStack with
  | nil =>
      refine .inl ⟨rfl, ?_⟩
      rw [visit, hcalls]
  | cons frame rest =>
      obtain ⟨at_, position⟩ := frame
      cases hnext : (edges.neighbours at_)[position]? with
      | some nextNode => exact .inr (visit_next h hcalls hnext)
      | none => exact .inr (visit_end h hcalls hnext)

theorem loop_visit (h : Inv edges s) :
    ∃ t, loop (visit edges) s = some t ∧ Inv edges t ∧ t.callStack = [] ∧
      ∀ v, (s.index v).isSome → (t.index v).isSome := by
  have hstep : ∀ t, (Inv edges t ∧ ∀ v, (s.index v).isSome → (t.index v).isSome) →
      visit edges t = some none ∨ ∃ t', visit edges t = some (some t') ∧
        (Inv edges t' ∧ ∀ v, (s.index v).isSome → (t'.index v).isSome) ∧
        t'.size edges < t.size edges := by
    rintro t ⟨hinv, hgrows⟩
    rcases visit_spec hinv with ⟨-, hover⟩ | ⟨s', hvisit, hturn⟩
    · exact .inl hover
    · exact .inr ⟨s', hvisit, ⟨hturn.inv, fun v hv => hturn.grows v (hgrows v hv)⟩, hturn.size⟩
  obtain ⟨t, hloop, ⟨hinv, hgrows⟩, hover⟩ := loop_spec hstep ⟨h, fun _ hv => hv⟩
  refine ⟨t, hloop, hinv, ?_, hgrows⟩
  rcases visit_spec hinv with ⟨hcalls, -⟩ | ⟨s', hvisit, -⟩
  · exact hcalls
  · rw [hover] at hvisit
    cases hvisit

theorem foldlM_visit {starts : List DefId}
    (hstarts : ∀ v ∈ starts, edges.containsKey v = true) (h : Inv edges s)
    (hcalls : s.callStack = []) :
    ∃ t, starts.foldlM (fun s start =>
        if (s.index start).isSome then some s else loop (visit edges) (s.enter start)) s =
          some t ∧
      Inv edges t ∧ t.callStack = [] ∧ (∀ v, (s.index v).isSome → (t.index v).isSome) ∧
      ∀ v ∈ starts, (t.index v).isSome := by
  induction starts generalizing s with
  | nil => exact ⟨s, rfl, h, hcalls, fun _ hv => hv, by simp⟩
  | cons start starts ih =>
      have hfirst : ∃ s', (if (s.index start).isSome then some s
            else loop (visit edges) (s.enter start)) = some s' ∧ Inv edges s' ∧
          s'.callStack = [] ∧ (∀ v, (s.index v).isSome → (s'.index v).isSome) ∧
          (s'.index start).isSome := by
        by_cases hvisited : (s.index start).isSome
        · exact ⟨s, if_pos hvisited, h, hcalls, fun _ hv => hv, hvisited⟩
        · rw [if_neg hvisited]
          have hentered : Inv edges (s.enter start) := by
            refine h.enter (by simpa using hvisited) (hstarts start List.mem_cons_self) ?_
            simp [gray, hcalls]
          obtain ⟨t, hloop, hinv, hover, hgrows⟩ := loop_visit hentered
          refine ⟨t, hloop, hinv, hover, fun v hv => hgrows v ?_, hgrows start ?_⟩
          · by_cases hvs : v = start
            · simp [Search.enter, hvs]
            · simpa [Search.enter, hvs] using hv
          · simp [Search.enter]
      obtain ⟨s', hs', hinv, hover, hgrows, hmet⟩ := hfirst
      obtain ⟨t, ht, hinvt, hovert, hgrowst, hall⟩ :=
        ih (fun v hv => hstarts v (List.mem_cons_of_mem _ hv)) hinv hover
      refine ⟨t, ?_, hinvt, hovert, fun v hv => hgrowst v (hgrows v hv), ?_⟩
      · rw [List.foldlM_cons, hs']
        exact ht
      · intro v hv
        rcases List.mem_cons.mp hv with rfl | hv
        · exact hgrowst v hmet
        · exact hall v hv

end Runs

end Search

theorem stronglyConnected_spec (edges : Edges) :
    ∃ found, stronglyConnected edges = some found ∧
      (∀ component ∈ found, IsCycle edges.Leads component) ∧
      (∀ v, TransGen edges.Leads v v → ∃ component ∈ found, v ∈ component) ∧
      found.Pairwise List.Disjoint := by
  obtain ⟨t, hfold, hinv, hover, -, hall⟩ := Search.foldlM_visit
    (fun v (hv : v ∈ edges.keys) => Search.mem_keys.mp hv) (Search.inv_start edges) rfl
  refine ⟨t.found, ?_, fun c hc => (hinv.found c hc).1, ?_, hinv.apart⟩
  · rw [stronglyConnected, hfold]
    rfl
  · intro v hv
    have hkey : edges.containsKey v = true := by
      obtain ⟨u, -, hlast⟩ := TransGen.tail'_iff.mp hv
      exact hlast.2
    refine hinv.foundAll v ⟨hall v (Search.mem_keys.mpr hkey), fun hstack => ?_⟩ hv
    obtain ⟨g, hg, -⟩ := hinv.climbs v hstack
    simp [Search.gray, hover] at hg

end Graph
end Zdeceptron
