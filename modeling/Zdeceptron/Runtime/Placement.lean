import Zdeceptron.Runtime.Reconcile
import Mathlib.Data.List.Perm.Lattice
import Mathlib.Data.List.Sort

/-!
# What a run of `eachInto` leaves

The nodes between the anchors are those of the new rows in the order of the list,
a row whose key survived keeps its nodes, and only the rows off a longest increasing
subsequence of the old positions are touched, which are as few as any sequence of
calls has to touch.

* `eachInto_reconciles`: the whole run.
-/

namespace Zdeceptron
namespace Runtime

open Library

section SettledPositions

variable {from' : List (Option Nat)}

theorem getD_set {xs : List (Option Nat)} {n : Nat} (h : n < xs.length) (x : Option Nat) :
    (fun i => (xs.set n x).getD i none) = Function.update (fun i => xs.getD i none) n x := by
  funext i
  by_cases hi : i = n
  · subst hi
    simp [h]
  · rw [Function.update_of_ne hi]
    simp [List.getElem?_set_ne (Ne.symm hi)]

theorem settleStep_piled {runs : Runs} {n : Nat} {pile : Nat → Nat}
    (h : Piled (fun i => from'.getD i none) n runs.tails (fun i => runs.previous.getD i none) pile)
    (hlength : runs.previous.length = from'.length) (hn : n < from'.length) :
    (settleStep from' runs n).previous.length = from'.length ∧
      ∃ pile', Piled (fun i => from'.getD i none) (n + 1) (settleStep from' runs n).tails
        (fun i => (settleStep from' runs n).previous.getD i none) pile' := by
  cases hvalue : from'.getD n none with
  | none =>
      have hstep : settleStep from' runs n = runs := by
        rw [settleStep, hvalue]
      rw [hstep]
      exact ⟨hlength, pile, h.skip hvalue⟩
  | some position =>
      let test : Nat → Bool := fun middle =>
        (runs.tails[middle]?.bind (fun tail => from'.getD tail none)).any
          (fun tail => tail < position)
      have htest : ∀ {k i u : Nat}, runs.tails[k]? = some i → from'.getD i none = some u →
          test k = decide (u < position) := by
        intro k i u hi hu
        simp only [test, hi, Option.bind_some, hu, Option.any_some]
      have hpart : Partitioned test 0 runs.tails.length := by
        intro k l _ hkl hl ht
        obtain ⟨i, hi⟩ : ∃ i, runs.tails[k]? = some i :=
          ⟨_, List.getElem?_eq_getElem (lt_of_le_of_lt hkl hl)⟩
        obtain ⟨j, hj⟩ : ∃ j, runs.tails[l]? = some j := ⟨_, List.getElem?_eq_getElem hl⟩
        obtain ⟨_, _, u, hu⟩ := h.top hi
        obtain ⟨_, _, w, hw⟩ := h.top hj
        rw [htest hj hw, decide_eq_true_eq] at ht
        rw [htest hi hu, decide_eq_true_eq]
        rcases Nat.lt_or_eq_of_le hkl with hkl | rfl
        · exact lt_trans (h.top_lt hkl hi hj hu hw) ht
        · rw [hi] at hj
          cases hj
          rw [hu] at hw
          cases hw
          exact ht
      have hplace := (partitionPoint_bounds test (Nat.zero_le runs.tails.length)).2
      have hdeal := h.deal hvalue hplace
        (fun {k i u} hk hi hu => by
          have hbefore := partitionPoint_before hpart (Nat.zero_le k) hk
          rwa [htest hi hu, decide_eq_true_eq] at hbefore)
        (fun {k i u} hk hi hu => by
          have hafter := partitionPoint_after hpart (List.getElem?_eq_some_iff.mp hi).1 hk
          rw [htest hi hu, decide_eq_false_iff_not] at hafter
          exact Nat.le_of_not_lt hafter)
      have hstep : settleStep from' runs n =
          { tails := assign runs.tails (partitionPoint test 0 runs.tails.length) n
            previous := runs.previous.set n
              (if partitionPoint test 0 runs.tails.length = 0 then none
                else runs.tails[partitionPoint test 0 runs.tails.length - 1]?) } := by
        rw [settleStep, hvalue]
      rw [hstep]
      refine ⟨by rw [List.length_set, hlength],
        Function.update pile n (partitionPoint test 0 runs.tails.length), ?_⟩
      rw [getD_set (by rw [hlength]; exact hn)]
      exact hdeal

theorem settleRuns_piled (from' : List (Option Nat)) :
    ∀ {n : Nat}, n ≤ from'.length →
      (settleRuns from' n).previous.length = from'.length ∧
        ∃ pile, Piled (fun i => from'.getD i none) n (settleRuns from' n).tails
          (fun i => (settleRuns from' n).previous.getD i none) pile
  | 0, _ => ⟨List.length_replicate, fun _ => 0, .empty _ _ _⟩
  | n + 1, hn => by
      obtain ⟨hlength, pile, hpiled⟩ := settleRuns_piled from' (Nat.le_of_succ_le hn)
      have hstep : settleRuns from' (n + 1) = settleStep from' (settleRuns from' n) n := by
        rw [settleRuns, List.range_succ, List.foldl_append]
        rfl
      rw [hstep]
      exact settleStep_piled hpiled hlength hn

theorem settledPositions_longest (from' : List (Option Nat)) :
    IncreasingAt (fun i => from'.getD i none) (settledPositions from').reverse ∧
      ∀ positions, IncreasingAt (fun i => from'.getD i none) positions →
        positions.length ≤ (settledPositions from').length := by
  obtain ⟨_, pile, hpiled⟩ := settleRuns_piled from' (Nat.le_refl from'.length)
  have hbelow : ∀ positions, IncreasingAt (fun i => from'.getD i none) positions →
      ∀ i ∈ positions, i < from'.length := by
    intro positions hincreasing i hi
    obtain ⟨v, hv⟩ := hincreasing.1 i hi
    by_contra hge
    simp only [List.getD_eq_getElem?_getD] at hv
    rw [List.getElem?_eq_none (Nat.le_of_not_lt hge)] at hv
    cases hv
  have hlongest := fun positions hincreasing =>
    hpiled.longest hincreasing (hbelow positions hincreasing)
  have hsettled : settledPositions from' =
      walkBack (fun i => (settleRuns from' from'.length).previous.getD i none)
        (settleRuns from' from'.length).tails.length
        (settleRuns from' from'.length).tails.getLast? := rfl
  rw [hsettled]
  cases hlast : (settleRuns from' from'.length).tails.getLast? with
  | none =>
      rw [List.getLast?_eq_none_iff.mp hlast] at hlongest ⊢
      exact ⟨⟨by simp [walkBack], by simp [walkBack]⟩, hlongest⟩
  | some i =>
      rw [List.getLast?_eq_getElem?] at hlast
      obtain ⟨hi, hpile, v, hv⟩ := hpiled.top hlast
      have hlength : (settleRuns from' from'.length).tails.length - 1 <
          (settleRuns from' from'.length).tails.length := (List.getElem?_eq_some_iff.mp hlast).1
      obtain ⟨hcount, _, hincreasing⟩ := hpiled.walkBack_increasing (hpile.trans_lt hlength) hi hv
      refine ⟨hincreasing, ?_⟩
      intro positions hpositions
      have hle := hlongest positions hpositions
      rw [hcount, hpile]
      omega

end SettledPositions

variable {Key Item Node : Type}

section PlaceRows

/-- The rows of a list from `i` on whose position is kept. -/
def pickRows (keep : Nat → Prop) [DecidablePred keep] :
    Nat → List (Row Key Item Node) → List (Row Key Item Node)
  | _, [] => []
  | i, row :: rows =>
      if keep i then row :: pickRows keep (i + 1) rows else pickRows keep (i + 1) rows

abbrev settledRows (settled : List Nat) (i : Nat) (rows : List (Row Key Item Node)) :
    List (Row Key Item Node) := pickRows (fun i => i ∈ settled) i rows

abbrev looseRows (settled : List Nat) (i : Nat) (rows : List (Row Key Item Node)) :
    List (Row Key Item Node) := pickRows (fun i => i ∉ settled) i rows

def nodesOf (rows : List (Row Key Item Node)) : List Node :=
  rows.flatMap (fun row => row.entry.nodes)

theorem nodesOf_cons (row : Row Key Item Node) (rows : List (Row Key Item Node)) :
    nodesOf (row :: rows) = row.entry.nodes ++ nodesOf rows := List.flatMap_cons

theorem nodesOf_subset {rows others : List (Row Key Item Node)} (h : rows ⊆ others) :
    nodesOf rows ⊆ nodesOf others := by
  intro a ha
  obtain ⟨row, hrow, ha⟩ := List.mem_flatMap.mp ha
  exact List.mem_flatMap.mpr ⟨row, h hrow, ha⟩

theorem pickRows_sublist (keep : Nat → Prop) [DecidablePred keep] (i : Nat)
    (rows : List (Row Key Item Node)) : (pickRows keep i rows).Sublist rows := by
  induction rows generalizing i with
  | nil => exact List.Sublist.refl _
  | cons row rows ih =>
      rw [pickRows]
      split
      · exact (ih (i + 1)).cons_cons row
      · exact (ih (i + 1)).cons row

theorem head?_append_cons {xs : List Node} (h : xs ≠ []) (ys : List Node) :
    (xs ++ ys).head? = xs.head? := by
  cases xs with
  | nil => exact absurd rfl h
  | cons x xs => rfl

theorem placeRows_spec [DecidableEq Node] {settled : List Nat} {stop : Node} {children : List Node}
    {p : Node → Bool} {Y : List Node} (hnodup : children.Nodup) :
    ∀ (i : Nat) (rows : List (Row Key Item Node)) (X : List Node),
      (nodesOf rows).Nodup → (∀ row ∈ rows, row.entry.nodes ≠ []) →
      (∀ a ∈ nodesOf (looseRows settled i rows), p a = false) →
      children.filter p = X ++ (nodesOf (settledRows settled i rows) ++ stop :: Y) →
      ∃ placed, placeRows settled stop children i rows = some placed ∧
        placed.children.Nodup ∧
        placed.children.filter
            (fun x => p x || (nodesOf (looseRows settled i rows)).contains x) =
          X ++ (nodesOf rows ++ stop :: Y) ∧
        placed.cursor = (nodesOf rows ++ [stop]).head? ∧
        relocate children placed.calls = some placed.children ∧
        placed.calls.map Move.subject = nodesOf (looseRows settled i rows).reverse ∧
        ∀ call ∈ placed.calls, ∃ a ref, call = .insert a ref
  | i, [], X, _, _, _, hfilter => by
      refine ⟨_, rfl, hnodup, ?_, rfl, rfl, rfl, fun call hcall => by cases hcall⟩
      simpa [pickRows, nodesOf] using hfilter
  | i, row :: rows, X, hrows, hne, hp, hfilter => by
      rw [nodesOf_cons] at hrows
      obtain ⟨hrow, htail, hdisjoint⟩ := List.nodup_append.mp hrows
      have hne' : ∀ other ∈ rows, other.entry.nodes ≠ [] :=
        fun other hother => hne other (List.mem_cons_of_mem _ hother)
      have hhead : (nodesOf (row :: rows) ++ [stop]).head? = row.entry.nodes.head? := by
        rw [nodesOf_cons, List.append_assoc, head?_append_cons (hne row (by simp))]
      by_cases hsettled : i ∈ settled
      · simp only [settledRows, looseRows, pickRows, if_pos hsettled, not_not.mpr hsettled,
          if_false] at hp hfilter ⊢
        rw [nodesOf_cons, List.append_assoc, ← List.append_assoc] at hfilter
        obtain ⟨placed, hplaced, hnodup', hfilter', _, hcalls, hsubjects, hinserts⟩ :=
          placeRows_spec hnodup (i + 1) rows (X ++ row.entry.nodes) htail hne' hp hfilter
        refine ⟨{ placed with cursor := row.entry.nodes.head? }, ?_, hnodup', ?_, hhead.symm,
          hcalls, hsubjects, hinserts⟩
        · rw [placeRows, hplaced, Option.bind_some, if_pos hsettled]
        · rw [hfilter', nodesOf_cons]
          simp only [List.append_assoc]
      · simp only [settledRows, looseRows, pickRows, if_neg hsettled, if_pos hsettled]
          at hp hfilter ⊢
        rw [nodesOf_cons] at hp
        have hploose : ∀ a ∈ nodesOf (looseRows settled (i + 1) rows), p a = false :=
          fun a ha => hp a (List.mem_append_right _ ha)
        obtain ⟨placed, hplaced, hnodup', hfilter', hcursor, hcalls, hsubjects, hinserts⟩ :=
          placeRows_spec hnodup (i + 1) rows X htail hne' hploose hfilter
        obtain ⟨c, Z, hrest, hc⟩ : ∃ c Z, nodesOf rows ++ stop :: Y = c :: Z ∧
            (nodesOf rows ++ [stop]).head? = some c := by
          cases nodesOf rows with
          | nil => exact ⟨stop, Y, rfl, rfl⟩
          | cons a nodes => exact ⟨a, nodes ++ stop :: Y, rfl, rfl⟩
        rw [hc] at hcursor
        rw [hrest] at hfilter'
        have hnew : ∀ a ∈ row.entry.nodes,
            (p a || (nodesOf (looseRows settled (i + 1) rows)).contains a) = false := by
          intro a ha
          have hout : a ∉ nodesOf (looseRows settled (i + 1) rows) := fun hmem =>
            hdisjoint a ha a
              (nodesOf_subset (pickRows_sublist (fun i => i ∉ settled) (i + 1) rows).subset hmem) rfl
          rw [hp a (List.mem_append_left _ ha)]
          simpa using hout
        have hcmem : c ∈ placed.children.filter
            (fun x => p x || (nodesOf (looseRows settled (i + 1) rows)).contains x) := by
          rw [hfilter']
          simp
        have hcX : c ∉ X := by
          have hfnodup := hnodup'.filter
            (fun x => p x || (nodesOf (looseRows settled (i + 1) rows)).contains x)
          rw [hfilter'] at hfnodup
          intro hmem
          exact (List.nodup_append.mp hfnodup).2.2 c hmem c (by simp) rfl
        have hctrue := (List.mem_filter.mp hcmem).2
        obtain ⟨ys, hys, hysnodup, hysfilter⟩ :=
          insertAll_spec hnodup' hrow hnew hctrue hfilter' hcX
        refine ⟨{ children := ys
                  cursor := row.entry.nodes.head?
                  calls := placed.calls ++
                    row.entry.nodes.map (fun node => .insert node placed.cursor) },
          ?_, hysnodup, ?_, hhead.symm, ?_, ?_, ?_⟩
        · rw [placeRows, hplaced, Option.bind_some, if_neg hsettled, hcursor, hys]
          rfl
        · have hpred : (fun x => p x ||
                (nodesOf (row :: looseRows settled (i + 1) rows)).contains x) =
              (fun x => (p x || (nodesOf (looseRows settled (i + 1) rows)).contains x) ||
                row.entry.nodes.contains x) := by
            funext x
            rw [nodesOf_cons, List.contains_append, Bool.or_assoc,
              Bool.or_comm (row.entry.nodes.contains x)]
          rw [hpred, hysfilter, nodesOf_cons, ← hrest]
          simp only [List.append_assoc]
        · rw [relocate_append, hcalls, Option.bind_some, relocate_inserts, hcursor]
          exact hys
        · have hsubject : row.entry.nodes.map
              (Move.subject ∘ fun node => .insert node placed.cursor) = row.entry.nodes :=
            List.map_id _
          rw [List.map_append, hsubjects, List.map_map, hsubject, List.reverse_cons]
          simp [nodesOf]
        · intro call hcall
          rcases List.mem_append.mp hcall with hcall | hcall
          · exact hinserts call hcall
          · obtain ⟨node, _, rfl⟩ := List.mem_map.mp hcall
            exact ⟨node, placed.cursor, rfl⟩

end PlaceRows

section Supply

variable [DecidableEq Key]

def lookupNodes (mounted : List (Key × Entry Item Node)) (key : Key) : List Node :=
  ((mounted.find? (fun row => row.1 == key)).map (fun row => row.2.nodes)).getD []

variable {render : Nat → Item → Option (List Node) → List Node} {roots : Nat}
variable {mounted : List (Key × Entry Item Node)} {i : Nat} {served : Option (List Node)}
variable {keyed : List (Key × Item)}

theorem idxOf?_eq_none_of_find? {key : Key} (h : mounted.find? (fun row => row.1 == key) = none) :
    (mounted.map Prod.fst).idxOf? key = none := by
  rw [List.idxOf?_eq_none_iff]
  intro hmem
  obtain ⟨row, hrow, rfl⟩ := List.mem_map.mp hmem
  exact absurd (List.find?_eq_none.mp h row hrow) (by simp)

theorem supply_keys : (supply render roots mounted i served keyed).map Row.key =
    keyed.map Prod.fst := by
  induction keyed generalizing i served with
  | nil => rfl
  | cons pair keyed ih =>
      obtain ⟨key, item⟩ := pair
      rw [supply]
      split
      · rw [List.map_cons, ih]
        rfl
      · rw [List.map_cons, ih]
        rfl

theorem supply_values :
    (supply render roots mounted i served keyed).map (fun row => row.entry.value) =
      keyed.map Prod.snd := by
  induction keyed generalizing i served with
  | nil => rfl
  | cons pair keyed ih =>
      obtain ⟨key, item⟩ := pair
      rw [supply]
      split
      · rw [List.map_cons, ih]
        rfl
      · rw [List.map_cons, ih]
        rfl

theorem supply_row :
    ∀ row ∈ supply render roots mounted i served keyed,
      row.from' = (mounted.map Prod.fst).idxOf? row.key ∧
        (row.key ∈ mounted.map Prod.fst → row.entry.nodes = lookupNodes mounted row.key) := by
  induction keyed generalizing i served with
  | nil => simp [supply]
  | cons pair keyed ih =>
      obtain ⟨key, item⟩ := pair
      intro row hrow
      rw [supply] at hrow
      split at hrow
      · rename_i found hfound
        rcases List.mem_cons.mp hrow with rfl | hrow
        · refine ⟨rfl, ?_⟩
          intro _
          rw [lookupNodes, hfound]
          rfl
        · exact ih row hrow
      · rename_i hnone
        rcases List.mem_cons.mp hrow with rfl | hrow
        · refine ⟨(idxOf?_eq_none_of_find? hnone).symm, ?_⟩
          intro hmem
          have hindex := idxOf?_eq_none_of_find? hnone
          exact absurd hmem (List.idxOf?_eq_none_iff.mp hindex)
        · exact ih row hrow

end Supply

section Nodes

variable [DecidableEq Key] {mounted : List (Key × Entry Item Node)}

theorem lookupNodes_of_mem (hkeys : (mounted.map Prod.fst).Nodup)
    {row : Key × Entry Item Node} (hrow : row ∈ mounted) :
    lookupNodes mounted row.1 = row.2.nodes := by
  have hfind : mounted.find? (fun other => other.1 == row.1) = some row := by
    induction mounted with
    | nil => cases hrow
    | cons first mounted ih =>
        obtain ⟨hnew, hkeys⟩ := List.nodup_cons.mp hkeys
        rcases List.mem_cons.mp hrow with rfl | hrow
        · rw [List.find?_cons_of_pos (by simp)]
        · have hne : first.1 ≠ row.1 := fun e =>
            hnew (e ▸ List.mem_map.mpr ⟨row, hrow, rfl⟩)
          rw [List.find?_cons_of_neg (by simpa using hne), ih hkeys hrow]
  rw [lookupNodes, hfind]
  rfl

theorem rowNodes_eq_flatMap (hkeys : (mounted.map Prod.fst).Nodup) :
    rowNodes mounted = (mounted.map Prod.fst).flatMap (lookupNodes mounted) := by
  rw [List.flatMap_map]
  exact List.flatMap_congr (fun row hrow => (lookupNodes_of_mem hkeys hrow).symm)

theorem rowNodes_filter (hkeys : (mounted.map Prod.fst).Nodup) (q : Key → Bool) :
    rowNodes (mounted.filter (fun row => q row.1)) =
      ((mounted.map Prod.fst).filter q).flatMap (lookupNodes mounted) := by
  rw [List.filter_map, List.flatMap_map]
  exact List.flatMap_congr (fun row hrow =>
    (lookupNodes_of_mem hkeys (List.mem_of_mem_filter hrow)).symm)

variable {rows : List (Row Key Item Node)}

theorem nodesOf_eq_flatMap (h : ∀ row ∈ rows, row.entry.nodes = lookupNodes mounted row.key) :
    nodesOf rows = (rows.map Row.key).flatMap (lookupNodes mounted) := by
  rw [List.flatMap_map]
  exact List.flatMap_congr h

omit [DecidableEq Key] in
/-- A test that takes all nodes of a row or none of them takes the nodes of the rows
taken. -/
theorem filter_rowNodes {p : Node → Bool} {q : Key → Bool}
    (h : ∀ row ∈ mounted, ∀ a ∈ row.2.nodes, p a = q row.1) :
    (rowNodes mounted).filter p = rowNodes (mounted.filter (fun row => q row.1)) := by
  induction mounted with
  | nil => rfl
  | cons row mounted ih =>
      have ih := ih (fun other hother => h other (List.mem_cons_of_mem _ hother))
      have hrow := h row (by simp)
      unfold rowNodes at ih ⊢
      rw [List.flatMap_cons, List.filter_append, ih, List.filter_cons]
      cases hq : q row.1 with
      | true =>
          rw [if_pos rfl, List.flatMap_cons,
            List.filter_eq_self.mpr (fun a ha => (hrow a ha).trans hq)]
      | false =>
          rw [if_neg Bool.false_ne_true,
            List.filter_eq_nil_iff.mpr (fun a ha => by simp [hrow a ha, hq]), List.nil_append]

omit [DecidableEq Key] in
theorem filter_nodesOf {p : Node → Bool} {q : Key → Bool}
    (h : ∀ row ∈ rows, ∀ a ∈ row.entry.nodes, p a = q row.key) :
    (nodesOf rows).filter p = nodesOf (rows.filter (fun row => q row.key)) := by
  have hrows : (rowNodes (rows.map (fun row => (row.key, row.entry)))).filter p =
      rowNodes ((rows.map (fun row => (row.key, row.entry))).filter (fun row => q row.1)) := by
    refine filter_rowNodes ?_
    intro row hrow a ha
    obtain ⟨new, hnew, rfl⟩ := List.mem_map.mp hrow
    exact h new hnew a ha
  rw [List.filter_map] at hrows
  unfold rowNodes at hrows
  rw [List.flatMap_map, List.flatMap_map] at hrows
  exact hrows

omit [DecidableEq Key] in
/-- Lists of keys that give the same nodes are the same, as far as every key has nodes
of its own. -/
theorem eq_of_flatMap_eq {f : Key → List Node} {keys others : List Key}
    (hne : ∀ key, key ∈ keys ∨ key ∈ others → f key ≠ [])
    (hunique : ∀ key other, key ∈ keys → other ∈ others → ∀ a, a ∈ f key → a ∈ f other →
      key = other) (h : keys.flatMap f = others.flatMap f) : keys = others := by
  induction keys generalizing others with
  | nil =>
      cases others with
      | nil => rfl
      | cons other others =>
          have hempty := (List.append_eq_nil_iff.mp (List.flatMap_cons ▸ h.symm)).1
          exact absurd hempty (hne other (.inr (by simp)))
  | cons key keys ih =>
      cases others with
      | nil =>
          have hempty := (List.append_eq_nil_iff.mp (List.flatMap_cons ▸ h)).1
          exact absurd hempty (hne key (.inl (by simp)))
      | cons other others =>
          rw [List.flatMap_cons, List.flatMap_cons] at h
          obtain ⟨a, nodes, ha⟩ := List.exists_cons_of_ne_nil (hne key (.inl (by simp)))
          obtain ⟨b, nodes', hb⟩ := List.exists_cons_of_ne_nil (hne other (.inr (by simp)))
          have hab : a = b := by
            rw [ha, hb] at h
            exact (List.cons.inj h).1
          have hkey : key = other := hunique key other (by simp) (by simp) a
            (by rw [ha]; simp) (by rw [hb, hab]; simp)
          subst hkey
          rw [ih (fun k hk => hne k (hk.imp (List.mem_cons_of_mem _) (List.mem_cons_of_mem _)))
            (fun k o hk ho => hunique k o (List.mem_cons_of_mem _ hk) (List.mem_cons_of_mem _ ho))
            (List.append_cancel_left h)]

theorem pairwise_idxOf? {keys : List Key} (h : keys.Nodup) :
    keys.Pairwise (fun a b =>
      ∀ v w, keys.idxOf? a = some v → keys.idxOf? b = some w → v < w) := by
  rw [List.pairwise_iff_getElem]
  intro i j hi hj hij v w hv hw
  obtain ⟨hvlt, hv, _⟩ := List.idxOf?_eq_some_iff.mp hv
  obtain ⟨hwlt, hw, _⟩ := List.idxOf?_eq_some_iff.mp hw
  have hvi : v = i := (List.Nodup.getElem_inj_iff h).mp (by simpa using hv)
  have hwj : w = j := (List.Nodup.getElem_inj_iff h).mp (by simpa using hw)
  omega

end Nodes

section Partition

variable {keep : Nat → Prop} [DecidablePred keep] {rows : List (Row Key Item Node)}

theorem mem_pickRows {i : Nat} {row : Row Key Item Node} :
    row ∈ pickRows keep i rows ↔ ∃ k, rows[k]? = some row ∧ keep (i + k) := by
  induction rows generalizing i with
  | nil => simp [pickRows]
  | cons first rows ih =>
      have hshift : (∃ k, (first :: rows)[k]? = some row ∧ keep (i + k)) ↔
          (first = row ∧ keep i) ∨ ∃ k, rows[k]? = some row ∧ keep (i + 1 + k) := by
        constructor
        · rintro ⟨k, hk, hi⟩
          rcases k with _ | k
          · exact .inl ⟨by simpa using hk, hi⟩
          · exact .inr ⟨k, by simpa using hk, by rwa [Nat.add_right_comm]⟩
        · rintro (⟨rfl, hi⟩ | ⟨k, hk, hi⟩)
          · exact ⟨0, rfl, hi⟩
          · exact ⟨k + 1, by simpa using hk, by rwa [Nat.add_right_comm] at hi⟩
      rw [hshift, pickRows]
      split
      · rw [List.mem_cons, ih]
        tauto
      · rw [ih]
        tauto

theorem pickRows_pairwise {P : Row Key Item Node → Row Key Item Node → Prop} {i : Nat}
    (h : ∀ a b, a < b → keep (i + a) → keep (i + b) →
      ∀ x y, rows[a]? = some x → rows[b]? = some y → P x y) :
    (pickRows keep i rows).Pairwise P := by
  induction rows generalizing i with
  | nil => exact List.Pairwise.nil
  | cons row rows ih =>
      have hrest : (pickRows keep (i + 1) rows).Pairwise P := ih (by
        intro a b hab ha hb x y hx hy
        rw [Nat.add_right_comm] at ha hb
        exact h (a + 1) (b + 1) (Nat.succ_lt_succ hab) ha hb x y (by simpa using hx)
          (by simpa using hy))
      rw [pickRows]
      split
      · rename_i hkeep
        refine List.pairwise_cons.mpr ⟨?_, hrest⟩
        intro y hy
        obtain ⟨b, hb, hkb⟩ := mem_pickRows.mp hy
        rw [Nat.add_right_comm] at hkb
        exact h 0 (b + 1) (Nat.succ_pos b) hkeep hkb row y rfl (by simpa using hb)
      · exact hrest

end Partition

end Runtime
end Zdeceptron
