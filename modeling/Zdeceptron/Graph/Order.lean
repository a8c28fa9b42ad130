import Mathlib.Data.Fintype.Sets
import Mathlib.Data.Fintype.EquivFin
import Mathlib.Order.WellFounded
import Zdeceptron.Graph.Components

/-!
# Dependencies first

The order in which the nodes of a graph without a cycle are written down: rounds over all of
them, each placing the nodes whose neighbours are placed.
-/

namespace Zdeceptron
namespace Graph

open Relation

section Rounds

variable (edges : Edges)

/-- Place a node all of whose neighbours in the graph are placed.  `placed` of the source
holds what `out` lists. -/
def place (out : List DefId) (entry : DefId × List DefId) : List DefId :=
  if out.contains entry.1 then out
  else if entry.2.all (fun dep => !edges.containsKey dep || out.contains dep) then
    out ++ [entry.1]
  else out

/-- Rounds while a node is missing, one more than there are nodes at most. -/
def placeRounds : Nat → List DefId → List DefId
  | 0, out => out
  | guard + 1, out =>
      if out.length < edges.length then placeRounds guard (edges.foldl (place edges) out)
      else out

def topological : List DefId := placeRounds edges (edges.length + 1) []

end Rounds

section Placed

variable {edges : Edges} {out : List DefId}

def Ordered (edges : Edges) (out : List DefId) : Prop :=
  ∀ pre v post, out = pre ++ v :: post → ∀ dep, edges.Leads v dep → dep ∈ pre

structure Placed (edges : Edges) (out : List DefId) : Prop where
  nodup : out.Nodup
  keys : ∀ v ∈ out, v ∈ edges.keys
  ordered : Ordered edges out

theorem ordered_append {v : DefId} (h : Ordered edges out)
    (hv : ∀ dep, edges.Leads v dep → dep ∈ out) : Ordered edges (out ++ [v]) := by
  intro pre w post heq dep hdep
  rcases List.eq_nil_or_concat post with rfl | ⟨init, last, rfl⟩
  · obtain ⟨rfl, hw⟩ := List.append_inj' heq rfl
    rw [List.singleton_inj] at hw
    subst hw
    exact hv dep hdep
  · rw [List.concat_eq_append, ← List.cons_append, ← List.append_assoc] at heq
    obtain ⟨rfl, -⟩ := List.append_inj' heq rfl
    exact h pre w init rfl dep hdep

variable {entry : DefId × List DefId}

theorem neighbours_of_mem (hnodup : edges.keys.Nodup) (h : entry ∈ edges) :
    edges.neighbours entry.1 = entry.2 := by
  obtain ⟨id, targets⟩ := entry
  have hlookup : List.lookup id edges = some targets := by
    unfold Edges.keys at hnodup
    induction edges with
    | nil => cases h
    | cons first edges ih =>
        obtain ⟨other, others⟩ := first
        rw [List.map_cons, List.nodup_cons] at hnodup
        rcases List.mem_cons.mp h with heq | hrest
        · cases heq
          simp
        · have hne : id ≠ other := by
            rintro rfl
            exact hnodup.1 (List.mem_map.mpr ⟨_, hrest, rfl⟩)
          have hother : (id == other) = false := by simpa using hne
          rw [List.lookup_cons, hother]
          exact ih hnodup.2 hrest
  rw [Edges.neighbours, Edges.get, hlookup, Option.getD_some]

theorem subset_place (out : List DefId) (entry : DefId × List DefId) :
    out ⊆ place edges out entry := by
  unfold place
  split_ifs
  · exact List.Subset.refl out
  · exact List.subset_append_left ..
  · exact List.Subset.refl out

theorem Placed.place (h : Placed edges out) (hnodup : edges.keys.Nodup) (hentry : entry ∈ edges) :
    Placed edges (place edges out entry) := by
  unfold Graph.place
  split_ifs with hin hall
  · exact h
  · refine ⟨?_, ?_, ordered_append h.ordered ?_⟩
    · rw [List.nodup_append]
      refine ⟨h.nodup, List.nodup_singleton _, ?_⟩
      rintro v hv w hw rfl
      obtain rfl := List.mem_singleton.mp hw
      exact hin (List.contains_iff_mem.mpr hv)
    · intro v hv
      rcases List.mem_append.mp hv with hv | hv
      · exact h.keys v hv
      · rw [List.mem_singleton.mp hv]
        exact List.mem_map.mpr ⟨entry, hentry, rfl⟩
    · rintro dep ⟨hdep, hkey⟩
      rw [neighbours_of_mem hnodup hentry] at hdep
      have := List.all_eq_true.mp hall dep hdep
      simpa [hkey] using this
  · exact h

theorem mem_place (hnodup : edges.keys.Nodup) (hentry : entry ∈ edges)
    (hdeps : ∀ dep, edges.Leads entry.1 dep → dep ∈ out) : entry.1 ∈ place edges out entry := by
  unfold place
  split_ifs with hin hall
  · exact List.contains_iff_mem.mp hin
  · simp
  · refine absurd ?_ hall
    refine List.all_eq_true.mpr (fun dep hdep => ?_)
    cases hkey : edges.containsKey dep with
    | false => rfl
    | true =>
        have hleads : edges.Leads entry.1 dep := by
          refine ⟨?_, hkey⟩
          rw [neighbours_of_mem hnodup hentry]
          exact hdep
        simpa using hdeps dep hleads

section Round

variable {entries : List (DefId × List DefId)}

theorem subset_round (entries : List (DefId × List DefId)) (out : List DefId) :
    out ⊆ entries.foldl (place edges) out := by
  induction entries generalizing out with
  | nil => exact List.Subset.refl out
  | cons entry entries ih => exact List.Subset.trans (subset_place out entry) (ih _)

theorem Placed.round (h : Placed edges out) (hnodup : edges.keys.Nodup)
    (hsub : ∀ entry ∈ entries, entry ∈ edges) :
    Placed edges (entries.foldl (Graph.place edges) out) := by
  induction entries generalizing out with
  | nil => exact h
  | cons entry entries ih =>
      exact ih (h.place hnodup (hsub entry List.mem_cons_self))
        (fun e he => hsub e (List.mem_cons_of_mem _ he))

theorem mem_round (hnodup : edges.keys.Nodup) (hsub : ∀ entry ∈ entries, entry ∈ edges)
    (hentry : entry ∈ entries) (hdeps : ∀ dep, edges.Leads entry.1 dep → dep ∈ out) :
    entry.1 ∈ entries.foldl (place edges) out := by
  induction entries generalizing out with
  | nil => cases hentry
  | cons first entries ih =>
      rcases List.mem_cons.mp hentry with rfl | hentry
      · refine subset_round entries _ ?_
        exact mem_place hnodup (hsub entry List.mem_cons_self) hdeps
      · refine ih (fun e he => hsub e (List.mem_cons_of_mem _ he)) hentry (fun dep hdep => ?_)
        exact subset_place out first (hdeps dep hdep)

end Round

theorem exists_ready (hacyclic : ∀ v, ¬ TransGen edges.Leads v v) {v : DefId}
    (hv : v ∈ edges.keys) (hout : v ∉ out) :
    ∃ w ∈ edges.keys, w ∉ out ∧ ∀ dep, edges.Leads w dep → dep ∈ out := by
  let Missing := { w // w ∈ edges.keys.toFinset.filter (fun w => w ∉ out) }
  let below (a b : Missing) : Prop := TransGen edges.Leads b.1 a.1
  have htrans : IsTrans Missing below := ⟨fun _ _ _ hab hbc => hbc.trans hab⟩
  have hirrefl : Std.Irrefl below := ⟨fun a => hacyclic a.1⟩
  have hwf : WellFounded below := Finite.wellFounded_of_trans_of_irrefl below
  have hmem {w : DefId} (hw : w ∈ edges.keys) (hwo : w ∉ out) :
      w ∈ edges.keys.toFinset.filter (fun w => w ∉ out) := by
    simp [hw, hwo]
  obtain ⟨⟨w, hw⟩, -, hleast⟩ := hwf.has_min Set.univ ⟨⟨v, hmem hv hout⟩, trivial⟩
  obtain ⟨hwkeys, hwout⟩ : w ∈ edges.keys ∧ w ∉ out := by simpa using hw
  refine ⟨w, hwkeys, hwout, fun dep hdep => ?_⟩
  by_contra hmissing
  exact hleast ⟨dep, hmem (Search.mem_keys.mpr hdep.2) hmissing⟩ trivial (.single hdep)

theorem length_round (hnodup : edges.keys.Nodup) (hacyclic : ∀ v, ¬ TransGen edges.Leads v v)
    (h : Placed edges out) (hlt : out.length < edges.length) :
    out.length < (edges.foldl (place edges) out).length := by
  obtain ⟨v, hv, hvout⟩ : ∃ v ∈ edges.keys, v ∉ out := by
    by_contra hall
    push Not at hall
    have hle := (hnodup.subperm hall).length_le
    rw [Edges.keys, List.length_map] at hle
    omega
  obtain ⟨w, hw, hwout, hready⟩ := exists_ready hacyclic hv hvout
  obtain ⟨entry, hentry, rfl⟩ := List.mem_map.mp hw
  have hplaced := mem_round hnodup (fun _ he => he) hentry hready
  have hsub : (entry.1 :: out) ⊆ edges.foldl (place edges) out :=
    List.cons_subset.mpr ⟨hplaced, subset_round edges out⟩
  have hle := ((List.nodup_cons.mpr ⟨hwout, h.nodup⟩).subperm hsub).length_le
  rw [List.length_cons] at hle
  omega

theorem placeRounds_spec (hnodup : edges.keys.Nodup)
    (hacyclic : ∀ v, ¬ TransGen edges.Leads v v) {guard : Nat} (h : Placed edges out)
    (hguard : edges.length ≤ guard + out.length) :
    Placed edges (placeRounds edges guard out) ∧
      edges.length ≤ (placeRounds edges guard out).length := by
  induction guard generalizing out with
  | zero => exact ⟨h, by rw [placeRounds]; omega⟩
  | succ guard ih =>
      rw [placeRounds]
      split_ifs with hlt
      · have hgrown := length_round hnodup hacyclic h hlt
        exact ih (h.round hnodup (fun _ he => he)) (by omega)
      · exact ⟨h, by omega⟩

theorem topological_spec (hnodup : edges.keys.Nodup) (hacyclic : ∀ v, ¬ TransGen edges.Leads v v) :
    (topological edges).Perm edges.keys ∧ Ordered edges (topological edges) := by
  have hempty : Placed edges [] := by
    refine ⟨List.nodup_nil, by simp, ?_⟩
    intro pre v post heq
    simp at heq
  obtain ⟨hplaced, hlength⟩ :=
    placeRounds_spec hnodup hacyclic hempty (Nat.le_succ edges.length)
  refine ⟨?_, hplaced.ordered⟩
  have hsub : (topological edges).Subperm edges.keys := hplaced.nodup.subperm hplaced.keys
  refine hsub.perm_of_length_le ?_
  rw [Edges.keys, List.length_map]
  exact hlength

theorem Ordered.idxOf_lt (h : Ordered edges out) (hnodup : out.Nodup) {v dep : DefId}
    (hv : v ∈ out) (hdep : edges.Leads v dep) : out.idxOf dep < out.idxOf v := by
  obtain ⟨pre, post, rfl⟩ := List.append_of_mem hv
  have hin := h pre v post rfl dep hdep
  have hvpre : v ∉ pre := by
    rw [List.nodup_append] at hnodup
    exact fun hmem => hnodup.2.2 v hmem v List.mem_cons_self rfl
  rw [List.idxOf_append_of_mem hin, List.idxOf_append_of_notMem hvpre]
  have := List.idxOf_lt_length_of_mem hin
  omega

end Placed

end Graph
end Zdeceptron
