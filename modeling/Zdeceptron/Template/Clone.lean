import Zdeceptron.Template.Reach

/-!
# A region over a clone of its template

* `binds_reach`: every bind finds the node it was lowered for, and every hole its own closing
  anchor.
-/

namespace Zdeceptron
namespace Template

section Clone

variable (roots : List Tpl)

def level (path : Address) : List DomNode :=
  spread (fun _ => []) path 0 ((childrenAt roots path).getD [])

def cloneKids : DomNode → List DomNode
  | .fragment => level roots []
  | .tpl (first :: rest) => level roots (first :: rest)
  | _ => []

def cloneParent : DomNode → Option DomNode
  | .tpl address =>
      if (node_at roots address).isSome then some (nodeOf address.dropLast) else none
  | _ => none

variable {roots}

theorem mem_level {path : Address} {x : DomNode} :
    x ∈ level roots path ↔ ∃ i, (node_at roots (path ++ [i])).isSome = true ∧
      x = .tpl (path ++ [i]) := by
  simp only [level, mem_spread, Nat.zero_add, List.not_mem_nil, false_and, exists_false, or_false,
    node_at_append]
  refine exists_congr fun i => and_congr ?_ Iff.rfl
  cases childrenAt roots path with
  | none => simp
  | some children => simp

theorem cloneKids_nodeOf (path : Address) : cloneKids roots (nodeOf path) = level roots path := by
  cases path <;> rfl

theorem mem_cloneKids {x p : DomNode} :
    x ∈ cloneKids roots p ↔ cloneParent roots x = some p := by
  constructor
  · intro h
    obtain ⟨path, rfl⟩ : ∃ path, p = nodeOf path := by
      cases p with
      | fragment => exact ⟨[], rfl⟩
      | tpl address =>
          cases address with
          | nil => cases h
          | cons first rest => exact ⟨first :: rest, rfl⟩
      | other k => cases h
    rw [cloneKids_nodeOf] at h
    obtain ⟨i, hsome, rfl⟩ := mem_level.mp h
    rw [cloneParent, if_pos hsome, List.dropLast_concat]
  · intro h
    cases x with
    | tpl address =>
        rw [cloneParent] at h
        split_ifs at h with hsome
        obtain rfl := Option.some.inj h
        rw [cloneKids_nodeOf, mem_level]
        cases address using List.reverseRecOn with
        | nil => cases hsome
        | append_singleton path i => exact ⟨i, by simpa using hsome, by simp⟩
    | _ => cases h

theorem spread_nodup {path : Address} : ∀ (ns : List Tpl) (index : Nat),
    (spread (fun _ => []) path index ns).Nodup
  | [], _ => List.nodup_nil
  | n :: ns, index => by
      rw [spread, List.map_nil, List.nil_append, List.nodup_cons]
      refine ⟨fun h => ?_, spread_nodup ns _⟩
      obtain ⟨i, -, heq | ⟨k, hk, -⟩⟩ := mem_spread.mp h
      · have hlast := List.append_cancel_left (DomNode.tpl.inj heq)
        simp only [List.cons.injEq, and_true] at hlast
        omega
      · cases hk

variable (roots) in
def Dom.clone : Dom where
  kids := cloneKids roots
  parent := cloneParent roots
  mem_kids := mem_cloneKids
  nodup p := by
    unfold cloneKids
    split
    · exact spread_nodup _ _
    · exact spread_nodup _ _
    · exact List.nodup_nil

theorem clone_holds : Holds roots (fun _ => []) (Dom.clone roots) := by
  intro path children hchildren _
  show cloneKids roots (nodeOf path) = _
  rw [cloneKids_nodeOf, level, hchildren]
  rfl

end Clone

section Reach

def Machine.start (d : Dom) : Machine := ⟨fun _ => none, d, [], []⟩

/-- What the statement that runs next finds: a node to name, the node the bind was lowered for,
and next to a hole's opening anchor its closing one.  The binds on holes that have run hold the
two anchors of their own. -/
structure Ready (r : Region) (m : Machine) (rest : List Stmt) : Prop where
  const : ∀ name chain stmts, rest = .const name chain :: stmts → ∃ x, m.eval chain = some x
  attach : ∀ b target stmts, rest = .attach b target :: stmts →
    m.eval target = some (.tpl b.target) ∧
      (b.kind.isHole = true → ∃ path i, b.target = path ++ [i] ∧
        node_at r.roots (path ++ [i + 1]) = some (.anchor .close) ∧
        m.dom.nextSibling (.tpl b.target) = some (.tpl (path ++ [i + 1])))
  regions : ∀ x y, (x, y) ∈ m.regions → ∃ b ∈ r.binds, b.kind.isHole = true ∧
    ∃ path i, b.target = path ++ [i] ∧ x = .tpl (path ++ [i]) ∧ y = some (.tpl (path ++ [i + 1]))

/-- The statements of a region the lowering builds attach each of its binds once.  However they
run, and whatever the binds that have run put between their anchors meanwhile, the next one finds
the node it was lowered for. -/
theorem binds_reach (ns : List Node) (r : Region) (hr : r ∈ (Lowering.region ns).regions)
    (locals : Nat) :
    ∃ stmts, Emission.region r locals = some stmts ∧
      (stmts.filterMap Stmt.bind?).Perm r.binds ∧
      ∀ m rest, Runs (Machine.start (Dom.clone r.roots)) stmts m rest → Ready r m rest := by
  obtain ⟨ns', rfl⟩ := regions_lowered ns r hr
  generalize hregion : Lowering.region ns' = r
  have hplaced : AllPlaced r.roots r.binds := hregion ▸ region_placed ns'
  have hholes : (holes r.binds).Nodup := hregion ▸ region_holes ns'
  have hg := Graph.build_climbs r.roots
  obtain ⟨sites, hsites, hbinds, hattached⟩ := attached_sites hg hplaced hholes
  have hperm := List.mergeSort_perm sites fun a b : Site => a.anchor ≤ b.anchor
  have hnamed : ∀ site ∈ sites, site.anchor < (Graph.build r.roots).addresses.length :=
    fun site hsite => (hattached.right site (hperm.mem_iff.mpr hsite)).named
  obtain ⟨walked, hwalked, hnames⟩ :=
    @walk_named _ _ hg _ (fun _ => none) locals (named_lt hnamed)
  obtain ⟨stmts, hstmts⟩ := @attach_some walked.2
    (sites.mergeSort fun a b => a.anchor ≤ b.anchor) fun site hsite =>
      hnames _ (Or.inl (mem_named.mpr (Or.inl
        (List.mem_map_of_mem (hperm.mem_iff.mp hsite)))))
  refine ⟨walked.1 ++ stmts, ?_, ?_, fun m rest hruns => ?_⟩
  · simp only [Emission.region, hsites, hwalked, hstmts, Option.bind_some, Option.map_some]
  · rw [List.filterMap_append, walk_binds hwalked, attach_binds hstmts, List.nil_append, ← hbinds]
    exact hperm.map _
  · have hstage : Stage r.roots (Graph.build r.roots)
        (sites.mergeSort fun a b => a.anchor ≤ b.anchor) m rest := by
      refine Stage.runs hg hattached ?_ hruns
      refine ⟨fun _ => none, locals, _, walked, [], _, stmts, named_lt hnamed, hwalked, rfl, hstmts,
        rfl, fun id name h => (by cases h), ?_, Or.inr rfl⟩
      refine ⟨fun h => (by cases h), fun h => (by cases h), fun _ => [], clone_holds, ?_⟩
      exact fun a ha => absurd rfl ha
    refine ⟨fun name chain stmts' hrest => ?_, fun b target stmts' hrest => ?_, ?_⟩
    · subst hrest
      rcases hstage.cases hg with
        ⟨_, _, _, _, _, _, _, _, a, hstmt, -, heval, -⟩ | ⟨_, _, _, _, _, _, hstmt, -⟩
      · cases hstmt
        exact ⟨_, heval⟩
      · cases hstmt
    · subst hrest
      rcases hstage.cases hg with
        ⟨_, _, _, _, _, _, _, _, _, hstmt, -⟩ |
        ⟨assigned, _, ran, site, left, name, hstmt, hname, hsplit, -, hknows, hbound⟩
      · cases hstmt
      · cases hstmt
        exact ⟨Stage.target hg hattached hsplit hname hknows hbound,
          hbound.closing hattached hsplit⟩
    · intro x y hmem
      obtain ⟨_, _, _, _, ran, left, _, -, -, hsplit, -, -, -, hbound, -⟩ := hstage.parts
      obtain ⟨site, hsite, hhole, hrest⟩ := hbound.regions hmem
      refine ⟨site.bind, ?_, hhole, hrest⟩
      rw [← hbinds]
      refine List.mem_map_of_mem (hperm.mem_iff.mp ?_)
      rw [hsplit]
      exact List.mem_append_left _ hsite

def shows (tag getter : String) (children : List Node) : Node :=
  .element
    { tag := tag
      attributes := []
      slot := .text (some (.reactive getter))
      literal_text := none
      named := []
      children := true
      inner_tag := none
      label := none
      wraps := fun h => by cases h
      renders := fun h => by cases h } children

/-- A total, with a list nested in it and a value after the list. -/
theorem total_reach :
    ∃ stmts, Emission.region (Lowering.region
        [shows "div" "total" [.each "rows" [shows "li" "row" []], shows "span" "count" []]]) 0 =
          some stmts ∧
      (stmts.filterMap Stmt.bind?).Perm (Lowering.region
        [shows "div" "total" [.each "rows" [shows "li" "row" []], shows "span" "count" []]]).binds ∧
      ∀ m rest, Runs (Machine.start (Dom.clone (Lowering.region
          [shows "div" "total" [.each "rows" [shows "li" "row" []],
            shows "span" "count" []]]).roots)) stmts m rest →
        Ready (Lowering.region
          [shows "div" "total" [.each "rows" [shows "li" "row" []], shows "span" "count" []]])
          m rest :=
  binds_reach _ _ List.mem_cons_self 0

end Reach

end Template
end Zdeceptron
