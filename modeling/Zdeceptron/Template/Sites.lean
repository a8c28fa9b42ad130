import Zdeceptron.Template.Spread

/-!
# The sites of a region's binds

Every bind of a lowered region has a site, every site's node is named, and no walk that the
emission expects is missing.
-/

namespace Zdeceptron
namespace Template

section Graphs

variable {roots : List Tpl} {g : Graph}

variable {a : Address}

theorem id_of_spec {id : Nat} (h : g.id_of a = some id) :
    g.addresses[id]? = some a := by
  obtain ⟨hlt, heq, -⟩ := List.idxOf?_eq_some_iff.mp h
  rw [List.getElem?_eq_getElem hlt, heq]

theorem listed_id (hg : Graph.Climbable roots g) (h : (node_at roots a).isSome = true) :
    ∃ id, g.id_of a = some id ∧ g.addresses[id]? = some a := by
  cases hid : g.id_of a with
  | some id => exact ⟨id, rfl, id_of_spec hid⟩
  | none =>
      refine absurd ?_ (List.idxOf?_eq_none_iff.mp hid)
      rw [hg.addresses]
      exact node_at_listed.mp h

theorem address_le (hg : Graph.Climbable roots g) {i j : Nat} {a b : Address}
    (hi : g.addresses[i]? = some a) (hj : g.addresses[j]? = some b) (h : a <+: b) : i ≤ j := by
  have hpairwise : g.addresses.Pairwise Before := by
    rw [hg.addresses]
    exact preorder_pairwise roots [] 0
  obtain ⟨hilt, rfl⟩ := List.getElem?_eq_some_iff.mp hi
  obtain ⟨hjlt, rfl⟩ := List.getElem?_eq_some_iff.mp hj
  by_contra hlt
  exact List.pairwise_iff_getElem.mp hpairwise j i hjlt hilt (Nat.not_le.mp hlt) h

theorem address_injective (hg : Graph.Climbable roots g) {i j : Nat}
    (hi : g.addresses[i]? = some a) (hj : g.addresses[j]? = some a) : i = j :=
  Nat.le_antisymm (address_le hg hi hj (List.prefix_refl a))
    (address_le hg hj hi (List.prefix_refl a))

theorem child_edge (hg : Graph.Climbable roots g) {p c i : Nat} {path : Address}
    (hp : g.addresses[p]? = some path) (hc : g.addresses[c]? = some (path ++ [i])) :
    ∃ q step a, g.parent c = some (q, step) ∧ g.addresses[q]? = some a ∧
      step.leads a (path ++ [i]) := by
  have hpos : 0 < c := by
    have hle := address_le hg hp hc (List.prefix_append _ _)
    rcases Nat.eq_zero_or_pos c with rfl | hpos
    · obtain rfl : p = 0 := by omega
      have hself := Option.some.inj (hc.symm.trans hp)
      simp at hself
    · exact hpos
  obtain ⟨⟨q, step⟩, hparent⟩ :=
    Option.isSome_iff_exists.mp (hg.reached hpos (List.getElem?_eq_some_iff.mp hc).1)
  obtain ⟨-, a, b, ha, hb, hleads⟩ := hg.edges hparent
  cases hc.symm.trans hb
  exact ⟨q, step, a, hparent, ha, hleads⟩

theorem walk_child (hg : Graph.Climbable roots g) {p : Nat} {path : Address}
    (hp : g.addresses[p]? = some path) : ∀ {i c : Nat},
    g.addresses[c]? = some (path ++ [i]) → ∃ steps, Graph.Walk g p steps c := by
  intro i
  induction i with
  | zero =>
      intro c hc
      obtain ⟨q, step, a, hparent, ha, hleads⟩ := child_edge hg hp hc
      cases step with
      | firstChild =>
          obtain ⟨rfl, -⟩ := List.append_inj' hleads rfl
          obtain rfl := address_injective hg hp ha
          exact ⟨_, Graph.Walk.nil.snoc hparent⟩
      | nextSibling =>
          obtain ⟨path', j, -, heq⟩ := hleads
          have hlast := (List.append_inj' heq rfl).2
          simp at hlast
  | succ i ih =>
      intro c hc
      obtain ⟨q, step, a, hparent, ha, hleads⟩ := child_edge hg hp hc
      cases step with
      | firstChild =>
          have hlast := (List.append_inj' hleads rfl).2
          simp at hlast
      | nextSibling =>
          obtain ⟨path', j, rfl, heq⟩ := hleads
          obtain ⟨rfl, hlast⟩ := List.append_inj' heq rfl
          obtain rfl : i = j := by simpa using hlast
          obtain ⟨steps, hwalk⟩ := ih ha
          exact ⟨_, hwalk.snoc hparent⟩

end Graphs

section Sites

variable {roots : List Tpl} {g : Graph}

/-- A bind's site: its node is where the steps from the named one lead, and steps are taken only
from an element. -/
structure SiteFor (roots : List Tpl) (g : Graph) (b : Bind) (site : Site) : Prop where
  bind : site.bind = b
  target : ∃ t, g.addresses[t]? = some b.target ∧ Graph.Walk g site.anchor site.suffix t
  named : site.anchor < g.addresses.length
  inside : site.suffix ≠ [] → ∃ path tag attributes children,
    g.addresses[site.anchor]? = some path ∧
      node_at roots path = some (.element tag attributes children)
  own : b.kind.isHole = true → g.addresses[site.anchor]? = some b.target

variable {target : Address} {kind : BindKind}

theorem placed_some (h : Placed roots target kind) :
    (node_at roots target).isSome = true := by
  cases kind with
  | text | textOnce =>
      obtain ⟨parent, i, s, -, -, hnode⟩ := h
      rw [hnode]
      rfl
  | onElement =>
      obtain ⟨tag, attributes, children, hnode⟩ := h
      rw [hnode]
      rfl
  | each | when | ifThen =>
      obtain ⟨parent, i, -, hnode, -⟩ := h
      rw [hnode]
      rfl
  | _ =>
      obtain ⟨tag, attributes, hnode⟩ := h
      rw [hnode]
      rfl

theorem Placed.hole (h : Placed roots target kind)
    (hhole : kind.isHole = true) : ∃ parent i, target = parent ++ [i] ∧
      node_at roots target = some (.anchor .open_) ∧
      node_at roots (parent ++ [i + 1]) = some (.anchor .close) := by
  cases kind with
  | each | when | ifThen => exact h
  | _ => cases hhole

theorem Placed.fills (h : Placed roots target kind) (hfills : kind.fills = true) :
    ∃ tag attributes, node_at roots target = some (.element tag attributes []) := by
  cases kind with
  | markup | markupOnce | scene | foreign => exact h
  | _ => cases hfills

theorem Placed.text (h : Placed roots target kind)
    (hself : Emission.namesItself (node_at roots target) = false) :
    ∃ parent i, parent ≠ [] ∧ target = parent ++ [i] ∧ kind.isHole = false := by
  cases kind with
  | text | textOnce =>
      obtain ⟨parent, i, s, hparent, htarget, -⟩ := h
      exact ⟨parent, i, hparent, htarget, rfl⟩
  | onElement =>
      obtain ⟨tag, attributes, children, hnode⟩ := h
      rw [hnode] at hself
      cases hself
  | each | when | ifThen =>
      obtain ⟨parent, i, -, hnode, -⟩ := h
      rw [hnode] at hself
      cases hself
  | _ =>
      obtain ⟨tag, attributes, hnode⟩ := h
      rw [hnode] at hself
      cases hself

theorem parent_element {parent : Address} {i : Nat} (hparent : parent ≠ [])
    (h : (node_at roots (parent ++ [i])).isSome = true) :
    ∃ tag attributes children, node_at roots parent = some (.element tag attributes children) := by
  obtain ⟨n, hn⟩ := Option.isSome_iff_exists.mp h
  obtain ⟨children, hchildren, -⟩ := childrenAt_of_node hn
  obtain ⟨tag, attributes, hnode⟩ := element_of_childrenAt hparent hchildren
  exact ⟨tag, attributes, children, hnode⟩

theorem sites_for (hg : Graph.Climbable roots g) : ∀ {binds : List Bind},
    AllPlaced roots binds → ∃ sites, Emission.sites g roots binds = some sites ∧
      List.Forall₂ (SiteFor roots g) binds sites
  | [], _ => ⟨[], rfl, List.Forall₂.nil⟩
  | b :: binds, h => by
      obtain ⟨sites, hsites, hfor⟩ :=
        sites_for hg fun b hb => h b (List.mem_cons_of_mem _ hb)
      have hb := h b List.mem_cons_self
      obtain ⟨t, hid, ht⟩ := listed_id hg (placed_some hb)
      have htlt := (List.getElem?_eq_some_iff.mp ht).1
      simp only [Emission.sites, hid, hsites, Option.map_some]
      cases hself : Emission.namesItself (node_at roots b.target) with
      | true =>
          refine ⟨_, rfl, List.Forall₂.cons ?_ hfor⟩
          exact ⟨rfl, ⟨t, ht, Graph.Walk.nil⟩, htlt, fun hne => absurd rfl hne, fun _ => ht⟩
      | false =>
          obtain ⟨parent, i, hparent, htarget, hhole⟩ := hb.text hself
          have hsome := placed_some hb
          rw [htarget] at hsome
          obtain ⟨tag, attributes, children, hnode⟩ := parent_element hparent hsome
          obtain ⟨p, hp, haddress⟩ := listed_id hg (show (node_at roots parent).isSome = true by
            rw [hnode]; rfl)
          rw [htarget] at ht
          obtain ⟨steps, hwalk⟩ := walk_child hg haddress ht
          obtain ⟨suffix, hsuffix⟩ := Option.isSome_iff_exists.mp (hwalk.route hg htlt)
          have hdrop : b.target.dropLast = parent := by rw [htarget, List.dropLast_concat]
          simp only [Bool.false_eq_true, if_false, hdrop, hp, hsuffix, Option.bind_some]
          refine ⟨_, rfl, List.Forall₂.cons ?_ hfor⟩
          refine ⟨rfl, ⟨t, htarget ▸ ht, Graph.route_walk hsuffix⟩,
            (List.getElem?_eq_some_iff.mp haddress).1, fun _ => ?_, fun hh => ?_⟩
          · exact ⟨parent, tag, attributes, children, haddress, hnode⟩
          · rw [hhole] at hh
            cases hh

end Sites

section Names

variable {roots : List Tpl} {g : Graph}

theorem mem_dedup {id : Nat} : ∀ {ids : List Nat}, id ∈ dedup ids ↔ id ∈ ids
  | [] => Iff.rfl
  | [_] => Iff.rfl
  | a :: b :: rest => by
      rw [dedup]
      split_ifs with heq
      · subst heq
        rw [mem_dedup]
        simp
      · rw [List.mem_cons, mem_dedup, ← List.mem_cons]

theorem mem_named {sites : List Site} {id : Nat} :
    id ∈ Emission.named g sites ↔
      id ∈ sites.map Site.anchor ∨ id ∈ sites.filterMap (Site.root g) := by
  rw [Emission.named, mem_dedup, List.mem_mergeSort, List.mem_append]

theorem named_lt {sites : List Site} (h : ∀ site ∈ sites, site.anchor < g.addresses.length) :
    ∀ id ∈ Emission.named g sites, id < g.addresses.length := by
  intro id hid
  rcases mem_named.mp hid with hid | hid
  · obtain ⟨site, hsite, rfl⟩ := List.mem_map.mp hid
    exact h site hsite
  · obtain ⟨site, -, hroot⟩ := List.mem_filterMap.mp hid
    unfold Site.root at hroot
    split at hroot
    · exact (List.getElem?_eq_some_iff.mp (id_of_spec hroot)).1
    · cases hroot

theorem shortest_chain_some (hg : Graph.Climbable roots g) {assigned : Nat → Option Nat} {id : Nat}
    (hid : id < g.addresses.length) :
    ∃ chain, Emission.shortest_chain g assigned id = some chain := by
  unfold Emission.shortest_chain
  cases hnearest : g.nearest_named assigned id with
  | some up => exact ⟨_, rfl⟩
  | none =>
      obtain ⟨steps, hwalk⟩ := Graph.walk_first hg hid
      obtain ⟨route, hroute⟩ := Option.isSome_iff_exists.mp (hwalk.route hg hid)
      exact ⟨.fragment route, by rw [hroute]; rfl⟩

theorem walk_named (hg : Graph.Climbable roots g) : ∀ {ids : List Nat}
    {assigned : Nat → Option Nat} {locals : Nat}, (∀ id ∈ ids, id < g.addresses.length) →
    ∃ walked, Emission.walk g assigned locals ids = some walked ∧
      ∀ id, id ∈ ids ∨ (assigned id).isSome = true → (walked.2 id).isSome = true
  | [], assigned, _, _ => ⟨([], assigned), rfl, fun id h => h.resolve_left (by simp)⟩
  | id :: ids, assigned, locals, h => by
      obtain ⟨chain, hchain⟩ := @shortest_chain_some _ _ hg assigned id
        (h id List.mem_cons_self)
      obtain ⟨walked, hwalked, hnames⟩ := @walk_named hg ids
        (Function.update assigned id (some locals)) (locals + 1)
        fun n hn => h n (List.mem_cons_of_mem _ hn)
      refine ⟨_, by rw [Emission.walk, hchain, Option.bind_some, hwalked]; rfl, fun n hn => ?_⟩
      refine hnames n ?_
      rcases hn with hn | hn
      · rcases List.mem_cons.mp hn with rfl | hn
        · exact Or.inr (by simp)
        · exact Or.inl hn
      · rw [Function.update_apply]
        split_ifs
        · exact Or.inr rfl
        · exact Or.inr hn

end Names

end Template
end Zdeceptron
