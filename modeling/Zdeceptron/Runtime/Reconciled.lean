import Zdeceptron.Runtime.Placement

/-!
# A run of `eachInto`

From rows that hold the nodes between the anchors, a run on items with distinct keys
leaves the new rows there in the order of the list.

* `eachInto_reconciles`: the whole run.
-/

namespace Zdeceptron
namespace Runtime

open Library

variable {Key Item Node : Type}

section Supplied

variable [DecidableEq Key]

/-- The rows of the new list, given the rows that survive and the nodes that are in
the document. -/
structure Supplied (children : List Node) (surviving : List (Key × Entry Item Node))
    (rows : List (Row Key Item Node)) : Prop where
  keys : (rows.map Row.key).Nodup
  surviving_keys : (surviving.map Prod.fst).Nodup
  surviving_subset : ∀ key ∈ surviving.map Prod.fst, key ∈ rows.map Row.key
  from' : ∀ row ∈ rows, row.from' = (surviving.map Prod.fst).idxOf? row.key
  kept : ∀ row ∈ rows, row.key ∈ surviving.map Prod.fst →
    row.entry.nodes = lookupNodes surviving row.key
  surviving_nodes : (rowNodes surviving).Nodup
  inside : ∀ a ∈ rowNodes surviving, a ∈ children
  fresh : ∀ a ∈ nodesOf (rows.filter (fun row => row.from'.isNone)), a ∉ children
  fresh_nodes : (nodesOf (rows.filter (fun row => row.from'.isNone))).Nodup
  nonempty : ∀ row ∈ rows, row.entry.nodes ≠ []

variable {children : List Node} {surviving : List (Key × Entry Item Node)}
variable {rows : List (Row Key Item Node)}

theorem Supplied.isSome_from' (h : Supplied children surviving rows) {row : Row Key Item Node}
    (hrow : row ∈ rows) : row.from'.isSome = true ↔ row.key ∈ surviving.map Prod.fst := by
  rw [h.from' row hrow, List.isSome_idxOf?]

theorem Supplied.nodesOf_filter (h : Supplied children surviving rows) {q : Key → Bool}
    (hq : ∀ key, q key = true → key ∈ surviving.map Prod.fst) :
    nodesOf (rows.filter (fun row => q row.key)) =
      ((rows.map Row.key).filter q).flatMap (lookupNodes surviving) := by
  have hkept : ∀ row ∈ rows.filter (fun row => q row.key),
      row.entry.nodes = lookupNodes surviving row.key := by
    intro row hrow
    obtain ⟨hrow, hkey⟩ := List.mem_filter.mp hrow
    exact h.kept row hrow (hq row.key hkey)
  rw [nodesOf_eq_flatMap hkept, List.filter_map]
  rfl

theorem Supplied.perm_keys (h : Supplied children surviving rows) :
    ((rows.map Row.key).filter (fun key => (surviving.map Prod.fst).contains key)).Perm
      (surviving.map Prod.fst) := by
  refine (List.perm_ext_iff_of_nodup (h.keys.filter _) h.surviving_keys).mpr ?_
  intro key
  rw [List.mem_filter, List.contains_iff_mem]
  exact ⟨fun hmem => hmem.2, fun hmem => ⟨h.surviving_subset key hmem, hmem⟩⟩

theorem Supplied.nodup_nodes (h : Supplied children surviving rows) : (nodesOf rows).Nodup := by
  let old : Row Key Item Node → Bool := fun row => (surviving.map Prod.fst).contains row.key
  have hold : (nodesOf (rows.filter old)).Perm (rowNodes surviving) := by
    rw [h.nodesOf_filter (fun key hkey => List.contains_iff_mem.mp hkey),
      rowNodes_eq_flatMap h.surviving_keys]
    exact h.perm_keys.flatMap_right _
  have hnew : rows.filter (fun row => !old row) =
      rows.filter (fun row => row.from'.isNone) := by
    refine List.filter_congr ?_
    intro row hrow
    have hsome := h.isSome_from' hrow
    rw [← List.contains_iff_mem] at hsome
    cases hfrom : row.from' with
    | none | some _ =>
        rw [hfrom] at hsome
        simpa [old] using hsome
  have hperm : (nodesOf rows).Perm
      (nodesOf (rows.filter old) ++ nodesOf (rows.filter (fun row => row.from'.isNone))) := by
    unfold nodesOf
    rw [← List.flatMap_append, ← hnew]
    exact (List.filter_append_perm old rows).symm.flatMap_right _
  refine hperm.nodup_iff.mpr (List.nodup_append.mpr
    ⟨hold.nodup_iff.mpr h.surviving_nodes, h.fresh_nodes, ?_⟩)
  rintro a ha b hb rfl
  exact h.fresh a hb (h.inside a (hold.mem_iff.mp ha))

theorem Supplied.row_unique (h : Supplied children surviving rows)
    {row other : Row Key Item Node} (hrow : row ∈ rows) (hother : other ∈ rows) {a : Node}
    (ha : a ∈ row.entry.nodes) (ha' : a ∈ other.entry.nodes) : row = other := by
  by_contra hne
  have hpairs := (List.nodup_flatMap.mp h.nodup_nodes).2
  have hsymm : Std.Symm (Function.onFun List.Disjoint fun row : Row Key Item Node =>
      row.entry.nodes) := ⟨fun _ _ hxy => hxy.symm⟩
  exact hpairs.forall hrow hother hne ha ha'

end Supplied

section Settled

variable {children : List Node} {surviving : List (Key × Entry Item Node)}
variable {rows : List (Row Key Item Node)} {settled : List Nat}

/-- The rows at the settled positions come in the order they have in the document. -/
def Settles (rows : List (Row Key Item Node)) (settled : List Nat) : Prop :=
  IncreasingAt (fun i => (rows.map Row.from').getD i none) settled.reverse

variable {row : Row Key Item Node}

theorem getD_map_from' {i : Nat} (h : rows[i]? = some row) :
    (rows.map Row.from').getD i none = row.from' := by
  rw [List.getD_eq_getElem?_getD, List.getElem?_map, h]
  rfl

theorem Settles.from'_lt (h : Settles rows settled) {i j : Nat} (hij : i < j)
    (hi : i ∈ settled) (hj : j ∈ settled) {x y : Row Key Item Node} (hx : rows[i]? = some x)
    (hy : rows[j]? = some y) {v w : Nat} (hv : x.from' = some v) (hw : y.from' = some w) :
    v < w := by
  let before : Nat → Nat → Prop := fun i j => i < j ∧ ∀ v w,
    (rows.map Row.from').getD i none = some v →
      (rows.map Row.from').getD j none = some w → v < w
  have hpairs : settled.reverse.Pairwise (fun i j => before i j ∨ before j i) :=
    h.2.imp Or.inl
  have hsymm : Std.Symm (fun i j => before i j ∨ before j i) := ⟨fun _ _ hxy => hxy.symm⟩
  rw [← getD_map_from' hx] at hv
  rw [← getD_map_from' hy] at hw
  rcases hpairs.forall (List.mem_reverse.mpr hi) (List.mem_reverse.mpr hj) (Nat.ne_of_lt hij)
    with hlt | hgt
  · exact hlt.2 v w hv hw
  · exact absurd hgt.1 (Nat.lt_asymm hij)

theorem Settles.isSome (h : Settles rows settled)
    (hrow : row ∈ settledRows settled 0 rows) : row.from'.isSome = true := by
  obtain ⟨i, hi, hsettled⟩ := mem_pickRows.mp hrow
  rw [Nat.zero_add] at hsettled
  obtain ⟨v, hv⟩ := h.1 i (List.mem_reverse.mpr hsettled)
  simp only [getD_map_from' hi] at hv
  rw [hv]
  rfl

variable [DecidableEq Key]

theorem Supplied.settled_keys (h : Supplied children surviving rows)
    (hsettles : Settles rows settled) :
    (surviving.map Prod.fst).filter
        (fun key => ((settledRows settled 0 rows).map Row.key).contains key) =
      (settledRows settled 0 rows).map Row.key := by
  have hsub : (settledRows settled 0 rows).Sublist rows := pickRows_sublist _ 0 rows
  have hmem : ∀ row ∈ settledRows settled 0 rows, row.key ∈ surviving.map Prod.fst :=
    fun row hrow => (h.isSome_from' (hsub.subset hrow)).mp (hsettles.isSome hrow)
  have hperm : ((surviving.map Prod.fst).filter
      (fun key => ((settledRows settled 0 rows).map Row.key).contains key)).Perm
      ((settledRows settled 0 rows).map Row.key) := by
    refine (List.perm_ext_iff_of_nodup (h.surviving_keys.filter _)
      ((hsub.map Row.key).nodup h.keys)).mpr ?_
    intro key
    rw [List.mem_filter, List.contains_iff_mem]
    refine ⟨fun hboth => hboth.2, fun hkey => ⟨?_, hkey⟩⟩
    obtain ⟨row, hrow, rfl⟩ := List.mem_map.mp hkey
    exact hmem row hrow
  have hsorted := (pairwise_idxOf? h.surviving_keys).filter
    (fun key => ((settledRows settled 0 rows).map Row.key).contains key)
  refine hperm.eq_of_pairwise ?_ hsorted ?_
  · intro a b ha hb hab hba
    obtain ⟨v, hv⟩ := Option.isSome_iff_exists.mp
      (List.isSome_idxOf?.mpr (List.mem_of_mem_filter ha))
    obtain ⟨row, hrow, rfl⟩ := List.mem_map.mp hb
    obtain ⟨w, hw⟩ := Option.isSome_iff_exists.mp (List.isSome_idxOf?.mpr (hmem row hrow))
    exact absurd (hab v w hv hw) (Nat.lt_asymm (hba w v hw hv))
  · rw [List.pairwise_map]
    refine pickRows_pairwise ?_
    intro i j hij hi hj x y hx hy v w hv hw
    rw [Nat.zero_add] at hi hj
    rw [← h.from' x (List.mem_of_getElem? hx)] at hv
    rw [← h.from' y (List.mem_of_getElem? hy)] at hw
    exact hsettles.from'_lt hij hi hj hx hy hv hw

end Settled

section Document

variable {region : Region Key Item Node} {start stop : Node} {before after : List Node}

structure Mounted (start stop : Node) (before after : List Node)
    (region : Region Key Item Node) : Prop where
  children : region.children = before ++ start :: (rowNodes region.mounted ++ stop :: after)
  nodup : region.children.Nodup
  keys : (region.mounted.map Prod.fst).Nodup
  nonempty : ∀ row ∈ region.mounted, row.2.nodes ≠ []

theorem Mounted.nodup_nodes (h : Mounted start stop before after region) :
    (rowNodes region.mounted).Nodup := by
  have hnodup := h.nodup
  rw [h.children] at hnodup
  exact (List.nodup_append.mp (List.nodup_cons.mp (List.nodup_append.mp hnodup).2.1).2).1

theorem Mounted.inside (h : Mounted start stop before after region) {a : Node}
    (ha : a ∈ rowNodes region.mounted) : a ∈ region.children := by
  rw [h.children]
  simp [ha]

theorem Mounted.row_unique (h : Mounted start stop before after region)
    {row other : Key × Entry Item Node} (hrow : row ∈ region.mounted)
    (hother : other ∈ region.mounted) {a : Node} (ha : a ∈ row.2.nodes)
    (ha' : a ∈ other.2.nodes) : row = other := by
  by_contra hne
  have hpairs := (List.nodup_flatMap.mp h.nodup_nodes).2
  have hsymm : Std.Symm (Function.onFun List.Disjoint fun row : Key × Entry Item Node =>
      row.2.nodes) := ⟨fun _ _ hxy => hxy.symm⟩
  exact hpairs.forall hrow hother hne ha ha'

theorem filter_between {p : Node → Bool} {nodes : List Node}
    (hleft : ∀ a ∈ before ++ [start], p a = false) (hright : ∀ a ∈ stop :: after, p a = false) :
    ((before ++ [start]) ++ (nodes ++ stop :: after)).filter p = nodes.filter p := by
  have hl : (before ++ [start]).filter p = [] :=
    List.filter_eq_nil_iff.mpr (fun a ha => by simp [hleft a ha])
  have hr : (stop :: after).filter p = [] :=
    List.filter_eq_nil_iff.mpr (fun a ha => by simp [hright a ha])
  rw [List.filter_append (before ++ [start]), List.filter_append nodes, hl, hr,
    List.nil_append, List.append_nil]

theorem Mounted.outside (h : Mounted start stop before after region) :
    (∀ a ∈ before ++ [start], a ∉ rowNodes region.mounted) ∧
      ∀ a ∈ stop :: after, a ∉ rowNodes region.mounted := by
  have hnodup := h.nodup
  rw [h.children] at hnodup
  obtain ⟨_, hinner, hbefore⟩ := List.nodup_append.mp hnodup
  obtain ⟨hstart, hinner⟩ := List.nodup_cons.mp hinner
  obtain ⟨_, _, hrest⟩ := List.nodup_append.mp hinner
  refine ⟨?_, fun a ha hrow => hrest a hrow a ha rfl⟩
  intro a ha hrow
  rcases List.mem_append.mp ha with ha | ha
  · exact hbefore a ha a (by simp [hrow]) rfl
  · rw [List.mem_singleton] at ha
    subst ha
    exact hstart (by simp [hrow])

theorem Mounted.shape (h : Mounted start stop before after region) :
    region.children = (before ++ [start]) ++ (rowNodes region.mounted ++ stop :: after) := by
  rw [h.children, List.append_assoc]
  rfl

theorem Mounted.filter_children (h : Mounted start stop before after region)
    {p : Node → Bool} {q : Key → Bool}
    (hout : ∀ a ∈ region.children, a ∉ rowNodes region.mounted → p a = true)
    (hrows : ∀ row ∈ region.mounted, ∀ a ∈ row.2.nodes, p a = q row.1) :
    region.children.filter p = (before ++ [start]) ++
      (rowNodes (region.mounted.filter (fun row => q row.1)) ++ stop :: after) := by
  have hshape := h.shape
  have hleft : ∀ a ∈ before ++ [start], p a = true := fun a ha =>
    hout a (by rw [hshape]; exact List.mem_append_left _ ha) (h.outside.1 a ha)
  have hright : ∀ a ∈ stop :: after, p a = true := fun a ha =>
    hout a (by rw [hshape]; exact List.mem_append_right _ (List.mem_append_right _ ha))
      (h.outside.2 a ha)
  rw [hshape, List.filter_append (before ++ [start]), List.filter_append (rowNodes _),
    List.filter_eq_self.mpr hleft, List.filter_eq_self.mpr hright, filter_rowNodes hrows]

end Document

section Retire

variable [DecidableEq Key]
variable {region : Region Key Item Node} {start stop : Node} {before after : List Node}
variable {keys : List Key} {rows : List (Row Key Item Node)} {settled : List Nat}

variable {row : Key × Entry Item Node}

theorem mem_survivors :
    row ∈ survivors region keys ↔ row ∈ region.mounted ∧ row.1 ∈ keys := by
  rw [survivors, List.mem_filter, List.contains_iff_mem]

theorem mem_departed :
    row ∈ departed region keys ↔ row ∈ region.mounted ∧ row.1 ∉ keys := by
  rw [departed, List.mem_filter, Bool.not_eq_true', ← Bool.not_eq_true, List.contains_iff_mem]

theorem filter_mounted {q : Key → Bool}
    (hq : ∀ key, q key = true → key ∈ (survivors region keys).map Prod.fst) :
    region.mounted.filter (fun row => q row.1) =
      (survivors region keys).filter (fun row => q row.1) := by
  rw [survivors, List.filter_filter]
  refine List.filter_congr ?_
  intro row _
  cases hkept : q row.1 with
  | false => rfl
  | true =>
      obtain ⟨other, hother, hfst⟩ := List.mem_map.mp (hq row.1 hkept)
      have hmem := (mem_survivors.mp hother).2
      rw [hfst] at hmem
      rw [Bool.true_and, List.contains_iff_mem.mpr hmem]

variable {surviving : List (Key × Entry Item Node)} {children : List Node}

theorem Supplied.row_of_survivor (hs : Supplied children surviving rows) (hrow : row ∈ surviving) :
    ∃ new ∈ rows, new.key = row.1 ∧ new.entry.nodes = row.2.nodes := by
  have hkey : row.1 ∈ surviving.map Prod.fst := List.mem_map.mpr ⟨row, hrow, rfl⟩
  obtain ⟨new, hnew, hkeyeq⟩ := List.mem_map.mp (hs.surviving_subset row.1 hkey)
  refine ⟨new, hnew, hkeyeq, ?_⟩
  rw [hs.kept new hnew (hkeyeq ▸ hkey), hkeyeq, lookupNodes_of_mem hs.surviving_keys hrow]

variable {new : Row Key Item Node}

theorem Supplied.survivor_of_row (hs : Supplied children surviving rows)
    (hnew : new ∈ rows) {a : Node} (ha : a ∈ new.entry.nodes)
    (hin : a ∈ children) : ∃ row ∈ surviving, row.1 = new.key ∧ a ∈ row.2.nodes := by
  by_cases hkey : new.key ∈ surviving.map Prod.fst
  · obtain ⟨row, hrow, hfst⟩ := List.mem_map.mp hkey
    refine ⟨row, hrow, hfst, ?_⟩
    rwa [hs.kept new hnew hkey, ← hfst, lookupNodes_of_mem hs.surviving_keys hrow] at ha
  · have hnone : new.from'.isNone = true := by
      rw [← Option.not_isSome, Bool.not_eq_true', ← Bool.not_eq_true, hs.isSome_from' hnew]
      exact hkey
    have hfresh : a ∈ nodesOf (rows.filter (fun row => row.from'.isNone)) :=
      List.mem_flatMap.mpr ⟨new, List.mem_filter.mpr ⟨hnew, hnone⟩, ha⟩
    exact absurd hin (hs.fresh a hfresh)

theorem Supplied.not_settled_of_loose (hs : Supplied children surviving rows)
    (hsettled : new ∈ settledRows settled 0 rows) :
    new ∉ looseRows settled 0 rows := by
  intro hloose
  obtain ⟨i, hi, hisettled⟩ := mem_pickRows.mp hsettled
  obtain ⟨j, hj, hjloose⟩ := mem_pickRows.mp hloose
  have hij : i = j :=
    (List.getElem?_inj (List.getElem?_eq_some_iff.mp hi).1 hs.keys.of_map).mp (hi.trans hj.symm)
  rw [hij] at hisettled
  exact hjloose hisettled

omit [DecidableEq Key] in
theorem settled_or_loose (hnew : new ∈ rows) :
    new ∈ settledRows settled 0 rows ∨ new ∈ looseRows settled 0 rows := by
  obtain ⟨i, hi⟩ := List.mem_iff_getElem?.mp hnew
  by_cases hsettled : i ∈ settled
  · exact .inl (mem_pickRows.mpr ⟨i, hi, by rwa [Nat.zero_add]⟩)
  · exact .inr (mem_pickRows.mpr ⟨i, hi, by rwa [Nat.zero_add]⟩)

theorem Mounted.untouched_of_settled (h : Mounted start stop before after region)
    (hs : Supplied region.children (survivors region keys) rows) (hrow : row ∈ region.mounted)
    (hnew : new ∈ settledRows settled 0 rows)
    (hkey : new.key = row.1) (hkeys : row.1 ∈ keys) {a : Node} (ha : a ∈ row.2.nodes) :
    a ∉ nodesOf (looseRows settled 0 rows) ∧ a ∉ rowNodes (departed region keys) := by
  have hnewrow := (pickRows_sublist _ 0 rows).subset hnew
  obtain ⟨other, hother, hotherkey, hnodes⟩ :=
    hs.row_of_survivor (mem_survivors.mpr ⟨hrow, hkeys⟩)
  have hsame : other = new :=
    List.inj_on_of_nodup_map hs.keys hother hnewrow (hotherkey.trans hkey.symm)
  subst hsame
  rw [← hnodes] at ha
  refine ⟨?_, ?_⟩
  · intro hmem
    obtain ⟨loose, hloose, haloose⟩ := List.mem_flatMap.mp hmem
    have heq := hs.row_unique hnewrow ((pickRows_sublist _ 0 rows).subset hloose) ha haloose
    subst heq
    exact hs.not_settled_of_loose hnew hloose
  · intro hmem
    obtain ⟨gone, hgone, hagone⟩ := List.mem_flatMap.mp hmem
    obtain ⟨hgonerow, hgonekey⟩ := mem_departed.mp hgone
    rw [hnodes] at ha
    rw [h.row_unique hrow hgonerow ha hagone] at hkeys
    exact hgonekey hkeys

variable [DecidableEq Node]

theorem Mounted.filter_retired (h : Mounted start stop before after region)
    (hs : Supplied region.children (survivors region keys) rows) (hsettles : Settles rows settled) :
    ((rowNodes (departed region keys)).foldl List.erase region.children).filter
        (fun a => !(nodesOf (looseRows settled 0 rows)).contains a) =
      (before ++ [start]) ++ (nodesOf (settledRows settled 0 rows) ++ stop :: after) := by
  let q : Key → Bool := fun key => ((settledRows settled 0 rows).map Row.key).contains key
  have hsettled : ∀ new ∈ settledRows settled 0 rows,
      new.key ∈ (survivors region keys).map Prod.fst := fun new hnew =>
    (hs.isSome_from' ((pickRows_sublist _ 0 rows).subset hnew)).mp (hsettles.isSome hnew)
  rw [← List.diff_eq_foldl, h.nodup.sdiff_eq_filter, List.filter_filter,
    h.filter_children (q := q)]
  · have hmounted : region.mounted.filter (fun row => q row.1) =
        (survivors region keys).filter (fun row => q row.1) := by
      refine filter_mounted ?_
      intro key hkey
      obtain ⟨new, hnew, rfl⟩ := List.mem_map.mp (List.contains_iff_mem.mp hkey)
      exact hsettled new hnew
    rw [hmounted, rowNodes_filter hs.surviving_keys, hs.settled_keys hsettles,
      nodesOf_eq_flatMap (fun new hnew =>
        hs.kept new ((pickRows_sublist _ 0 rows).subset hnew) (hsettled new hnew))]
  · intro a ha hout
    have hloose : a ∉ nodesOf (looseRows settled 0 rows) := by
      intro hmem
      obtain ⟨new, hnew, hanew⟩ := List.mem_flatMap.mp hmem
      obtain ⟨row, hrow, _, harow⟩ :=
        hs.survivor_of_row ((pickRows_sublist _ 0 rows).subset hnew) hanew ha
      exact hout (List.mem_flatMap.mpr ⟨row, (mem_survivors.mp hrow).1, harow⟩)
    have hdeparted : a ∉ rowNodes (departed region keys) := by
      intro hmem
      obtain ⟨row, hrow, harow⟩ := List.mem_flatMap.mp hmem
      exact hout (List.mem_flatMap.mpr ⟨row, (mem_departed.mp hrow).1, harow⟩)
    simp [hloose, hdeparted]
  · intro row hrow a ha
    by_cases hq : row.1 ∈ (settledRows settled 0 rows).map Row.key
    · obtain ⟨new, hnew, hkey⟩ := List.mem_map.mp hq
      obtain ⟨other, hother, hfst⟩ := List.mem_map.mp (hsettled new hnew)
      have hkeys := (mem_survivors.mp hother).2
      rw [hfst, hkey] at hkeys
      obtain ⟨hloose, hdeparted⟩ := h.untouched_of_settled hs hrow hnew hkey hkeys ha
      have hkept : q row.1 = true := List.contains_iff_mem.mpr hq
      rw [hkept]
      simp [hloose, hdeparted]
    · have hkept : q row.1 = false := by
        rw [← Bool.not_eq_true]
        exact fun hmem => hq (List.contains_iff_mem.mp hmem)
      rw [hkept]
      by_cases hkeys : row.1 ∈ keys
      · obtain ⟨new, hnew, hkey, hnodes⟩ :=
          hs.row_of_survivor (mem_survivors.mpr ⟨hrow, hkeys⟩)
        have hloose : new ∈ looseRows settled 0 rows := by
          refine (settled_or_loose hnew).resolve_left ?_
          intro hsettlednew
          exact hq (hkey ▸ List.mem_map.mpr ⟨new, hsettlednew, rfl⟩)
        have hmem : a ∈ nodesOf (looseRows settled 0 rows) :=
          List.mem_flatMap.mpr ⟨new, hloose, hnodes ▸ ha⟩
        simp [hmem]
      · have hmem : a ∈ rowNodes (departed region keys) :=
          List.mem_flatMap.mpr ⟨row, mem_departed.mpr ⟨hrow, hkeys⟩, ha⟩
        simp [hmem]

end Retire

section Untouched

variable [DecidableEq Node]

def touches (calls : List (Move Node)) (nodes : List Node) : Bool :=
  calls.any (fun call => nodes.contains call.subject)

variable {calls : List (Move Node)}

theorem touches_eq_false_iff {nodes : List Node} :
    touches calls nodes = false ↔ ∀ call ∈ calls, call.subject ∉ nodes := by
  rw [touches, List.any_eq_false]
  refine forall_congr' (fun call => imp_congr_right (fun _ => ?_))
  rw [List.contains_iff_mem]

variable [DecidableEq Key]
variable {region : Region Key Item Node} {start stop : Node} {before after : List Node}
variable {keys : List Key} {rows : List (Row Key Item Node)}

theorem Mounted.untouched_le (h : Mounted start stop before after region)
    (hs : Supplied region.children (survivors region keys) rows) {children : List Node}
    (hchildren : children = (before ++ [start]) ++ (nodesOf rows ++ stop :: after))
    (hcalls : relocate region.children calls = some children) :
    ((survivors region keys).filter (fun row => !touches calls row.2.nodes)).length ≤
      (settledPositions (rows.map Row.from')).length := by
  let alone := (survivors region keys).filter (fun row => !touches calls row.2.nodes)
  let p : Node → Bool := fun a => (rowNodes alone).contains a
  let q : Key → Bool := fun key => (alone.map Prod.fst).contains key
  have halone : ∀ row ∈ alone, row ∈ survivors region keys := fun row hrow =>
    List.mem_of_mem_filter hrow
  have hq : ∀ key, q key = true → key ∈ (survivors region keys).map Prod.fst := by
    intro key hkey
    obtain ⟨row, hrow, rfl⟩ := List.mem_map.mp (List.contains_iff_mem.mp hkey)
    exact List.mem_map.mpr ⟨row, halone row hrow, rfl⟩
  have hp : ∀ a, a ∉ rowNodes region.mounted → p a = false := by
    intro a ha
    rw [← Bool.not_eq_true]
    intro hmem
    obtain ⟨row, hrow, harow⟩ := List.mem_flatMap.mp (List.contains_iff_mem.mp hmem)
    exact ha (List.mem_flatMap.mpr ⟨row, (mem_survivors.mp (halone row hrow)).1, harow⟩)
  have hleft : ∀ a ∈ before ++ [start], p a = false := fun a ha => hp a (h.outside.1 a ha)
  have hright : ∀ a ∈ stop :: after, p a = false := fun a ha => hp a (h.outside.2 a ha)
  have hsame : children.filter p = region.children.filter p := by
    refine relocate_filter hcalls ?_
    intro call hcall
    rw [← Bool.not_eq_true]
    intro hmem
    obtain ⟨row, hrow, hsubject⟩ := List.mem_flatMap.mp (List.contains_iff_mem.mp hmem)
    have huntouched := (List.mem_filter.mp hrow).2
    rw [Bool.not_eq_true', touches_eq_false_iff] at huntouched
    exact huntouched call hcall hsubject
  have hold : region.children.filter p =
      (((survivors region keys).map Prod.fst).filter q).flatMap
        (lookupNodes (survivors region keys)) := by
    rw [h.shape, filter_between hleft hright, filter_rowNodes (q := q), filter_mounted hq,
      rowNodes_filter hs.surviving_keys]
    intro row hrow a ha
    rw [Bool.eq_iff_iff, List.contains_iff_mem, List.contains_iff_mem]
    constructor
    · intro hmem
      obtain ⟨other, hother, haother⟩ := List.mem_flatMap.mp hmem
      have heq := h.row_unique hrow (mem_survivors.mp (halone other hother)).1 ha haother
      exact List.mem_map.mpr ⟨other, hother, by rw [heq]⟩
    · intro hmem
      obtain ⟨other, hother, hfst⟩ := List.mem_map.mp hmem
      have heq := List.inj_on_of_nodup_map h.keys (mem_survivors.mp (halone other hother)).1
        hrow hfst
      exact List.mem_flatMap.mpr ⟨row, heq ▸ hother, ha⟩
  have hnew : children.filter p =
      ((rows.map Row.key).filter q).flatMap (lookupNodes (survivors region keys)) := by
    rw [hchildren, filter_between hleft hright, ← hs.nodesOf_filter hq]
    refine filter_nodesOf ?_
    intro new hnew a ha
    rw [Bool.eq_iff_iff, List.contains_iff_mem, List.contains_iff_mem]
    constructor
    · intro hmem
      obtain ⟨row, hrow, harow⟩ := List.mem_flatMap.mp hmem
      obtain ⟨other, hother, hkey, hnodes⟩ := hs.row_of_survivor (halone row hrow)
      have heq := hs.row_unique hnew hother ha (hnodes ▸ harow)
      exact List.mem_map.mpr ⟨row, hrow, by rw [heq, hkey]⟩
    · intro hmem
      obtain ⟨row, hrow, hfst⟩ := List.mem_map.mp hmem
      obtain ⟨other, hother, hkey, hnodes⟩ := hs.row_of_survivor (halone row hrow)
      have heq := List.inj_on_of_nodup_map hs.keys hother hnew (hkey.trans hfst)
      exact List.mem_flatMap.mpr ⟨row, hrow, by rw [← hnodes, heq]; exact ha⟩
  have hkeys : ((survivors region keys).map Prod.fst).filter q =
      (rows.map Row.key).filter q := by
    have hrow : ∀ {key : Key}, q key = true → ∃ row ∈ region.mounted, row.1 = key ∧
        lookupNodes (survivors region keys) key = row.2.nodes := by
      intro key hkey
      obtain ⟨row, hrow, rfl⟩ := List.mem_map.mp (hq key hkey)
      exact ⟨row, (mem_survivors.mp hrow).1, rfl, lookupNodes_of_mem hs.surviving_keys hrow⟩
    refine eq_of_flatMap_eq ?_ ?_ (hold.symm.trans (hsame.symm.trans hnew))
    · intro key hkey
      obtain ⟨row, hmem, _, hnodes⟩ :=
        hrow (hkey.elim (fun hk => (List.mem_filter.mp hk).2) (fun hk => (List.mem_filter.mp hk).2))
      rw [hnodes]
      exact h.nonempty row hmem
    · intro key other hkey hother a ha haother
      obtain ⟨row, hmem, rfl, hnodes⟩ := hrow (List.mem_filter.mp hkey).2
      obtain ⟨row', hmem', rfl, hnodes'⟩ := hrow (List.mem_filter.mp hother).2
      rw [hnodes] at ha
      rw [hnodes'] at haother
      rw [h.row_unique hmem hmem' ha haother]
  have hpairs : (rows.filter (fun row => q row.key)).Pairwise
      (fun x y => ∀ v w, x.from' = some v → y.from' = some w → v < w) := by
    have hsorted := (pairwise_idxOf? hs.surviving_keys).filter q
    rw [hkeys, List.filter_map, List.pairwise_map] at hsorted
    refine hsorted.imp_of_mem ?_
    intro x y hx hy hlt v w hv hw
    rw [hs.from' x (List.mem_of_mem_filter hx)] at hv
    rw [hs.from' y (List.mem_of_mem_filter hy)] at hw
    exact hlt v w hv hw
  obtain ⟨positions, hvalues, hincreasing⟩ := exists_increasingAt
    (List.filter_sublist (p := fun row : Row Key Item Node => q row.key) (l := rows))
    (by
      intro row hrow
      obtain ⟨hrow, hkey⟩ := List.mem_filter.mp hrow
      exact Option.isSome_iff_exists.mp ((hs.isSome_from' hrow).mpr (hq row.key hkey)))
    hpairs
  have hlength : positions.length = ((rows.map Row.key).filter q).length := by
    have hcount := congrArg List.length hvalues
    rw [List.length_map, List.length_map] at hcount
    rw [hcount, List.filter_map, List.length_map]
    rfl
  have hle := (settledPositions_longest (rows.map Row.from')).2 positions hincreasing
  rw [hlength, ← hkeys] at hle
  refine le_trans ?_ hle
  have hsub : alone.map Prod.fst ⊆ ((survivors region keys).map Prod.fst).filter q := by
    intro key hkey
    have hqkey : q key = true := List.contains_iff_mem.mpr hkey
    exact List.mem_filter.mpr ⟨hq key hqkey, hqkey⟩
  have hnodup : (alone.map Prod.fst).Nodup :=
    (List.filter_sublist.map Prod.fst).nodup hs.surviving_keys
  have hcount := (List.subperm_of_subset hnodup hsub).length_le
  rwa [List.length_map] at hcount

end Untouched

section Run

variable [DecidableEq Key] [DecidableEq Node]

def newKeys (keyOf : Item → Nat → Key) (items : List Item) : List Key :=
  items.mapIdx (fun i item => keyOf item i)

def newRows (render : Nat → Item → Option (List Node) → List Node) (roots : Nat)
    (keyOf : Item → Nat → Key) (region : Region Key Item Node) (items : List Item) :
    List (Row Key Item Node) :=
  supply render roots (survivors region (newKeys keyOf items)) 0 region.served
    ((newKeys keyOf items).zip items)

/-- What `render` gave for the new keys: nodes of their own, that are not in the
document, at least one for every row. -/
structure Fresh (children : List Node) (rows : List (Row Key Item Node)) : Prop where
  nodup : (nodesOf (rows.filter (fun row => row.from'.isNone))).Nodup
  outside : ∀ a ∈ nodesOf (rows.filter (fun row => row.from'.isNone)), a ∉ children
  nonempty : ∀ row ∈ rows, row.from' = none → row.entry.nodes ≠ []

variable {render : Nat → Item → Option (List Node) → List Node} {roots : Nat}
variable {keyOf : Item → Nat → Key} {items : List Item}
variable {region : Region Key Item Node} {start stop : Node} {before after : List Node}

theorem keyItems_eq_ok {keys : List Key}
    (h : (keys ++ items.mapIdx (fun i item => keyOf item (keys.length + i))).Nodup) :
    keyItems keyOf keys items =
      .ok (keys ++ items.mapIdx (fun i item => keyOf item (keys.length + i))) := by
  induction items generalizing keys with
  | nil => simp [keyItems]
  | cons item items ih =>
      have hshape : keys ++ (item :: items).mapIdx (fun i item => keyOf item (keys.length + i)) =
          (keys ++ [keyOf item keys.length]) ++ items.mapIdx (fun i other =>
            keyOf other ((keys ++ [keyOf item keys.length]).length + i)) := by
        simp [List.mapIdx_cons, Nat.add_assoc, Nat.add_comm 1]
      rw [hshape] at h ⊢
      have hnew : keyOf item keys.length ∉ keys := by
        intro hmem
        have hleft := (List.nodup_append.mp h).1
        exact (List.nodup_append.mp hleft).2.2 _ hmem _ (by simp) rfl
      rw [keyItems, if_neg hnew]
      exact @ih (keys ++ [keyOf item keys.length]) h

omit [DecidableEq Node] in
theorem newRows_keys :
    (newRows render roots keyOf region items).map Row.key = newKeys keyOf items := by
  rw [newRows, supply_keys, List.map_fst_zip]
  simp [newKeys]

omit [DecidableEq Node] in
theorem newRows_values :
    (newRows render roots keyOf region items).map (fun row => row.entry.value) = items := by
  rw [newRows, supply_values, List.map_snd_zip]
  simp [newKeys]

omit [DecidableEq Node] in
theorem Mounted.supplied (h : Mounted start stop before after region)
    (hkeys : (newKeys keyOf items).Nodup)
    (hfresh : Fresh region.children (newRows render roots keyOf region items)) :
    Supplied region.children (survivors region (newKeys keyOf items))
      (newRows render roots keyOf region items) := by
  have hsurviving : ((survivors region (newKeys keyOf items)).map Prod.fst).Nodup :=
    (List.filter_sublist.map Prod.fst).nodup h.keys
  have hsub : rowNodes (survivors region (newKeys keyOf items)) ⊆ rowNodes region.mounted := by
    intro a ha
    obtain ⟨row, hrow, ha⟩ := List.mem_flatMap.mp ha
    exact List.mem_flatMap.mpr ⟨row, (mem_survivors.mp hrow).1, ha⟩
  refine
    { keys := by rw [newRows_keys]; exact hkeys
      surviving_keys := hsurviving
      surviving_subset := ?_
      from' := fun row hmem => (supply_row row hmem).1
      kept := fun row hmem => (supply_row row hmem).2
      surviving_nodes := (List.filter_sublist.flatMap _).nodup h.nodup_nodes
      inside := fun a ha => h.inside (hsub ha)
      fresh := hfresh.outside
      fresh_nodes := hfresh.nodup
      nonempty := ?_ }
  · intro key hkey
    obtain ⟨row, hrow, rfl⟩ := List.mem_map.mp hkey
    rw [newRows_keys]
    exact (mem_survivors.mp hrow).2
  · intro new hnew
    obtain ⟨hfrom, hnodes⟩ := supply_row new hnew
    cases hposition : new.from' with
    | none => exact hfresh.nonempty new hnew hposition
    | some position =>
        rw [hposition] at hfrom
        have hkey : new.key ∈ (survivors region (newKeys keyOf items)).map Prod.fst :=
          List.isSome_idxOf?.mp (by rw [← hfrom]; rfl)
        obtain ⟨row, hrow, hfst⟩ := List.mem_map.mp hkey
        rw [hnodes hkey, ← hfst, lookupNodes_of_mem hsurviving hrow]
        exact h.nonempty row (mem_survivors.mp hrow).1

/-- Where the row at a position of the new list stood among those that survive. -/
def oldPosition (region : Region Key Item Node) (keys : List Key) (i : Nat) : Option Nat :=
  keys[i]?.bind (fun key => ((survivors region keys).map Prod.fst).idxOf? key)

structure Reconciled (start stop : Node) (before after : List Node)
    (region : Region Key Item Node) (keys : List Key) (items : List Item)
    (outcome : Outcome Key Item Node) : Prop where
  placed : Mounted start stop before after outcome.region
  order : outcome.region.mounted.map Prod.fst = keys
  values : outcome.region.mounted.map (fun row => row.2.value) = items
  kept : ∀ old ∈ region.mounted, ∀ new ∈ outcome.region.mounted, new.1 = old.1 →
    new.2.nodes = old.2.nodes
  disposed : outcome.disposed = (departed region keys).map Prod.fst
  performed : relocate region.children outcome.calls = some outcome.region.children
  removed : ∀ a, .remove a ∈ outcome.calls ↔ a ∈ rowNodes (departed region keys)
  inserted : ∀ a, (∃ ref, .insert a ref ∈ outcome.calls) ↔
    ∃ i row, outcome.region.mounted[i]? = some row ∧ i ∉ outcome.settled ∧ a ∈ row.2.nodes
  once : (outcome.calls.map Move.subject).Nodup
  increasing : IncreasingAt (oldPosition region keys) outcome.settled.reverse
  longest : ∀ positions, IncreasingAt (oldPosition region keys) positions →
    positions.length ≤ outcome.settled.length
  fewest : ∀ calls, relocate region.children calls = some outcome.region.children →
    ((survivors region keys).filter (fun row => touches outcome.calls row.2.nodes)).length ≤
      ((survivors region keys).filter (fun row => touches calls row.2.nodes)).length

omit [DecidableEq Node] in
theorem getD_from'_eq_oldPosition {keys : List Key} {rows : List (Row Key Item Node)}
    (hs : Supplied region.children (survivors region keys) rows) (hkeys : rows.map Row.key = keys) :
    (fun i => (rows.map Row.from').getD i none) = oldPosition region keys := by
  funext i
  subst hkeys
  rw [oldPosition, List.getD_eq_getElem?_getD, List.getElem?_map, List.getElem?_map]
  cases hrow : rows[i]? with
  | none => rfl
  | some row => exact hs.from' row (List.mem_of_getElem? hrow)

section Calls

variable {keys : List Key} {rows : List (Row Key Item Node)} {settled : List Nat}
variable {calls : List (Move Node)}

omit [DecidableEq Node] in
theorem Supplied.length_settled {children : List Node}
    {surviving : List (Key × Entry Item Node)} (hs : Supplied children surviving rows)
    (hsettles : Settles rows settled) :
    settled.length ≤ (settledRows settled 0 rows).length := by
  have hlt : ∀ i ∈ settled, ∃ row, rows[i]? = some row := by
    intro i hi
    obtain ⟨v, hv⟩ := hsettles.1 i (List.mem_reverse.mpr hi)
    simp only [List.getD_eq_getElem?_getD, List.getElem?_map] at hv
    cases hrow : rows[i]? with
    | none =>
        rw [hrow] at hv
        cases hv
    | some row => exact ⟨row, rfl⟩
  have hnodup : (settled.map (fun i => rows[i]?)).Nodup := by
    have hpairs : settled.reverse.Nodup :=
      List.nodup_iff_pairwise_ne.mpr (hsettles.2.imp (fun hij => Nat.ne_of_lt hij.1))
    refine (List.nodup_reverse.mp hpairs).map_on ?_
    intro i hi j _ hij
    obtain ⟨row, hrow⟩ := hlt i hi
    exact (List.getElem?_inj (List.getElem?_eq_some_iff.mp hrow).1 hs.keys.of_map).mp hij
  have hsub : settled.map (fun i => rows[i]?) ⊆ (settledRows settled 0 rows).map some := by
    intro row? hrow?
    obtain ⟨i, hi, rfl⟩ := List.mem_map.mp hrow?
    obtain ⟨row, hrow⟩ := hlt i hi
    rw [hrow]
    exact List.mem_map.mpr ⟨row, mem_pickRows.mpr ⟨i, hrow, by rwa [Nat.zero_add]⟩, rfl⟩
  have hle := (List.subperm_of_subset hnodup hsub).length_le
  rwa [List.length_map, List.length_map] at hle

theorem Mounted.settled_le (h : Mounted start stop before after region)
    (hs : Supplied region.children (survivors region keys) rows) (hsettles : Settles rows settled)
    (hsubjects : ∀ call ∈ calls, call.subject ∈ rowNodes (departed region keys) ∨
      call.subject ∈ nodesOf (looseRows settled 0 rows)) :
    settled.length ≤
      ((survivors region keys).filter (fun row => !touches calls row.2.nodes)).length := by
  have hsub : (settledRows settled 0 rows).map Row.key ⊆
      ((survivors region keys).filter (fun row => !touches calls row.2.nodes)).map Prod.fst := by
    intro key hkey
    obtain ⟨new, hnew, rfl⟩ := List.mem_map.mp hkey
    have hsurvives := (hs.isSome_from' ((pickRows_sublist _ 0 rows).subset hnew)).mp
      (hsettles.isSome hnew)
    obtain ⟨row, hrow, hfst⟩ := List.mem_map.mp hsurvives
    obtain ⟨hmounted, hkeys⟩ := mem_survivors.mp hrow
    refine List.mem_map.mpr ⟨row, List.mem_filter.mpr ⟨hrow, ?_⟩, hfst⟩
    rw [Bool.not_eq_true', touches_eq_false_iff]
    intro call hcall hmem
    obtain ⟨hloose, hdeparted⟩ :=
      h.untouched_of_settled hs hmounted hnew hfst.symm hkeys hmem
    exact (hsubjects call hcall).elim hdeparted hloose
  have hnodup : ((settledRows settled 0 rows).map Row.key).Nodup :=
    ((pickRows_sublist _ 0 rows).map Row.key).nodup hs.keys
  have hle := (List.subperm_of_subset hnodup hsub).length_le
  rw [List.length_map, List.length_map] at hle
  exact le_trans (hs.length_settled hsettles) hle

omit [DecidableEq Node] in
theorem Mounted.departed_loose_disjoint (h : Mounted start stop before after region)
    (hs : Supplied region.children (survivors region keys) rows) {a : Node}
    (hdeparted : a ∈ rowNodes (departed region keys)) : a ∉ nodesOf rows := by
  intro hmem
  obtain ⟨row, hrow, harow⟩ := List.mem_flatMap.mp hdeparted
  obtain ⟨new, hnew, hanew⟩ := List.mem_flatMap.mp hmem
  obtain ⟨hmounted, hkey⟩ := mem_departed.mp hrow
  have hin := h.inside (List.mem_flatMap.mpr ⟨row, hmounted, harow⟩)
  obtain ⟨other, hother, _, haother⟩ := hs.survivor_of_row hnew hanew hin
  obtain ⟨hother, hkeys⟩ := mem_survivors.mp hother
  rw [h.row_unique hmounted hother harow haother] at hkey
  exact hkey hkeys

end Calls

theorem firstDifference_self (i : Nat) (nodes : List Node) :
    firstDifference i nodes nodes = none := by
  induction nodes generalizing i with
  | nil => rfl
  | cons node nodes ih => rw [firstDifference, if_pos rfl, ih]

theorem between_shape {nodes : List Node}
    (h : ((before ++ [start]) ++ (nodes ++ stop :: after)).Nodup) :
    between start stop ((before ++ [start]) ++ (nodes ++ stop :: after)) = nodes := by
  obtain ⟨hleft, hright, _⟩ := List.nodup_append.mp h
  have hstart : ∀ a ∈ before, (a != start) = true := by
    intro a ha
    rw [bne_iff_ne]
    exact (List.nodup_append.mp hleft).2.2 a ha start (by simp)
  have hstop : ∀ a ∈ nodes, (a != stop) = true := by
    intro a ha
    rw [bne_iff_ne]
    exact (List.nodup_append.mp hright).2.2 a ha stop (by simp)
  rw [between, List.append_assoc, List.dropWhile_append_of_pos hstart, List.singleton_append,
    List.dropWhile_cons_of_neg (by simp), List.drop_succ_cons, List.drop_zero,
    List.takeWhile_append_of_pos hstop, List.takeWhile_cons_of_neg (by simp), List.append_nil]

/-- One run of `eachInto` leaves the nodes of the new rows between the anchors, with as
few calls as there can be. -/
theorem eachInto_reconciles (h : Mounted start stop before after region)
    (hkeys : (newKeys keyOf items).Nodup)
    (hfresh : Fresh region.children (newRows render roots keyOf region items)) :
    ∃ outcome, eachInto render roots keyOf start stop region items = .ok outcome ∧
      Reconciled start stop before after region (newKeys keyOf items) items outcome := by
  have hs := h.supplied hkeys hfresh
  let rows := newRows render roots keyOf region items
  let settled := settledPositions (rows.map Row.from')
  have horder : rows.map Row.key = newKeys keyOf items := newRows_keys
  have hsettles : Settles rows settled := (settledPositions_longest (rows.map Row.from')).1
  have hloose : ∀ a ∈ nodesOf (looseRows settled 0 rows),
      (fun a => !(nodesOf (looseRows settled 0 rows)).contains a) a = false := by
    intro a ha
    simpa using ha
  have hretired : ((rowNodes (departed region (newKeys keyOf items))).foldl List.erase
      region.children).Nodup := by
    rw [← List.diff_eq_foldl]
    exact h.nodup.diff
  obtain ⟨placed, hplaced, hnodup, hfilter, _, hcalls, hsubjects, hinserts⟩ :=
    placeRows_spec hretired 0 rows (before ++ [start]) hs.nodup_nodes hs.nonempty hloose
      (h.filter_retired hs hsettles)
  have hchildren : placed.children =
      (before ++ [start]) ++ (nodesOf rows ++ stop :: after) := by
    rw [← hfilter]
    refine (List.filter_eq_self.mpr ?_).symm
    intro a _
    cases (nodesOf (looseRows settled 0 rows)).contains a <;> rfl
  have hmounted : rowNodes (rows.map (fun row => (row.key, row.entry))) = nodesOf rows :=
    List.flatMap_map _ _ _
  have hcheck : assertPlaced start stop placed.children
      (rows.map (fun row => (row.key, row.entry))) = (.ok () : Except (ListError Key) Unit) := by
    rw [hchildren] at hnodup
    rw [assertPlaced, hmounted, hchildren, between_shape hnodup, firstDifference_self]
  have hkeyItems : keyItems keyOf [] items = .ok (newKeys keyOf items) := by
    have hshape : [] ++ items.mapIdx (fun i item => keyOf item (([] : List Key).length + i)) =
        newKeys keyOf items := by
      simp [newKeys]
    rw [keyItems_eq_ok (by rw [hshape]; exact hkeys), hshape]
  refine ⟨{ region := { children := placed.children
                        mounted := rows.map (fun row => (row.key, row.entry))
                        served := none }
            disposed := (departed region (newKeys keyOf items)).map Prod.fst
            calls := (rowNodes (departed region (newKeys keyOf items))).map Move.remove ++
              placed.calls
            settled := settled }, ?_, ?_⟩
  · have hrun : eachInto render roots keyOf start stop region items =
        place start stop region (newKeys keyOf items) rows := by
      rw [eachInto, hkeyItems]
      rfl
    rw [hrun, place, hplaced]
    simp only [hcheck]
    rfl
  have hsubject : ∀ call ∈ placed.calls, call.subject ∈ nodesOf (looseRows settled 0 rows) := by
    intro call hcall
    have hmem : call.subject ∈ placed.calls.map Move.subject :=
      List.mem_map.mpr ⟨call, hcall, rfl⟩
    rw [hsubjects] at hmem
    exact nodesOf_subset (fun row hrow => List.mem_reverse.mp hrow) hmem
  have hloosesub : nodesOf (looseRows settled 0 rows) ⊆ nodesOf rows :=
    nodesOf_subset (pickRows_sublist _ 0 rows).subset
  exact
    { placed :=
        { children := by rw [hmounted, hchildren, List.append_assoc]; rfl
          nodup := hnodup
          keys := by rw [List.map_map]; exact hs.keys
          nonempty := by
            intro row hrow
            obtain ⟨new, hnew, rfl⟩ := List.mem_map.mp hrow
            exact hs.nonempty new hnew }
      order := by rw [List.map_map]; exact newRows_keys
      values := by rw [List.map_map]; exact newRows_values
      kept := by
        intro old hold new hnew hkey
        obtain ⟨row, hrow, rfl⟩ := List.mem_map.mp hnew
        have hmem : old.1 ∈ newKeys keyOf items := by
          rw [← hkey, ← horder]
          exact List.mem_map.mpr ⟨row, hrow, rfl⟩
        obtain ⟨other, hother, hotherkey, hnodes⟩ :=
          hs.row_of_survivor (mem_survivors.mpr ⟨hold, hmem⟩)
        rw [List.inj_on_of_nodup_map hs.keys hrow hother (hkey.trans hotherkey.symm)]
        exact hnodes
      disposed := rfl
      performed := by
        rw [relocate_append, relocate_removes]
        exact hcalls
      removed := by
        intro a
        constructor
        · intro hmem
          rcases List.mem_append.mp hmem with hmem | hmem
          · obtain ⟨b, hb, hab⟩ := List.mem_map.mp hmem
            cases hab
            exact hb
          · obtain ⟨b, ref, hab⟩ := hinserts _ hmem
            cases hab
        · intro ha
          exact List.mem_append_left _ (List.mem_map.mpr ⟨a, ha, rfl⟩)
      inserted := by
        intro a
        constructor
        · rintro ⟨ref, hmem⟩
          rcases List.mem_append.mp hmem with hmem | hmem
          · obtain ⟨b, _, hab⟩ := List.mem_map.mp hmem
            cases hab
          · obtain ⟨row, hrow, ha⟩ := List.mem_flatMap.mp (hsubject _ hmem)
            obtain ⟨i, hi, hloosei⟩ := mem_pickRows.mp hrow
            rw [Nat.zero_add] at hloosei
            exact ⟨i, (row.key, row.entry), by rw [List.getElem?_map, hi]; rfl, hloosei, ha⟩
        · rintro ⟨i, row, hi, hloosei, ha⟩
          rw [List.getElem?_map] at hi
          obtain ⟨new, hnew, rfl⟩ := Option.map_eq_some_iff.mp hi
          have hmem : a ∈ placed.calls.map Move.subject := by
            rw [hsubjects]
            refine List.mem_flatMap.mpr ⟨new, List.mem_reverse.mpr ?_, ha⟩
            exact mem_pickRows.mpr ⟨i, hnew, by rwa [Nat.zero_add]⟩
          obtain ⟨call, hcall, rfl⟩ := List.mem_map.mp hmem
          obtain ⟨b, ref, rfl⟩ := hinserts call hcall
          exact ⟨ref, List.mem_append_right _ hcall⟩
      once := by
        have hids : (rowNodes (departed region (newKeys keyOf items))).map
            (Move.subject ∘ Move.remove) = rowNodes (departed region (newKeys keyOf items)) :=
          List.map_id _
        rw [List.map_append, List.map_map, hids, hsubjects]
        have hperm : (nodesOf (looseRows settled 0 rows).reverse).Perm
            (nodesOf (looseRows settled 0 rows)) := (List.reverse_perm _).flatMap_right _
        refine List.nodup_append.mpr
          ⟨(List.filter_sublist.flatMap _).nodup h.nodup_nodes,
            hperm.nodup_iff.mpr (((pickRows_sublist _ 0 rows).flatMap _).nodup hs.nodup_nodes), ?_⟩
        rintro a ha b hb rfl
        exact h.departed_loose_disjoint hs ha (hloosesub (hperm.mem_iff.mp hb))
      increasing := by
        rw [← getD_from'_eq_oldPosition hs newRows_keys]
        exact hsettles
      longest := by
        rw [← getD_from'_eq_oldPosition hs newRows_keys]
        exact (settledPositions_longest (rows.map Row.from')).2
      fewest := by
        intro calls hrelocate
        have hsubjects' : ∀ call ∈ (rowNodes (departed region (newKeys keyOf items))).map
              Move.remove ++ placed.calls,
            call.subject ∈ rowNodes (departed region (newKeys keyOf items)) ∨
              call.subject ∈ nodesOf (looseRows settled 0 rows) := by
          intro call hcall
          rcases List.mem_append.mp hcall with hcall | hcall
          · obtain ⟨a, ha, rfl⟩ := List.mem_map.mp hcall
            exact .inl ha
          · exact .inr (hsubject call hcall)
        have halone := h.settled_le hs hsettles hsubjects'
        have hother : _ ≤ settled.length := h.untouched_le hs hchildren hrelocate
        have hcount := List.length_eq_length_filter_add (l := survivors region (newKeys keyOf items))
          (fun row => touches calls row.2.nodes)
        have hcount' := List.length_eq_length_filter_add
          (l := survivors region (newKeys keyOf items))
          (fun row => touches ((rowNodes (departed region (newKeys keyOf items))).map Move.remove ++
            placed.calls) row.2.nodes)
        simp only at hother hcount hcount' halone ⊢
        omega }

def threeRows : Region Nat Nat Nat :=
  { children := [7, 0, 10, 20, 30, 1]
    mounted := [(1, { nodes := [10], value := 1 }), (2, { nodes := [20], value := 2 }),
      (3, { nodes := [30], value := 3 })]
    served := none }

/-- The last row moves to the front, the second one goes and a new one comes. -/
theorem eachInto_threeRows :
    ∃ outcome, eachInto (fun i _ _ => [100 + i]) 1 (fun item _ => item) 0 1 threeRows [3, 1, 4] =
        .ok outcome ∧
      Reconciled 0 1 [7] [] threeRows [3, 1, 4] [3, 1, 4] outcome := by
  have hmounted : Mounted 0 1 [7] [] threeRows :=
    { children := rfl
      nodup := by decide
      keys := by decide
      nonempty := by decide }
  have hrows : newRows (fun i _ _ => [100 + i]) 1 (fun item _ => item) threeRows [3, 1, 4] =
      [{ key := 3, entry := { nodes := [30], value := 3 }, from' := some 1 },
        { key := 1, entry := { nodes := [10], value := 1 }, from' := some 0 },
        { key := 4, entry := { nodes := [102], value := 4 }, from' := none }] := rfl
  refine eachInto_reconciles hmounted (by decide) ?_
  rw [hrows]
  refine ⟨by decide, by decide, ?_⟩
  intro row hrow _
  simp only [List.mem_cons, List.not_mem_nil, or_false] at hrow
  rcases hrow with rfl | rfl | rfl <;> simp

end Run

end Runtime
end Zdeceptron
