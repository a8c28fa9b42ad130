import Zdeceptron.Routes.Shapes

/-!
# When a URL shows what it was rendered from

The check renders the URLs of enumerable routes only, and it compares none of them with the
not-found page.

* `url_injective_iff`: its URLs are apart exactly when no shape of a route that is not
  enumerable overlaps another's and none overlaps the not-found page's.
-/

namespace Zdeceptron
namespace Routes

open Library

section Served

variable (hir : Hir)

def RouteParam.slot (param : RouteParam) : Slot :=
  match param.enumeratedIn with
  | none => .any
  | some source =>
      match enumeratedValues hir source with
      | .ok values => .among values
      | .error _ => .among []

def RouteVariantInfo.shape (variant : RouteVariantInfo) : List Slot :=
  (pathSegments variant.path).map Slot.literal ++
    variant.params.map (RouteParam.slot hir)

def RouteVariantInfo.isEnumerable (variant : RouteVariantInfo) : Bool :=
  variant.params.all (fun param => param.enumeratedIn.isSome)

def Serves (table : RouteTable) (index : Nat) (values : List Text) : Prop :=
  ∃ variant, table.variants[index]? = some variant ∧
    Fits (variant.params.map (RouteParam.slot hir)) values

/-- A URL shows the route and the values it was rendered from, and is not that of the
not-found page. -/
structure UrlInjective (table : RouteTable) : Prop where
  injective : ∀ index values other values', Serves hir table index values →
    Serves hir table other values' → table.url index values = table.url other values' →
      index = other ∧ values = values'
  found : ∀ index values, Serves hir table index values →
    table.url index values ≠ "/404".toList

/-- No shape of a route that is not enumerable overlaps another's, and none overlaps that
of the not-found page. -/
structure Apart (table : RouteTable) : Prop where
  routes : ∀ (index other : Nat) (variant sibling : RouteVariantInfo),
    table.variants[index]? = some variant → table.variants[other]? = some sibling →
      index ≠ other → variant.isEnumerable = false →
        overlap (variant.shape hir) (sibling.shape hir) = false
  found : ∀ (index : Nat) (variant : RouteVariantInfo), table.variants[index]? = some variant →
    overlap (variant.shape hir) [.literal "404".toList] = false

end Served

section Values

variable {hir : Hir}

theorem segmentsOf_safe {source : Nat} {items : List Constant} {values : List Text}
    (h : segmentsOf source items = .ok values) : ∀ value ∈ values, segmentIsSafe value = true := by
  induction items generalizing values with
  | nil =>
      cases h
      simp
  | cons item items ih =>
      unfold segmentsOf at h
      cases hsegment : item.asSegment with
      | none => simp [hsegment] at h
      | some segment =>
          simp only [hsegment] at h
          split_ifs at h with hsafe
          cases hrest : segmentsOf source items with
          | error error => simp [hrest, Except.map] at h
          | ok segments =>
              simp only [hrest, Except.map, Except.ok.injEq] at h
              subst h
              intro value hvalue
              rcases List.mem_cons.mp hvalue with rfl | hvalue
              · exact hsafe
              · exact ih hrest value hvalue

theorem enumeratedValues_safe {source : Nat} {values : List Text}
    (h : enumeratedValues hir source = .ok values) :
    ∀ value ∈ values, segmentIsSafe value = true := by
  unfold enumeratedValues at h
  split at h
  · split_ifs at h
    split at h
    · exact segmentsOf_safe h
    · cases h
  · cases h

theorem RouteParam.isSegment_of_admits {param : RouteParam} {value : Text}
    (h : (param.slot hir).admits value = true) : IsSegment value := by
  unfold RouteParam.slot at h
  split at h
  · exact segmentIsSafe.isSegment h
  · split at h
    · rename_i values hvalues
      refine segmentIsSafe.isSegment (enumeratedValues_safe hvalues value ?_)
      simpa [Slot.admits] using h
    · simp [Slot.admits] at h

theorem isSegment_of_fits {params : List RouteParam} {values : List Text}
    (h : Fits (params.map (RouteParam.slot hir)) values) : ∀ value ∈ values, IsSegment value := by
  induction params generalizing values with
  | nil =>
      cases h
      simp
  | cons param params ih =>
      cases h with
      | cons hvalue hrest =>
          intro value hmem
          rcases List.mem_cons.mp hmem with rfl | hmem
          · exact RouteParam.isSegment_of_admits hvalue
          · exact ih hrest value hmem

theorem url_eq_iff {table : RouteTable} {index other : Nat} {variant sibling : RouteVariantInfo}
    {values values' : List Text} (hvariant : table.variants[index]? = some variant)
    (hsibling : table.variants[other]? = some sibling)
    (hvalues : ∀ value ∈ values, IsSegment value) (hvalues' : ∀ value ∈ values', IsSegment value) :
    table.url index values = table.url other values' ↔
      pathSegments variant.path ++ values = pathSegments sibling.path ++ values' := by
  rw [url_eq hvariant, url_eq hsibling]
  have hall : ∀ (variant : RouteVariantInfo) (values : List Text),
      (∀ value ∈ values, IsSegment value) →
        ∀ segment ∈ pathSegments variant.path ++ values, IsSegment segment := by
    intro variant values hvalues segment hsegment
    rcases List.mem_append.mp hsegment with hsegment | hsegment
    · exact isSegment_pathSegments variant.safe segment hsegment
    · exact hvalues segment hsegment
  exact ⟨urlOf_inj (hall variant values hvalues) (hall sibling values' hvalues'),
    fun h => by rw [h]⟩

theorem url_eq_notFound_iff {table : RouteTable} {index : Nat} {variant : RouteVariantInfo}
    {values : List Text} (hvariant : table.variants[index]? = some variant)
    (hvalues : ∀ value ∈ values, IsSegment value) :
    table.url index values = "/404".toList ↔
      pathSegments variant.path ++ values = ["404".toList] := by
  have hurl : "/404".toList = urlOf ["404".toList] := by decide
  rw [url_eq hvariant, hurl]
  refine ⟨urlOf_inj ?_ ?_, fun h => by rw [h]⟩
  · intro segment hsegment
    rcases List.mem_append.mp hsegment with hsegment | hsegment
    · exact isSegment_pathSegments variant.safe segment hsegment
    · exact hvalues segment hsegment
  · intro segment hsegment
    rw [List.mem_singleton.mp hsegment]
    exact ⟨by decide, by decide⟩

end Values

section Product

def extended (rows : List (List Text)) (column : List Text) : List (List Text) :=
  rows.flatMap (fun row => column.map (fun value => row ++ [value]))

variable {columns : List (List Text)}

theorem mem_foldl_extended {row values : List Text}
    (hvalues : List.Forall₂ (fun column value => value ∈ column) columns values) :
    ∀ rows : List (List Text), row ∈ rows → row ++ values ∈ columns.foldl extended rows := by
  induction hvalues generalizing row with
  | nil =>
      intro rows hrow
      simpa using hrow
  | @cons column value columns values hvalue _ ih =>
      intro rows hrow
      have hnext : row ++ [value] ∈ extended rows column :=
        List.mem_flatMap.mpr ⟨row, hrow, List.mem_map.mpr ⟨value, hvalue, rfl⟩⟩
      have := ih (extended rows column) hnext
      rwa [List.append_assoc, List.singleton_append] at this

theorem mem_product {values : List Text}
    (h : List.Forall₂ (fun column value => value ∈ column) columns values) :
    values ∈ product columns := by
  have := mem_foldl_extended h [[]] (List.mem_singleton.mpr rfl)
  exact this

end Product

section Collected

variable {hir : Hir} {table : RouteTable}

def Collected.Once (c : Collected) : Prop := (c.seen.map Prod.fst).Nodup

theorem Collected.Once.index_eq {c : Collected} (h : c.Once) {url : Text} {index other : Nat}
    (hindex : (url, index) ∈ c.seen) (hother : (url, other) ∈ c.seen) : index = other := by
  have := List.inj_on_of_nodup_map h hindex hother rfl
  exact (Prod.mk.inj this).2

structure Collected.Grows (c c' : Collected) : Prop where
  errors : c'.errors = [] → c.errors = []
  seen : ∀ entry ∈ c.seen, entry ∈ c'.seen
  once : c.Once → c'.Once

theorem Collected.Grows.refl (c : Collected) : c.Grows c := ⟨id, fun _ => id, id⟩

theorem Collected.Grows.trans {c c' c'' : Collected} (h : c.Grows c') (h' : c'.Grows c'') :
    c.Grows c'' :=
  ⟨fun hnil => h.errors (h'.errors hnil), fun entry hmem => h'.seen entry (h.seen entry hmem),
    fun honce => h'.once (h.once honce)⟩

theorem Collected.grows_refuse (c : Collected) (errors : List RouteError) :
    c.Grows { c with errors := c.errors ++ errors } :=
  ⟨fun h => (List.append_eq_nil_iff.mp h).1, fun _ => id, id⟩

theorem Collected.render_spec (table : RouteTable) (index : Nat) (c : Collected) (values : List Text) :
    c.Grows (c.render table index values) ∧ ((c.render table index values).errors = [] →
        (table.url index values, index) ∈ (c.render table index values).seen) := by
  unfold Collected.render
  cases hlookup : c.seen.lookup (table.url index values) with
  | some first =>
      simp only [hlookup]
      exact ⟨c.grows_refuse _, fun h => by simp at h⟩
  | none =>
      simp only [hlookup]
      refine ⟨⟨id, fun entry hmem => List.mem_append_left _ hmem, ?_⟩, ?_⟩
      · intro honce
        unfold Collected.Once at honce ⊢
        rw [List.map_append]
        refine honce.append (List.nodup_singleton _) ?_
        intro url hurl hurl'
        rw [List.map_singleton, List.mem_singleton] at hurl'
        obtain ⟨entry, hentry, hfst⟩ := List.mem_map.mp hurl
        have := List.lookup_eq_none_iff.mp hlookup entry hentry
        simp [hfst, hurl'] at this
      · intro _
        simp

theorem Collected.rows_spec (table : RouteTable) (index : Nat) (rows : List (List Text)) (c : Collected) :
    c.Grows (rows.foldl (Collected.render table index) c) ∧
      ((rows.foldl (Collected.render table index) c).errors = [] → ∀ values ∈ rows,
        (table.url index values, index) ∈ (rows.foldl (Collected.render table index) c).seen) := by
  induction rows generalizing c with
  | nil => exact ⟨Collected.Grows.refl c, by simp⟩
  | cons values rows ih =>
      obtain ⟨hgrows, hseen⟩ := Collected.render_spec table index c values
      obtain ⟨hrest, hrows⟩ := ih (c.render table index values)
      rw [List.foldl_cons]
      refine ⟨hgrows.trans hrest, ?_⟩
      intro herrors row hrow
      rcases List.mem_cons.mp hrow with rfl | hrow
      · exact hrest.seen _ (hseen (hrest.errors herrors))
      · exact hrows herrors row hrow

theorem Collected.variant_spec (hir : Hir) (table : RouteTable) (c : Collected) (index : Nat) (variant : RouteVariantInfo) :
    c.Grows (c.variant hir table index variant) ∧ ((c.variant hir table index variant).errors = [] →
        (enumerate hir variant.params).1 = [] ∧
          ∀ columns, (enumerate hir variant.params).2 = some columns →
            ∀ values ∈ product columns, (table.url index values, index) ∈
              (c.variant hir table index variant).seen) := by
  unfold Collected.variant
  rcases hcolumns : enumerate hir variant.params with ⟨errors, columns⟩
  have hfirst := c.grows_refuse errors
  cases columns with
  | none =>
      refine ⟨hfirst.trans (Collected.grows_refuse _ _), fun h => ⟨?_, by simp⟩⟩
      exact (List.append_eq_nil_iff.mp (List.append_eq_nil_iff.mp h).1).2
  | some columns =>
      obtain ⟨hgrows, hseen⟩ := Collected.rows_spec table index (product columns)
        { c with errors := c.errors ++ errors }
      refine ⟨hfirst.trans hgrows, fun h => ⟨?_, ?_⟩⟩
      · exact (List.append_eq_nil_iff.mp (hgrows.errors h)).2
      · intro columns' hcolumns' values hvalues
        cases hcolumns'
        exact hseen h values hvalues

theorem Collected.variants_spec (hir : Hir) (table : RouteTable) (index : Nat) (rest : List RouteVariantInfo) (c : Collected) :
    c.Grows (Collected.variants hir table index rest c) ∧
      ((Collected.variants hir table index rest c).errors = [] →
        ∀ (k : Nat) (variant : RouteVariantInfo), rest[k]? = some variant →
          (enumerate hir variant.params).1 = [] ∧
            ∀ columns, (enumerate hir variant.params).2 = some columns →
              ∀ values ∈ product columns, (table.url (index + k) values, index + k) ∈
                (Collected.variants hir table index rest c).seen) := by
  induction rest generalizing index c with
  | nil => exact ⟨Collected.Grows.refl c, by simp⟩
  | cons first rest ih =>
      obtain ⟨hgrows, hfirst⟩ := c.variant_spec hir table index first
      obtain ⟨hrest, hall⟩ := ih (index + 1) (c.variant hir table index first)
      rw [Collected.variants]
      refine ⟨hgrows.trans hrest, ?_⟩
      intro herrors k variant hk
      cases k with
      | zero =>
          cases hk
          obtain ⟨hnone, hseen⟩ := hfirst (hrest.errors herrors)
          exact ⟨hnone, fun columns hcolumns values hvalues =>
            hrest.seen _ (hseen columns hcolumns values hvalues)⟩
      | succ k =>
          have := hall herrors k variant hk
          rwa [Nat.add_assoc, Nat.add_comm 1 k] at this

end Collected

section Accepted

variable {hir : Hir} {table : RouteTable}

theorem enumerate_spec {params : List RouteParam} (h : (enumerate hir params).1 = [])
    (hall : params.all (fun param => param.enumeratedIn.isSome) = true) :
    ∃ columns, (enumerate hir params).2 = some columns ∧
      params.map (RouteParam.slot hir) = columns.map Slot.among := by
  induction params with
  | nil => exact ⟨[], rfl, rfl⟩
  | cons param params ih =>
      rw [List.all_cons, Bool.and_eq_true] at hall
      obtain ⟨source, hsource⟩ := Option.isSome_iff_exists.mp hall.1
      unfold enumerate at h ⊢
      simp only [hsource] at h ⊢
      cases hvalues : enumeratedValues hir source with
      | error error => simp [hvalues] at h
      | ok values =>
          simp only [hvalues] at h ⊢
          obtain ⟨columns, hcolumns, hslots⟩ := ih h hall.2
          refine ⟨values :: columns, by rw [hcolumns]; rfl, ?_⟩
          rw [List.map_cons, List.map_cons, hslots, RouteParam.slot]
          simp only [hsource, hvalues]

theorem fits_among {columns : List (List Text)} {values : List Text}
    (h : Fits (columns.map Slot.among) values) :
    List.Forall₂ (fun column value => value ∈ column) columns values := by
  rw [Fits, List.map_map, Admits, List.forall₂_map_left_iff] at h
  refine h.imp ?_
  intro column value hvalue
  simpa [Slot.admits] using hvalue

theorem check_spec {site : Site} (hcheck : check hir = .ok site) (hroutes : hir.routes = some table)
    {index other : Nat} {variant sibling : RouteVariantInfo} {values values' : List Text}
    (hvariant : table.variants[index]? = some variant)
    (hsibling : table.variants[other]? = some sibling)
    (henumerable : variant.isEnumerable = true) (henumerable' : sibling.isEnumerable = true)
    (hfits : Fits (variant.params.map (RouteParam.slot hir)) values)
    (hfits' : Fits (sibling.params.map (RouteParam.slot hir)) values')
    (hurl : table.url index values = table.url other values') : index = other := by
  have herrors : (Collected.variants hir table 0 table.variants
      ⟨addressIsImmutable hir, [], []⟩).errors = [] := by
    unfold check at hcheck
    rw [hroutes] at hcheck
    simp only [finish] at hcheck
    split_ifs at hcheck with hnil
    exact (List.append_eq_nil_iff.mp (List.isEmpty_iff.mp hnil)).1
  obtain ⟨hgrows, hall⟩ := Collected.variants_spec hir table 0 table.variants
    ⟨addressIsImmutable hir, [], []⟩
  have honce := hgrows.once List.nodup_nil
  have hseen : ∀ {index : Nat} {variant : RouteVariantInfo} {values : List Text},
      table.variants[index]? = some variant → variant.isEnumerable = true →
      Fits (variant.params.map (RouteParam.slot hir)) values →
        (table.url index values, index) ∈
          (Collected.variants hir table 0 table.variants
            ⟨addressIsImmutable hir, [], []⟩).seen := by
    intro index variant values hvariant henumerable hfits
    obtain ⟨hnone, hrows⟩ := hall herrors index variant hvariant
    obtain ⟨columns, hcolumns, hslots⟩ := enumerate_spec hnone henumerable
    rw [hslots] at hfits
    have := hrows columns hcolumns values (mem_product (fits_among hfits))
    rwa [Nat.zero_add] at this
  exact honce.index_eq (hseen hvariant henumerable hfits)
    (hurl ▸ hseen hsibling henumerable' hfits')

/-- The URLs of an accepted program show what they were rendered from exactly when no
shape of a route that is not enumerable overlaps another's and none overlaps the not-found
page's. -/
theorem url_injective_iff {site : Site} (hcheck : check hir = .ok site)
    (hroutes : hir.routes = some table) : UrlInjective hir table ↔ Apart hir table := by
  constructor
  · intro h
    refine ⟨?_, ?_⟩
    · intro index other variant sibling hvariant hsibling hne _
      refine Bool.eq_false_iff.mpr fun hoverlap => hne ?_
      obtain ⟨path, hpath, hpath'⟩ := (overlap_iff _ _).mp hoverlap
      obtain ⟨values, rfl, hfits⟩ := (fits_append_iff _ _ _).mp hpath
      obtain ⟨values', hsame, hfits'⟩ := (fits_append_iff _ _ _).mp hpath'
      refine (h.injective index values other values' ⟨variant, hvariant, hfits⟩
        ⟨sibling, hsibling, hfits'⟩ ?_).1
      exact (url_eq_iff hvariant hsibling (isSegment_of_fits hfits)
        (isSegment_of_fits hfits')).mpr hsame
    · intro index variant hvariant
      refine Bool.eq_false_iff.mpr fun hoverlap => ?_
      obtain ⟨path, hpath, hfound⟩ := (overlap_iff _ _).mp hoverlap
      obtain ⟨values, rfl, hfits⟩ := (fits_append_iff _ _ _).mp hpath
      refine h.found index values ⟨variant, hvariant, hfits⟩ ?_
      refine (url_eq_notFound_iff hvariant (isSegment_of_fits hfits)).mpr ?_
      exact (fits_literals_iff ["404".toList] _).mp hfound
  · intro h
    refine ⟨?_, ?_⟩
    · rintro index values other values' ⟨variant, hvariant, hfits⟩ ⟨sibling, hsibling, hfits'⟩ hurl
      have hsame := (url_eq_iff hvariant hsibling (isSegment_of_fits hfits)
        (isSegment_of_fits hfits')).mp hurl
      -- a path both routes have, unless they are one route
      have hoverlap : overlap (variant.shape hir) (sibling.shape hir) = true :=
        (overlap_iff _ _).mpr ⟨_, (fits_append_iff _ _ _).mpr ⟨values, rfl, hfits⟩,
          (fits_append_iff _ _ _).mpr ⟨values', hsame, hfits'⟩⟩
      have hoverlap' : overlap (sibling.shape hir) (variant.shape hir) = true :=
        (overlap_iff _ _).mpr ⟨_, (fits_append_iff _ _ _).mpr ⟨values', rfl, hfits'⟩,
          (fits_append_iff _ _ _).mpr ⟨values, hsame.symm, hfits⟩⟩
      have hindex : index = other := by
        by_contra hne
        cases hfirst : variant.isEnumerable with
        | false =>
            rw [h.routes index other variant sibling hvariant hsibling hne hfirst] at hoverlap
            cases hoverlap
        | true =>
            cases hsecond : sibling.isEnumerable with
            | false =>
                rw [h.routes other index sibling variant hsibling hvariant (Ne.symm hne)
                  hsecond] at hoverlap'
                cases hoverlap'
            | true =>
                exact hne (check_spec hcheck hroutes hvariant hsibling hfirst hsecond hfits
                  hfits' hurl)
      subst hindex
      rw [hvariant, Option.some.injEq] at hsibling
      subst hsibling
      exact ⟨rfl, List.append_cancel_left hsame⟩
    · rintro index values ⟨variant, hvariant, hfits⟩ hurl
      have hpath := (url_eq_notFound_iff hvariant (isSegment_of_fits hfits)).mp hurl
      have hoverlap : overlap (variant.shape hir) [.literal "404".toList] = true :=
        (overlap_iff _ _).mpr ⟨_, (fits_append_iff _ _ _).mpr ⟨values, rfl, hfits⟩,
          (fits_literals_iff ["404".toList] _).mpr hpath⟩
      rw [h.found index variant hvariant] at hoverlap
      cases hoverlap

end Accepted

section Example

/-- `WorkItem is "/work" with slug is Text` and `WorkFeed is "/work/feed"`. -/
def work : RouteTable where
  variants :=
    [{ path := "/work".toList, params := [⟨"slug", none⟩], safe := by decide },
      { path := "/work/feed".toList, params := [], safe := by decide }]

def workProgram : Hir := ⟨[], some work⟩

/-- The program is accepted, and both of its routes render `/work/feed`. -/
theorem work_not_injective :
    check workProgram = .ok ⟨[⟨"/work/feed".toList, some 1, [], "work-feed".toList⟩,
        ⟨"/404".toList, none, [], "not-found".toList⟩]⟩ ∧
      workProgram.routes = some work ∧
      work.url 0 ["feed".toList] = "/work/feed".toList ∧
      work.url 1 [] = "/work/feed".toList ∧
      ¬ UrlInjective workProgram work := by
  refine ⟨by rfl, rfl, by decide, by decide, ?_⟩
  intro h
  have hfeed : Fits [Slot.any] ["feed".toList] := .cons (by decide) .nil
  have := (h.injective 0 ["feed".toList] 1 [] ⟨_, rfl, hfeed⟩ ⟨_, rfl, .nil⟩ (by decide)).1
  cases this

def apartTable : RouteTable where
  variants :=
    [{ path := "/work".toList, params := [⟨"slug", none⟩], safe := by decide },
      { path := "/".toList, params := [], safe := by decide }]

theorem url_injective_apart : UrlInjective ⟨[], some apartTable⟩ apartTable := by
  have hcheck : check ⟨[], some apartTable⟩ = .ok ⟨[⟨"/".toList, some 1, [], "index".toList⟩,
      ⟨"/404".toList, none, [], "not-found".toList⟩]⟩ := rfl
  refine (url_injective_iff hcheck rfl).mpr ⟨?_, ?_⟩
  · intro index other variant sibling hvariant hsibling hne _
    match index, other with
    | 0, 1 =>
        cases hvariant
        cases hsibling
        decide
    | 1, 0 =>
        cases hvariant
        cases hsibling
        decide
    | 0, 0 => exact absurd rfl hne
    | 1, 1 => exact absurd rfl hne
    | _ + 2, _ => cases hvariant
    | _, _ + 2 => cases hsibling
  · intro index variant hvariant
    match index with
    | 0 =>
        cases hvariant
        decide
    | 1 =>
        cases hvariant
        decide
    | _ + 2 => cases hvariant

end Example

end Routes
end Zdeceptron
