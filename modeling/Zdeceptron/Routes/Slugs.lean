import Zdeceptron.Routes.Injective

/-!
# The files of a site's pages

A page's module, its boot module and its source map are named by its slug, which shows the
letters and digits of the URL and a hyphen for every other character.

* `slugs_apart_iff`: when no page overwrites a file of another.
-/

namespace Zdeceptron
namespace Routes

open Library

section Blurred

def blurs (c d : Char) : Bool := c == d || (!c.isAlphanum && !d.isAlphanum)

/-- The URLs differ only in what separates their letters and digits: one may have a slash, a
dot, an underscore or a hyphen where the other has another of them. -/
def Confused (url url' : Text) : Prop := List.Forall₂ (fun c d => blurs c d = true) url url'

theorem confused_self (url : Text) : Confused url url :=
  List.forall₂_same.mpr (fun c _ => by simp [blurs])

def slugChar (c : Char) : Char := if c.isAlphanum then c else '-'

theorem slugChar_eq_iff (c d : Char) : slugChar c = slugChar d ↔ blurs c d = true := by
  have hhyphen : '-'.isAlphanum = false := by decide
  unfold slugChar blurs
  rw [Bool.or_eq_true, beq_iff_eq, Bool.and_eq_true, Bool.not_eq_true', Bool.not_eq_true']
  split_ifs with hc hd hd
  · simp [hc]
  · constructor
    · rintro rfl
      rw [hhyphen] at hc
      cases hc
    · rintro (rfl | ⟨hc', -⟩)
      · exact absurd hc hd
      · rw [hc'] at hc
        cases hc
  · constructor
    · rintro rfl
      rw [hhyphen] at hd
      cases hd
    · rintro (rfl | ⟨-, hd'⟩)
      · exact absurd hd hc
      · rw [hd'] at hd
        cases hd
  · simp [Bool.eq_false_iff.mpr hc, Bool.eq_false_iff.mpr hd]

theorem map_slugChar_eq_iff (url url' : Text) :
    url.map slugChar = url'.map slugChar ↔ Confused url url' := by
  rw [← List.forall₂_eq_eq_eq, List.forall₂_map_left_iff, List.forall₂_map_right_iff]
  simp only [slugChar_eq_iff]
  rfl

theorem Confused.eq_of_alphanum {url url' : Text} (h : Confused url url')
    (hall : url'.all Char.isAlphanum = true) : url = url' := by
  induction h with
  | nil => rfl
  | @cons c d url url' hblurs _ ih =>
      rw [List.all_cons, Bool.and_eq_true] at hall
      rw [blurs, hall.1, Bool.not_true, Bool.and_false, Bool.or_false, beq_iff_eq] at hblurs
      rw [hblurs, ih hall.2]

theorem confused_cons_iff {c : Char} {url url' : Text} :
    Confused (c :: url) (c :: url') ↔ Confused url url' := by
  unfold Confused
  rw [List.forall₂_cons]
  simp [blurs]

end Blurred

section Slugs

def IsUrl (url : Text) : Prop := ∃ segments, url = urlOf segments ∧ ∀ s ∈ segments, IsSegment s

theorem isUrl_of_fits {hir : Hir} {table : RouteTable} {index : Nat} {variant : RouteVariantInfo}
    {values : List Text} (hvariant : table.variants[index]? = some variant)
    (hfits : Fits (variant.params.map (RouteParam.slot hir)) values) :
    IsUrl (table.url index values) := by
  refine ⟨pathSegments variant.path ++ values, url_eq hvariant values, ?_⟩
  intro segment hsegment
  rcases List.mem_append.mp hsegment with hsegment | hsegment
  · exact isSegment_pathSegments variant.safe segment hsegment
  · exact isSegment_of_fits hfits segment hsegment

theorem getLast?_rendered {segments : List Text} (h : ∀ s ∈ segments, IsSegment s) :
    (rendered segments).getLast? ≠ some '/' := by
  rcases List.eq_nil_or_concat segments with rfl | ⟨front, last, rfl⟩
  · simp
  · have hlast := h last (by simp)
    rw [List.concat_eq_append, rendered_append, rendered_cons, rendered_nil, List.append_nil,
      List.getLast?_append_of_ne_nil _ (List.cons_ne_nil _ _), List.getLast?_cons_of_ne_nil hlast.1]
    intro hslash
    exact hlast.2 (List.mem_of_getLast? hslash)

variable {url : Text}

theorem trimMatches_cons (h : IsUrl ('/' :: url)) : trimMatches ('/' :: url) = url := by
  obtain ⟨segments, hurl, hsegments⟩ := h
  unfold urlOf at hurl
  split_ifs at hurl with hnil
  · cases hurl
    decide
  · unfold trimMatches
    rw [hurl, trimEndMatches_of_last (getLast?_rendered hsegments), ← hurl]
    cases segments with
    | nil => exact absurd rendered_nil hnil
    | cons segment segments =>
        rw [rendered_cons, List.cons.injEq] at hurl
        obtain ⟨hne, hslash⟩ := hsegments segment List.mem_cons_self
        obtain ⟨c, rest, rfl⟩ := List.exists_cons_of_ne_nil hne
        have hc : (c == '/') = false := by
          rw [beq_eq_false_iff_ne]
          rintro rfl
          exact hslash List.mem_cons_self
        rw [hurl.2]
        simp [hc]

theorem IsUrl.exists_cons (h : IsUrl url) : ∃ rest, url = '/' :: rest := by
  obtain ⟨segments, rfl, -⟩ := h
  unfold urlOf
  split_ifs with hnil
  · exact ⟨[], rfl⟩
  · cases segments with
    | nil => exact absurd rendered_nil hnil
    | cons segment segments => exact ⟨_, rendered_cons segment segments⟩

theorem slugOf_cons (h : IsUrl ('/' :: url)) :
    slugOf ('/' :: url) = if url = [] then "index".toList else url.map slugChar := by
  rw [slugOf, trimMatches_cons h]
  rfl

theorem map_slugChar_eq_index_iff (url : Text) :
    url.map slugChar = "index".toList ↔ url = "index".toList := by
  have hindex : "index".toList = "index".toList.map slugChar := by decide
  rw [hindex, map_slugChar_eq_iff, ← hindex]
  constructor
  · intro h
    exact h.eq_of_alphanum (by decide)
  · rintro rfl
    exact confused_self _

theorem slugOf_eq_iff {url url' : Text} (h : IsUrl url) (h' : IsUrl url') :
    slugOf url = slugOf url' ↔ Confused url url' ∨ (url = ['/'] ∧ url' = "/index".toList) ∨
        (url = "/index".toList ∧ url' = ['/']) := by
  obtain ⟨rest, rfl⟩ := h.exists_cons
  obtain ⟨rest', rfl⟩ := h'.exists_cons
  have hindex : "/index".toList = '/' :: "index".toList := rfl
  have hnil : "index".toList ≠ [] := by decide
  rw [slugOf_cons h, slugOf_cons h', confused_cons_iff, hindex]
  simp only [List.cons.injEq, true_and]
  by_cases hroot : rest = []
  · by_cases hroot' : rest' = []
    · simp [hroot, hroot', Confused]
    · rw [if_pos hroot, if_neg hroot', eq_comm, map_slugChar_eq_index_iff]
      subst hroot
      simp [Confused, hroot', List.forall₂_nil_left_iff]
  · by_cases hroot' : rest' = []
    · rw [if_neg hroot, if_pos hroot', map_slugChar_eq_index_iff]
      subst hroot'
      simp [Confused, hroot, List.forall₂_nil_right_iff]
    · rw [if_neg hroot, if_neg hroot', map_slugChar_eq_iff]
      simp [hroot, hroot']

theorem dot_not_mem_slugOf (url : Text) : '.' ∉ slugOf url := by
  unfold slugOf
  split_ifs
  · decide
  · intro h
    obtain ⟨c, -, hc⟩ := List.mem_map.mp h
    split_ifs at hc with halnum
    · rw [hc] at halnum
      revert halnum
      decide
    · revert hc
      decide

end Slugs

section Pages

variable (hir : Hir) (table : RouteTable)

/-- The URLs the compiler renders: those of every combination of the values of an enumerable
route. -/
def Renders (url : Text) : Prop :=
  ∃ index variant values, table.variants[index]? = some variant ∧ variant.isEnumerable = true ∧
    Fits (variant.params.map (RouteParam.slot hir)) values ∧ url = table.url index values

variable {hir table}

theorem Renders.isUrl {url : Text} (h : Renders hir table url) : IsUrl url := by
  obtain ⟨index, variant, values, hvariant, -, hfits, rfl⟩ := h
  exact isUrl_of_fits hvariant hfits

variable {values : List Text} {columns : List (List Text)}

theorem of_mem_foldl_extended :
    ∀ rows : List (List Text), values ∈ columns.foldl extended rows →
      ∃ row ∈ rows, ∃ rest, values = row ++ rest ∧
        List.Forall₂ (fun column value => value ∈ column) columns rest := by
  induction columns with
  | nil =>
      intro rows h
      exact ⟨values, h, [], (List.append_nil values).symm, .nil⟩
  | cons column columns ih =>
      intro rows h
      obtain ⟨row, hrow, rest, rfl, hrest⟩ := ih (extended rows column) h
      obtain ⟨front, hfront, hrow⟩ := List.mem_flatMap.mp hrow
      obtain ⟨value, hvalue, rfl⟩ := List.mem_map.mp hrow
      exact ⟨front, hfront, value :: rest, List.append_assoc _ _ _, .cons hvalue hrest⟩

theorem of_mem_product (h : values ∈ product columns) :
    List.Forall₂ (fun column value => value ∈ column) columns values := by
  obtain ⟨row, hrow, rest, rfl, hrest⟩ := of_mem_foldl_extended [[]] h
  rwa [List.mem_singleton.mp hrow]

theorem fits_of_enumerate {params : List RouteParam} (h : (enumerate hir params).2 = some columns)
    (hvalues : List.Forall₂ (fun column value => value ∈ column) columns values) :
    params.all (fun param => param.enumeratedIn.isSome) = true ∧
      Fits (params.map (RouteParam.slot hir)) values := by
  induction params generalizing columns values with
  | nil =>
      cases h
      cases hvalues
      exact ⟨rfl, .nil⟩
  | cons param params ih =>
      unfold enumerate at h
      cases hsource : param.enumeratedIn with
      | none => simp [hsource] at h
      | some source =>
          cases hsegments : enumeratedValues hir source with
          | error error => simp [hsource, hsegments] at h
          | ok segments =>
              simp only [hsource, hsegments, Option.map_eq_some_iff] at h
              obtain ⟨columns, hcolumns, rfl⟩ := h
              cases hvalues with
              | cons hvalue hrest =>
                  obtain ⟨hall, hfits⟩ := ih hcolumns hrest
                  refine ⟨by simp [hsource, hall], .cons ?_ hfits⟩
                  rw [RouteParam.slot, hsource]
                  simp only [hsegments]
                  simpa [Slot.admits] using hvalue

variable (hir table) in
/-- Every page is at a URL the compiler renders, under its slug, and every URL has its page. -/
structure Collected.Paged (c : Collected) : Prop where
  pages : ∀ page ∈ c.pages, Renders hir table page.url ∧ page.slug = slugOf page.url
  seen : ∀ entry ∈ c.seen, ∃ page ∈ c.pages, page.url = entry.1

variable {c : Collected}

theorem Collected.Paged.refuse (h : c.Paged hir table) (errors : List RouteError) :
    Collected.Paged hir table { c with errors := errors } :=
  ⟨h.pages, h.seen⟩

variable {index : Nat}

theorem Collected.Paged.render (h : c.Paged hir table)
    (hrenders : Renders hir table (table.url index values)) :
    (c.render table index values).Paged hir table := by
  unfold Collected.render
  dsimp only
  split
  · exact h.refuse _
  · refine ⟨?_, ?_⟩
    · intro page hpage
      rcases List.mem_append.mp hpage with hpage | hpage
      · exact h.pages page hpage
      · rw [List.mem_singleton.mp hpage]
        exact ⟨hrenders, rfl⟩
    · intro entry hentry
      rcases List.mem_append.mp hentry with hentry | hentry
      · obtain ⟨page, hpage, hurl⟩ := h.seen entry hentry
        exact ⟨page, List.mem_append_left _ hpage, hurl⟩
      · rw [List.mem_singleton.mp hentry]
        exact ⟨_, List.mem_append_right _ (List.mem_singleton.mpr rfl), rfl⟩

theorem Collected.Paged.rows (h : c.Paged hir table) {rows : List (List Text)}
    (hrenders : ∀ values ∈ rows, Renders hir table (table.url index values)) :
    (rows.foldl (Collected.render table index) c).Paged hir table := by
  induction rows generalizing c with
  | nil => exact h
  | cons values rows ih =>
      exact ih (h.render (hrenders values List.mem_cons_self))
        (fun values hvalues => hrenders values (List.mem_cons_of_mem _ hvalues))

theorem Collected.Paged.variant (h : c.Paged hir table)
    {variant : RouteVariantInfo} (hvariant : table.variants[index]? = some variant) :
    (c.variant hir table index variant).Paged hir table := by
  unfold Collected.variant
  rcases hcolumns : enumerate hir variant.params with ⟨errors, _ | columns⟩
  · exact (h.refuse _).refuse _
  · refine (h.refuse _).rows (fun values hvalues => ?_)
    obtain ⟨hall, hfits⟩ := fits_of_enumerate (congrArg Prod.snd hcolumns) (of_mem_product hvalues)
    exact ⟨index, variant, values, hvariant, hall, hfits, rfl⟩

theorem Collected.Paged.variants (h : c.Paged hir table) {rest : List RouteVariantInfo}
    (hrest : ∀ (k : Nat) (variant : RouteVariantInfo), rest[k]? = some variant →
      table.variants[index + k]? = some variant) :
    (Collected.variants hir table index rest c).Paged hir table := by
  induction rest generalizing index c with
  | nil => exact h
  | cons first rest ih =>
      refine ih (h.variant (hrest 0 first rfl)) (fun k variant hk => ?_)
      rw [Nat.add_assoc, Nat.add_comm 1 k]
      exact hrest (k + 1) variant hk

def notFoundPage : Page := ⟨"/404".toList, none, [], "not-found".toList⟩

theorem check_pages {site : Site} (hcheck : check hir = .ok site)
    (hroutes : hir.routes = some table) :
    (∀ page ∈ site.pages, (Renders hir table page.url ∧ page.slug = slugOf page.url) ∨
      page = notFoundPage) ∧ notFoundPage ∈ site.pages ∧
    ∀ url, Renders hir table url → ∃ page ∈ site.pages, page.url = url ∧ page.slug = slugOf url := by
  unfold check at hcheck
  rw [hroutes] at hcheck
  simp only [finish] at hcheck
  split_ifs at hcheck with hnil
  cases hcheck
  have hpaged : (Collected.variants hir table 0 table.variants
      ⟨addressIsImmutable hir, [], []⟩).Paged hir table := by
    have hstart : Collected.Paged hir table ⟨addressIsImmutable hir, [], []⟩ := by
      refine ⟨?_, ?_⟩ <;> simp
    exact hstart.variants (fun k variant hk => by rwa [Nat.zero_add])
  refine ⟨?_, List.mem_append_right _ (List.mem_singleton.mpr rfl), ?_⟩
  · intro page hpage
    rcases List.mem_append.mp hpage with hpage | hpage
    · exact .inl (hpaged.pages page hpage)
    · exact .inr (List.mem_singleton.mp hpage)
  · rintro url ⟨index, variant, values, hvariant, henumerable, hfits, rfl⟩
    have herrors := (List.append_eq_nil_iff.mp (List.isEmpty_iff.mp hnil)).1
    obtain ⟨-, hall⟩ := Collected.variants_spec hir table 0 table.variants
      ⟨addressIsImmutable hir, [], []⟩
    obtain ⟨hnone, hrows⟩ := hall herrors index variant hvariant
    obtain ⟨columns, hcolumns, hslots⟩ := enumerate_spec hnone henumerable
    rw [hslots] at hfits
    obtain ⟨page, hpage, hurl⟩ :=
      hpaged.seen _ (hrows columns hcolumns values (mem_product (fits_among hfits)))
    rw [Nat.zero_add] at hurl
    refine ⟨page, List.mem_append_left _ hpage, hurl, ?_⟩
    rw [(hpaged.pages page hpage).2, hurl]

end Pages

section Files

def Page.files (page : Page) : List Text :=
  [page.slug ++ ".js".toList, page.slug ++ ".boot.js".toList, page.slug ++ ".js.map".toList]

/-- Pages at different URLs have different slugs, and none overwrites a file of another. -/
structure SlugsApart (site : Site) : Prop where
  slugs : ∀ page ∈ site.pages, ∀ other ∈ site.pages, page.url ≠ other.url →
    page.slug ≠ other.slug
  files : ∀ page ∈ site.pages, ∀ other ∈ site.pages, page.url ≠ other.url →
    page.files.Disjoint other.files

/-- The URLs the compiler renders can be told apart by their letters and digits, and neither
the root nor the not-found page has the name of another. -/
structure Legible (hir : Hir) (table : RouteTable) : Prop where
  urls : ∀ url url', Renders hir table url → Renders hir table url' → Confused url url' →
    url = url'
  index : Renders hir table ['/'] → ¬ Renders hir table "/index".toList
  notFound : ∀ url, Renders hir table url → ¬ Confused url "/not-found".toList

theorem dot_split {s t u v : Text} (hs : '.' ∉ s) (ht : '.' ∉ t)
    (h : s ++ '.' :: u = t ++ '.' :: v) : s = t := by
  induction s generalizing t with
  | nil =>
      cases t with
      | nil => rfl
      | cons c t =>
          rw [List.nil_append, List.cons_append, List.cons.injEq] at h
          exact absurd (h.1 ▸ List.mem_cons_self) ht
  | cons d s ih =>
      cases t with
      | nil =>
          rw [List.nil_append, List.cons_append, List.cons.injEq] at h
          exact absurd (h.1 ▸ List.mem_cons_self) hs
      | cons c t =>
          rw [List.cons_append, List.cons_append, List.cons.injEq] at h
          rw [h.1, ih (fun hmem => hs (List.mem_cons_of_mem _ hmem))
            (fun hmem => ht (List.mem_cons_of_mem _ hmem)) h.2]

theorem slug_eq_of_file {page other : Page} (hpage : '.' ∉ page.slug) (hother : '.' ∉ other.slug)
    {file : Text} (h : file ∈ page.files) (h' : file ∈ other.files) : page.slug = other.slug := by
  have hdots : ∀ page : Page, file ∈ page.files → ∃ rest, file = page.slug ++ '.' :: rest := by
    intro page hfile
    simp only [Page.files, List.mem_cons, List.not_mem_nil, or_false] at hfile
    rcases hfile with rfl | rfl | rfl
    · exact ⟨_, rfl⟩
    · exact ⟨_, rfl⟩
    · exact ⟨_, rfl⟩
  obtain ⟨rest, hfile⟩ := hdots page h
  obtain ⟨rest', hfile'⟩ := hdots other h'
  exact dot_split hpage hother (hfile.symm.trans hfile')

variable {hir : Hir} {table : RouteTable}

theorem isUrl_notFound : IsUrl "/not-found".toList := by
  refine ⟨["not-found".toList], by decide, ?_⟩
  intro segment hsegment
  rw [List.mem_singleton.mp hsegment]
  exact ⟨by decide, by decide⟩

theorem slugOf_eq_notFound_iff {url : Text} (h : IsUrl url) :
    slugOf url = "not-found".toList ↔ Confused url "/not-found".toList := by
  have hslug : "not-found".toList = slugOf "/not-found".toList := by decide
  rw [hslug, slugOf_eq_iff h isUrl_notFound]
  constructor
  · rintro (hconfused | ⟨-, hindex⟩ | ⟨-, hroot⟩)
    · exact hconfused
    · exact absurd hindex (by decide)
    · exact absurd hroot (by decide)
  · exact .inl

/-- No page of an accepted program overwrites a file of another exactly when its URLs can be
told apart by their letters and digits, and neither the root nor the not-found page has the
name of another. -/
theorem slugs_apart_iff {site : Site} (hcheck : check hir = .ok site)
    (hroutes : hir.routes = some table) : SlugsApart site ↔ Legible hir table := by
  obtain ⟨hpages, hfound, hrendered⟩ := check_pages hcheck hroutes
  constructor
  · intro h
    -- two pages with one slug are at one URL
    have hsame : ∀ url url', Renders hir table url → Renders hir table url' →
        slugOf url = slugOf url' → url = url' := by
      intro url url' hurl hurl' hslug
      obtain ⟨page, hpage, rfl, hs⟩ := hrendered url hurl
      obtain ⟨other, hother, rfl, hs'⟩ := hrendered url' hurl'
      by_contra hne
      exact h.slugs page hpage other hother hne (by rw [hs, hs', hslug])
    refine ⟨?_, ?_, ?_⟩
    · intro url url' hurl hurl' hconfused
      exact hsame url url' hurl hurl' ((slugOf_eq_iff hurl.isUrl hurl'.isUrl).mpr (.inl hconfused))
    · intro hroot hindex
      have := hsame _ _ hroot hindex
        ((slugOf_eq_iff hroot.isUrl hindex.isUrl).mpr (.inr (.inl ⟨rfl, rfl⟩)))
      revert this
      decide
    · intro url hurl hconfused
      obtain ⟨page, hpage, rfl, hs⟩ := hrendered url hurl
      refine h.slugs page hpage notFoundPage hfound ?_ ?_
      · intro heq
        have hlength := hconfused.length_eq
        rw [heq] at hlength
        revert hlength
        decide
      · rw [hs]
        exact (slugOf_eq_notFound_iff hurl.isUrl).mpr hconfused
  · intro h
    have hslugs : ∀ page ∈ site.pages, ∀ other ∈ site.pages, page.url ≠ other.url →
        page.slug ≠ other.slug := by
      intro page hpage other hother hne hslug
      rcases hpages page hpage with ⟨hurl, hs⟩ | rfl
      · rcases hpages other hother with ⟨hurl', hs'⟩ | rfl
        · rw [hs, hs', slugOf_eq_iff hurl.isUrl hurl'.isUrl] at hslug
          rcases hslug with hconfused | ⟨hroot, hindex⟩ | ⟨hindex, hroot⟩
          · exact hne (h.urls _ _ hurl hurl' hconfused)
          · exact h.index (hroot ▸ hurl) (hindex ▸ hurl')
          · exact h.index (hroot ▸ hurl') (hindex ▸ hurl)
        · rw [hs] at hslug
          exact h.notFound _ hurl ((slugOf_eq_notFound_iff hurl.isUrl).mp hslug)
      · rcases hpages other hother with ⟨hurl', hs'⟩ | rfl
        · rw [hs'] at hslug
          exact h.notFound _ hurl' ((slugOf_eq_notFound_iff hurl'.isUrl).mp hslug.symm)
        · exact hne rfl
    have hdots : ∀ page ∈ site.pages, '.' ∉ page.slug := by
      intro page hpage
      rcases hpages page hpage with ⟨-, hs⟩ | rfl
      · rw [hs]
        exact dot_not_mem_slugOf page.url
      · decide
    refine ⟨hslugs, fun page hpage other hother hne file hfile hfile' => ?_⟩
    exact hslugs page hpage other hother hne
      (slug_eq_of_file (hdots page hpage) (hdots other hother) hfile hfile')

end Files

section Overwritten

/-- `Post is "/blog/first"` and `Archive is "/blog-first"`. -/
def blog : RouteTable where
  variants :=
    [{ path := "/blog/first".toList, params := [], safe := by decide },
      { path := "/blog-first".toList, params := [], safe := by decide }]

/-- The program is accepted, and its two pages have one slug. -/
theorem blog_overwritten :
    check ⟨[], some blog⟩ = .ok ⟨[⟨"/blog/first".toList, some 0, [], "blog-first".toList⟩,
        ⟨"/blog-first".toList, some 1, [], "blog-first".toList⟩, notFoundPage]⟩ ∧
      ¬ SlugsApart ⟨[⟨"/blog/first".toList, some 0, [], "blog-first".toList⟩,
        ⟨"/blog-first".toList, some 1, [], "blog-first".toList⟩, notFoundPage]⟩ := by
  refine ⟨rfl, fun h => ?_⟩
  exact h.slugs _ List.mem_cons_self _ (List.mem_cons_of_mem _ List.mem_cons_self) (by decide) rfl

/-- The pages of a program of two routes that are apart. -/
theorem slugs_apart_apartTable :
    SlugsApart ⟨[⟨"/".toList, some 1, [], "index".toList⟩, notFoundPage]⟩ := by
  have hcheck : check ⟨[], some apartTable⟩ =
      .ok ⟨[⟨"/".toList, some 1, [], "index".toList⟩, notFoundPage]⟩ := rfl
  have hroot : ∀ url, Renders ⟨[], some apartTable⟩ apartTable url → url = ['/'] := by
    rintro url ⟨index, variant, values, hvariant, henumerable, hfits, rfl⟩
    match index with
    | 0 =>
        cases hvariant
        cases henumerable
    | 1 =>
        cases hvariant
        cases hfits
        decide
    | _ + 2 => cases hvariant
  refine (slugs_apart_iff hcheck rfl).mpr ⟨?_, ?_, ?_⟩
  · intro url url' hurl hurl' _
    rw [hroot url hurl, hroot url' hurl']
  · intro _ hindex
    have := hroot _ hindex
    revert this
    decide
  · intro url hurl hconfused
    have hlength := hconfused.length_eq
    rw [hroot url hurl] at hlength
    revert hlength
    decide

end Overwritten

end Routes
end Zdeceptron
