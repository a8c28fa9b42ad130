import Zdeceptron.Template.Sites

/-!
# Every bind reaches its node

The names are taken before anything has changed.  After them the binds run in document order, so
what has been inserted stands in holes that come before the bind at hand, and never between the
node its walk starts from and its target.
-/

namespace Zdeceptron
namespace Template

section Content

variable {roots : List Tpl} {content : Address → List Nat}

theorem others_map {new : List DomNode} (h : ∀ x ∈ new, x.isOther = true) :
    ∃ ks : List Nat, new = ks.map DomNode.other := by
  induction new with
  | nil => exact ⟨[], rfl⟩
  | cons x xs ih =>
      obtain ⟨ks, rfl⟩ := ih fun y hy => h y (List.mem_cons_of_mem _ hy)
      cases x with
      | other k => exact ⟨k :: ks, rfl⟩
      | _ => cases h _ List.mem_cons_self

theorem Holds.refill {m d : Dom} (h : Holds roots content m) {path : Address} {i : Nat}
    {ks : List Nat} (hclose : (node_at roots (path ++ [i + 1])).isSome = true)
    (hd : ∀ p, p.isOther = false → d.kids p = Template.refill (ks.map DomNode.other)
      (.tpl (path ++ [i])) (.tpl (path ++ [i + 1])) (m.kids p)) :
    Holds roots (Function.update content (path ++ [i]) ks) d := by
  intro path' children hchildren hne
  rw [hd _ (nodeOf_not_other path'), h path' children hchildren hne]
  by_cases heq : path' = path
  · subst heq
    obtain ⟨n, hn⟩ := Option.isSome_iff_exists.mp hclose
    obtain ⟨children', hchildren', hi⟩ := childrenAt_of_node hn
    cases hchildren.symm.trans hchildren'
    have hrefill := @refill_spread content path' ks 0 i children
      (List.getElem?_eq_some_iff.mp hi).1
    rwa [Nat.zero_add] at hrefill
  · have hother : ∀ j, path' ++ [j] ≠ path ++ [i] := fun j hj =>
      heq (List.append_inj' hj rfl).1
    rw [refill_none]
    · exact spread_congr fun j _ => (Function.update_of_ne (hother _) _ _).symm
    · intro hmem
      obtain ⟨j, -, hj | ⟨k, -, hk⟩⟩ := mem_spread.mp hmem
      · exact hother _ (DomNode.tpl.inj hj).symm
      · cases hk

theorem Holds.fill {m d : Dom} (h : Holds roots content m) {target : Address} {tag : String}
    {attributes : List (String × String)}
    (hnode : node_at roots target = some (.element tag attributes []))
    (hd : ∀ p, p.isOther = false → p ≠ .tpl target → d.kids p = m.kids p) :
    Holds roots content d := by
  intro path children hchildren hne
  rw [hd _ (nodeOf_not_other path), h path children hchildren hne]
  rintro heq
  cases path with
  | nil => cases heq
  | cons first rest =>
      cases heq
      cases hchildren.symm.trans (childrenAt_element hnode)
      simp at hne

end Content

section Invariant

variable {roots : List Tpl} {g : Graph} {sites : List Site}

def Knows (g : Graph) (assigned : Nat → Option Nat) (locals : Nat) (m : Machine) : Prop :=
  ∀ id name, assigned id = some name → name < locals ∧
    ∃ a, g.addresses[id]? = some a ∧ m.env name = some (.tpl a)

/-- The binds of these sites have run: they hold the anchors of their own holes, and others stand
only there and in the elements they fill. -/
structure Bound (roots : List Tpl) (ran : List Site) (m : Machine) : Prop where
  regions : ∀ {x y}, (x, y) ∈ m.regions → ∃ site ∈ ran, site.bind.kind.isHole = true ∧
    ∃ path i, site.bind.target = path ++ [i] ∧ x = .tpl (path ++ [i]) ∧
      y = some (.tpl (path ++ [i + 1]))
  owned : ∀ {x}, x ∈ m.owned → ∃ site ∈ ran, site.bind.kind.fills = true ∧
    x = .tpl site.bind.target
  holds : ∃ content, Holds roots content m.dom ∧ ∀ a, content a ≠ [] →
    ∃ site ∈ ran, site.bind.kind.isHole = true ∧ site.bind.target = a

structure Attached (roots : List Tpl) (g : Graph) (sites : List Site) : Prop where
  placed : ∀ site ∈ sites, Placed roots site.bind.target site.bind.kind
  right : ∀ site ∈ sites, SiteFor roots g site.bind site
  sorted : sites.Pairwise fun a b => a.anchor ≤ b.anchor
  distinct : sites.Pairwise fun a b => a.bind.kind.isHole = true → b.bind.kind.isHole = true →
    a.bind.target ≠ b.bind.target

variable {m : Machine}

theorem Bound.change (hsites : Attached roots g sites) {ran : List Site}
    (hran : ∀ site ∈ ran, site ∈ sites) (h : Bound roots ran m) {d : Dom}
    (hd : Change m d) : Bound roots ran { m with dom := d } := by
  refine ⟨h.regions, h.owned, ?_⟩
  obtain ⟨content, hholds, hcontent⟩ := h.holds
  cases hd with
  | refill hmem hnew hkids =>
      obtain ⟨site, hsite, hhole, path, i, htarget, rfl, hstop⟩ := h.regions hmem
      obtain rfl := Option.some.inj hstop
      obtain ⟨ks, rfl⟩ := others_map hnew
      obtain ⟨path', i', htarget', -, hclose⟩ :=
        (hsites.placed site (hran site hsite)).hole hhole
      obtain ⟨rfl, hi⟩ := List.append_inj' (htarget.symm.trans htarget') rfl
      cases hi
      refine ⟨_, hholds.refill (by rw [hclose]; rfl) hkids, fun a ha => ?_⟩
      rw [Function.update_apply] at ha
      split_ifs at ha with heq
      · exact ⟨site, hsite, hhole, by rw [htarget, heq]⟩
      · exact hcontent a ha
  | fill hmem hkids =>
      obtain ⟨site, hsite, hfills, rfl⟩ := h.owned hmem
      obtain ⟨tag, attributes, hnode⟩ := (hsites.placed site (hran site hsite)).fills hfills
      exact ⟨content, hholds.fill hnode hkids, hcontent⟩

variable {ran left : List Site} {site : Site}

theorem Bound.target (hg : Graph.Climbable roots g) (hsites : Attached roots g sites)
    (hsplit : sites = ran ++ site :: left)
    (h : Bound roots ran m) {a : Address} (ha : g.addresses[site.anchor]? = some a) :
    m.dom.follow (.tpl a) site.suffix = some (.tpl site.bind.target) := by
  obtain ⟨content, hholds, hcontent⟩ := h.holds
  have hmem : site ∈ sites := by simp [hsplit]
  have hsite := hsites.right site hmem
  obtain ⟨t, ht, hwalk⟩ := hsite.target
  refine hholds.follow hg hwalk ha ht fun n x hle hlt hx => ?_
  by_contra hne
  -- what stands after `x` was put there by a bind that has run
  obtain ⟨hole, hhole, hkind, rfl⟩ := hcontent x hne
  have hholeMem : hole ∈ sites := by
    rw [hsplit]
    exact List.mem_append_left _ hhole
  have hanchor : hole.anchor = n :=
    address_injective hg ((hsites.right hole hholeMem).own hkind) hx
  have hsorted : hole.anchor ≤ site.anchor := by
    have hpairwise := hsites.sorted
    rw [hsplit, List.pairwise_append] at hpairwise
    exact hpairwise.2.2 hole hhole site List.mem_cons_self
  obtain rfl : n = site.anchor := by omega
  have hsuffix : site.suffix ≠ [] := by
    intro hnil
    exact absurd (hwalk.eq_of_nil hnil) (Nat.ne_of_lt hlt)
  obtain ⟨path, tag, attributes, children, hpath, hnode⟩ := hsite.inside hsuffix
  obtain ⟨-, -, -, hopen, -⟩ := (hsites.placed hole hholeMem).hole hkind
  cases hx.symm.trans hpath
  rw [hopen] at hnode
  cases hnode

theorem Bound.closing (hsites : Attached roots g sites)
    (hsplit : sites = ran ++ site :: left) (h : Bound roots ran m)
    (hhole : site.bind.kind.isHole = true) : ∃ path i, site.bind.target = path ++ [i] ∧
      node_at roots (path ++ [i + 1]) = some (.anchor .close) ∧
      m.dom.nextSibling (.tpl site.bind.target) = some (.tpl (path ++ [i + 1])) := by
  obtain ⟨content, hholds, hcontent⟩ := h.holds
  obtain ⟨path, i, htarget, -, hclose⟩ :=
    (hsites.placed site (by simp [hsplit])).hole hhole
  refine ⟨path, i, htarget, hclose, ?_⟩
  rw [htarget]
  refine hholds.nextSibling (by rw [hclose]; rfl) ?_
  by_contra hne
  obtain ⟨hole, hmem, hkind, heq⟩ := hcontent _ hne
  have hdistinct := hsites.distinct
  rw [hsplit, List.pairwise_append] at hdistinct
  exact hdistinct.2.2 hole hmem site List.mem_cons_self hkind hhole (heq.trans htarget.symm)

theorem Bound.attached (hsites : Attached roots g sites)
    (hsplit : sites = ran ++ site :: left) (h : Bound roots ran m) :
    Bound roots (ran ++ [site]) (m.attached site.bind (.tpl site.bind.target)) := by
  have hold : ∀ s ∈ ran, s ∈ ran ++ [site] := fun s hs => List.mem_append_left _ hs
  refine ⟨fun {x y} hmem => ?_, fun {x} hmem => ?_, ?_⟩
  · simp only [Machine.attached] at hmem
    split_ifs at hmem with hhole
    · rcases List.mem_cons.mp hmem with heq | hmem
      · obtain ⟨path, i, htarget, -, hnext⟩ := h.closing hsites hsplit hhole
        cases heq
        exact ⟨site, by simp, hhole, path, i, htarget, by rw [htarget], hnext⟩
      · obtain ⟨s, hs, hrest⟩ := h.regions hmem
        exact ⟨s, hold s hs, hrest⟩
    · obtain ⟨s, hs, hrest⟩ := h.regions hmem
      exact ⟨s, hold s hs, hrest⟩
  · simp only [Machine.attached] at hmem
    split_ifs at hmem with hfills
    · rcases List.mem_cons.mp hmem with rfl | hmem
      · exact ⟨site, by simp, hfills, rfl⟩
      · obtain ⟨s, hs, hrest⟩ := h.owned hmem
        exact ⟨s, hold s hs, hrest⟩
    · obtain ⟨s, hs, hrest⟩ := h.owned hmem
      exact ⟨s, hold s hs, hrest⟩
  · obtain ⟨content, hholds, hcontent⟩ := h.holds
    refine ⟨content, hholds, fun a ha => ?_⟩
    obtain ⟨s, hs, hrest⟩ := hcontent a ha
    exact ⟨s, hold s hs, hrest⟩

theorem chain_eval (hg : Graph.Climbable roots g) {assigned : Nat → Option Nat} {locals : Nat}
    (hknows : Knows g assigned locals m) (hbound : Bound roots [] m) {id : Nat}
    {chain : Chain} (hchain : Emission.shortest_chain g assigned id = some chain) {a : Address}
    (ha : g.addresses[id]? = some a) : m.eval chain = some (.tpl a) := by
  obtain ⟨content, hholds, hcontent⟩ := hbound.holds
  have hnone : ∀ x, content x = [] := by
    intro x
    by_contra hne
    obtain ⟨site, hmem, -⟩ := hcontent x hne
    cases hmem
  unfold Emission.shortest_chain at hchain
  cases hnearest : g.nearest_named assigned id with
  | some up =>
      obtain ⟨name, steps⟩ := up
      simp only [hnearest, Option.some.injEq] at hchain
      subst hchain
      obtain ⟨p, hp, hwalk⟩ := Graph.nearest_named_walk hnearest
      obtain ⟨-, b, hb, henv⟩ := hknows p name hp
      simp only [Machine.eval, henv, Option.bind_some]
      exact hholds.follow hg hwalk hb ha fun n x _ _ _ => hnone x
  | none =>
      simp only [hnearest, Option.map_eq_some_iff] at hchain
      obtain ⟨steps, hroute, rfl⟩ := hchain
      -- the first node of the graph is the first of the roots
      have hlength : 0 < g.addresses.length := by
        have hlt := (List.getElem?_eq_some_iff.mp ha).1
        omega
      obtain ⟨n, ns, rfl⟩ : ∃ n ns, roots = n :: ns := by
        cases roots with
        | nil =>
            rw [hg.addresses] at hlength
            exact absurd hlength (Nat.lt_irrefl 0)
        | cons n ns => exact ⟨n, ns, rfl⟩
      have hfirst : g.addresses[0]? = some [0] := by
        obtain ⟨rest, hrest⟩ := Graph.addresses_ne_nil [0] n
        rw [hg.addresses, preorder, List.nil_append, hrest]
        rfl
      have hchild : m.dom.firstChild .fragment = some (.tpl [0]) :=
        @Holds.firstChild _ _ _ hholds [] rfl
      simp only [Machine.eval, hchild, Option.bind_some]
      exact hholds.follow hg (Graph.route_walk hroute) hfirst ha fun n x _ _ _ => hnone x

end Invariant

section Runs

variable {roots : List Tpl} {g : Graph} {sites : List Site}

/-- Some nodes are still to be named, or none is and some binds have run. -/
structure Stage (roots : List Tpl) (g : Graph) (sites : List Site) (m : Machine)
    (rest : List Stmt) : Prop where
  parts : ∃ assigned locals ids walked ran left stmts,
    (∀ id ∈ ids, id < g.addresses.length) ∧
      Emission.walk g assigned locals ids = some walked ∧
      sites = ran ++ left ∧ left.mapM (Emission.attach walked.2) = some stmts ∧
      rest = walked.1 ++ stmts ∧ Knows g assigned locals m ∧ Bound roots ran m ∧
      (ids = [] ∨ ran = [])

variable {rest : List Stmt} {m : Machine}

theorem Stage.change (hsites : Attached roots g sites)
    (h : Stage roots g sites m rest) {d : Dom} (hd : Change m d) :
    Stage roots g sites { m with dom := d } rest := by
  obtain ⟨assigned, locals, ids, walked, ran, left, stmts, hids, hwalk, hsplit, hstmts, hrest,
    hknows, hbound, hphase⟩ := h.parts
  refine ⟨assigned, locals, ids, walked, ran, left, stmts, hids, hwalk, hsplit, hstmts, hrest,
    hknows, hbound.change hsites (fun s hs => ?_) hd, hphase⟩
  rw [hsplit]
  exact List.mem_append_left _ hs

theorem Stage.cases (hg : Graph.Climbable roots g) {stmt : Stmt}
    (h : Stage roots g sites m (stmt :: rest)) :
    (∃ assigned locals id ids walked left stmts chain a,
      stmt = .const locals chain ∧ g.addresses[id]? = some a ∧ m.eval chain = some (.tpl a) ∧
        (∀ n ∈ ids, n < g.addresses.length) ∧
        Emission.walk g (Function.update assigned id (some locals)) (locals + 1) ids = some walked ∧
        sites = left ∧ left.mapM (Emission.attach walked.2) = some stmts ∧
        rest = walked.1 ++ stmts ∧ Knows g assigned locals m ∧ Bound roots [] m) ∨
    (∃ assigned locals ran site left name,
      stmt = .attach site.bind (.named name site.suffix) ∧ assigned site.anchor = some name ∧
        sites = ran ++ site :: left ∧ left.mapM (Emission.attach assigned) = some rest ∧
        Knows g assigned locals m ∧ Bound roots ran m) := by
  obtain ⟨assigned, locals, ids, walked, ran, left, stmts, hids, hwalk, hsplit, hstmts, hrest,
    hknows, hbound, hphase⟩ := h.parts
  cases ids with
  | cons id ids =>
      left
      obtain rfl : ran = [] := hphase.resolve_left (by simp)
      simp only [Emission.walk, Option.bind_eq_some_iff, Option.map_eq_some_iff] at hwalk
      obtain ⟨chain, hchain, rest', hrest', rfl⟩ := hwalk
      obtain ⟨rfl, rfl⟩ := List.cons.inj hrest
      have hid := hids id List.mem_cons_self
      obtain ⟨a, ha⟩ : ∃ a, g.addresses[id]? = some a := ⟨_, List.getElem?_eq_getElem hid⟩
      exact ⟨assigned, locals, id, ids, rest', left, stmts, chain, a, rfl, ha,
        chain_eval hg hknows hbound hchain ha, fun n hn => hids n (List.mem_cons_of_mem _ hn),
        hrest', hsplit, hstmts, rfl, hknows, hbound⟩
  | nil =>
      right
      cases hwalk
      rw [List.nil_append] at hrest
      subst hrest
      cases left with
      | nil => cases hstmts
      | cons site left =>
          simp only [List.mapM_cons, Option.bind_eq_bind, Option.bind_eq_some_iff] at hstmts
          obtain ⟨stmt', hstmt', rest', hrest', hcons⟩ := hstmts
          cases hcons
          obtain ⟨name, hname, rfl⟩ := Option.map_eq_some_iff.mp hstmt'
          exact ⟨assigned, locals, ran, site, left, name, rfl, hname, hsplit, hrest', hknows,
            hbound⟩

theorem Stage.const (hg : Graph.Climbable roots g) {name : Nat} {chain : Chain}
    (h : Stage roots g sites m (.const name chain :: rest)) {x : DomNode}
    (hx : m.eval chain = some x) :
    Stage roots g sites { m with env := Function.update m.env name (some x) } rest := by
  rcases h.cases hg with
    ⟨assigned, locals, id, ids, walked, left, stmts, chain', a, hstmt, ha, heval, hids, hwalk,
      hsplit, hstmts, hrest, hknows, hbound⟩ | ⟨_, _, _, _, _, _, hstmt, -⟩
  · cases hstmt
    cases heval.symm.trans hx
    refine ⟨_, name + 1, ids, walked, [], left, stmts, hids, hwalk, hsplit, hstmts, hrest,
      fun n taken hname => ?_, ⟨hbound.regions, hbound.owned, hbound.holds⟩, Or.inr rfl⟩
    rw [Function.update_apply] at hname
    split_ifs at hname with heq
    · cases hname
      exact ⟨Nat.lt_succ_self _, a, heq ▸ ha, Function.update_self ..⟩
    · obtain ⟨hlt, b, hb, henv⟩ := hknows n taken hname
      exact ⟨by omega, b, hb, (Function.update_of_ne (by omega) _ _).trans henv⟩
  · cases hstmt

theorem Stage.target (hg : Graph.Climbable roots g) (hsites : Attached roots g sites)
    {ran left : List Site} {site : Site} (hsplit : sites = ran ++ site :: left)
    {assigned : Nat → Option Nat} {locals name : Nat} (hname : assigned site.anchor = some name)
    (hknows : Knows g assigned locals m) (hbound : Bound roots ran m) :
    m.eval (.named name site.suffix) = some (.tpl site.bind.target) := by
  obtain ⟨-, a, ha, henv⟩ := hknows _ name hname
  simp only [Machine.eval, henv, Option.bind_some]
  exact hbound.target hg hsites hsplit ha

theorem Stage.attach (hg : Graph.Climbable roots g) (hsites : Attached roots g sites)
    {b : Bind} {target : Chain} (h : Stage roots g sites m (.attach b target :: rest)) {x : DomNode}
    (hx : m.eval target = some x) : Stage roots g sites (m.attached b x) rest := by
  rcases h.cases hg with
    ⟨_, _, _, _, _, _, _, _, _, hstmt, -⟩ |
    ⟨assigned, locals, ran, site, left, name, hstmt, hname, hsplit, hstmts, hknows, hbound⟩
  · cases hstmt
  · cases hstmt
    cases (Stage.target hg hsites hsplit hname hknows hbound).symm.trans hx
    refine ⟨assigned, locals, [], ([], assigned), ran ++ [site], left, rest, by simp, rfl, ?_,
      hstmts, rfl, hknows, hbound.attached hsites hsplit, Or.inl rfl⟩
    rw [hsplit, List.append_assoc, List.singleton_append]

theorem Stage.runs (hg : Graph.Climbable roots g) (hsites : Attached roots g sites)
    {m m' : Machine} {stmts rest : List Stmt} (h : Stage roots g sites m stmts)
    (hruns : Runs m stmts m' rest) : Stage roots g sites m' rest := by
  induction hruns with
  | refl => exact h
  | const _ hx ih => exact (ih h).const hg hx
  | attach _ hx ih => exact (ih h).attach hg hsites hx
  | change _ hd ih => exact (ih h).change hsites hd

end Runs

section Emitted

def Stmt.bind? : Stmt → Option Bind
  | .const _ _ => none
  | .attach b _ => some b

variable {g : Graph}

theorem walk_binds : ∀ {ids : List Nat} {assigned : Nat → Option Nat} {locals : Nat}
    {walked : List Stmt × (Nat → Option Nat)}, Emission.walk g assigned locals ids = some walked →
    walked.1.filterMap Stmt.bind? = []
  | [], _, _, walked, h => by
      cases h
      rfl
  | id :: ids, assigned, locals, walked, h => by
      simp only [Emission.walk, Option.bind_eq_some_iff, Option.map_eq_some_iff] at h
      obtain ⟨chain, -, rest, hrest, rfl⟩ := h
      show rest.1.filterMap Stmt.bind? = []
      exact walk_binds hrest

theorem attach_binds {assigned : Nat → Option Nat} : ∀ {sites : List Site} {stmts : List Stmt},
    sites.mapM (Emission.attach assigned) = some stmts →
    stmts.filterMap Stmt.bind? = sites.map Site.bind
  | [], stmts, h => by
      cases h
      rfl
  | site :: sites, stmts, h => by
      simp only [List.mapM_cons, Option.bind_eq_bind, Option.bind_eq_some_iff] at h
      obtain ⟨stmt, hstmt, rest, hrest, hcons⟩ := h
      cases hcons
      obtain ⟨name, -, rfl⟩ := Option.map_eq_some_iff.mp hstmt
      rw [List.map_cons, ← attach_binds hrest]
      rfl

theorem attach_some {assigned : Nat → Option Nat} : ∀ {sites : List Site},
    (∀ site ∈ sites, (assigned site.anchor).isSome = true) →
    ∃ stmts, sites.mapM (Emission.attach assigned) = some stmts
  | [], _ => ⟨[], rfl⟩
  | site :: sites, h => by
      obtain ⟨stmts, hstmts⟩ := attach_some fun s hs => h s (List.mem_cons_of_mem _ hs)
      obtain ⟨name, hname⟩ := Option.isSome_iff_exists.mp (h site List.mem_cons_self)
      refine ⟨.attach site.bind (.named name site.suffix) :: stmts, ?_⟩
      rw [List.mapM_cons, hstmts, Emission.attach, hname]
      rfl

theorem forall₂_binds {roots : List Tpl} {binds : List Bind} {sites : List Site}
    (h : List.Forall₂ (SiteFor roots g) binds sites) : sites.map Site.bind = binds := by
  induction h with
  | nil => rfl
  | cons hsite _ ih => rw [List.map_cons, hsite.bind, ih]

theorem attached_sites {roots : List Tpl} (hg : Graph.Climbable roots g)
    {binds : List Bind} (hplaced : AllPlaced roots binds) (hholes : (holes binds).Nodup) :
    ∃ sites, Emission.sites g roots binds = some sites ∧ sites.map Site.bind = binds ∧
      Attached roots g (sites.mergeSort fun a b => a.anchor ≤ b.anchor) := by
  obtain ⟨sites, hsites, hfor⟩ := sites_for hg hplaced
  have hbinds := forall₂_binds hfor
  have hmem : ∀ site ∈ sites, site.bind ∈ binds ∧ SiteFor roots g site.bind site := by
    clear hsites hbinds hplaced hholes
    induction hfor with
    | nil => rintro site ⟨⟩
    | cons hsite _ ih =>
        intro site hmem
        rcases List.mem_cons.mp hmem with rfl | hmem
        · rw [hsite.bind]
          exact ⟨List.mem_cons_self, hsite⟩
        · exact ⟨List.mem_cons_of_mem _ (ih site hmem).1, (ih site hmem).2⟩
  have hperm := List.mergeSort_perm sites fun a b : Site => a.anchor ≤ b.anchor
  refine ⟨sites, hsites, hbinds, ⟨fun site hsite => ?_, fun site hsite => ?_, ?_, ?_⟩⟩
  · exact hplaced _ (hmem site (hperm.mem_iff.mp hsite)).1
  · exact (hmem site (hperm.mem_iff.mp hsite)).2
  · have hsorted := @List.pairwise_mergeSort Site (fun a b => a.anchor ≤ b.anchor)
      (by simpa using fun a b c => Nat.le_trans) (by simpa using fun a b => Nat.le_total _ _) sites
    simpa using hsorted
  · -- no two binds of the region fill one hole
    have hpairwise : sites.Pairwise fun a b => a.bind.kind.isHole = true →
        b.bind.kind.isHole = true → a.bind.target ≠ b.bind.target := by
      rw [← hbinds, holes, List.Nodup, List.pairwise_map, List.pairwise_filter,
        List.pairwise_map] at hholes
      exact hholes
    exact (hperm.pairwise_iff fun {a b} h ha hb heq => h hb ha heq.symm).mpr hpairwise

end Emitted

end Template
end Zdeceptron
