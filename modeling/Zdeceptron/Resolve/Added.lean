import Zdeceptron.Resolve.Names

/-!
# A declaration more in another file

The table of a program with a declaration more answers as before to the names the program has
already, with the indices moved past it.
-/

namespace Zdeceptron
namespace Resolve

section Shift

theorem shift_lt_iff {k n i : Nat} (hn : n ≤ k) : shift k i < n ↔ i < n := by
  unfold shift
  split_ifs <;> omega

theorem shift_surjective {k j : Nat} (hj : j ≠ k) : ∃ i, j = shift k i := by
  unfold shift
  by_cases hlt : j < k
  · exact ⟨j, by simp [hlt]⟩
  · refine ⟨j - 1, ?_⟩
    split_ifs <;> omega

theorem getElem?_shift {α : Type*} (front after : List α) (x : α) (i : Nat) :
    (front ++ x :: after)[shift front.length i]? = (front ++ after)[i]? := by
  unfold shift
  split_ifs with hlt
  · rw [List.getElem?_append_left hlt, List.getElem?_append_left hlt]
  · rw [List.getElem?_append_right (by omega), List.getElem?_append_right (by omega),
      Nat.sub_add_comm (by omega), List.getElem?_cons_succ]

end Shift

section Adding

variable {P : Linked} {before after : List (Nat × Decl)} {m' : Nat} {d : Decl}

def Linked.front (P : Linked) (before : List (Nat × Decl)) : List (Nat × Decl) :=
  P.prelude.map (fun d => (0, d)) ++ before

theorem front_length (P : Linked) (before : List (Nat × Decl)) :
    (P.front before).length = P.prelude.length + before.length := by
  simp [Linked.front]

theorem all_eq (hdecls : P.decls = before ++ after) : P.all = P.front before ++ after := by
  simp [Linked.all, Linked.front, hdecls]

theorem adding_all : (P.adding before (m', d) after).all = P.front before ++ (m', d) :: after := by
  simp [Linked.all, Linked.front, Linked.adding]

variable {e : Decl}

theorem declaredAt_shift (hdecls : P.decls = before ++ after) {i m : Nat} :
    DeclaredAt (P.adding before (m', d) after).all
        (shift (P.prelude.length + before.length) i) m e ↔ DeclaredAt P.all i m e := by
  unfold DeclaredAt
  rw [adding_all, all_eq hdecls, ← front_length P before, getElem?_shift]

theorem declaredAt_added {m : Nat} :
    DeclaredAt (P.adding before (m', d) after).all (P.prelude.length + before.length) m e ↔
      (m', d) = (m, e) := by
  unfold DeclaredAt
  rw [adding_all, ← front_length P before]
  simp

theorem decl_shift (hdecls : P.decls = before ++ after) (i : Nat) :
    (P.adding before (m', d) after).decl (shift (P.prelude.length + before.length) i) =
      P.decl i := by
  unfold Linked.decl
  rw [adding_all, all_eq hdecls, ← front_length P before, getElem?_shift]

theorem declaredAt_adding (hdecls : P.decls = before ++ after) {p : Decl → Prop} (hd : ¬ p d)
    {m j : Nat} (he : DeclaredAt (P.adding before (m', d) after).all j m e) (hp : p e) :
    ∃ i, j = shift (P.prelude.length + before.length) i ∧ DeclaredAt P.all i m e := by
  by_cases hj : j = P.prelude.length + before.length
  · subst hj
    cases declaredAt_added.mp he
    exact absurd hp hd
  · obtain ⟨i, rfl⟩ := shift_surjective hj
    exact ⟨i, rfl, (declaredAt_shift hdecls).mp he⟩

theorem sees_shift (hdecls : P.decls = before ++ after) {m i : Nat} :
    (P.adding before (m', d) after).Sees m (shift (P.prelude.length + before.length) i) ↔
      P.Sees m i := by
  unfold Linked.Sees
  simp only [declaredAt_shift hdecls]
  have hlt : shift (P.prelude.length + before.length) i <
      (P.adding before (m', d) after).prelude.length ↔ i < P.prelude.length :=
    shift_lt_iff (Nat.le_add_right P.prelude.length before.length)
  simp only [hlt]
  rfl

theorem separate_perm {entries entries' : List (Nat × Decl)} (hperm : entries.Perm entries')
    (h : Separate entries) : Separate entries' where
  names := (hperm.filterMap _).nodup_iff.mp h.names
  variants := (hperm.flatMap_right _).nodup_iff.mp h.variants
  provided v hv := h.provided v ((hperm.flatMap_right _).mem_iff.mpr hv)
  views := by
    rw [← (hperm.filter _).length_eq]
    exact h.views

variable {n : String}

theorem unused_name (hd : P.Unused d) (hn : P.Uses n) : d.name ≠ some n := by
  obtain ⟨n', hname, hunused⟩ := hd.name
  rintro heq
  rw [hname, Option.some.injEq] at heq
  exact hunused (heq ▸ hn)

theorem unused_variant (hd : P.Unused d) (hn : P.Uses n) : n ∉ d.variants :=
  fun hmem => (hd.variants n hmem).1 hn

theorem isView_of_name (hname : d.name = some n) : d.isView = false := by
  cases d <;> first | rfl | cases hname

theorem adding_collects (m' : Nat) (hdecls : P.decls = before ++ after) (hd : P.Unused d)
    (h : P.Collects) : (P.adding before (m', d) after).Collects := by
  refine ⟨?_, fun m import_ himport => ?_⟩
  · have hperm : (P.all ++ [(m', d)]).Perm (P.adding before (m', d) after).all := by
      rw [adding_all, all_eq hdecls, List.append_assoc]
      exact (List.perm_append_singleton _ _).append_left _
    refine separate_perm hperm (separate_append.mpr ⟨h.separate, hd.apart, ?_, ?_, ?_⟩)
    · intro v hv
      refine ⟨(hd.variants v hv).2, fun hmem => (hd.variants v hv).1 (Or.inl ?_)⟩
      obtain ⟨entry, hentry, hv'⟩ := List.mem_flatMap.mp hmem
      exact ⟨entry, hentry, Or.inr (Or.inl hv')⟩
    · intro n hn hmem
      obtain ⟨entry, hentry, hname⟩ := List.mem_filterMap.mp hmem
      exact unused_name hd (Or.inl ⟨entry, hentry, Or.inl hname⟩) hn
    · intro hview
      obtain ⟨n, hname, -⟩ := hd.name
      simp [isView_of_name hname] at hview
  · obtain ⟨i, e, he, hname⟩ := h.found m import_ himport
    exact ⟨_, e, (declaredAt_shift hdecls).mpr he, hname⟩

end Adding

section Answers

variable {P : Linked} {before after : List (Nat × Decl)} {m' : Nat} {d : Decl}
  {table table' : GlobalTable}

variable {n : String}

theorem lookup_adding (hdecls : P.decls = before ++ after) (hd : P.Unused d)
    (ht : Tabled P table) (ht' : Tabled (P.adding before (m', d) after) table') (hn : P.Uses n) :
    table'.lookup n = (table.lookup n).map (shift (P.prelude.length + before.length)) := by
  refine Option.ext fun j => ?_
  unfold GlobalTable.lookup
  rw [ht'.names, Option.map_eq_some_iff]
  constructor
  · rintro ⟨m, e, he, hname⟩
    obtain ⟨i, rfl, hi⟩ := declaredAt_adding hdecls (p := fun e => e.name = some n)
      (unused_name hd hn) he hname
    exact ⟨i, (ht.names n i).mpr ⟨m, e, hi, hname⟩, rfl⟩
  · rintro ⟨i, hi, rfl⟩
    obtain ⟨m, e, he, hname⟩ := (ht.names n i).mp hi
    exact ⟨m, e, (declaredAt_shift hdecls).mpr he, hname⟩

theorem lookup_in_adding (hdecls : P.decls = before ++ after) (hd : P.Unused d)
    (ht : Tabled P table) (ht' : Tabled (P.adding before (m', d) after) table') (m : Nat)
    (hn : P.Uses n) :
    table'.lookup_in m n =
      (table.lookup_in m n).map (shift (P.prelude.length + before.length)) := by
  refine Option.ext fun j => ?_
  unfold GlobalTable.lookup_in
  rw [ht'.visible, Option.map_eq_some_iff]
  constructor
  · rintro ⟨⟨m₁, e, he, hname⟩, hsees⟩
    obtain ⟨i, rfl, hi⟩ := declaredAt_adding hdecls (p := fun e => e.name = some n)
      (unused_name hd hn) he hname
    exact ⟨i, (ht.visible m n i).mpr ⟨⟨m₁, e, hi, hname⟩, (sees_shift hdecls).mp hsees⟩, rfl⟩
  · rintro ⟨i, hi, rfl⟩
    obtain ⟨⟨m₁, e, he, hname⟩, hsees⟩ := (ht.visible m n i).mp hi
    exact ⟨⟨m₁, e, (declaredAt_shift hdecls).mpr he, hname⟩, (sees_shift hdecls).mpr hsees⟩

theorem variant_adding (hdecls : P.decls = before ++ after) (hd : P.Unused d)
    (ht : Tabled P table) (ht' : Tabled (P.adding before (m', d) after) table')
    {v : String} (hv : P.Uses v) :
    table'.variant v = (table.variant v).map
      fun p => (shift (P.prelude.length + before.length) p.1, p.2) := by
  refine Option.ext fun ⟨j, position⟩ => ?_
  unfold GlobalTable.variant
  rw [ht'.variants, Option.map_eq_some_iff]
  constructor
  · rintro ⟨m, e, he, hmem⟩
    obtain ⟨i, rfl, hi⟩ := declaredAt_adding hdecls (p := fun e => e.variants[position]? = some v)
      (fun hin => unused_variant hd hv (List.mem_of_getElem? hin)) he hmem
    exact ⟨(i, position), (ht.variants v i position).mpr ⟨m, e, hi, hmem⟩, rfl⟩
  · rintro ⟨⟨i, position'⟩, hi, heq⟩
    cases heq
    obtain ⟨m, e, he, hmem⟩ := (ht.variants v i position').mp hi
    exact ⟨m, e, (declaredAt_shift hdecls).mpr he, hmem⟩

theorem is_declared_elsewhere_adding (hdecls : P.decls = before ++ after) (hd : P.Unused d)
    (ht : Tabled P table) (ht' : Tabled (P.adding before (m', d) after) table') (m : Nat)
    (hn : P.Uses n) :
    table'.is_declared_elsewhere m n = table.is_declared_elsewhere m n := by
  have hlookup := lookup_adding hdecls hd ht ht' hn
  unfold GlobalTable.lookup at hlookup
  simp [GlobalTable.is_declared_elsewhere, hlookup, lookup_in_adding hdecls hd ht ht' m hn]

theorem undefined_adding (hdecls : P.decls = before ++ after) (hd : P.Unused d)
    (ht : Tabled P table) (ht' : Tabled (P.adding before (m', d) after) table') (m k : Nat)
    (hn : P.Uses n) :
    undefined table' m n = (undefined table m n).map (Res.moved k) := by
  unfold undefined
  rw [is_declared_elsewhere_adding hdecls hd ht ht' m hn]
  split_ifs <;> rfl

theorem global_name_adding (hdecls : P.decls = before ++ after) (hd : P.Unused d)
    (ht : Tabled P table) (ht' : Tabled (P.adding before (m', d) after) table') (m : Nat)
    (hn : P.Uses n) :
    global_name table' m n =
      (global_name table m n).map (Res.moved (P.prelude.length + before.length)) := by
  unfold global_name
  rw [lookup_in_adding hdecls hd ht ht' m hn, variant_adding hdecls hd ht ht' hn]
  cases table.lookup_in m n with
  | some i => rfl
  | none =>
      cases table.variant n with
      | some p => rfl
      | none =>
          simp only [Option.map_none]
          split_ifs <;> rfl

section Kinds

variable (hdecls : P.decls = before ++ after) (i : Nat)
include hdecls

theorem is_component_shift :
    is_component (P.adding before (m', d) after) (shift (P.prelude.length + before.length) i) =
      is_component P i := by
  simp only [is_component, decl_shift hdecls]

theorem is_view_foreign_shift :
    is_view_foreign (P.adding before (m', d) after) (shift (P.prelude.length + before.length) i) =
      is_view_foreign P i := by
  simp only [is_view_foreign, decl_shift hdecls]

theorem is_foreign_shift :
    is_foreign (P.adding before (m', d) after) (shift (P.prelude.length + before.length) i) =
      is_foreign P i := by
  simp only [is_foreign, decl_shift hdecls]

theorem declares_type_shift :
    declares_type (P.adding before (m', d) after) (shift (P.prelude.length + before.length) i) =
      declares_type P i := by
  simp only [declares_type, decl_shift hdecls]

end Kinds

theorem resolve_adding (hdecls : P.decls = before ++ after) (hd : P.Unused d)
    (ht : Tabled P table) (ht' : Tabled (P.adding before (m', d) after) table') (m : Nat)
    {w : Written} (hw : P.Uses w.name) :
    resolve (P.adding before (m', d) after) table' m w =
      (resolve P table m w).map (Res.moved (P.prelude.length + before.length)) := by
  have hglobal := global_name_adding hdecls hd ht ht' m hw
  have hundefined := undefined_adding hdecls hd ht ht' m (P.prelude.length + before.length) hw
  have helsewhere := is_declared_elsewhere_adding hdecls hd ht ht' m hw
  have hlookup := lookup_adding hdecls hd ht ht' hw
  have hlookupIn := lookup_in_adding hdecls hd ht ht' m hw
  have hvariant := variant_adding hdecls hd ht ht' hw
  unfold resolve
  cases w.position with
  | value =>
      have hcomponent : (table'.lookup_in m w.name).any (is_component (P.adding before (m', d) after))
          = (table.lookup_in m w.name).any (is_component P) := by
        rw [hlookupIn]
        cases table.lookup_in m w.name <;> simp [is_component_shift hdecls]
      simp only [value_name, hcomponent, hglobal]
      split_ifs
      · rfl
      · rfl
      · cases global_name table m w.name with
        | some r => rfl
        | none => exact hundefined
  | callee =>
      simp only [callee_name, hglobal]
      cases global_name table m w.name with
      | some r => rfl
      | none =>
          simp only [Option.map_none]
          split_ifs
          · rfl
          · exact hundefined
  | accessor =>
      simp only [of_name, hglobal, helsewhere]
      cases global_name table m w.name with
      | some r => rfl
      | none =>
          simp only [Option.map_none]
          split_ifs <;> rfl
  | element =>
      simp only [element_name, hlookupIn]
      split_ifs
      · rfl
      · cases table.lookup_in m w.name with
        | none => exact hundefined
        | some i =>
            simp only [Option.map_some, is_component_shift hdecls, is_view_foreign_shift hdecls,
              is_foreign_shift hdecls]
            split_ifs <;> rfl
  | type_ =>
      simp only [type_name, hlookupIn, helsewhere]
      split_ifs
      · rfl
      · rfl
      · cases table.lookup_in m w.name with
        | none => rfl
        | some i =>
            simp only [Option.map_some, declares_type_shift hdecls]
            split_ifs <;> rfl
  | signature =>
      simp only [asserted_type, hlookup]
      split_ifs
      · rfl
      · cases table.lookup w.name with
        | none => rfl
        | some i =>
            simp only [Option.map_some, declares_type_shift hdecls]
            split_ifs <;> rfl
  | pattern =>
      simp only [pattern_name, hvariant]
      split_ifs
      · rfl
      · cases table.variant w.name with
        | none => rfl
        | some p => rfl
  | binding =>
      simp only [reject_shadow, hlookup, hvariant, Option.isSome_map]
      split_ifs <;> rfl

theorem uses_of_writes {m : Nat} {w : Written} (hw : P.Writes m w) : P.Uses w.name := by
  obtain ⟨entry, hentry, -, hmem⟩ := hw
  refine Or.inl ⟨entry, ?_, Or.inr (Or.inr ⟨w, hmem, rfl⟩)⟩
  simp [Linked.all, hentry]

theorem unmoved (h : collect_linked P = .ok table) (hdecls : P.decls = before ++ after)
    (hd : P.Unused d) :
    ∃ table', collect_linked (P.adding before (m', d) after) = .ok table' ∧
      ∀ m w, m ≠ m' → P.Writes m w → resolve (P.adding before (m', d) after) table' m w =
          (resolve P table m w).map (Res.moved (P.prelude.length + before.length)) := by
  obtain ⟨table', h'⟩ := collect_linked_ok.mpr
    (adding_collects m' hdecls hd (collect_linked_ok.mp ⟨table, h⟩))
  exact ⟨table', h', fun m w _ hw => resolve_adding hdecls hd (collect_linked_tabled h)
    (collect_linked_tabled h') m (uses_of_writes hw)⟩

end Answers

section Main

variable {P : Linked} {table : GlobalTable}

/-- A program that resolves keeps its modules apart exactly when each of them takes for a
variant, and names in a `foreign`, only what it sees. -/
theorem respects_iff (h : P.Resolves table) : P.Respects table ↔ P.NamesItsOwn := by
  constructor
  · intro hrespects
    exact (allowed_iff h.1).mp hrespects.allowed
  · intro hown
    exact ⟨(allowed_iff h.1).mpr hown, fun before after m' d hdecls hd => unmoved h.1 hdecls hd⟩

/-- A file with a choice and a state, and one that borrows some of it and names a variant. -/
def picking (borrowed : List Import) : Linked where
  prelude := []
  decls := [(1, .choice "Filter" [("All", []), ("Done", [])]),
    (1, .state "total" (.named "Whole") (.starting (.form []))),
    (0, .function "pick" ["x"] [.give (.var "All")])]
  imports := [borrowed, []]

variable {borrowed : List Import}

theorem picking_resolves (h : (collecting (picking borrowed)).errors = [])
    (hvariant : resolve (picking borrowed) (collecting (picking borrowed)).table 0
      ⟨.value, "All", [[], ["x"]]⟩ = .ok (.variant 0 0))
    (htype : resolve (picking borrowed) (collecting (picking borrowed)).table 1
      ⟨.type_, "Whole", []⟩ = .ok (.builtin "Whole")) :
    (picking borrowed).Resolves (collecting (picking borrowed)).table := by
  refine ⟨by simp [collect_linked, h], ?_⟩
  intro entry hentry w hw
  simp only [picking, Linked.all, List.map_nil, List.nil_append, List.mem_cons,
    List.not_mem_nil, or_false] at hentry
  rcases hentry with rfl | rfl | rfl
  · simp [Decl.written] at hw
  · obtain rfl : w = ⟨.type_, "Whole", []⟩ := by
      simpa [Decl.written, Init.written, Expr.written, writtenExprs, TypeExpr.written] using hw
    exact ⟨_, htype⟩
  · obtain rfl : w = ⟨.value, "All", [[], ["x"]]⟩ := by
      simpa [Decl.written, Scopes.declareAll, Scopes.declare, Scopes.push, writtenStmts,
        Stmt.written, Expr.written] using hw
    exact ⟨_, hvariant⟩

theorem picking_writes {m : Nat} {w : Written} (hw : (picking borrowed).Writes m w) :
    (m = 1 ∧ w = ⟨.type_, "Whole", []⟩) ∨ (m = 0 ∧ w = ⟨.value, "All", [[], ["x"]]⟩) := by
  obtain ⟨entry, hentry, rfl, hmem⟩ := hw
  simp only [picking, List.mem_cons, List.not_mem_nil, or_false] at hentry
  rcases hentry with rfl | rfl | rfl
  · simp [Decl.written] at hmem
  · left
    simpa [Decl.written, Init.written, Expr.written, writtenExprs, TypeExpr.written] using hmem
  · right
    simpa [Decl.written, Scopes.declareAll, Scopes.declare, Scopes.push, writtenStmts,
      Stmt.written, Expr.written] using hmem

/-- The variants of a choice that is imported may be named. -/
theorem imported_respects :
    (picking [⟨"total", 1⟩, ⟨"Filter", 1⟩]).Respects
      (collecting (picking [⟨"total", 1⟩, ⟨"Filter", 1⟩])).table := by
  refine (respects_iff (picking_resolves (by decide +kernel) (by decide +kernel)
    (by decide +kernel))).mpr ⟨?_, ?_⟩
  · intro m w hw hvariant i m' d hd hmem
    rcases picking_writes hw with ⟨rfl, rfl⟩ | ⟨rfl, rfl⟩
    · rcases hvariant with h | ⟨⟨h, -⟩ | h | h, -⟩ <;> cases h
    · have hin := List.mem_of_getElem? hd
      simp only [picking, Linked.all, List.map_nil, List.nil_append, List.mem_cons,
        Prod.mk.injEq, List.not_mem_nil, or_false] at hin
      rcases hin with ⟨rfl, rfl⟩ | ⟨-, rfl⟩ | ⟨-, rfl⟩
      · exact ⟨1, _, hd, Or.inr (Or.inr ⟨⟨"Filter", 1⟩, ⟨_, rfl, by simp⟩, rfl, rfl⟩)⟩
      · simp [Decl.variants] at hmem
      · simp [Decl.variants] at hmem
  · intro m w hw hposition
    rcases picking_writes hw with ⟨-, rfl⟩ | ⟨-, rfl⟩ <;> cases hposition

/-- A variant refers to a choice of another file that is not imported. -/
theorem borrowed_variant_not_respects :
    ∃ table, (picking [⟨"total", 1⟩]).Resolves table ∧
      ¬ (picking [⟨"total", 1⟩]).Respects table := by
  refine ⟨_, picking_resolves (by decide +kernel) (by decide +kernel) (by decide +kernel), ?_⟩
  intro hrespects
  have hsees := hrespects.allowed 0 ⟨.value, "All", [[], ["x"]]⟩
    ⟨(0, .function "pick" ["x"] [.give (.var "All")]), by simp [picking], rfl,
      by simp [Decl.written, Scopes.declareAll, Scopes.declare, Scopes.push, writtenStmts,
        Stmt.written, Expr.written]⟩ (.variant 0 0) (by decide +kernel)
  obtain ⟨m', d, hd, hlt | rfl | ⟨import_, ⟨borrowed, hborrowed, hmem⟩, hname, -⟩⟩ := hsees
  · simp [picking] at hlt
  · simp [DeclaredAt, picking, Linked.all] at hd
  · obtain rfl : [⟨"total", 1⟩] = borrowed := by simpa [picking] using hborrowed
    obtain rfl : import_ = ⟨"total", 1⟩ := by simpa using hmem
    simp only [DeclaredAt, picking, Linked.all, List.map_nil, List.nil_append,
      List.getElem?_cons_zero, Option.some.injEq, Prod.mk.injEq] at hd
    obtain ⟨-, rfl⟩ := hd
    simp [Decl.name] at hname

end Main

end Resolve
end Zdeceptron
