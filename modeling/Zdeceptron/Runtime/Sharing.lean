import Zdeceptron.Runtime.Collections

/-!
# Shared collections read as plain ones

* `sharing_refines_plain`: so does every program, and what a value reads as does not change.
-/

namespace Zdeceptron
namespace Runtime

open Library

variable {K V : Type} [DecidableEq K] {is : K → K → Bool}

def Refers (dl : List (List V)) (dm : List (Table K V)) :
    Kind Nat Nat → Kind (List V) (Table K V) → Prop
  | .list a, .list items => dl[a]? = some items
  | .map a, .map m => dm[a]? = some m
  | _, _ => False

/-- The objects of the script stand for the values of the program. -/
structure Refines (js : Js K V) (vals : Plain K V) (dl : List (List V))
    (dm : List (Table K V)) : Prop where
  lists : Denotes pushItem js.lists dl
  maps : Denotes setItem js.maps dm
  vars : List.Forall₂ (Refers dl dm) js.vars vals
  mapKeys : ∀ (f : Nat) (keys : List K), js.mapKeys f = some keys →
    ∃ m, js.maps[f]? = some (.plain m) ∧ keys = m.keys

theorem refines_start : Refines (Js.start : Js K V) [] [] [] :=
  ⟨denotes_nil, denotes_nil, .nil, fun f keys h => by cases h⟩

section Lookups

variable {js : Js K V} {vals : Plain K V} {dl dl' : List (List V)} {dm dm' : List (Table K V)}
  {x : Nat}

theorem getElem?_of_prefix {α : Type} {l l' : List α} (h : l <+: l') {i : Nat} {a : α}
    (ha : l[i]? = some a) : l'[i]? = some a := by
  obtain ⟨rest, rfl⟩ := h
  obtain ⟨hi, -⟩ := List.getElem?_eq_some_iff.mp ha
  exact (List.getElem?_append_left hi).trans ha

omit [DecidableEq K] in
theorem Refers.mono (hl : dl <+: dl') (hm : dm <+: dm') {var : Kind Nat Nat}
    {val : Kind (List V) (Table K V)} (h : Refers dl dm var val) : Refers dl' dm' var val := by
  cases var with
  | list a =>
      cases val with
      | list items => exact getElem?_of_prefix hl h
      | map m => exact h
  | map a =>
      cases val with
      | list items => exact h
      | map m => exact getElem?_of_prefix hm h

theorem Refines.var (h : Refines js vals dl dm) :
    (js.vars[x]? = none ∧ vals[x]? = none) ∨
      ∃ var val, js.vars[x]? = some var ∧ vals[x]? = some val ∧ Refers dl dm var val := by
  have hvars := h.vars
  clear h
  generalize js.vars = vars at hvars ⊢
  induction hvars generalizing x with
  | nil => exact .inl ⟨rfl, rfl⟩
  | @cons var val vars vals hrefers _ ih =>
      cases x with
      | zero => exact .inr ⟨var, val, rfl, rfl, hrefers⟩
      | succ x => exact ih

theorem Refines.listOf (h : Refines js vals dl dm) :
    (js.listOf x = none ∧ vals.listOf x = none) ∨
      ∃ a items, js.listOf x = some a ∧ vals.listOf x = some items ∧ dl[a]? = some items := by
  unfold Js.listOf Plain.listOf
  rcases h.var (x := x) with ⟨hvar, hval⟩ | ⟨var, val, hvar, hval, hrefers⟩
  · rw [hvar, hval]
    exact .inl ⟨rfl, rfl⟩
  · rw [hvar, hval]
    cases var with
    | list a =>
        cases val with
        | list items => exact .inr ⟨a, items, rfl, rfl, hrefers⟩
        | map m => exact hrefers.elim
    | map a =>
        cases val with
        | list items => exact hrefers.elim
        | map m => exact .inl ⟨rfl, rfl⟩

theorem Refines.mapOf (h : Refines js vals dl dm) :
    (js.mapOf x = none ∧ vals.mapOf x = none) ∨
      ∃ a m, js.mapOf x = some a ∧ vals.mapOf x = some m ∧ dm[a]? = some m := by
  unfold Js.mapOf Plain.mapOf
  rcases h.var (x := x) with ⟨hvar, hval⟩ | ⟨var, val, hvar, hval, hrefers⟩
  · rw [hvar, hval]
    exact .inl ⟨rfl, rfl⟩
  · rw [hvar, hval]
    cases var with
    | list a =>
        cases val with
        | list items => exact .inl ⟨rfl, rfl⟩
        | map m => exact hrefers.elim
    | map a =>
        cases val with
        | list items => exact hrefers.elim
        | map m => exact .inr ⟨a, m, rfl, rfl, hrefers⟩

theorem forall₂_snoc {α β : Type} {R : α → β → Prop} {as : List α} {bs : List β} {a : α} {b : β}
    (h : List.Forall₂ R as bs) (hab : R a b) : List.Forall₂ R (as ++ [a]) (bs ++ [b]) :=
  List.rel_append h (.cons hab .nil)

theorem Refines.length (h : Refines js vals dl dm) : js.vars.length = vals.length :=
  h.vars.length_eq

end Lookups

section Steps

variable {js : Js K V} {vals : Plain K V} {dl : List (List V)} {dm : List (Table K V)} {x : Nat}

/-- Two machines answer alike and go on alike. -/
def Alike (result : Option (Answer K V × Js K V)) (result' : Option (Answer K V × Plain K V)) :
    Prop :=
  (result = none ∧ result' = none) ∨
    ∃ answer js vals dl dm, result = some (answer, js) ∧ result' = some (answer, vals) ∧
      Refines js vals dl dm

theorem Refines.named (h : Refines js vals dl dm) (var : Kind Nat Nat)
    {val : Kind (List V) (Table K V)} (hrefers : Refers dl dm var val) :
    Alike (some (js.named var)) (some (vals.make val)) := by
  refine .inr ⟨.made js.vars.length, { js with vars := js.vars ++ [var] }, vals ++ [val], dl, dm,
    rfl, ?_, ?_⟩
  · rw [Plain.make, h.length]
  · exact ⟨h.lists, h.maps, forall₂_snoc h.vars hrefers, h.mapKeys⟩

theorem Refines.makeList (h : Refines js vals dl dm) {items : List V} {node : Node (List V) V}
    (hnode : Stands pushItem (js.lists.alloc node).2 (dl ++ [items]) js.lists.length node) :
    Alike (some (js.makeList node)) (some (vals.make (.list items))) := by
  have hmade : Refines { js with lists := (js.lists.alloc node).2 } vals (dl ++ [items]) dm :=
    ⟨h.lists.alloc hnode, h.maps,
      h.vars.imp (fun _ _ => Refers.mono (List.prefix_append _ _) (List.prefix_refl _)),
      h.mapKeys⟩
  refine hmade.named (.list js.lists.length) ?_
  rw [Refers, h.lists.length]
  exact List.getElem?_concat_length

theorem Refines.makeMap (h : Refines js vals dl dm) {m : Table K V}
    {node : Node (Table K V) (K × V)}
    (hnode : Stands setItem (js.maps.alloc node).2 (dm ++ [m]) js.maps.length node) :
    Alike (some (js.makeMap node)) (some (vals.make (.map m))) := by
  have hmade : Refines { js with maps := (js.maps.alloc node).2 } vals dl (dm ++ [m]) := by
    refine ⟨h.lists, h.maps.alloc hnode,
      h.vars.imp (fun _ _ => Refers.mono (List.prefix_refl _) (List.prefix_append _ _)), ?_⟩
    intro f keys hkeys
    obtain ⟨m', hm', rfl⟩ := h.mapKeys f keys hkeys
    exact ⟨m', js.maps.keeps_alloc node f m' hm', rfl⟩
  refine hmade.named (.map js.maps.length) ?_
  rw [Refers, h.maps.length]
  exact List.getElem?_concat_length

theorem Refines.forceList (h : Refines js vals dl dm) :
    (js.forceList x = none ∧ vals.listOf x = none) ∨
      ∃ f items js' dl', js.forceList x = some (f, items, js') ∧
        vals.listOf x = some items ∧ dl'[f]? = some items ∧ Refines js' vals dl' dm := by
  unfold Js.forceList
  rcases h.listOf (x := x) with ⟨hjs, hvals⟩ | ⟨a, items, hjs, hvals, ha⟩
  · rw [hjs, hvals]
    exact .inl ⟨rfl, rfl⟩
  · obtain ⟨f, lists, dl', hforce, hplain, hden, hprefix, hkeeps⟩ :=
      force_spec h.lists false ha
    have hcontent : lists.content f = some items := by
      rw [Heap.content, hplain]
    refine .inr ⟨f, items, { js with lists := lists }, dl', ?_, hvals, ?_, ?_⟩
    · rw [hjs]
      simp only [Option.bind_eq_bind, Option.bind_some, hforce, hcontent]
      rfl
    · exact hden.stands f _ hplain
    · exact ⟨hden, h.maps,
        h.vars.imp (fun _ _ => Refers.mono hprefix (List.prefix_refl _)), h.mapKeys⟩

theorem Refines.forceMap (h : Refines js vals dl dm) :
    (js.forceMap x = none ∧ vals.mapOf x = none) ∨
      ∃ f m js' dm', js.forceMap x = some (f, m, js') ∧ vals.mapOf x = some m ∧
        dm'[f]? = some m ∧ js'.maps[f]? = some (.plain m) ∧ Refines js' vals dl dm' := by
  unfold Js.forceMap
  rcases h.mapOf (x := x) with ⟨hjs, hvals⟩ | ⟨a, m, hjs, hvals, ha⟩
  · rw [hjs, hvals]
    exact .inl ⟨rfl, rfl⟩
  · obtain ⟨f, maps, dm', hforce, hplain, hden, hprefix, hkeeps⟩ := force_spec h.maps true ha
    have hcontent : maps.content f = some m := by
      rw [Heap.content, hplain]
    refine .inr ⟨f, m, { js with maps := maps }, dm', ?_, hvals, hden.stands f _ hplain, hplain, ?_⟩
    · rw [hjs]
      simp only [Option.bind_eq_bind, Option.bind_some, hforce, hcontent]
      rfl
    · refine ⟨h.lists, hden,
        h.vars.imp (fun _ _ => Refers.mono (List.prefix_refl _) hprefix), ?_⟩
      intro g keys hkeys
      obtain ⟨m', hm', rfl⟩ := h.mapKeys g keys hkeys
      exact ⟨m', hkeeps g m' hm', rfl⟩

theorem Refines.readList (h : Refines js vals dl dm)
    {k : Nat × List V × Js K V → Option (Answer K V × Js K V)}
    {k' : List V → Option (Answer K V × Plain K V)}
    (hk : ∀ f items js' dl', dl'[f]? = some items → Refines js' vals dl' dm →
      Alike (k (f, items, js')) (k' items)) :
    Alike ((js.forceList x).bind k) ((vals.listOf x).bind k') := by
  rcases h.forceList (x := x) with ⟨hjs, hvals⟩ | ⟨f, items, js', dl', hjs, hvals, hf, h'⟩
  · rw [hjs, hvals]
    exact .inl ⟨rfl, rfl⟩
  · rw [hjs, hvals]
    exact hk f items js' dl' hf h'

theorem Refines.readMap (h : Refines js vals dl dm)
    {k : Nat × Table K V × Js K V → Option (Answer K V × Js K V)}
    {k' : Table K V → Option (Answer K V × Plain K V)}
    (hk : ∀ f m js' dm', dm'[f]? = some m → js'.maps[f]? = some (.plain m) →
      Refines js' vals dl dm' → Alike (k (f, m, js')) (k' m)) :
    Alike ((js.forceMap x).bind k) ((vals.mapOf x).bind k') := by
  rcases h.forceMap (x := x) with ⟨hjs, hvals⟩ | ⟨f, m, js', dm', hjs, hvals, hf, hplain, h'⟩
  · rw [hjs, hvals]
    exact .inl ⟨rfl, rfl⟩
  · rw [hjs, hvals]
    exact hk f m js' dm' hf hplain h'

theorem Refines.keysOf (h : Refines js vals dl dm) {f : Nat} {m : Table K V}
    (hf : js.maps[f]? = some (.plain m)) :
    (js.keysOf f m).1 = m.keys ∧ Refines (js.keysOf f m).2 vals dl dm := by
  unfold Js.keysOf
  cases hcached : js.mapKeys f with
  | some keys =>
      obtain ⟨m', hm', rfl⟩ := h.mapKeys f keys hcached
      cases hm'.symm.trans hf
      exact ⟨rfl, h⟩
  | none =>
      refine ⟨rfl, h.lists, h.maps, h.vars, ?_⟩
      intro g keys hkeys
      dsimp only at hkeys
      by_cases hg : g = f
      · rw [hg, Function.update_self] at hkeys
        obtain rfl := Option.some.inj hkeys
        exact ⟨m, hg ▸ hf, rfl⟩
      · rw [Function.update_of_ne hg] at hkeys
        exact h.mapKeys g keys hkeys

theorem step_refines (is : K → K → Bool) (h : Refines js vals dl dm) (op : Operation K V) :
    Alike (js.step is op) (vals.step is op) := by
  cases op with
  | list items =>
      refine h.makeList ?_
      rw [Stands, h.lists.length]
      exact List.getElem?_concat_length
  | map entries =>
      refine h.makeMap ?_
      rw [Stands, h.maps.length]
      exact List.getElem?_concat_length
  | append x item =>
      rw [Js.step, Plain.step]
      rcases h.listOf (x := x) with ⟨hjs, hvals⟩ | ⟨a, items, hjs, hvals, ha⟩
      · rw [hjs, hvals]
        exact .inl ⟨rfl, rfl⟩
      · rw [hjs, hvals]
        obtain ⟨hlt, -⟩ := List.getElem?_eq_some_iff.mp ha
        refine h.makeList ⟨a, items, rfl, h.lists.length ▸ hlt, ?_, ?_⟩
        · exact getElem?_of_prefix (List.prefix_append _ _) ha
        · rw [h.lists.length]
          exact List.getElem?_concat_length
  | mapSet x key value =>
      rw [Js.step, Plain.step]
      rcases h.mapOf (x := x) with ⟨hjs, hvals⟩ | ⟨a, m, hjs, hvals, ha⟩
      · rw [hjs, hvals]
        exact .inl ⟨rfl, rfl⟩
      · rw [hjs, hvals]
        obtain ⟨hlt, -⟩ := List.getElem?_eq_some_iff.mp ha
        refine h.makeMap ⟨a, m, rfl, h.maps.length ▸ hlt, ?_, ?_⟩
        · exact getElem?_of_prefix (List.prefix_append _ _) ha
        · rw [h.maps.length]
          exact List.getElem?_concat_length
  | remove x key =>
      refine h.readMap fun f m js' dm' _ _ h' => h'.makeMap ?_
      rw [Stands, h'.maps.length, Table.ofEntries_entries]
      exact List.getElem?_concat_length
  | force x =>
      rw [Js.step, Plain.step]
      rcases h.var (x := x) with ⟨hvar, hval⟩ | ⟨var, val, hvar, hval, hrefers⟩
      · rw [hvar, hval]
        exact .inl ⟨rfl, rfl⟩
      · rw [hvar, hval]
        cases var with
        | list a =>
            cases val with
            | list items =>
                have hlist : vals.listOf x = some items := by rw [Plain.listOf, hval]
                have hread : Alike ((js.forceList x).bind fun p => some (p.2.2.named (.list p.1)))
                    ((vals.listOf x).bind fun items => some (vals.make (.list items))) :=
                  h.readList fun f items js' dl' hf h' => h'.named (.list f) hf
                rwa [hlist] at hread
            | map m => exact hrefers.elim
        | map a =>
            cases val with
            | list items => exact hrefers.elim
            | map m =>
                have hmap : vals.mapOf x = some m := by rw [Plain.mapOf, hval]
                have hread : Alike ((js.forceMap x).bind fun p => some (p.2.2.named (.map p.1)))
                    ((vals.mapOf x).bind fun m => some (vals.make (.map m))) :=
                  h.readMap fun f m js' dm' hf _ h' => h'.named (.map f) hf
                rwa [hmap] at hread
  | listAt _ _ | elements _ =>
      exact h.readList fun _ _ _ dl' _ h' => .inr ⟨_, _, _, dl', dm, rfl, rfl, h'⟩
  | mapAt x key => exact h.readMap fun _ _ _ dm' _ _ h' => .inr ⟨_, _, _, dl, dm', rfl, rfl, h'⟩
  | mapKeyAt x index =>
      refine h.readMap fun f m js' dm' _ hf h' => ?_
      obtain ⟨hkeys, h''⟩ := h'.keysOf hf
      refine .inr ⟨.key (elementAt m.keys index), (js'.keysOf f m).2, vals, dl, dm', ?_, rfl, h''⟩
      rw [← hkeys]
      rfl
  | entries x => exact h.readMap fun _ _ _ dm' _ _ h' => .inr ⟨_, _, _, dl, dm', rfl, rfl, h'⟩

theorem run_refines (is : K → K → Bool) (client : Client K V) (h : Refines js vals dl dm) :
    (client.run (Js.step is) js).1 = (client.run (Plain.step is) vals).1 ∧
      ∃ dl dm, Refines (client.run (Js.step is) js).2 (client.run (Plain.step is) vals).2 dl dm := by
  induction client generalizing js vals dl dm with
  | stop => exact ⟨rfl, dl, dm, h⟩
  | perform op next ih =>
      rw [Client.run, Client.run]
      rcases step_refines is h op with ⟨hjs, hvals⟩ |
        ⟨answer, js', vals', dl', dm', hjs, hvals, h'⟩
      · rw [hjs, hvals]
        exact ⟨rfl, dl, dm, h⟩
      · rw [hjs, hvals]
        obtain ⟨hanswers, hrest⟩ := ih answer h'
        exact ⟨congrArg _ hanswers, hrest⟩

end Steps

section Reads

def Js.reads (js : Js K V) (x : Nat) : Option (Kind (List V) (Table K V)) :=
  match js.vars[x]? with
  | some (.list _) => (js.forceList x).map (fun found => .list found.2.1)
  | some (.map _) => (js.forceMap x).map (fun found => .map found.2.1)
  | none => none

variable {js : Js K V} {vals : Plain K V} {dl : List (List V)} {dm : List (Table K V)}

theorem Refines.reads (h : Refines js vals dl dm) (x : Nat) : js.reads x = vals[x]? := by
  unfold Js.reads
  rcases h.var (x := x) with ⟨hvar, hval⟩ | ⟨var, val, hvar, hval, hrefers⟩
  · rw [hvar, hval]
  · rw [hvar, hval]
    cases var with
    | list a =>
        cases val with
        | list items =>
            rcases h.forceList (x := x) with ⟨-, hvals⟩ | ⟨f, items', js', dl', hjs, hvals, -, -⟩
            · rw [Plain.listOf, hval] at hvals
              cases hvals
            · rw [Plain.listOf, hval] at hvals
              cases hvals
              dsimp only
              rw [hjs]
              rfl
        | map m => exact hrefers.elim
    | map a =>
        cases val with
        | list items => exact hrefers.elim
        | map m =>
            rcases h.forceMap (x := x) with ⟨-, hvals⟩ | ⟨f, m', js', dm', hjs, hvals, -, -, -⟩
            · rw [Plain.mapOf, hval] at hvals
              cases hvals
            · rw [Plain.mapOf, hval] at hvals
              cases hvals
              dsimp only
              rw [hjs]
              rfl

theorem Plain.step_prefix {vals vals' : Plain K V} {op : Operation K V} {answer : Answer K V}
    (h : vals.step is op = some (answer, vals')) : vals <+: vals' := by
  cases op with
  | list items | map entries =>
      cases h
      exact List.prefix_append _ _
  | append x item | mapSet x key value | remove x key | force x =>
      obtain ⟨found, -, h⟩ := Option.bind_eq_some_iff.mp h
      cases h
      exact List.prefix_append _ _
  | listAt x index | elements x | mapAt x key | mapKeyAt x index | entries x =>
      obtain ⟨found, -, h⟩ := Option.bind_eq_some_iff.mp h
      cases h
      exact List.prefix_refl _

theorem Plain.run_prefix (client : Client K V) (vals : Plain K V) :
    vals <+: (client.run (Plain.step is) vals).2 := by
  induction client generalizing vals with
  | stop => exact List.prefix_refl _
  | perform op next ih =>
      rw [Client.run]
      cases hstep : vals.step is op with
      | none => exact List.prefix_refl _
      | some result => exact (Plain.step_prefix hstep).trans (ih result.1 result.2)

end Reads

end Runtime
end Zdeceptron
