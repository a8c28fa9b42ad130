import Mathlib.Data.List.Basic
import Zdeceptron.Template.Dom

/-!
# A document of a template's shape

The children of a node are those of the template, with others after some of them.  A step from a
node that has none after it leads where the step leads in the template.
-/

namespace Zdeceptron
namespace Template

section Spread

/-- A run of siblings, with others after them. -/
def spread (content : Address → List Nat) (path : Address) (index : Nat) :
    List Tpl → List DomNode
  | [] => []
  | _ :: ns =>
      .tpl (path ++ [index]) :: ((content (path ++ [index])).map DomNode.other ++
        spread content path (index + 1) ns)

def nodeOf : Address → DomNode
  | [] => .fragment
  | first :: rest => .tpl (first :: rest)

theorem nodeOf_not_other (path : Address) : (nodeOf path).isOther = false := by
  cases path <;> rfl

theorem mem_spread {content : Address → List Nat} {path : Address} {x : DomNode} :
    ∀ {index : Nat} {ns : List Tpl}, x ∈ spread content path index ns ↔
      ∃ i, i < ns.length ∧ (x = .tpl (path ++ [index + i]) ∨
        ∃ k ∈ content (path ++ [index + i]), x = .other k)
  | index, [] => by simp [spread]
  | index, n :: ns => by
      rw [spread, List.mem_cons, List.mem_append, mem_spread]
      constructor
      · rintro (rfl | h | ⟨i, hi, h⟩)
        · exact ⟨0, by simp, Or.inl rfl⟩
        · obtain ⟨k, hk, rfl⟩ := List.mem_map.mp h
          exact ⟨0, by simp, Or.inr ⟨k, hk, rfl⟩⟩
        · refine ⟨i + 1, by simpa using hi, ?_⟩
          rwa [show index + (i + 1) = index + 1 + i by omega]
      · rintro ⟨i, hi, h⟩
        cases i with
        | zero =>
            rcases h with rfl | ⟨k, hk, rfl⟩
            · exact Or.inl rfl
            · exact Or.inr (Or.inl (List.mem_map.mpr ⟨k, hk, rfl⟩))
        | succ i =>
            rw [show index + (i + 1) = index + 1 + i by omega] at h
            exact Or.inr (Or.inr ⟨i, by simpa using hi, h⟩)

theorem following_append {x : DomNode} : ∀ {xs ys : List DomNode}, x ∉ xs →
    following x (xs ++ ys) = following x ys
  | [], _, _ => rfl
  | y :: xs, ys, h => by
      have hne : y ≠ x := fun heq => h (heq ▸ List.mem_cons_self)
      rw [List.cons_append, following, if_neg hne]
      exact following_append fun hmem => h (List.mem_cons_of_mem _ hmem)

theorem tpl_not_mem_others (a : Address) (ks : List Nat) :
    DomNode.tpl a ∉ ks.map DomNode.other := by
  simp

theorem following_spread {content : Address → List Nat} {path : Address} :
    ∀ {index i : Nat} {ns : List Tpl}, i + 1 < ns.length → content (path ++ [index + i]) = [] →
      following (.tpl (path ++ [index + i])) (spread content path index ns) =
        some (.tpl (path ++ [index + i + 1]))
  | index, 0, n :: m :: ns, _, hnone => by
      rw [Nat.add_zero] at hnone ⊢
      rw [spread, following, if_pos rfl, hnone]
      rfl
  | index, i + 1, n :: ns, hi, hnone => by
      have hindex : index + (i + 1) = index + 1 + i := by omega
      rw [hindex] at hnone ⊢
      rw [spread, following, if_neg, following_append (tpl_not_mem_others _ _)]
      · exact following_spread (by simpa using hi) hnone
      · intro heq
        have hlast := (List.append_cancel_left (DomNode.tpl.inj heq))
        simp only [List.cons.injEq, and_true] at hlast
        omega

theorem spread_congr {content content' : Address → List Nat} {path : Address} :
    ∀ {index : Nat} {ns : List Tpl},
      (∀ i, i < ns.length → content (path ++ [index + i]) = content' (path ++ [index + i])) →
      spread content path index ns = spread content' path index ns
  | _, [], _ => rfl
  | index, n :: ns, h => by
      have hfirst := h 0 (by simp)
      rw [Nat.add_zero] at hfirst
      have hrest := @spread_congr content content' path (index + 1) ns fun i hi => by
        rw [show index + 1 + i = index + (i + 1) by omega]
        exact h (i + 1) (by simpa using hi)
      rw [spread, spread, hfirst, hrest]

theorem dropWhile_others {stop : DomNode} (hstop : stop.isOther = false) (ks : List Nat)
    (ys : List DomNode) :
    (ks.map DomNode.other ++ stop :: ys).dropWhile (· ≠ stop) = stop :: ys := by
  induction ks with
  | nil => simp
  | cons k ks ih =>
      have hne : DomNode.other k ≠ stop := by
        rintro rfl
        cases hstop
      simpa [hne] using ih

theorem refill_append {new : List DomNode} {start stop : DomNode} :
    ∀ {xs ys : List DomNode}, start ∉ xs →
      refill new start stop (xs ++ ys) = xs ++ refill new start stop ys
  | [], _, _ => rfl
  | x :: xs, ys, h => by
      have hne : x ≠ start := fun heq => h (heq ▸ List.mem_cons_self)
      rw [List.cons_append, refill, if_neg hne,
        refill_append fun hmem => h (List.mem_cons_of_mem _ hmem), List.cons_append]

theorem refill_none {new : List DomNode} {start stop : DomNode} {xs : List DomNode}
    (h : start ∉ xs) : refill new start stop xs = xs := by
  have happend := @refill_append new start stop xs [] h
  rwa [List.append_nil, show refill new start stop [] = [] from rfl, List.append_nil] at happend

theorem refill_spread {content : Address → List Nat} {path : Address} {ks : List Nat} :
    ∀ {index i : Nat} {ns : List Tpl}, i + 1 < ns.length →
      refill (ks.map DomNode.other) (.tpl (path ++ [index + i])) (.tpl (path ++ [index + i + 1]))
          (spread content path index ns) =
        spread (Function.update content (path ++ [index + i]) ks) path index ns
  | index, 0, n :: m :: ns, _ => by
      have hrest : ∀ i, path ++ [index + (i + 1)] ≠ path ++ [index] := by
        intro i heq
        have hlast := List.append_cancel_left heq
        simp at hlast
      rw [Nat.add_zero, spread, refill, if_pos rfl, spread, dropWhile_others rfl, spread,
        Function.update_self, spread, Function.update_of_ne (hrest 0)]
      refine congrArg _ (congrArg _ (congrArg _ (congrArg _ ?_)))
      refine spread_congr fun i _ => (Function.update_of_ne ?_ _ _).symm
      rw [show index + 1 + 1 + i = index + (i + 1 + 1) by omega]
      exact hrest (i + 1)
  | index, i + 1, n :: ns, hi => by
      have hindex : index + (i + 1) = index + 1 + i := by omega
      have hne : path ++ [index] ≠ path ++ [index + 1 + i] := by
        intro heq
        have hlast := List.append_cancel_left heq
        simp only [List.cons.injEq, and_true] at hlast
        omega
      rw [hindex, spread, refill, if_neg (fun heq => hne (DomNode.tpl.inj heq)),
        refill_append (tpl_not_mem_others _ _), refill_spread (by simpa using hi), spread,
        Function.update_of_ne hne]

end Spread

section Shape

variable {roots : List Tpl}

/-- A document in which the children of the template's nodes are the template's, with others
between them.  What stands in an element without children is not said. -/
def Holds (roots : List Tpl) (content : Address → List Nat) (d : Dom) : Prop :=
  ∀ path children, childrenAt roots path = some children → path = [] ∨ children ≠ [] →
    d.kids (nodeOf path) = spread content path 0 children

variable {path : Address}

theorem childrenAt_of_node {i : Nat} {n : Tpl} (h : node_at roots (path ++ [i]) = some n) :
    ∃ children, childrenAt roots path = some children ∧ children[i]? = some n := by
  rw [node_at_append] at h
  exact Option.bind_eq_some_iff.mp h

variable {content : Address → List Nat} {d : Dom}

theorem Holds.siblings (h : Holds roots content d)
    {i : Nat} {n : Tpl} (hn : node_at roots (path ++ [i]) = some n) :
    ∃ children, d.kids (nodeOf path) = spread content path 0 children ∧ i < children.length := by
  obtain ⟨children, hchildren, hi⟩ := childrenAt_of_node hn
  have hlt := (List.getElem?_eq_some_iff.mp hi).1
  refine ⟨children, h path children hchildren (Or.inr ?_), hlt⟩
  rintro rfl
  exact absurd hlt (Nat.not_lt_zero _)

theorem Holds.nextSibling (h : Holds roots content d)
    {i : Nat} (hnext : (node_at roots (path ++ [i + 1])).isSome = true)
    (hnone : content (path ++ [i]) = []) :
    d.nextSibling (.tpl (path ++ [i])) = some (.tpl (path ++ [i + 1])) := by
  obtain ⟨n, hn⟩ := Option.isSome_iff_exists.mp hnext
  obtain ⟨children, hkids, hi⟩ := h.siblings hn
  have hparent : d.parent (.tpl (path ++ [i])) = some (nodeOf path) := by
    refine d.mem_kids.mp ?_
    rw [hkids, mem_spread]
    exact ⟨i, by omega, Or.inl (by rw [Nat.zero_add])⟩
  unfold Dom.nextSibling
  rw [hparent, Option.bind_some, hkids]
  have hfollowing := @following_spread content path 0 i children hi (by rwa [Nat.zero_add])
  rwa [Nat.zero_add] at hfollowing

theorem Holds.firstChild {content : Address → List Nat} {d : Dom} (h : Holds roots content d)
    {path : Address} (hfirst : (node_at roots (path ++ [0])).isSome = true) :
    d.firstChild (nodeOf path) = some (.tpl (path ++ [0])) := by
  obtain ⟨n, hn⟩ := Option.isSome_iff_exists.mp hfirst
  obtain ⟨children, hkids, hi⟩ := h.siblings hn
  unfold Dom.firstChild
  rw [hkids]
  cases children with
  | nil => exact absurd hi (Nat.not_lt_zero _)
  | cons m ms => rfl

theorem node_at_listed {a : Address} :
    (node_at roots a).isSome = true ↔ a ∈ preorder [] 0 roots := by
  constructor
  · intro h
    cases a with
    | nil => cases h
    | cons first rest =>
        have hmem := preorder_mem [] 0 h
        rwa [Nat.zero_add] at hmem
  · intro h
    obtain ⟨i, rest, rfl, hsome⟩ := mem_preorder h
    rwa [Nat.zero_add]

theorem Holds.step (h : Holds roots content d)
    {s : Step} {a b : Address} (ha : a ≠ []) (hleads : s.leads a b)
    (hb : (node_at roots b).isSome = true) (hnone : content a = []) :
    d.step (.tpl a) s = some (.tpl b) := by
  cases s with
  | firstChild =>
      obtain rfl := hleads
      have hfirst := h.firstChild hb
      cases a with
      | nil => exact absurd rfl ha
      | cons first rest => exact hfirst
  | nextSibling =>
      obtain ⟨path, i, rfl, rfl⟩ := hleads
      exact h.nextSibling hb hnone

theorem follow_append {x : DomNode} {steps : List Step} {s : Step} :
    d.follow x (steps ++ [s]) = (d.follow x steps).bind fun y => d.step y s := by
  induction steps generalizing x with
  | nil =>
      simp only [List.nil_append, Dom.follow, Option.bind_some]
      cases d.step x s <;> rfl
  | cons s' steps ih =>
      simp only [List.cons_append, Dom.follow]
      cases d.step x s' with
      | none => rfl
      | some y => exact ih

theorem Holds.follow (h : Holds roots content d)
    {g : Graph} (hg : Graph.Climbable roots g) {p q : Nat} {steps : List Step}
    (hwalk : Graph.Walk g p steps q) {a b : Address} (ha : g.addresses[p]? = some a)
    (hb : g.addresses[q]? = some b)
    (hnone : ∀ n x, p ≤ n → n < q → g.addresses[n]? = some x → content x = []) :
    d.follow (.tpl a) steps = some (.tpl b) := by
  induction hwalk generalizing b with
  | nil =>
      cases ha.symm.trans hb
      rfl
  | @snoc steps n q s hwalk hparent ih =>
      obtain ⟨hlater, x, y, hx, hy, hleads⟩ := hg.edges hparent
      cases hb.symm.trans hy
      have hle := hwalk.le hg
      have hlisted : ∀ {k : Nat} {z : Address}, g.addresses[k]? = some z →
          (node_at roots z).isSome = true := by
        intro k z hz
        rw [node_at_listed, ← hg.addresses]
        exact List.mem_of_getElem? hz
      rw [follow_append, ih hx fun m z hm hmn hz => hnone m z hm (hmn.trans hlater) hz,
        Option.bind_some]
      refine h.step ?_ hleads (hlisted hb) (hnone n x hle hlater hx)
      rintro rfl
      cases hlisted hx

end Shape

end Template
end Zdeceptron
