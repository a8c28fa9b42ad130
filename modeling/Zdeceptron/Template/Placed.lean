import Mathlib.Data.List.Infix
import Mathlib.Data.List.Nodup
import Zdeceptron.Template.Lowering

/-!
# Where binds are placed

An address leads to at most one node of the markup.  The binds of a region the lowering builds
stand where their kind asks for: a text bind on a text inside an element, a hole on its opening
anchor with the closing one beside it, what fills an element on one that has no children.
-/

namespace Zdeceptron
namespace Template

section Addresses

/-- The children under an address, the roots under the empty one. -/
def childrenAt (roots : List Tpl) : Address → Option (List Tpl)
  | [] => some roots
  | first :: rest =>
      match roots[first]? with
      | some (.element _ _ children) => childrenAt children rest
      | _ => none

def node_at (roots : List Tpl) : Address → Option Tpl
  | [] => none
  | [index] => roots[index]?
  | first :: second :: rest =>
      match roots[first]? with
      | some (.element _ _ children) => node_at children (second :: rest)
      | _ => none

theorem node_at_append {roots : List Tpl} : ∀ {address : Address} {i : Nat},
    node_at roots (address ++ [i]) = (childrenAt roots address).bind (·[i]?)
  | [], i => rfl
  | [first], i => by
      rw [List.singleton_append, node_at, childrenAt]
      cases roots[first]? with
      | none => rfl
      | some tpl => cases tpl <;> rfl
  | first :: second :: rest, i => by
      rw [List.cons_append, List.cons_append, node_at, childrenAt]
      cases roots[first]? with
      | none => rfl
      | some tpl =>
          cases tpl with
          | element tag attributes children =>
              exact @node_at_append children (second :: rest) i
          | _ => rfl

theorem childrenAt_element {roots : List Tpl} : ∀ {address : Address} {tag : String}
    {attributes : List (String × String)} {children : List Tpl},
    node_at roots address = some (.element tag attributes children) →
    childrenAt roots address = some children
  | [], _, _, _, h => by cases h
  | [index], _, _, _, h => by
      rw [node_at] at h
      rw [childrenAt, h]
      rfl
  | first :: second :: rest, _, _, _, h => by
      rw [node_at] at h
      rw [childrenAt]
      cases hroot : roots[first]? with
      | none => simp [hroot] at h
      | some tpl =>
          cases tpl with
          | element tag' attributes' children' =>
              simp only [hroot] at h
              exact childrenAt_element h
          | _ => simp [hroot] at h

theorem element_of_childrenAt {roots : List Tpl} : ∀ {address : Address} {children : List Tpl},
    address ≠ [] → childrenAt roots address = some children →
    ∃ tag attributes, node_at roots address = some (.element tag attributes children)
  | [], _, hne, _ => absurd rfl hne
  | [index], children, _, h => by
      rw [childrenAt] at h
      cases hroot : roots[index]? with
      | none => simp [hroot] at h
      | some tpl =>
          cases tpl with
          | element tag attributes inner =>
              simp only [hroot, childrenAt, Option.some.injEq] at h
              exact ⟨tag, attributes, h ▸ hroot⟩
          | _ => simp [hroot] at h
  | first :: second :: rest, children, _, h => by
      rw [childrenAt] at h
      rw [node_at]
      cases hroot : roots[first]? with
      | none => simp [hroot] at h
      | some tpl =>
          cases tpl with
          | element tag attributes inner =>
              simp only [hroot] at h
              exact element_of_childrenAt (by simp) h
          | _ => simp [hroot] at h

theorem node_at_child {roots : List Tpl} {address : Address} {tag : String}
    {attributes : List (String × String)} {children : List Tpl}
    (h : node_at roots address = some (.element tag attributes children)) (i : Nat) :
    node_at roots (address ++ [i]) = children[i]? := by
  rw [node_at_append, childrenAt_element h, Option.bind_some]

end Addresses

section Placed

variable {roots : List Tpl}

def Placed (roots : List Tpl) (target : Address) : BindKind → Prop
  | .text _ => ∃ parent i s, parent ≠ [] ∧ target = parent ++ [i] ∧
      node_at roots target = some (.text s)
  | .textOnce _ => ∃ parent i s, parent ≠ [] ∧ target = parent ++ [i] ∧
      node_at roots target = some (.text s)
  | .onElement _ => ∃ tag attributes children,
      node_at roots target = some (.element tag attributes children)
  | .each _ _ => ∃ parent i, target = parent ++ [i] ∧
      node_at roots target = some (.anchor .open_) ∧
      node_at roots (parent ++ [i + 1]) = some (.anchor .close)
  | .when _ _ => ∃ parent i, target = parent ++ [i] ∧
      node_at roots target = some (.anchor .open_) ∧
      node_at roots (parent ++ [i + 1]) = some (.anchor .close)
  | .ifThen _ _ _ => ∃ parent i, target = parent ++ [i] ∧
      node_at roots target = some (.anchor .open_) ∧
      node_at roots (parent ++ [i + 1]) = some (.anchor .close)
  | _ => ∃ tag attributes, node_at roots target = some (.element tag attributes [])

/-- These nodes stand under an address, from an index on. -/
def Stands (roots : List Tpl) (path : Address) (start : Nat) (out : List Tpl) : Prop :=
  ∀ i, i < out.length → node_at roots (path ++ [start + i]) = out[i]?

theorem Stands.left {path : Address} {start : Nat} {out rest : List Tpl}
    (h : Stands roots path start (out ++ rest)) : Stands roots path start out := by
  intro i hi
  rw [h i (by rw [List.length_append]; omega), List.getElem?_append_left hi]

theorem Stands.right {path : Address} {start : Nat} {out rest : List Tpl}
    (h : Stands roots path start (out ++ rest)) :
    Stands roots path (start + out.length) rest := by
  intro i hi
  have hstands := h (out.length + i) (by rw [List.length_append]; omega)
  rw [List.getElem?_append_right (by omega), Nat.add_sub_cancel_left, ← Nat.add_assoc] at hstands
  exact hstands

theorem Stands.single {path : Address} {start : Nat} {tpl : Tpl}
    (h : Stands roots path start [tpl]) : node_at roots (path ++ [start]) = some tpl :=
  h 0 (by simp)

theorem stands_children {address : Address} {tag : String}
    {attributes : List (String × String)} {children : List Tpl}
    (h : node_at roots address = some (.element tag attributes children)) :
    Stands roots address 0 children := by
  intro i _
  rw [Nat.zero_add]
  exact node_at_child h i

def AllPlaced (roots : List Tpl) (binds : List Bind) : Prop :=
  ∀ b ∈ binds, Placed roots b.target b.kind

theorem AllPlaced.append {binds binds' : List Bind} (h : AllPlaced roots binds)
    (h' : AllPlaced roots binds') : AllPlaced roots (binds ++ binds') := by
  intro b hb
  rcases List.mem_append.mp hb with hb | hb
  · exact h b hb
  · exact h' b hb

theorem AllPlaced.nil : AllPlaced roots [] := by
  rintro b ⟨⟩

theorem onElement_placed {target : Address} {tag : String}
    {attributes : List (String × String)} {children : List Tpl}
    (h : node_at roots target = some (.element tag attributes children)) (sources : List String) :
    AllPlaced roots (Lowering.onElement target sources) := by
  intro b hb
  obtain ⟨source, -, rfl⟩ := List.mem_map.mp hb
  exact ⟨tag, attributes, children, h⟩

theorem listeners_placed {target : Address} {tag : String}
    {attributes : List (String × String)} {children : List Tpl}
    (h : node_at roots target = some (.element tag attributes children)) :
    ∀ (ns : List Node), AllPlaced roots (Lowering.listeners target ns)
  | [] => AllPlaced.nil
  | first :: ns => by
      cases first with
      | handler source =>
          intro b hb
          rcases List.mem_cons.mp hb with rfl | hb
          · exact ⟨tag, attributes, children, h⟩
          · exact listeners_placed h ns b hb
      | _ => exact listeners_placed h ns

theorem text_child_placed {parent : Address} {index : Nat} (hparent : parent ≠ []) (shown : Operand)
    (h : node_at roots (parent ++ [index]) = some (Lowering.text_child parent index shown).1) :
    AllPlaced roots (Lowering.text_child parent index shown).2 := by
  cases shown with
  | literal text js =>
      simp only [Lowering.text_child] at h ⊢
      split_ifs at h ⊢ with htext
      · exact AllPlaced.nil
      · rintro b hb
        obtain rfl := List.mem_singleton.mp hb
        exact ⟨parent, index, _, hparent, rfl, h⟩
  | static _ | reactive _ =>
      rintro b hb
      obtain rfl := List.mem_singleton.mp hb
      exact ⟨parent, index, _, hparent, rfl, h⟩

theorem named_arguments_placed {target : Address} (hne : target ≠ []) {tag : String}
    {attributes : List (String × String)} {children : List Tpl}
    (h : node_at roots target = some (.element tag attributes children)) :
    ∀ {index : Nat} {named : List Named},
      Stands roots target index (Lowering.named_arguments target index named).1 →
      AllPlaced roots (Lowering.named_arguments target index named).2
  | _, [], _ => AllPlaced.nil
  | index, .message shown :: named, hstands => by
      have hcons : Stands roots target index ([(Lowering.text_child target index shown).1] ++
          (Lowering.named_arguments target (index + 1) named).1) := hstands
      exact (text_child_placed hne shown hcons.left.single).append
        (named_arguments_placed hne h hcons.right)
  | index, .onElement sources :: named, hstands =>
      (onElement_placed h sources).append (named_arguments_placed hne h hstands)

theorem named_arguments_bare {target : Address} : ∀ {index : Nat} {named : List Named},
    (∀ n ∈ named, n.isMessage = false) → (Lowering.named_arguments target index named).1 = []
  | _, [], _ => rfl
  | index, .message shown :: named, h => by cases h _ List.mem_cons_self
  | index, .onElement sources :: named, h =>
      @named_arguments_bare target index named fun n hn => h n (List.mem_cons_of_mem _ hn)

theorem leading_argument_placed {target : Address} (hne : target ≠ []) {slot : Slot}
    {tag : String} {attributes : List (String × String)} {children : List Tpl}
    (h : node_at roots target = some (.element tag attributes children))
    (hrendered : slot.isRendered = true → children = [])
    (hstands : Stands roots target 0 (Lowering.leading_argument target slot).1) :
    AllPlaced roots (Lowering.leading_argument target slot).2 := by
  cases slot with
  | none_ => exact AllPlaced.nil
  | text shown =>
      cases shown with
      | none => exact AllPlaced.nil
      | some shown => exact text_child_placed hne shown hstands.single
  | rendered shown =>
      rw [hrendered rfl] at h
      intro b hb
      obtain rfl := List.mem_singleton.mp hb
      cases shown <;> exact ⟨tag, attributes, h⟩
  | choice offered sources => exact onElement_placed h sources
  | control sources => exact onElement_placed h sources

theorem shown_placed {head : Head} {target : Address} (hne : target ≠ []) {children : List Tpl}
    (h : node_at roots target = some (.element head.tag head.attributes children))
    (hrendered : head.slot.isRendered = true → children = [])
    (hstands : Stands roots target 0 (Lowering.shown head target).1) :
    AllPlaced roots (Lowering.shown head target).2 := by
  have hfirst := hstands.left
  have hnamed := hstands.right
  rw [List.length_append, Nat.zero_add] at hnamed
  exact (leading_argument_placed hne h hrendered hfirst.left).append
    (named_arguments_placed hne h hnamed)

theorem shown_bare {head : Head} {target : Address}
    (hleading : (Lowering.leading_argument target head.slot).1 = [])
    (hliteral : head.literal_text = none) (hnamed : ∀ n ∈ head.named, n.isMessage = false) :
    (Lowering.shown head target).1 = [] := by
  simp [Lowering.shown, hleading, hliteral, named_arguments_bare hnamed]

def Lowering.nested (head : Head) (inner : Address) (children : List Node) :
    List Tpl × List Bind :=
  if head.children then
    if head.inner_tag.isSome then Lowering.nodes (inner ++ [0]) 0 children
    else Lowering.nodes inner (Lowering.shown head inner).1.length children
  else ([], [])

theorem node_element {head : Head} {children : List Node} {path : Address} {start : Nat} :
    Lowering.node path start (.element head children) =
      let own := path ++ [start]
      let inner := if head.label.isSome then own ++ [0] else own
      let element := Tpl.element head.tag head.attributes (Lowering.inside head.inner_tag
        ((Lowering.shown head inner).1 ++ (Lowering.nested head inner children).1))
      let binds := (Lowering.shown head inner).2 ++ Lowering.listeners inner children ++
        (Lowering.nested head inner children).2
      match head.label with
      | none => ([element], binds)
      | some label =>
          ([.element "label" [("class", "zd-row")] [element, (Lowering.text_child own 1 label).1]],
            binds ++ (Lowering.text_child own 1 label).2) := by
  simp only [Lowering.node]
  rfl

theorem element_placed {head : Head} {inner : Address} {children : List Node} (hne : inner ≠ [])
    (hnodes : ∀ path start, Stands roots path start (Lowering.nodes path start children).1 →
      AllPlaced roots (Lowering.nodes path start children).2)
    (h : node_at roots inner = some (.element head.tag head.attributes
      (Lowering.inside head.inner_tag
        ((Lowering.shown head inner).1 ++ (Lowering.nested head inner children).1)))) :
    AllPlaced roots ((Lowering.shown head inner).2 ++ Lowering.listeners inner children ++
      (Lowering.nested head inner children).2) := by
  cases htag : head.inner_tag with
  | some wrapper =>
      -- the row with a wrapper shows nothing of its own
      obtain ⟨hslot, hliteral, hnamed⟩ := head.wraps (by rw [htag]; rfl)
      have hbare : (Lowering.shown head inner).1 = [] :=
        shown_bare (by rw [hslot]; rfl) hliteral hnamed
      have hwrapper := node_at_child h 0
      rw [htag] at hwrapper
      simp only [Lowering.inside, hbare, List.nil_append, List.getElem?_cons_zero] at hwrapper
      have hlowered : AllPlaced roots (Lowering.nested head inner children).2 := by
        have hstands := stands_children hwrapper
        unfold Lowering.nested at hstands ⊢
        rw [htag] at hstands ⊢
        split_ifs at hstands ⊢ with hchildren hsome
        · exact hnodes _ _ hstands
        · exact absurd rfl hsome
        · exact AllPlaced.nil
      refine ((shown_placed hne h ?_ ?_).append (listeners_placed h children)).append hlowered
      · rw [hslot]
        rintro ⟨⟩
      · rw [hbare]
        rintro i ⟨⟩
  | none =>
      rw [htag] at h
      have hstands := stands_children h
      have hlowered : AllPlaced roots (Lowering.nested head inner children).2 := by
        have hright := hstands.right
        unfold Lowering.nested at hright ⊢
        rw [htag] at hright ⊢
        rw [Nat.zero_add] at hright
        split_ifs at hright ⊢ with hchildren hnone
        · cases hnone
        · exact hnodes _ _ hright
        · exact AllPlaced.nil
      refine ((shown_placed hne h ?_ hstands.left).append (listeners_placed h children)).append
        hlowered
      -- a document is all that its element shows
      intro hrendered
      obtain ⟨hchildren, -, hliteral, hnamed⟩ := head.renders hrendered
      have hleading : (Lowering.leading_argument inner head.slot).1 = [] := by
        cases hslot : head.slot <;> simp [hslot, Slot.isRendered] at hrendered
        rfl
      simp [Lowering.inside, shown_bare hleading hliteral hnamed, Lowering.nested, hchildren]

theorem hole_placed {path : Address} {start : Nat} (h : Stands roots path start Lowering.hole) :
    ∃ parent i, path ++ [start] = parent ++ [i] ∧
      node_at roots (path ++ [start]) = some (.anchor .open_) ∧
      node_at roots (parent ++ [i + 1]) = some (.anchor .close) :=
  ⟨path, start, rfl, h 0 (by decide), h 1 (by decide)⟩

mutual

theorem node_placed : ∀ (n : Node) (path : Address) (start : Nat),
    Stands roots path start (Lowering.node path start n).1 →
    AllPlaced roots (Lowering.node path start n).2
  | .element head children, path, start, h => by
      have hinner : path ++ [start] ≠ [] := by simp
      have hnodes := fun path start => nodes_placed children path start
      rw [node_element] at h ⊢
      cases hlabel : head.label with
      | none =>
          simp only [hlabel] at h ⊢
          exact element_placed hinner hnodes h.single
      | some label =>
          simp only [hlabel] at h ⊢
          have hrow := h.single
          refine AllPlaced.append (element_placed (by simp) hnodes (node_at_child hrow 0)) ?_
          exact text_child_placed hinner label (node_at_child hrow 1)
  | .scene tag attributes sources draws, path, start, h => by
      have helement := h.single
      refine (onElement_placed helement sources).append fun b hb => ?_
      obtain rfl := List.mem_singleton.mp hb
      exact ⟨tag, attributes, helement⟩
  | .foreign callee, path, start, h => by
      intro b hb
      obtain rfl := List.mem_singleton.mp hb
      exact ⟨_, _, h.single⟩
  | .handler _, _, _, _ => AllPlaced.nil
  | .key _ _, _, _, _ => AllPlaced.nil
  | .each list body, path, start, h => by
      intro b hb
      obtain rfl := List.mem_singleton.mp hb
      exact hole_placed h
  | .when scrutinee arms, path, start, h => by
      intro b hb
      obtain rfl := List.mem_singleton.mp hb
      exact hole_placed h
  | .ifThen condition then_ otherwise, path, start, h => by
      cases otherwise <;>
      · intro b hb
        obtain rfl := List.mem_singleton.mp hb
        exact hole_placed h
  | .scope body, path, start, h => nodes_placed body path start h
  | .children, _, _, _ => AllPlaced.nil

theorem nodes_placed : ∀ (ns : List Node) (path : Address) (start : Nat),
    Stands roots path start (Lowering.nodes path start ns).1 →
    AllPlaced roots (Lowering.nodes path start ns).2
  | [], _, _, _ => AllPlaced.nil
  | n :: ns, path, start, h =>
      (node_placed n path start h.left).append (nodes_placed ns path _ h.right)

end

theorem region_placed (ns : List Node) :
    AllPlaced (Lowering.region ns).roots (Lowering.region ns).binds := by
  refine nodes_placed ns [] 0 fun i _ => ?_
  rw [Nat.zero_add, List.nil_append]
  rfl

end Placed

section Holes

def holes (binds : List Bind) : List Address :=
  (binds.filter fun b => b.kind.isHole).map Bind.target

theorem holes_append (binds binds' : List Bind) :
    holes (binds ++ binds') = holes binds ++ holes binds' := by
  simp [holes]

theorem onElement_holes (target : Address) (sources : List String) :
    holes (Lowering.onElement target sources) = [] := by
  simp [holes, Lowering.onElement, List.filter_eq_nil_iff, Bind.kind, BindKind.isHole]

theorem listeners_holes (target : Address) : ∀ (ns : List Node),
    holes (Lowering.listeners target ns) = []
  | [] => rfl
  | n :: ns => by
      cases n with
      | handler source => exact listeners_holes target ns
      | _ => exact listeners_holes target ns

theorem text_child_holes (parent : Address) (index : Nat) (shown : Operand) :
    holes (Lowering.text_child parent index shown).2 = [] := by
  cases shown with
  | literal text js =>
      simp only [Lowering.text_child]
      split_ifs <;> rfl
  | static value => rfl
  | reactive getter => rfl

theorem named_arguments_holes (target : Address) : ∀ (index : Nat) (named : List Named),
    holes (Lowering.named_arguments target index named).2 = []
  | _, [] => rfl
  | index, .message shown :: named => by
      rw [Lowering.named_arguments, holes_append, text_child_holes,
        named_arguments_holes target _ named, List.append_nil]
  | index, .onElement sources :: named => by
      rw [Lowering.named_arguments, holes_append, onElement_holes,
        named_arguments_holes target _ named, List.append_nil]

theorem leading_argument_holes (target : Address) (slot : Slot) :
    holes (Lowering.leading_argument target slot).2 = [] := by
  cases slot with
  | none_ => rfl
  | text shown =>
      cases shown with
      | none => rfl
      | some shown => exact text_child_holes target 0 shown
  | rendered shown => cases shown <;> rfl
  | choice offered sources => exact onElement_holes target sources
  | control sources => exact onElement_holes target sources

theorem shown_holes (head : Head) (target : Address) :
    holes (Lowering.shown head target).2 = [] := by
  rw [Lowering.shown, holes_append, leading_argument_holes, named_arguments_holes,
    List.append_nil]

/-- The holes are distinct, and stand under these nodes. -/
structure HolesUnder (path : Address) (start count : Nat) (binds : List Bind) : Prop where
  nodup : (holes binds).Nodup
  under : ∀ t ∈ holes binds, ∃ i rest, i < count ∧ t = path ++ (start + i) :: rest

theorem holesUnder_none {path : Address} {start count : Nat} {binds : List Bind}
    (h : holes binds = []) : HolesUnder path start count binds := by
  refine ⟨h ▸ List.nodup_nil, ?_⟩
  rw [h]
  rintro t ⟨⟩

theorem holesUnder_hole {path : Address} {start : Nat} {kind : BindKind}
    (h : kind.isHole = true) : HolesUnder path start 2 [.mk (path ++ [start]) kind] := by
  have hholes : holes [.mk (path ++ [start]) kind] = [path ++ [start]] := by
    simp [holes, Bind.kind, Bind.target, h]
  refine ⟨hholes ▸ List.nodup_singleton _, ?_⟩
  rw [hholes]
  intro t ht
  obtain rfl := List.mem_singleton.mp ht
  exact ⟨0, [], by decide, rfl⟩

theorem HolesUnder.append {path : Address} {start count count' : Nat} {binds binds' : List Bind}
    (h : HolesUnder path start count binds) (h' : HolesUnder path (start + count) count' binds') :
    HolesUnder path start (count + count') (binds ++ binds') := by
  constructor
  · rw [holes_append]
    refine h.nodup.append h'.nodup fun t ht ht' => ?_
    obtain ⟨i, rest, hi, rfl⟩ := h.under t ht
    obtain ⟨i', rest', -, heq⟩ := h'.under _ ht'
    have hindex := (List.cons.inj (List.append_cancel_left heq)).1
    omega
  · intro t ht
    rw [holes_append, List.mem_append] at ht
    rcases ht with ht | ht
    · obtain ⟨i, rest, hi, rfl⟩ := h.under t ht
      exact ⟨i, rest, by omega, rfl⟩
    · obtain ⟨i, rest, hi, rfl⟩ := h'.under t ht
      exact ⟨count + i, rest, by omega, by rw [Nat.add_assoc]⟩

theorem HolesUnder.inside {path under : Address} {start start' count : Nat} {binds : List Bind}
    (h : HolesUnder (path ++ start :: under) start' count binds) :
    HolesUnder path start 1 binds := by
  refine ⟨h.nodup, fun t ht => ?_⟩
  obtain ⟨i, rest, -, rfl⟩ := h.under t ht
  exact ⟨0, under ++ (start' + i) :: rest, by decide, by simp⟩

mutual

theorem node_holes : ∀ (n : Node) (path : Address) (start : Nat),
    HolesUnder path start (Lowering.node path start n).1.length (Lowering.node path start n).2
  | .element head children, path, start => by
      have hnested : ∀ under, HolesUnder path start 1
          (Lowering.nested head (path ++ start :: under) children).2 := by
        intro under
        unfold Lowering.nested
        split_ifs
        · have hinner := nodes_holes children (path ++ start :: (under ++ [0])) 0
          rw [show (path ++ start :: under) ++ [0] = path ++ start :: (under ++ [0]) by simp]
          exact hinner.inside
        · exact (nodes_holes children (path ++ start :: under) _).inside
        · exact holesUnder_none rfl
      rw [node_element]
      cases head.label with
      | none =>
          refine ⟨?_, ?_⟩
          all_goals
            simp only [Option.isSome_none, Bool.false_eq_true, if_false, holes_append,
              shown_holes, listeners_holes, List.nil_append]
          · exact (hnested []).nodup
          · exact (hnested []).under
      | some label =>
          have heq : path ++ [start] ++ [0] = path ++ start :: [0] := by simp
          refine ⟨?_, ?_⟩
          all_goals
            simp only [Option.isSome_some, if_true, holes_append, shown_holes, listeners_holes,
              text_child_holes, List.nil_append, List.append_nil, heq]
          · exact (hnested [0]).nodup
          · exact (hnested [0]).under
  | .scene tag attributes sources draws, path, start => by
      refine holesUnder_none ?_
      rw [Lowering.node, holes_append, onElement_holes]
      rfl
  | .foreign callee, path, start => holesUnder_none rfl
  | .handler _, _, _ => holesUnder_none rfl
  | .key _ _, _, _ => holesUnder_none rfl
  | .each list body, path, start => holesUnder_hole rfl
  | .when scrutinee arms, path, start => holesUnder_hole rfl
  | .ifThen condition then_ otherwise, path, start => by
      cases otherwise <;> exact holesUnder_hole rfl
  | .scope body, path, start => nodes_holes body path start
  | .children, _, _ => holesUnder_none rfl

theorem nodes_holes : ∀ (ns : List Node) (path : Address) (start : Nat),
    HolesUnder path start (Lowering.nodes path start ns).1.length (Lowering.nodes path start ns).2
  | [], _, _ => holesUnder_none rfl
  | n :: ns, path, start => by
      rw [Lowering.nodes, List.length_append]
      exact (node_holes n path start).append (nodes_holes ns path _)

end

theorem region_holes (ns : List Node) : (holes (Lowering.region ns).binds).Nodup :=
  (nodes_holes ns [] 0).nodup

end Holes

section Nested

/-- Every region nested in the binds is one the lowering builds. -/
def AllLowered (binds : List Bind) : Prop :=
  ∀ r ∈ bindRegions binds, ∃ ns, r = Lowering.region ns

theorem bindRegions_append : ∀ (binds binds' : List Bind),
    bindRegions (binds ++ binds') = bindRegions binds ++ bindRegions binds'
  | [], _ => rfl
  | .mk target kind :: binds, binds' => by
      rw [List.cons_append, bindRegions, bindRegions, bindRegions_append binds binds',
        List.append_assoc]

theorem AllLowered.append {binds binds' : List Bind} (h : AllLowered binds)
    (h' : AllLowered binds') : AllLowered (binds ++ binds') := by
  intro r hr
  rw [bindRegions_append, List.mem_append] at hr
  rcases hr with hr | hr
  · exact h r hr
  · exact h' r hr

theorem bindRegions_eq_nil : ∀ {binds : List Bind}, holes binds = [] → bindRegions binds = []
  | [], _ => rfl
  | .mk target kind :: binds, h => by
      have hkind : kind.isHole = false := by
        cases hhole : kind.isHole with
        | false => rfl
        | true => simp [holes, Bind.kind, hhole] at h
      have hrest : holes binds = [] := by
        simpa [holes, Bind.kind, hkind] using h
      rw [bindRegions, bindRegions_eq_nil hrest, List.append_nil]
      cases kind <;> first | rfl | cases hkind

theorem allLowered_of_holes {binds : List Bind} (h : holes binds = []) : AllLowered binds := by
  unfold AllLowered
  rw [bindRegions_eq_nil h]
  rintro r ⟨⟩

theorem body_lowered {ns : List Node} (h : AllLowered (Lowering.nodes [] 0 ns).2) :
    ∀ r ∈ (Region.of (Lowering.nodes [] 0 ns)).regions, ∃ ns', r = Lowering.region ns' := by
  intro r hr
  rcases List.mem_cons.mp hr with rfl | hr
  · exact ⟨ns, rfl⟩
  · exact h r hr

mutual

theorem node_lowered : ∀ (n : Node) (path : Address) (start : Nat),
    AllLowered (Lowering.node path start n).2
  | .element head children, path, start => by
      have hnested : ∀ inner, AllLowered (Lowering.nested head inner children).2 := by
        intro inner
        unfold Lowering.nested
        split_ifs
        · exact nodes_lowered children _ _
        · exact nodes_lowered children _ _
        · exact allLowered_of_holes rfl
      have hown : ∀ inner, AllLowered
          ((Lowering.shown head inner).2 ++ Lowering.listeners inner children) := fun inner =>
        allLowered_of_holes (by rw [holes_append, shown_holes, listeners_holes, List.append_nil])
      rw [node_element]
      cases head.label with
      | none => exact (hown _).append (hnested _)
      | some label =>
          exact ((hown _).append (hnested _)).append
            (allLowered_of_holes (text_child_holes _ _ label))
  | .scene tag attributes sources draws, path, start =>
      (allLowered_of_holes (onElement_holes _ sources)).append (allLowered_of_holes rfl)
  | .foreign callee, path, start => allLowered_of_holes rfl
  | .handler _, _, _ => allLowered_of_holes rfl
  | .key _ _, _, _ => allLowered_of_holes rfl
  | .each list body, path, start => by
      intro r hr
      simp only [Lowering.node, bindRegions, BindKind.regions, List.append_nil] at hr
      exact body_lowered (nodes_lowered body [] 0) r hr
  | .when scrutinee arms, path, start => by
      intro r hr
      simp only [Lowering.node, bindRegions, BindKind.regions, List.append_nil] at hr
      exact arms_lowered arms r hr
  | .ifThen condition then_ none, path, start => by
      intro r hr
      simp only [Lowering.node, bindRegions, BindKind.regions, List.append_nil] at hr
      exact body_lowered (nodes_lowered then_ [] 0) r hr
  | .ifThen condition then_ (some otherwise), path, start => by
      intro r hr
      simp only [Lowering.node, bindRegions, BindKind.regions, List.append_nil,
        List.mem_append] at hr
      rcases hr with hr | hr
      · exact body_lowered (nodes_lowered then_ [] 0) r hr
      · exact body_lowered (nodes_lowered otherwise [] 0) r hr
  | .scope body, path, start => nodes_lowered body path start
  | .children, _, _ => allLowered_of_holes rfl

theorem nodes_lowered : ∀ (ns : List Node) (path : Address) (start : Nat),
    AllLowered (Lowering.nodes path start ns).2
  | [], _, _ => allLowered_of_holes rfl
  | n :: ns, path, start => (node_lowered n path start).append (nodes_lowered ns path _)

theorem arms_lowered : ∀ (arms : List (String × List Node)),
    ∀ r ∈ armRegions (Lowering.arms arms), ∃ ns, r = Lowering.region ns
  | [], r, hr => by cases hr
  | (name, body) :: arms, r, hr => by
      rw [Lowering.arms, armRegions, List.mem_append] at hr
      rcases hr with hr | hr
      · exact body_lowered (nodes_lowered body [] 0) r hr
      · exact arms_lowered arms r hr

end

theorem regions_lowered (ns : List Node) :
    ∀ r ∈ (Lowering.region ns).regions, ∃ ns', r = Lowering.region ns' :=
  body_lowered (nodes_lowered ns [] 0)

end Nested

end Template
end Zdeceptron
