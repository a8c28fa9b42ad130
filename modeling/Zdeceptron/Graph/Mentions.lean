import Zdeceptron.Graph.Sites

/-!
# What a body mentions

The expressions and the mutations of a body, whatever walks it, and the sites found by
walking it.
-/

namespace Zdeceptron
namespace Graph

section Bodies

def pipelineExprs : Pipeline → List Expr
  | .source expr => [expr]
  | .keep _ cond => [cond]
  | .sort _ key => [key]
  | .mapEach _ mapped => [mapped]
  | .fold _ _ starting step => [starting, step]
  | .takeFirst count => [count]

mutual

/-- The expressions a statement evaluates, those of its blocks too. -/
def stmtExprs : Stmt → List Expr
  | .pipeline clause => pipelineExprs clause
  | .mutation effect => effect.exprs
  | .bind bindings => bindings.map Prod.snd
  | .give expr => [expr]
  | .when scrutinee arms => scrutinee :: armExprs arms
  | .each _ iter body => iter :: blockExprs body
  | .ifThen cond then_ otherwise =>
      cond :: (blockExprs then_ ++
        (match otherwise with
        | none => []
        | some block => blockExprs block))
  | .perform effect => effect.exprs

def armExprs : List Arm → List Expr
  | [] => []
  | .mk _ _ body :: arms =>
      (match body with
      | .show_ expr => [expr]
      | .block block => blockExprs block) ++ armExprs arms

def blockExprs : Block → List Expr
  | [] => []
  | stmt :: stmts => stmtExprs stmt ++ blockExprs stmts

end

def Effect.mutations : Effect → List Mutation
  | .mutation written => [written]
  | .call _ => []

mutual

def stmtMutations : Stmt → List Mutation
  | .pipeline _ => []
  | .mutation effect => effect.mutations
  | .bind _ => []
  | .give _ => []
  | .when _ arms => armMutations arms
  | .each _ _ body => blockMutations body
  | .ifThen _ then_ otherwise =>
      blockMutations then_ ++
        (match otherwise with
        | none => []
        | some block => blockMutations block)
  | .perform effect => effect.mutations

def armMutations : List Arm → List Mutation
  | [] => []
  | .mk _ _ body :: arms =>
      (match body with
      | .show_ _ => []
      | .block block => blockMutations block) ++ armMutations arms

def blockMutations : Block → List Mutation
  | [] => []
  | stmt :: stmts => stmtMutations stmt ++ blockMutations stmts

end

end Bodies

section Own

variable (hir : Hir)

def ownSites : Expr → List Site
  | .environment _ => [.environment]
  | .media _ => [.media]
  | .scroll => [.scroll]
  | .outbound _ _ => [.outbound]
  | .build capability _ => [.build capability]
  | .ref id res => refSites hir id res
  | .call callee _ => callSites hir callee
  | .ofCall callee _ _ => ofCallSites hir callee
  | _ => []

end Own

section Found

variable {hir : Hir}

variable {site : Site}

theorem mem_argSites {args : List (Arg Expr)} :
    site ∈ argSites hir args ↔ ∃ arg ∈ args, site ∈ exprSites hir arg.value := by
  induction args with
  | nil => simp only [argSites, List.not_mem_nil, false_and, exists_false]
  | cons arg args ih =>
      simp only [argSites, List.mem_append, ih, List.mem_cons, exists_eq_or_imp]

theorem mem_listSites {items : List Expr} :
    site ∈ listSites hir items ↔ ∃ item ∈ items, site ∈ exprSites hir item := by
  induction items with
  | nil => simp only [listSites, List.not_mem_nil, false_and, exists_false]
  | cons item items ih =>
      simp only [listSites, List.mem_append, ih, List.mem_cons, exists_eq_or_imp]

theorem mem_entrySites {entries : List (Expr × Expr)} :
    site ∈ entrySites hir entries ↔
      ∃ entry ∈ entries, site ∈ exprSites hir entry.1 ∨ site ∈ exprSites hir entry.2 := by
  induction entries with
  | nil => simp only [entrySites, List.not_mem_nil, false_and, exists_false]
  | cons entry entries ih =>
      simp only [entrySites, List.mem_append, ih, List.mem_cons, exists_eq_or_imp]

theorem mem_exprSites {e : Expr} :
    site ∈ exprSites hir e ↔ site ∈ ownSites hir e ∨ ∃ c ∈ e.children, site ∈ exprSites hir c := by
  cases e <;>
    simp only [exprSites, ownSites, Expr.children, mem_argSites, mem_listSites, mem_entrySites,
      List.mem_append, List.mem_cons, List.not_mem_nil, List.mem_map, List.mem_flatMap,
      exists_exists_and_eq_and, or_false, false_or, false_and, exists_false,
      exists_eq_or_imp, exists_eq_left, or_assoc]
  case map entries =>
    constructor
    · rintro ⟨entry, hentry, h | h⟩
      · exact ⟨_, ⟨entry, hentry, .inl rfl⟩, h⟩
      · exact ⟨_, ⟨entry, hentry, .inr rfl⟩, h⟩
    · rintro ⟨_, ⟨entry, hentry, rfl | rfl⟩, h⟩
      · exact ⟨entry, hentry, .inl h⟩
      · exact ⟨entry, hentry, .inr h⟩

theorem sizeOf_arg {arg : Arg Expr} {args : List (Arg Expr)} (h : arg ∈ args) :
    sizeOf arg.value < sizeOf args := by
  have hlist := List.sizeOf_lt_of_mem h
  have harg : sizeOf arg.value < sizeOf arg := by
    cases arg
    simp only [Arg.mk.sizeOf_spec]
    omega
  omega

theorem sizeOf_children {c e : Expr} (h : c ∈ e.children) : sizeOf c < sizeOf e := by
  cases e <;>
    simp only [Expr.children, List.mem_cons, List.not_mem_nil, or_false, List.mem_map,
      List.mem_flatMap] at h
  case list items =>
    have := List.sizeOf_lt_of_mem h
    simp only [Expr.list.sizeOf_spec]
    omega
  case map entries =>
    obtain ⟨entry, hentry, hc⟩ := h
    have hlist := List.sizeOf_lt_of_mem hentry
    obtain ⟨key, value⟩ := entry
    simp only [Expr.map.sizeOf_spec]
    simp only [Prod.mk.sizeOf_spec] at hlist
    obtain rfl | rfl := hc <;> omega
  case call _ args | outbound _ args =>
    obtain ⟨arg, harg, rfl⟩ := h
    have := sizeOf_arg harg
    simp only [Expr.call.sizeOf_spec, Expr.outbound.sizeOf_spec]
    omega
  case conditional | insert =>
    simp only [Expr.conditional.sizeOf_spec, Expr.insert.sizeOf_spec]
    obtain rfl | rfl | rfl := h <;> omega
  case binary | index | append | mapInside =>
    simp only [Expr.binary.sizeOf_spec, Expr.index.sizeOf_spec, Expr.append.sizeOf_spec,
      Expr.mapInside.sizeOf_spec]
    obtain rfl | rfl := h <;> omega
  case ofCall | operator | build | unary | field =>
    simp only [Expr.ofCall.sizeOf_spec, Expr.operator.sizeOf_spec, Expr.build.sizeOf_spec,
      Expr.unary.sizeOf_spec, Expr.field.sizeOf_spec, h]
    omega

theorem mem_exprSites_iff (e : Expr) :
    site ∈ exprSites hir e ↔ ∃ d, d.Within e ∧ site ∈ ownSites hir d := by
  constructor
  · intro h
    obtain hown | ⟨c, hc, hsite⟩ := mem_exprSites.mp h
    · exact ⟨e, .self, hown⟩
    · have := sizeOf_children hc
      obtain ⟨d, hwithin, hown⟩ := (mem_exprSites_iff c).mp hsite
      exact ⟨d, .child hc hwithin, hown⟩
  · rintro ⟨d, hwithin, hown⟩
    induction hwithin with
    | self => exact mem_exprSites.mpr (.inl hown)
    | child hc _ ih => exact mem_exprSites.mpr (.inr ⟨_, hc, ih⟩)
termination_by sizeOf e

theorem mem_exprSites_of_mem {d e : Expr} (hd : d.Within e)
    (h : site ∈ ownSites hir d) : site ∈ exprSites hir e :=
  (mem_exprSites_iff e).mpr ⟨d, hd, h⟩

end Found

section Walked

variable {hir : Hir}

/-- A site at an expression, or a mutation of the kind that is looked for. -/
def Found (hir : Hir) (wanted : Mutation → Prop) (site : Site) (exprs : List Expr)
    (mutations : List Mutation) : Prop :=
  (∃ top ∈ exprs, site ∈ exprSites hir top) ∨ ∃ m ∈ mutations, wanted m

namespace Found

variable {wanted : Mutation → Prop} {site : Site}

theorem append {exprs others : List Expr} {mutations writes : List Mutation} :
    Found hir wanted site (exprs ++ others) (mutations ++ writes) ↔
      Found hir wanted site exprs mutations ∨ Found hir wanted site others writes := by
  unfold Found
  simp only [List.mem_append, or_and_right, exists_or]
  rw [or_or_or_comm]

theorem nil : ¬ Found hir wanted site [] [] := by
  rintro (⟨_, h, _⟩ | ⟨_, h, _⟩)
  · exact List.not_mem_nil h
  · exact List.not_mem_nil h

theorem cons {e : Expr} {exprs : List Expr} {mutations : List Mutation} :
    Found hir wanted site (e :: exprs) mutations ↔
      site ∈ exprSites hir e ∨ Found hir wanted site exprs mutations := by
  unfold Found
  simp only [List.mem_cons, exists_eq_or_imp, or_assoc]

end Found

section Statements

variable {locals : List LocalId} {site : Site}

abbrev AtPlace (hir : Hir) (locals : List LocalId) (site : Site) (m : Mutation) : Prop :=
  site ∈ placeSites hir locals m.op m.place

theorem mem_pipelineSites (clause : Pipeline) :
    site ∈ pipelineSites hir clause ↔
      Found hir (AtPlace hir locals site) site (pipelineExprs clause) [] := by
  cases clause <;>
    simp only [pipelineSites, pipelineExprs, Found.cons, Found.nil, or_false, List.mem_append]

theorem mem_effectSites (effect : Effect) :
    site ∈ effectSites hir locals effect ↔
      Found hir (AtPlace hir locals site) site effect.exprs effect.mutations := by
  cases effect with
  | call callee =>
      simp only [effectSites, Effect.exprs, Effect.mutations, Found.cons, Found.nil, or_false]
  | mutation written =>
      simp only [effectSites, mutationSites, Effect.exprs, Effect.mutations, Found,
        List.mem_append, mem_listSites, List.mem_cons, exists_eq_or_imp, exists_eq_left,
        List.not_mem_nil, or_false, AtPlace]
      rw [or_assoc, or_comm]

theorem mem_bindingSites (bindings : List (LocalId × Expr)) :
    site ∈ bindingSites hir bindings ↔
      Found hir (AtPlace hir locals site) site (bindings.map Prod.snd) [] := by
  induction bindings with
  | nil => simp only [bindingSites, List.map_nil, List.not_mem_nil, Found.nil]
  | cons binding bindings ih =>
      simp only [bindingSites, List.map_cons, List.mem_append, Found.cons, ih]

mutual

theorem mem_stmtSites (stmt : Stmt) :
    site ∈ stmtSites hir locals stmt ↔
      Found hir (AtPlace hir locals site) site (stmtExprs stmt) (stmtMutations stmt) := by
  match stmt with
  | .pipeline clause => exact mem_pipelineSites clause
  | .mutation effect => exact mem_effectSites effect
  | .bind bindings => exact mem_bindingSites bindings
  | .give expr =>
      simp only [stmtSites, stmtExprs, stmtMutations, Found.cons, Found.nil, or_false]
  | .when scrutinee arms =>
      simp only [stmtSites, stmtExprs, stmtMutations, Found.cons, List.mem_append,
        mem_armSites arms]
  | .each _ iter body =>
      simp only [stmtSites, stmtExprs, stmtMutations, Found.cons, List.mem_append,
        mem_blockSites body]
  | .ifThen cond then_ none =>
      simp only [stmtSites, stmtExprs, stmtMutations, Found.cons, List.mem_append,
        mem_blockSites then_, List.append_nil]
  | .ifThen cond then_ (some otherwise) =>
      simp only [stmtSites, stmtExprs, stmtMutations, Found.cons, List.mem_append,
        mem_blockSites then_, mem_blockSites otherwise, Found.append, or_assoc]
  | .perform effect => exact mem_effectSites effect

theorem mem_armSites (arms : List Arm) :
    site ∈ armSites hir locals arms ↔
      Found hir (AtPlace hir locals site) site (armExprs arms) (armMutations arms) := by
  match arms with
  | [] => simp only [armSites, armExprs, armMutations, List.not_mem_nil, Found.nil]
  | .mk _ _ (.show_ expr) :: arms =>
      simp only [armSites, armExprs, armMutations, List.mem_append, List.nil_append,
        List.cons_append, Found.cons, mem_armSites arms]
  | .mk _ _ (.block block) :: arms =>
      simp only [armSites, armExprs, armMutations, List.mem_append, Found.append,
        mem_blockSites block, mem_armSites arms]

theorem mem_blockSites (block : Block) :
    site ∈ blockSites hir locals block ↔
      Found hir (AtPlace hir locals site) site (blockExprs block) (blockMutations block) := by
  match block with
  | [] => simp only [blockSites, blockExprs, blockMutations, List.not_mem_nil, Found.nil]
  | stmt :: stmts =>
      simp only [blockSites, blockExprs, blockMutations, List.mem_append, Found.append,
        mem_stmtSites stmt, mem_blockSites stmts]

end

end Statements

end Walked

end Graph
end Zdeceptron
