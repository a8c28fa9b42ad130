import Mathlib.Logic.Function.Basic
import Mathlib.Data.List.Sort
import Zdeceptron.Graph.Sites
import Zdeceptron.Library.Worklist

/-!
# The tier split

What a definition is a member of: the browser, the build, or a server invocation.  The
worklist runs over definitions and roots and makes the roots of endpoints and commands
as it meets the reads and writes that need them.
-/

namespace Zdeceptron
namespace Graph

open Library

section Roots

inductive Region
  | static
  | client
  | server
deriving DecidableEq

inductive RootKind
  | build
  | view
  | trigger
deriving DecidableEq

structure Ctx where
  region : Region
  kind : RootKind
deriving DecidableEq

namespace Ctx

def clientView : Ctx := ⟨.client, .view⟩
def staticBuild : Ctx := ⟨.static, .build⟩
def serverView : Ctx := ⟨.server, .view⟩
def serverTrigger : Ctx := ⟨.server, .trigger⟩

end Ctx

inductive SignalPlacement
  | client
  | static
  | server
  | durable
  | durablePerVisitor
  | remembered
deriving DecidableEq

def placementOf : Placement → SignalPlacement
  | .client => .client
  | .static => .static
  | .server => .server
  | .durable => .durable
  | .remembered => .remembered

def regionOf : SignalPlacement → Region
  | .client => .client
  | .remembered => .client
  | .static => .static
  | .server => .server
  | .durable => .server
  | .durablePerVisitor => .server

def Hir.placement (hir : Hir) (id : DefId) : SignalPlacement :=
  match hir.signal id with
  | some signal => placementOf signal.placement
  | none => .client

structure CommandKey where
  signal : DefId
  op : MutOp
  path : List PathKeySeg
deriving DecidableEq

inductive RootOrigin
  | clientBundle
  | buildHost
  | endpoint (signal : DefId)
  | command (key : CommandKey)
  | trigger (signal : DefId)
  | orphan (id : DefId)
deriving DecidableEq

structure Root where
  ctx : Ctx
  origin : RootOrigin
  emitted : Bool

abbrev RootId := Nat

def client : RootId := 0

def build : RootId := 1

end Roots

section Classification

inductive Crossing
  | direct
  | inline
  | store (key : DefId) (perVisitor : Bool)
  | remote (endpoint : RootId)
  | lift (target : DefId)
  | rejected (code : String)
deriving DecidableEq

inductive MutCrossing
  | local_
  | storeWrite (key : DefId) (perVisitor : Bool)
  | command (root : RootId)
  | rejected (code : String)
deriving DecidableEq

/-- How a read crosses.  The endpoint, the key and the target are placeholders that the
read fills in. -/
def classify (ctx : Ctx) (target : SignalPlacement) : Crossing :=
  match ctx.region, ctx.kind, target with
  | .client, _, .client => .direct
  | .client, _, .remembered => .direct
  | .client, _, .static => .inline
  | .client, _, .server => .remote client
  | .client, _, .durable => .remote client
  | .client, _, .durablePerVisitor => .remote client
  | .static, _, .static => .direct
  | .static, _, _ => .rejected "E0301"
  | .server, _, .static => .inline
  | .server, _, .server => .direct
  | .server, .view, .client => .lift 0
  | .server, _, .client => .rejected "E0302"
  | .server, .view, .remembered => .lift 0
  | .server, _, .remembered => .rejected "E0302"
  | .server, _, .durable => .store 0 false
  | .server, .view, .durablePerVisitor => .store 0 true
  | .server, _, .durablePerVisitor => .rejected "E0303"

def classifyWrite (ctx : Ctx) (target : SignalPlacement) : MutCrossing :=
  match ctx.region, ctx.kind, target with
  | _, _, .static => .rejected "E0310"
  | .client, _, .client => .local_
  | .client, _, .remembered => .local_
  | .client, _, .server => .rejected "E0311"
  | .client, _, .durable => .command client
  | .client, _, .durablePerVisitor => .command client
  | .server, _, .client => .rejected "E0312"
  | .server, _, .remembered => .rejected "E0312"
  | .server, _, .server => .local_
  | .server, _, .durable => .storeWrite 0 false
  | .server, .view, .durablePerVisitor => .storeWrite 0 true
  | .server, _, .durablePerVisitor => .rejected "E0303"
  | .static, _, _ => .rejected "E0312"

inductive MemberForm
  | binding
  | function
  | storeRead
  | inlined
  | test
  | view
deriving DecidableEq

inductive WriteId
  | place (id : PlaceId)
  | bound (id : ExprId)
deriving DecidableEq

end Classification

structure Splitter where
  roots : List Root
  endpointRoots : List (DefId × RootId)
  commandRoots : List (CommandKey × RootId)
  seen : List (DefId × RootId)
  /-- The next pair to look at comes first. -/
  work : List (DefId × RootId)
  members : List (RootId × DefId × MemberForm)
  contexts : List (DefId × Ctx)
  reachedBy : List (DefId × RootId)
  crossings : ExprId × Ctx → Option Crossing
  mutationsAt : WriteId × Ctx → Option MutCrossing
  lifted : List ((DefId × RootId) × DefId)
  calls : List ((DefId × RootId) × DefId)
  directReads : List ((DefId × RootId) × DefId)
  /-- The codes of the errors. -/
  diagnostics : List String

namespace Splitter

def new : Splitter where
  roots := [⟨.clientView, .clientBundle, true⟩, ⟨.staticBuild, .buildHost, true⟩]
  endpointRoots := []
  commandRoots := []
  seen := []
  work := []
  members := []
  contexts := []
  reachedBy := []
  crossings := fun _ => none
  mutationsAt := fun _ => none
  lifted := []
  calls := []
  directReads := []
  diagnostics := []

def ctxOf (s : Splitter) (root : RootId) : Ctx :=
  ((s.roots[root]?).map Root.ctx).getD .clientView

def push (s : Splitter) (id : DefId) (root : RootId) : Splitter :=
  { s with work := (id, root) :: s.work }

def reach (s : Splitter) (id : DefId) (root : RootId) : Splitter :=
  { s with reachedBy := (id, root) :: s.reachedBy }

def error (s : Splitter) (code : String) : Splitter :=
  { s with diagnostics := s.diagnostics ++ [code] }

def errorUnless (s : Splitter) (allowed : Bool) (code : String) : Splitter :=
  if allowed then s else s.error code

section Requests

def endpointRoot (s : Splitter) (signal : DefId) : Splitter × RootId :=
  match s.endpointRoots.lookup signal with
  | some root => (s, root)
  | none =>
      ({ s with
          roots := s.roots ++ [⟨.serverView, .endpoint signal, true⟩]
          endpointRoots := (signal, s.roots.length) :: s.endpointRoots },
        s.roots.length)

def commandRoot (s : Splitter) (key : CommandKey) : Splitter × RootId :=
  match s.commandRoots.lookup key with
  | some root => (s, root)
  | none =>
      ({ s with
          roots := s.roots ++ [⟨.serverView, .command key, true⟩]
          commandRoots := (key, s.roots.length) :: s.commandRoots },
        s.roots.length)

def cross (s : Splitter) (expr : ExprId) (ctx : Ctx) (crossing : Crossing) : Splitter :=
  { s with crossings := Function.update s.crossings (expr, ctx) (some crossing) }

def record (s : Splitter) (write : WriteId) (ctx : Ctx) (crossing : MutCrossing) : Splitter :=
  { s with mutationsAt := Function.update s.mutationsAt (write, ctx) (some crossing) }

def readHere (s : Splitter) (id : DefId) (root : RootId) (signal : DefId) : Splitter :=
  { (s.push signal root).reach signal root with
    directReads := ((id, root), signal) :: s.directReads }

end Requests

section Sites

variable (hir : Hir)

def read (s : Splitter) (id : DefId) (root : RootId) (ctx : Ctx) (signal : DefId)
    (expr : ExprId) : Splitter :=
  match classify ctx (hir.placement signal) with
  | .direct => (s.readHere id root signal).cross expr ctx .direct
  | .inline => (s.push signal build).cross expr ctx .inline
  | .store _ perVisitor =>
      ((s.push signal build).readHere id root signal).cross expr ctx (.store signal perVisitor)
  | .remote _ =>
      let (s, endpoint) := s.endpointRoot signal
      ((s.push signal endpoint).reach signal endpoint).cross expr ctx (.remote endpoint)
  | .lift _ =>
      ({ s with lifted := ((id, root), signal) :: s.lifted }.push signal client).cross
        expr ctx (.lift signal)
  | .rejected code => (s.error code).cross expr ctx (.rejected code)

def write (s : Splitter) (id : DefId) (root : RootId) (ctx : Ctx) (signal : DefId)
    (op : MutOp) (path : List PathKeySeg) (write : WriteId) : Splitter :=
  match classifyWrite ctx (hir.placement signal) with
  | .local_ => (s.readHere id root signal).record write ctx .local_
  | .storeWrite _ perVisitor => s.record write ctx (.storeWrite signal perVisitor)
  | .command _ =>
      let (s, command) := s.commandRoot ⟨signal, op, path⟩
      s.record write ctx (.command command)
  | .rejected code => (s.error code).record write ctx (.rejected code)

def call (s : Splitter) (id : DefId) (root : RootId) (callee : DefId) : Splitter :=
  { (s.push callee root).reach callee root with
    calls := ((id, root), callee) :: s.calls }

def site (s : Splitter) (id : DefId) (root : RootId) (ctx : Ctx) : Site → Splitter
  | .foreignCall _ => s
  | .call callee => s.call id root callee
  | .read signal expr => s.read hir id root ctx signal expr
  | .write place signal op path => s.write hir id root ctx signal op path (.place place)
  | .bind place signal => s.write hir id root ctx signal .set [] (.bound place)
  | .notAPlace => s.error "E0314"
  | .media => s.errorUnless (ctx.region = .client) "E0362"
  | .scroll => s.errorUnless (ctx.region = .client) "E0362"
  | .environment => s.errorUnless (ctx.region = .server) "E0360"
  | .outbound => s.errorUnless (ctx.region = .client) "E0363"
  | .build _ => s.errorUnless (ctx.region = .static) "E0361"
  | .documentKey _ => s.errorUnless (ctx.region = .client) "E0364"

def sites (s : Splitter) (id : DefId) (root : RootId) (ctx : Ctx) : List Site → Splitter
  | [] => s
  | site :: sites => (s.site hir id root ctx site).sites id root ctx sites

end Sites

section Fixpoint

variable (hir : Hir)

def walksItsBody (id : DefId) (root : RootId) : Bool :=
  match hir.signal id with
  | some signal =>
      match placementOf signal.placement with
      | .durable => root = build
      | .durablePerVisitor => root = build
      | .static => root = build
      | _ => true
  | none => true

/-- The form a member takes.  Types, components and foreigns are never members. -/
def formOf (id : DefId) (root : RootId) : MemberForm :=
  match hir.kind id with
  | some (.signal signal) =>
      if signal.expectation then .test
      else
        match placementOf signal.placement with
        | .static => .inlined
        | .durable => if root = build then .binding else .storeRead
        | .durablePerVisitor => if root = build then .binding else .storeRead
        | _ => .binding
  | some (.view _) => .view
  | _ => .function

def visit (s : Splitter) (id : DefId) (root : RootId) : Splitter :=
  let ctx := s.ctxOf root
  let s :=
    { s with
      seen := (id, root) :: s.seen
      members := (root, id, formOf hir id root) :: s.members
      contexts := (id, ctx) :: s.contexts }
  if walksItsBody hir id root then s.sites hir id root ctx (sitesOf hir id) else s

def fixpoint (s : Splitter) : Option Splitter :=
  match s.work with
  | [] => some s
  | (id, root) :: rest =>
      if (id, root) ∈ s.seen then ({ s with work := rest } : Splitter) |>.fixpoint
      else ({ s with work := rest } : Splitter).visit hir id root |>.fixpoint
partial_fixpoint

def triggerRoot (s : Splitter) (signal : DefId) : Splitter × RootId :=
  ({ s with roots := s.roots ++ [⟨.serverTrigger, .trigger signal, true⟩] }, s.roots.length)

def seedSignal (s : Splitter) (id : DefId) : Splitter :=
  match hir.signal id with
  | none => s
  | some signal =>
      let s :=
        match placementOf signal.placement with
        | .durable => s.push id build
        | .durablePerVisitor => s.push id build
        | .static => s.push id build
        | _ => s
      if signal.schedule.isSome then
        let (s, root) := s.triggerRoot id
        s.push id root
      else s

def seed (s : Splitter) : Splitter :=
  let s :=
    match hir.view with
    | some view => s.push view client
    | none => s
  (List.range hir.defs.length).foldl (fun s id => s.seedSignal hir id) s

def isSeen (s : Splitter) (id : DefId) : Bool := s.seen.any (fun pair => pair.1 = id)

def isOrphan (s : Splitter) (id : DefId) : Bool :=
  match hir.kind id with
  | some (.signal _) => !s.isSeen id
  | some (.function _) => !s.isSeen id
  | _ => false

def orphanCtx (id : DefId) : Ctx :=
  match hir.signal id with
  | some signal => ⟨regionOf (placementOf signal.placement), .view⟩
  | none => .clientView

def adopt (s : Splitter) (id : DefId) : Option Splitter :=
  if s.isSeen id then some s
  else
    let adopted : Splitter :=
      { s with roots := s.roots ++ [⟨orphanCtx hir id, .orphan id, false⟩] }
    (adopted.push id s.roots.length).fixpoint hir

def adoptEach (s : Splitter) : List DefId → Option Splitter
  | [] => some s
  | id :: ids => (s.adopt hir id).bind (fun s => s.adoptEach ids)

def orphanPass (s : Splitter) : Option Splitter :=
  s.adoptEach hir ((List.range hir.defs.length).filter (fun id => s.isOrphan hir id))

end Fixpoint

section Parameters

def liftedBy (s : Splitter) (id : DefId) (root : RootId) : List DefId :=
  (s.lifted.filter (fun entry => entry.1 = (id, root))).map Prod.snd

def membersOf (s : Splitter) (root : RootId) : List (DefId × MemberForm) :=
  (s.members.filter (fun entry => entry.1 = root)).map Prod.snd

def collectParams (s : Splitter) (root : RootId) : List DefId :=
  (((s.membersOf root).flatMap (fun entry => s.liftedBy entry.1 root)).dedup).insertionSort
    (· ≤ ·)

end Parameters

section Hoisting

abbrev Edges := List ((DefId × RootId) × DefId)

def edges (s : Splitter) : Edges := s.calls ++ s.directReads

/-- The members that name what a handler owns: a lifted cell, or themselves. -/
def owned (s : Splitter) : List (DefId × RootId) :=
  s.lifted.map Prod.fst ++
    (s.members.filter (fun entry => entry.2.2 = .binding ∨ entry.2.2 = .storeRead)).map
      (fun entry => (entry.2.1, entry.1))

/-- Whether something a member calls or reads has to be inside the handler. -/
def pulled (edges : Edges) (needs : List (DefId × RootId)) (member : DefId × RootId) : Bool :=
  edges.any (fun edge => edge.1 = member ∧ (edge.2, member.2) ∈ needs)

def hoistPass (edges : Edges) :
    List (DefId × RootId) → List (DefId × RootId) → List (DefId × RootId)
  | [], needs => needs
  | member :: members, needs =>
      hoistPass edges members
        (if member ∉ needs ∧ pulled edges needs member then member :: needs else needs)

theorem subset_hoistPass (edges : Edges) (members needs : List (DefId × RootId)) :
    needs ⊆ hoistPass edges members needs := by
  induction members generalizing needs with
  | nil => exact List.Subset.refl needs
  | cons member members ih =>
      refine List.Subset.trans ?_ (ih _)
      split
      · exact List.subset_cons_self member needs
      · exact List.Subset.refl needs

theorem hoistPass_cases (edges : Edges) (members needs : List (DefId × RootId)) :
    (hoistPass edges members needs = needs ∧
      ∀ member ∈ members, member ∉ needs → pulled edges needs member = false) ∨
    ∃ member ∈ members, member ∉ needs ∧ member ∈ hoistPass edges members needs := by
  induction members generalizing needs with
  | nil => exact .inl ⟨rfl, fun _ h => (List.not_mem_nil h).elim⟩
  | cons member members ih =>
      by_cases hfound : member ∉ needs ∧ pulled edges needs member
      · refine .inr ⟨member, List.mem_cons_self, hfound.1, ?_⟩
        rw [hoistPass, if_pos hfound]
        exact subset_hoistPass edges members _ List.mem_cons_self
      · rw [hoistPass, if_neg hfound]
        obtain ⟨heq, hnone⟩ | ⟨other, hother, hnew, hin⟩ := ih needs
        · refine .inl ⟨heq, fun other hother hnew => ?_⟩
          obtain rfl | hother := List.mem_cons.mp hother
          · cases hpulled : pulled edges needs other with
            | false => rfl
            | true => exact absurd ⟨hnew, hpulled⟩ hfound
          · exact hnone other hother hnew
        · exact .inr ⟨other, List.mem_cons_of_mem _ hother, hnew, hin⟩

def sources (edges : Edges) : List (DefId × RootId) := edges.map Prod.fst

def solveNeeds (edges : Edges) (needs : List (DefId × RootId)) : List (DefId × RootId) :=
  if hoistPass edges (sources edges) needs = needs then needs
  else solveNeeds edges (hoistPass edges (sources edges) needs)
termination_by (remaining (sources edges) needs).length
decreasing_by
  rename_i hchanged
  obtain ⟨heq, -⟩ | ⟨member, hmember, hnew, hin⟩ :=
    hoistPass_cases edges (sources edges) needs
  · exact (hchanged heq).elim
  · exact remaining_lt (subset_hoistPass edges _ needs) hmember hnew hin

def hoisted (s : Splitter) (id : DefId) (root : RootId) : Bool :=
  decide ((id, root) ∉ solveNeeds s.edges s.owned)

end Hoisting

end Splitter

structure TierSplit where
  splitter : Splitter
  params : RootId → List DefId
  hoisted : DefId → RootId → Bool

/-- The tier split; `none` if the worklist never runs empty. -/
def split (hir : Hir) : Option TierSplit :=
  ((((Splitter.new.seed hir).fixpoint hir).bind (fun s => s.orphanPass hir))).map
    (fun s => ⟨s, s.collectParams, s.hoisted⟩)

end Graph
end Zdeceptron
