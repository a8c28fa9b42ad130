import Mathlib.Logic.Function.Basic

/-!
# Fine-grained reactivity

Signals, deriveds and effects, with their edges found at read time.  A write marks
the readers of its signal in `pending`; when the outermost batch returns, `flush`
drains them.  A derived that runs only becomes stale and marks its own readers; an
effect runs again.

Deriveds are numbered so that one reads only those before it.  `saw` and `log` are
kept for the statements and read by nothing.
-/

namespace Zdeceptron
namespace Runtime

inductive Source
  | signal (s : Nat)
  | derived (d : Nat)
deriving DecidableEq

inductive Node
  | derived (d : Nat)
  | effect (e : Nat)
deriving DecidableEq

inductive Compute (α : Type) (d : Nat)
  | done (value : α)
  | signal (s : Nat) (next : α → Compute α d)
  | derived (i : Fin d) (next : α → Compute α d)

inductive Callback (α : Type)
  | done (value : α)
  | read (source : Source) (next : α → Callback α)
  | write (s : Nat) (change : α → α) (next : α → Callback α)
  | batch (inner : Callback α) (next : α → Callback α)
  | effect (body : Callback α) (next : Nat → Callback α)
  | dispose (e : Nat) (next : Callback α)

/-- The signals with their values, the deriveds with their values or `none` when
stale, the edges both ways, the effects so far, and what waits to run: `pending`, and
in `ready` what is left of the snapshot a flush took.  `saw` is what a node read since
its sources were cleared. -/
structure Graph (α : Type) where
  value : Nat → α
  cache : Nat → Option α
  readers : Source → List Node
  sources : Node → List Source
  effects : List (Callback α)
  live : Nat → Bool
  batchDepth : Nat
  pending : List Node
  ready : List Node
  saw : Node → List (Source × α)

/-- What happened: an effect ran, an effect was disposed of, a derived was read by a
running node, or the outermost batch returned. -/
inductive Event (α : Type)
  | ran (e : Nat)
  | disposed (e : Nat)
  | read (d : Nat) (given : α) (before : Graph α)
  | returned (after : Graph α)

structure State (α : Type) where
  graph : Graph α
  log : List (Event α)

variable {α : Type}

section Edges

def addTo {β : Type} [DecidableEq β] (xs : List β) (x : β) : List β :=
  if x ∈ xs then xs else xs ++ [x]

def Graph.register (g : Graph α) (source : Source) : Option Node → Graph α
  | none => g
  | some n =>
      { g with
        readers := Function.update g.readers source (addTo (g.readers source) n)
        sources := Function.update g.sources n (addTo (g.sources n) source) }

def Graph.observe (g : Graph α) (source : Source) (value : α) : Option Node → Graph α
  | none => g
  | some n => { g with saw := Function.update g.saw n (g.saw n ++ [(source, value)]) }

def Graph.clearSources (g : Graph α) (n : Node) : Graph α :=
  { g with
    readers := fun source =>
      if source ∈ g.sources n then (g.readers source).erase n else g.readers source
    sources := Function.update g.sources n []
    saw := Function.update g.saw n [] }

def Graph.invalidate (g : Graph α) (nodes : List Node) : Graph α :=
  { g with pending := nodes.foldl addTo g.pending }

def Graph.setValue (g : Graph α) (s : Nat) (value : α) : Graph α :=
  { g with value := Function.update g.value s value }

def Graph.store (g : Graph α) (d : Nat) (value : α) : Graph α :=
  { g with cache := Function.update g.cache d (some value) }

def Graph.markStale (g : Graph α) (d : Nat) : Graph α :=
  { g with cache := Function.update g.cache d none }.invalidate (g.readers (.derived d))

def State.map (st : State α) (f : Graph α → Graph α) : State α :=
  { st with graph := f st.graph }

def State.note (st : State α) (event : Event α) : State α :=
  { st with log := st.log ++ [event] }

end Edges

section Read

abbrev Reader (α : Type) := Option Node → State α → State α × α

def readSignal (s : Nat) : Reader α := fun listener st =>
  (st.map (fun g =>
    (g.register (.signal s) listener).observe (.signal s) (g.value s) listener),
    st.graph.value s)

def runCompute {d : Nat} (lower : Fin d → Reader α) :
    Compute α d → State α → State α × α
  | .done value, st => (st, value)
  | .signal s next, st =>
      runCompute lower (next (readSignal s (some (.derived d)) st).2)
        (readSignal s (some (.derived d)) st).1
  | .derived i next, st =>
      runCompute lower (next (lower i (some (.derived d)) st).2)
        (lower i (some (.derived d)) st).1

def refresh {d : Nat} (lower : Fin d → Reader α) (body : Compute α d) (st : State α) :
    State α × α :=
  match st.graph.cache d with
  | some value => (st, value)
  | none =>
      ((runCompute lower body (st.map (fun g => g.clearSources (.derived d)))).1.map
        (fun g => g.store d
          (runCompute lower body (st.map (fun g => g.clearSources (.derived d)))).2),
        (runCompute lower body (st.map (fun g => g.clearSources (.derived d)))).2)

def State.given (st : State α) (d : Nat) (value : α) (before : Graph α) :
    Option Node → State α
  | none => st
  | some n =>
      (st.map (fun g => g.observe (.derived d) value (some n))).note (.read d value before)

def readDerivedWith {d : Nat} (lower : Fin d → Reader α) (body : Compute α d) :
    Reader α := fun listener st =>
  ((refresh lower body (st.map (fun g => g.register (.derived d) listener))).1.given d
    (refresh lower body (st.map (fun g => g.register (.derived d) listener))).2 st.graph
    listener,
    (refresh lower body (st.map (fun g => g.register (.derived d) listener))).2)

/-- The reads of the deriveds before `n`. -/
def readTable (compute : (d : Nat) → Compute α d) : (n : Nat) → Fin n → Reader α
  | 0, i => i.elim0
  | n + 1, i =>
      if h : i.val < n then readTable compute n ⟨i.val, h⟩
      else readDerivedWith (readTable compute n) (compute n)

def readDerived (compute : (d : Nat) → Compute α d) (d : Nat) : Reader α :=
  readDerivedWith (readTable compute d) (compute d)

def readSource (compute : (d : Nat) → Compute α d) : Source → Reader α
  | .signal s => readSignal s
  | .derived d => readDerived compute d

end Read

section Run

variable [DecidableEq α] (compute : (d : Nat) → Compute α d)

def leaveBatch (flush : State α → Option (State α)) (st : State α) : Option (State α) :=
  let left := st.map (fun g => { g with batchDepth := g.batchDepth - 1 })
  if left.graph.batchDepth = 0 then flush left else some left

def enterBatch (st : State α) : State α :=
  st.map (fun g => { g with batchDepth := g.batchDepth + 1 })

/-- A write: nothing for the value that is there, else a batch of its own. -/
def writeSignal (flush : State α → Option (State α)) (s : Nat) (resolved : α)
    (st : State α) : Option (State α) :=
  if resolved = st.graph.value s then some st
  else
    leaveBatch flush ((enterBatch st).map (fun g =>
      (g.setValue s resolved).invalidate (g.readers (.signal s))))

def disposeEffect (e : Nat) (st : State α) : State α :=
  if e < st.graph.effects.length then
    (st.map (fun g => { g with live := Function.update g.live e false }.clearSources (.effect e))).note
      (.disposed e)
  else st

def createEffect (body : Callback α) (st : State α) : State α :=
  (st.map (fun g =>
    { g with
      effects := g.effects ++ [body]
      live := Function.update g.live g.effects.length true }.clearSources
        (.effect g.effects.length))).note (.ran st.graph.effects.length)

/-- Run a callback as `listener`.  `flush` is what a flush does: within a flush,
nothing. -/
def runCallback (flush : State α → Option (State α)) :
    Option Node → Callback α → State α → Option (State α × α)
  | _, .done value, st => some (st, value)
  | listener, .read source next, st =>
      runCallback flush listener (next (readSource compute source listener st).2)
        (readSource compute source listener st).1
  | listener, .write s change next, st =>
      (writeSignal flush s (change (st.graph.value s)) st).bind (fun st =>
        runCallback flush listener (next (st.graph.value s)) st)
  | listener, .batch inner next, st =>
      (runCallback flush listener inner (enterBatch st)).bind (fun r =>
        (leaveBatch flush r.1).bind (fun st => runCallback flush listener (next r.2) st))
  | listener, .effect body next, st =>
      (runCallback flush (some (.effect st.graph.effects.length)) body
        (createEffect body st)).bind (fun r =>
          runCallback flush listener (next st.graph.effects.length) r.1)
  | listener, .dispose e next, st => runCallback flush listener next (disposeEffect e st)

def runNode (n : Node) (st : State α) : Option (State α) :=
  match n with
  | .derived d => some (st.map (fun g => g.markStale d))
  | .effect e =>
      match st.graph.effects[e]? with
      | none => some st
      | some body =>
          if st.graph.live e then
            (runCallback compute some (some (.effect e)) body
              ((st.map (fun g => g.clearSources (.effect e))).note (.ran e))).map Prod.fst
          else some st

def Graph.takeReady (g : Graph α) : Graph α :=
  match g.ready with
  | [] => { g with ready := g.pending, pending := [] }
  | _ :: _ => g

def drain : Nat → State α → Option (State α)
  | 0, st => if st.graph.takeReady.ready = [] then some st else none
  | steps + 1, st =>
      match st.graph.takeReady.ready with
      | [] => some st
      | n :: rest =>
          (runNode compute n (st.map (fun g => { g.takeReady with ready := rest }))).bind
            (drain steps)

def stepLimit : Nat := 100000

def flush (st : State α) : Option (State α) :=
  (drain compute stepLimit st).map (fun st => st.note (.returned st.graph))

def runScript : List (Callback α) → State α → Option (State α)
  | [], st => some st
  | callback :: callbacks, st =>
      (runCallback compute (flush compute) none callback st).bind (fun r =>
        runScript callbacks r.1)

end Run

def initial (value : Nat → α) : State α :=
  { graph :=
      { value := value
        cache := fun _ => none
        readers := fun _ => []
        sources := fun _ => []
        effects := []
        live := fun _ => false
        batchDepth := 0
        pending := []
        ready := []
        saw := fun _ => [] }
    log := [] }

section Meaning

/-- The value of the function of a derived, given the signals and the deriveds before
it. -/
def Compute.eval {d : Nat} (value : Nat → α) (lower : Fin d → α) : Compute α d → α
  | .done result => result
  | .signal s next => (next (value s)).eval value lower
  | .derived i next => (next (lower i)).eval value lower

def evalTable (compute : (d : Nat) → Compute α d) (value : Nat → α) : (n : Nat) → Fin n → α
  | 0, i => i.elim0
  | n + 1, i =>
      if h : i.val < n then evalTable compute value n ⟨i.val, h⟩
      else (compute n).eval value (evalTable compute value n)

def evalDerived (compute : (d : Nat) → Compute α d) (value : Nat → α) (d : Nat) : α :=
  (compute d).eval value (evalTable compute value d)

def evalSource (compute : (d : Nat) → Compute α d) (value : Nat → α) : Source → α
  | .signal s => value s
  | .derived d => evalDerived compute value d

end Meaning

end Runtime
end Zdeceptron
