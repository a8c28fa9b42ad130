import Zdeceptron.Library.LongestIncreasing
import Zdeceptron.Library.PartitionPoint
import Zdeceptron.Library.Relocation
import Zdeceptron.Wire.Value

/-!
# Keyed list reconciliation

`eachInto` brings the nodes between two anchors in line with a list of items: rows
whose key left are removed, rows whose key is new are rendered, and the rows are
placed from right to left, leaving alone those at `settledPositions`.
-/

namespace Zdeceptron
namespace Runtime

open Library
open Wire (units)

structure Entry (Item Node : Type) where
  nodes : List Node
  value : Item

/-- A list between its anchors: the children of their parent, the mounted rows in
the order of the `Map`, and what is left of the served nodes. -/
structure Region (Key Item Node : Type) where
  children : List Node
  mounted : List (Key × Entry Item Node)
  served : Option (List Node)

/-- What a run can throw; `notFound` is the platform's. -/
inductive ListError (Key : Type)
  | duplicate (key : Key)
  | notFound
  | misplaced (rows placed expected at' : Nat)

section SettledPositions

structure Runs where
  tails : List Nat
  previous : List (Option Nat)

/-- One position; `from'` gives for every row where it is now, or `none`. -/
def settleStep (from' : List (Option Nat)) (runs : Runs) (i : Nat) : Runs :=
  match from'.getD i none with
  | none => runs
  | some position =>
      let low := partitionPoint
        (fun middle => (runs.tails[middle]?.bind (fun tail => from'.getD tail none)).any
          (fun tail => tail < position)) 0 runs.tails.length
      { tails := assign runs.tails low i
        previous := runs.previous.set i (if low = 0 then none else runs.tails[low - 1]?) }

def settleRuns (from' : List (Option Nat)) (count : Nat) : Runs :=
  (List.range count).foldl (settleStep from')
    { tails := [], previous := List.replicate from'.length none }

def settledPositions (from' : List (Option Nat)) : List Nat :=
  let runs := settleRuns from' from'.length
  walkBack (fun i => runs.previous.getD i none) runs.tails.length runs.tails.getLast?

end SettledPositions

variable {Key Item Node : Type} [DecidableEq Key] [DecidableEq Node]

section Passes

def keyItems (keyOf : Item → Nat → Key) : List Key → List Item → Except (ListError Key) (List Key)
  | keys, [] => .ok keys
  | keys, item :: items =>
      if keyOf item keys.length ∈ keys then .error (.duplicate (keyOf item keys.length))
      else keyItems keyOf (keys ++ [keyOf item keys.length]) items

/-- The next row's worth of served nodes and what is left.  A short tail is
dropped. -/
def claimRow (roots : Nat) : Option (List Node) → Option (List Node) × Option (List Node)
  | none => (none, none)
  | some [] => (none, some [])
  | some (node :: nodes) =>
      if roots ≤ (node :: nodes).length then
        (some ((node :: nodes).take roots), some ((node :: nodes).drop roots))
      else (none, some [])

structure Row (Key Item Node : Type) where
  key : Key
  entry : Entry Item Node
  from' : Option Nat

variable (render : Nat → Item → Option (List Node) → List Node) (roots : Nat)

/-- Pass 2: the rows of the items.  A key that is mounted keeps its nodes and gets
the item; for another one `render` is called, `render i` being its call for the row
at `i`. -/
def supply (mounted : List (Key × Entry Item Node)) :
    Nat → Option (List Node) → List (Key × Item) → List (Row Key Item Node)
  | _, _, [] => []
  | i, served, (key, item) :: keyed =>
      match mounted.find? (fun row => row.1 == key) with
      | some row =>
          { key := key
            entry := { row.2 with value := item }
            from' := (mounted.map Prod.fst).idxOf? key } ::
              supply mounted (i + 1) served keyed
      | none =>
          { key := key
            entry := { nodes := render i item (claimRow roots served).1, value := item }
            from' := none } ::
              supply mounted (i + 1) (claimRow roots served).2 keyed

structure Placement (Node : Type) where
  children : List Node
  cursor : Option Node
  calls : List (Move Node)

/-- Pass 3: the rows from right to left, those that are settled left alone. -/
def placeRows (settled : List Nat) (stop : Node) (children : List Node) :
    Nat → List (Row Key Item Node) → Option (Placement Node)
  | _, [] => some { children := children, cursor := some stop, calls := [] }
  | i, row :: rows =>
      (placeRows settled stop children (i + 1) rows).bind (fun placed =>
        if i ∈ settled then some { placed with cursor := row.entry.nodes.head? }
        else
          (insertAll placed.children placed.cursor row.entry.nodes).map (fun children =>
            { children := children
              cursor := row.entry.nodes.head?
              calls := placed.calls ++
                row.entry.nodes.map (fun node => .insert node placed.cursor) }))

end Passes

section Check

def between (start stop : Node) (children : List Node) : List Node :=
  ((children.dropWhile (fun node => node != start)).drop 1).takeWhile (fun node => node != stop)

def rowNodes (mounted : List (Key × Entry Item Node)) : List Node :=
  mounted.flatMap (fun row => row.2.nodes)

def firstDifference : Nat → List Node → List Node → Option Nat
  | _, [], [] => none
  | i, x :: xs, y :: ys => if x = y then firstDifference (i + 1) xs ys else some i
  | i, _, _ => some i

def assertPlaced (start stop : Node) (children : List Node)
    (mounted : List (Key × Entry Item Node)) : Except (ListError Key) Unit :=
  match firstDifference 0 (between start stop children) (rowNodes mounted) with
  | none => .ok ()
  | some i =>
      .error (.misplaced mounted.length (between start stop children).length
        (rowNodes mounted).length i)

end Check

/-- What a run leaves: the list, the keys of the rows it disposed of, the calls of
`remove` and `insertBefore` in their order, and the positions it left alone. -/
structure Outcome (Key Item Node : Type) where
  region : Region Key Item Node
  disposed : List Key
  calls : List (Move Node)
  settled : List Nat

def survivors (region : Region Key Item Node) (keys : List Key) :
    List (Key × Entry Item Node) :=
  region.mounted.filter (fun row => keys.contains row.1)

def departed (region : Region Key Item Node) (keys : List Key) :
    List (Key × Entry Item Node) :=
  region.mounted.filter (fun row => !keys.contains row.1)

def place (start stop : Node) (region : Region Key Item Node) (keys : List Key)
    (rows : List (Row Key Item Node)) : Except (ListError Key) (Outcome Key Item Node) :=
  match placeRows (settledPositions (rows.map Row.from')) stop
      ((rowNodes (departed region keys)).foldl List.erase region.children) 0 rows with
  | none => .error .notFound
  | some placed =>
      match assertPlaced start stop placed.children
          (rows.map (fun row => (row.key, row.entry))) with
      | .error error => .error error
      | .ok () => .ok
          { region :=
              { children := placed.children
                mounted := rows.map (fun row => (row.key, row.entry))
                served := none }
            disposed := (departed region keys).map Prod.fst
            calls := (rowNodes (departed region keys)).map Move.remove ++ placed.calls
            settled := settledPositions (rows.map Row.from') }

/-- One run of `eachInto`. -/
def eachInto (render : Nat → Item → Option (List Node) → List Node) (roots : Nat)
    (keyOf : Item → Nat → Key) (start stop : Node) (region : Region Key Item Node)
    (items : List Item) : Except (ListError Key) (Outcome Key Item Node) :=
  match keyItems keyOf [] items with
  | .error error => .error error
  | .ok keys =>
      place start stop region keys
        (supply render roots (survivors region keys) 0 region.served (keys.zip items))

end Runtime
end Zdeceptron
