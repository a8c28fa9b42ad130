import Mathlib.Data.String.Basic
import Mathlib.Data.List.Sort
import Zdeceptron.Library.PartitionPoint
import Zdeceptron.Library.ReplayLog
import Zdeceptron.Store.Value

/-!
# The fan-out beside the database

A fan-out remembers who listens to which keys, keeps the last updates for
replaying, and knows the position of the newest one.  A subscriber hands over a
cursor and receives a subscription: what it missed, or a notice that this cannot
be replayed, and then everything sent down its channel.

A channel is a queue between a sender and a receiver.  The sender's half sits in
the subscriber list, the receiver's half in the subscription; both name the
channel by its number.  A receiver that was dropped leaves its channel
disconnected.
-/

namespace Zdeceptron
namespace Store

open Library

abbrev Seq := Nat

structure Update where
  seq : Seq
  key : String
  value : Option Json
deriving DecidableEq

inductive Event
  | resync (seq : Seq)
  | update (update : Update)
deriving DecidableEq

def BACKLOG : Nat := 256

section Keys

def dedup : List String → List String
  | [] => []
  | [x] => [x]
  | x :: y :: rest => if x = y then dedup (y :: rest) else x :: dedup (y :: rest)

theorem mem_dedup (x : String) : ∀ xs : List String, x ∈ dedup xs ↔ x ∈ xs
  | [] => by simp [dedup]
  | [y] => by simp [dedup]
  | y :: z :: rest => by
      have ih := mem_dedup x (z :: rest)
      by_cases hyz : y = z
      · subst hyz
        simp [dedup, ih]
      · simp only [dedup, hyz, if_false, List.mem_cons, ih]

theorem dedup_pairwise_lt :
    ∀ xs : List String, xs.Pairwise (· ≤ ·) → (dedup xs).Pairwise (· < ·)
  | [], _ => List.Pairwise.nil
  | [x], _ => List.pairwise_singleton _ _
  | x :: y :: rest, h => by
      obtain ⟨hx, hrest⟩ := List.pairwise_cons.mp h
      have ih := dedup_pairwise_lt (y :: rest) hrest
      by_cases hxy : x = y
      · simpa [dedup, hxy] using ih
      · simp only [dedup, hxy, if_false]
        refine List.pairwise_cons.mpr ⟨?_, ih⟩
        intro z hz
        have hxy' : x < y := lt_of_le_of_ne (hx y (by simp)) hxy
        rcases List.mem_cons.mp ((mem_dedup z _).mp hz) with rfl | hz
        · exact hxy'
        · exact lt_of_lt_of_le hxy' ((List.pairwise_cons.mp hrest).1 z hz)

structure Keys where
  held : List String
  increasing : held.Pairwise (· < ·)

namespace Keys

instance : DecidableEq Keys := fun a b =>
  decidable_of_iff (a.held = b.held) (by cases a; cases b; simp)

def new (keys : List String) : Keys where
  held := dedup (keys.insertionSort (· ≤ ·))
  increasing := dedup_pairwise_lt _ (List.pairwise_insertionSort (· ≤ ·) keys)

def contains (keys : Keys) (key : String) : Bool :=
  let test (i : Nat) : Bool := (keys.held[i]?).any (fun held => decide (held < key))
  decide (keys.held[partitionPoint test 0 keys.held.length]? = some key)

theorem contains_iff (keys : Keys) (key : String) :
    keys.contains key = true ↔ key ∈ keys.held := by
  simp only [contains, decide_eq_true_eq]
  constructor
  · exact fun h => List.mem_of_getElem? h
  · intro h
    obtain ⟨i, hi, hkey⟩ := List.getElem_of_mem h
    set test : Nat → Bool :=
      fun i => (keys.held[i]?).any (fun held => decide (held < key)) with htest
    have hat : ∀ j (hj : j < keys.held.length), test j = decide (keys.held[j] < key) := by
      intro j hj
      simp [htest, List.getElem?_eq_getElem hj]
    have hlt : ∀ a b (ha : a < keys.held.length) (hb : b < keys.held.length),
        a < b → keys.held[a] < keys.held[b] := by
      intro a b ha hb hab
      exact List.pairwise_iff_getElem.mp keys.increasing a b ha hb hab
    have hpart : Partitioned test 0 keys.held.length := by
      intro a b _ hab hb ht
      rw [hat b hb, decide_eq_true_eq] at ht
      rw [hat a (by omega), decide_eq_true_eq]
      rcases Nat.lt_or_eq_of_le hab with hab | rfl
      · exact lt_trans (hlt a b (by omega) hb hab) ht
      · exact ht
    have hle := (partitionPoint_bounds test (Nat.zero_le keys.held.length)).2
    have hpoint : partitionPoint test 0 keys.held.length = i := by
      rcases lt_trichotomy (partitionPoint test 0 keys.held.length) i with hp | hp | hp
      · have hfail := partitionPoint_after hpart (by omega) (le_refl _)
        rw [hat _ (by omega), decide_eq_false_iff_not] at hfail
        exact absurd (hkey ▸ hlt _ i (by omega) hi hp) hfail
      · exact hp
      · have hpass := partitionPoint_before hpart (Nat.zero_le i) hp
        rw [hat i hi, decide_eq_true_eq, hkey] at hpass
        exact absurd hpass (lt_irrefl key)
    rw [hpoint, List.getElem?_eq_getElem hi, hkey]

/-- A key set has the keys it was made from, and their order and repetitions make no
difference. -/
theorem new_same_keys (keys : List String) :
    (∀ key, (new keys).contains key = true ↔ key ∈ keys) ∧
      ∀ other, new keys = new other ↔ ∀ key, key ∈ keys ↔ key ∈ other := by
  have hheld (keys : List String) (key : String) : key ∈ (new keys).held ↔ key ∈ keys :=
    (mem_dedup key _).trans (List.perm_insertionSort (· ≤ ·) keys).mem_iff
  refine ⟨fun key => (contains_iff _ key).trans (hheld keys key), fun other => ⟨?_, ?_⟩⟩
  · intro h key
    rw [← hheld keys, h, hheld other]
  · intro h
    have hsame : (new keys).held = (new other).held :=
      (new keys).increasing.eq_of_mem_iff (new other).increasing
        (fun key => (hheld keys key).trans ((h key).trans (hheld other key).symm))
    cases hkeys : new keys
    cases hother : new other
    simpa [hkeys, hother] using hsame

end Keys

end Keys

section Fanout

structure Channel where
  queue : List Update
  connected : Bool
deriving DecidableEq

def send (channels : List Channel) (tx : Nat) (update : Update) :
    Option (List Channel) :=
  match channels[tx]? with
  | some channel =>
      if channel.connected then
        some (channels.set tx { channel with queue := channel.queue ++ [update] })
      else none
  | none => none

structure Fanout where
  subscribers : List (Keys × Nat)
  backlog : List Update
  latest : Seq
  channels : List Channel
deriving DecidableEq

/-- Send to every subscriber that wants the key, dropping those whose receiver
is gone. -/
def retain (update : Update) :
    List (Keys × Nat) → List Channel → List (Keys × Nat) × List Channel
  | [], channels => ([], channels)
  | (keys, tx) :: rest, channels =>
      if keys.contains update.key then
        match send channels tx update with
        | some sent =>
            ((keys, tx) :: (retain update rest sent).1, (retain update rest sent).2)
        | none => retain update rest channels
      else
        ((keys, tx) :: (retain update rest channels).1, (retain update rest channels).2)

namespace Fanout

def new (latest : Seq) : Fanout :=
  { subscribers := [], backlog := [], latest := latest, channels := [] }

def announce (fanout : Fanout) (update : Update) : Fanout :=
  let retained := retain update fanout.subscribers fanout.channels
  { subscribers := retained.1
    backlog := pushBounded BACKLOG fanout.backlog update
    latest := update.seq
    channels := retained.2 }

def publishAll (fanout : Fanout) (updates : List Update) : Fanout :=
  updates.foldl announce fanout

def publish (fanout : Fanout) (update : Update) : Fanout :=
  fanout.publishAll [update]

end Fanout

structure Subscription where
  pending : List Event
  rx : Nat
  seq : Seq
deriving DecidableEq

namespace Fanout

/-- What a subscriber resuming after `since` is handed first. -/
def replay (fanout : Fanout) (keys : Keys) : Option Seq → List Event
  | none => []
  | some seen =>
      if fanout.latest ≤ seen then []
      else
        match fanout.backlog.head? with
        | some oldest =>
            if oldest.seq ≤ seen + 1 then
              (fanout.backlog.filter
                (fun update => decide (seen < update.seq) && keys.contains update.key)).map
                Event.update
            else [Event.resync fanout.latest]
        | none => [Event.resync fanout.latest]

/-- Subscribe to `keys`, resuming after `since`: the channel is registered and
the backlog read under one lock. -/
def subscribe (fanout : Fanout) (keys : Keys) (since : Option Seq) :
    Fanout × Subscription :=
  let tx := fanout.channels.length
  ({ fanout with
      subscribers := fanout.subscribers ++ [(keys, tx)]
      channels := fanout.channels ++ [{ queue := [], connected := true }] },
    { pending := fanout.replay keys since, rx := tx, seq := fanout.latest })

def tryNext (fanout : Fanout) (subscription : Subscription) :
    Option Event × Fanout × Subscription :=
  match subscription.pending with
  | event :: rest => (some event, fanout, { subscription with pending := rest })
  | [] =>
      match fanout.channels[subscription.rx]? with
      | some channel =>
          match channel.queue with
          | update :: rest =>
              (some (Event.update update),
                { fanout with
                    channels := fanout.channels.set subscription.rx
                      { channel with queue := rest } },
                subscription)
          | [] => (none, fanout, subscription)
      | none => (none, fanout, subscription)

def dropSubscription (fanout : Fanout) (subscription : Subscription) : Fanout :=
  { fanout with
      channels := fanout.channels.set subscription.rx { queue := [], connected := false } }

end Fanout

end Fanout

end Store
end Zdeceptron
