import Zdeceptron.Library.Machine
import Zdeceptron.Live.Router

/-!
# What a deployed stream watches

The router's stream sends the current value of every key and then watches the store: it
polls, or it is notified by Deno KV or by a Durable Object.  The snapshot, the baseline of
the watch and its first news are three different moments, and writes fall between them.
-/

namespace Zdeceptron
namespace Live

open Library
open Wire (Value)

section Feed

/-- The values the store holds, the keys whose snapshot is still to be read, and the values
that were sent. -/
structure Feed where
  store : Units → Value
  opening : List Units
  sent : List (Units × Value)

namespace Feed

def write (f : Feed) (key : Units) (value : Value) : Feed :=
  { f with store := Function.update f.store key value }

def emit (f : Feed) (key : Units) (value : Value) : Feed :=
  { f with sent := f.sent ++ [(key, value)] }

def snapshot (f : Feed) (throws : Bool) : Option Feed :=
  match f.opening with
  | [] => none
  | key :: rest =>
      if throws then some { f with opening := [] }
      else some { f.emit key (f.store key) with opening := rest }

def last (f : Feed) (key : Units) : Option Units :=
  ((f.sent.filter (fun pair => pair.1 == key)).getLast?).map
    (fun pair => Wire.stringify pair.2)

def Current (f : Feed) (key : Units) : Prop := f.last key = some (Wire.stringify (f.store key))

variable {f : Feed} {key other : Units} {value : Value}

theorem last_emit_self : (f.emit key value).last key = some (Wire.stringify value) := by
  unfold last emit
  rw [List.filter_append]
  simp

theorem last_emit_of_ne (h : key ≠ other) : (f.emit key value).last other = f.last other := by
  unfold last emit
  rw [List.filter_append]
  simp [h]

theorem current_emit : (f.emit key (f.store key)).Current key := last_emit_self

theorem current_emit_of_ne (h : key ≠ other) :
    (f.emit key value).Current other ↔ f.Current other := by
  unfold Current
  rw [last_emit_of_ne h]
  rfl

theorem current_write_of_ne (h : key ≠ other) :
    (f.write key value).Current other ↔ f.Current other := by
  have hstore : (f.write key value).store other = f.store other :=
    Function.update_of_ne (Ne.symm h) _ _
  unfold Current
  rw [hstore]
  rfl

end Feed

end Feed

section Polling

/-- A stream over a store that is polled: what each key looked like last, the keys that the
running tick has still to look at, and the keys that were looked at since their last write. -/
structure Polling where
  feed : Feed
  seen : Units → Option Units
  tick : Option (List Units)
  looked : Units → Bool

namespace Polling

inductive Move
  | write (key : Units) (value : Value)
  | snapshot (throws : Bool)
  | tick
  /-- The running tick reads its next key. -/
  | look (throws : Bool)

variable (keys : List Units)

def new (store : Units → Value) : Polling :=
  ⟨⟨store, keys, []⟩, fun _ => none, none, fun _ => false⟩

def write (s : Polling) (key : Units) (value : Value) : Polling :=
  { s with feed := s.feed.write key value, looked := Function.update s.looked key false }

def look (s : Polling) (key : Units) (rest : List Units) : Polling :=
  let encoded := Wire.stringify (s.feed.store key)
  { feed :=
      if s.seen key = none ∨ s.seen key = some encoded then s.feed
      else s.feed.emit key (s.feed.store key)
    seen := Function.update s.seen key (some encoded)
    tick := some rest
    looked := Function.update s.looked key true }

def step (s : Polling) : Move → Option Polling
  | .write key value => some (s.write key value)
  | .snapshot throws => (s.feed.snapshot throws).map (fun feed => { s with feed := feed })
  | .tick =>
      if s.feed.opening = [] then some { s with tick := s.tick.or (some keys) } else none
  | .look throws =>
      match s.tick with
      | some (key :: rest) => some (if throws then { s with tick := none } else s.look key rest)
      | some [] => some { s with tick := none }
      | none => none

def machine : Machine Polling Move := ⟨step keys⟩

/-- Every key that was looked at since its last write was last sent with its value. -/
def Current (s : Polling) : Prop := ∀ key, s.looked key = true → s.feed.Current key

/-- A key that a tick reads for the first time was sent with the value it has. -/
def Noted (s : Polling) : Move → Prop
  | .look false => ∀ key rest, s.tick = some (key :: rest) → s.seen key = none →
      s.feed.Current key
  | _ => True

structure Inv (s : Polling) : Prop where
  opened : ∀ rest, s.tick = some rest → s.feed.opening = []
  unseen : s.feed.opening ≠ [] → ∀ key, s.seen key = none
  seen : ∀ key encoded, s.seen key = some encoded → s.feed.last key = some encoded
  looked : ∀ key, s.looked key = true → s.seen key = some (Wire.stringify (s.feed.store key))

variable {keys} {s : Polling}

theorem inv_new (store : Units → Value) : (Polling.new keys store).Inv where
  opened := fun _ h => nomatch h
  unseen := fun _ _ => rfl
  seen := fun _ _ h => nomatch h
  looked := fun _ h => nomatch h

theorem Inv.current (hinv : s.Inv) : s.Current :=
  fun key h => hinv.seen key _ (hinv.looked key h)

theorem Inv.write (hinv : s.Inv) (key : Units) (value : Value) : (s.write key value).Inv where
  opened := hinv.opened
  unseen := hinv.unseen
  seen := hinv.seen
  looked := by
    intro other h
    change Function.update s.looked key false other = true at h
    rw [Function.update_apply] at h
    split_ifs at h with hother
    change s.seen other = some (Wire.stringify (Function.update s.feed.store key value other))
    rw [Function.update_of_ne hother]
    exact hinv.looked other h

theorem Inv.snapshot (hinv : s.Inv) {throws : Bool} {feed : Feed}
    (hfeed : s.feed.snapshot throws = some feed) : Inv { s with feed := feed } := by
  unfold Feed.snapshot at hfeed
  cases hopening : s.feed.opening with
  | nil =>
      rw [hopening] at hfeed
      cases hfeed
  | cons key rest =>
      have hunseen : ∀ other, s.seen other = none :=
        hinv.unseen (by rw [hopening]; exact List.cons_ne_nil key rest)
      have hidle : s.tick = none := by
        cases htick : s.tick with
        | none => rfl
        | some keys =>
            have hnil := hinv.opened keys htick
            rw [hopening] at hnil
            cases hnil
      refine
        { opened := fun keys h => ?_
          unseen := fun _ => hunseen
          seen := fun other encoded h => ?_
          looked := fun other h => ?_ }
      · change s.tick = some keys at h
        rw [hidle] at h
        cases h
      · change s.seen other = some encoded at h
        rw [hunseen other] at h
        cases h
      · have hother := hinv.looked other h
        rw [hunseen other] at hother
        cases hother

theorem look_feed (s : Polling) (key : Units) (rest : List Units) :
    ((s.seen key = none ∨ s.seen key = some (Wire.stringify (s.feed.store key))) ∧
        (s.look key rest).feed = s.feed) ∨
      (s.look key rest).feed = s.feed.emit key (s.feed.store key) := by
  by_cases h : s.seen key = none ∨ s.seen key = some (Wire.stringify (s.feed.store key))
  · exact .inl ⟨h, if_pos h⟩
  · exact .inr (if_neg h)

theorem Inv.look (hinv : s.Inv) {key : Units} {rest : List Units}
    (htick : s.tick = some (key :: rest))
    (hnoted : s.seen key = none → s.feed.Current key) : (s.look key rest).Inv := by
  -- what the frames for the key and for the others say after the look
  have hstore : (s.look key rest).feed.store = s.feed.store := by
    rcases s.look_feed key rest with ⟨-, hfeed⟩ | hfeed
    · rw [hfeed]
    · rw [hfeed]
      rfl
  have hopening : (s.look key rest).feed.opening = [] := by
    rw [← hinv.opened _ htick]
    rcases s.look_feed key rest with ⟨-, hfeed⟩ | hfeed
    · rw [hfeed]
    · rw [hfeed]
      rfl
  have hothers : ∀ other, key ≠ other →
      (s.look key rest).feed.last other = s.feed.last other := by
    intro other hne
    rcases s.look_feed key rest with ⟨-, hfeed⟩ | hfeed
    · rw [hfeed]
    · rw [hfeed, Feed.last_emit_of_ne hne]
  have hkey : (s.look key rest).feed.last key =
      some (Wire.stringify (s.feed.store key)) := by
    rcases s.look_feed key rest with ⟨hnone | hsome, hfeed⟩ | hfeed
    · rw [hfeed]
      exact hnoted hnone
    · rw [hfeed]
      exact hinv.seen key _ hsome
    · rw [hfeed, Feed.last_emit_self]
  refine
    { opened := fun _ _ => hopening
      unseen := fun h => absurd hopening h
      seen := fun other encoded h => ?_
      looked := fun other h => ?_ }
  · change Function.update s.seen key _ other = some encoded at h
    by_cases hother : key = other
    · subst hother
      rw [Function.update_self] at h
      rw [hkey]
      exact h
    · rw [Function.update_of_ne (Ne.symm hother)] at h
      rw [hothers other hother]
      exact hinv.seen other encoded h
  · rw [hstore]
    change Function.update s.looked key true other = true at h
    change Function.update s.seen key _ other = _
    by_cases hother : key = other
    · subst hother
      rw [Function.update_self]
    · rw [Function.update_of_ne (Ne.symm hother)] at h ⊢
      exact hinv.looked other h

theorem Inv.step {s' : Polling} (hinv : s.Inv) {move : Move} (hnoted : s.Noted move)
    (hstep : s.step keys move = some s') : s'.Inv := by
  cases move with
  | write key value =>
      cases hstep
      exact hinv.write key value
  | snapshot throws =>
      obtain ⟨feed, hfeed, rfl⟩ := Option.map_eq_some_iff.mp hstep
      exact hinv.snapshot hfeed
  | tick =>
      simp only [Polling.step] at hstep
      split_ifs at hstep with hopening
      cases hstep
      exact { hinv with opened := fun _ _ => hopening }
  | look throws =>
      simp only [Polling.step] at hstep
      split at hstep
      · rename_i key rest htick
        cases throws with
        | true =>
            cases hstep
            exact { hinv with opened := fun _ h => nomatch h }
        | false =>
            cases hstep
            exact hinv.look htick (hnoted key rest htick)
      · cases hstep
        exact { hinv with opened := fun _ h => nomatch h }
      · cases hstep

theorem noted_of_current (move : Move)
    (hnext : ∀ s', s.step keys move = some s' → s'.Current) : s.Noted move := by
  cases move with
  | write key value => trivial
  | snapshot throws => trivial
  | tick => trivial
  | look throws =>
      cases throws with
      | true => trivial
      | false =>
          intro key rest htick hnone
          have hstep : s.step keys (.look false) = some (s.look key rest) := by
            simp only [Polling.step, htick, Bool.false_eq_true, if_false]
          have hlooked : (s.look key rest).looked key = true := by
            change Function.update s.looked key true key = true
            rw [Function.update_self]
          have hcurrent := hnext _ hstep key hlooked
          have hfeed : (s.look key rest).feed = s.feed := if_pos (.inl hnone)
          rw [hfeed] at hcurrent
          exact hcurrent

theorem current_iff (keys : List Units) (store : Units → Value) (moves : List Move) :
    (machine keys).Meets Noted (new keys store) moves ↔ ∀ first rest s, moves = first ++ rest →
        (machine keys).run (new keys store) first = some s → s.Current :=
  (machine keys).meets_iff_states (fun _ hinv => hinv.current)
    (fun _ _ _ hinv hnoted hstep => hinv.step hnoted hstep)
    (fun _ move _ hnext => noted_of_current move hnext) (inv_new store)

end Polling

end Polling

section Deno

/-- A stream over Deno KV, which watches one version cell for each key: the versions, those
seen last, whether the first delivery is still to be handled, the rest of the delivery that
is being handled, whether a read of it threw, and the keys whose last write was handled. -/
structure Deno where
  feed : Feed
  version : Units → Nat
  seen : Units → Option Nat
  first : Bool
  entries : Option (List (Units × Nat))
  dead : Bool
  looked : Units → Bool

namespace Deno

inductive Move
  | write (key : Units) (value : Value)
  | snapshot (throws : Bool)
  /-- The reader is handed the versions as they are. -/
  | deliver
  /-- The next entry of the delivery is handled. -/
  | look (throws : Bool)

variable (keys : List Units)

def new (store : Units → Value) : Deno :=
  ⟨⟨store, keys, []⟩, fun _ => 0, fun _ => none, true, none, false, fun _ => false⟩

def write (s : Deno) (key : Units) (value : Value) : Deno :=
  { s with
    feed := s.feed.write key value
    version := Function.update s.version key (s.version key + 1)
    looked := Function.update s.looked key false }

def deliver (s : Deno) : Deno :=
  { s with entries := some (keys.map (fun key => (key, s.version key))) }

/-- A key whose version is handled: its last write is if that is still its version. -/
def mark (s : Deno) (key : Units) (stamp : Nat) (rest : List (Units × Nat)) : Deno :=
  { s with
    seen := Function.update s.seen key (some stamp)
    entries := some rest
    looked := Function.update s.looked key (s.looked key || stamp == s.version key) }

def look (s : Deno) (throws : Bool) (key : Units) (stamp : Nat) (rest : List (Units × Nat)) :
    Deno :=
  if s.seen key = some stamp ∨ s.first = true then s.mark key stamp rest
  else if throws then
    { s with seen := Function.update s.seen key (some stamp), entries := none, dead := true }
  else { s.mark key stamp rest with feed := s.feed.emit key (s.feed.store key) }

def step (s : Deno) : Move → Option Deno
  | .write key value => some (s.write key value)
  | .snapshot throws => (s.feed.snapshot throws).map (fun feed => { s with feed := feed })
  | .deliver =>
      if s.feed.opening = [] ∧ s.entries = none ∧ s.dead = false then some (s.deliver keys)
      else none
  | .look throws =>
      match s.entries with
      | some ((key, stamp) :: rest) => some (s.look throws key stamp rest)
      | some [] => some { s with first := false, entries := none }
      | none => none

def machine : Machine Deno Move := ⟨step keys⟩

def Current (s : Deno) : Prop := ∀ key, s.looked key = true → s.feed.Current key

/-- A key of the first delivery that was not written since was sent with its value. -/
def Noted (s : Deno) : Move → Prop
  | .look _ => ∀ key stamp rest, s.entries = some ((key, stamp) :: rest) → s.first = true →
      stamp = s.version key → s.feed.Current key
  | _ => True

structure Inv (s : Deno) : Prop where
  unopened : s.feed.opening ≠ [] →
    (∀ key, s.seen key = none) ∧ (∀ key, s.looked key = false) ∧ s.entries = none
  alive : s.entries ≠ none → s.dead = false
  stamps : ∀ entries, s.entries = some entries → ∀ e ∈ entries, e.2 ≤ s.version e.1
  versions : ∀ key stamp, s.seen key = some stamp → stamp ≤ s.version key
  seen : s.dead = false → ∀ key, s.seen key = some (s.version key) → s.feed.Current key
  looked : ∀ key, s.looked key = true → s.feed.Current key

variable {keys} {s : Deno}

theorem inv_new (store : Units → Value) : (Deno.new keys store).Inv where
  unopened := fun _ => ⟨fun _ => rfl, fun _ => rfl, rfl⟩
  alive := fun h => absurd rfl h
  stamps := fun _ h => nomatch h
  versions := fun _ _ h => nomatch h
  seen := fun _ _ h => nomatch h
  looked := fun _ h => nomatch h

theorem Inv.write (hinv : s.Inv) (key : Units) (value : Value) : (s.write key value).Inv := by
  have hversion : ∀ other, s.version other ≤ (s.write key value).version other := by
    intro other
    change s.version other ≤ Function.update s.version key (s.version key + 1) other
    rw [Function.update_apply]
    split_ifs with hother
    · exact hother ▸ Nat.le_succ _
    · exact le_refl _
  refine
    { unopened := fun h => ?_
      alive := hinv.alive
      stamps := fun entries hentries e he =>
        Nat.le_trans (hinv.stamps entries hentries e he) (hversion e.1)
      versions := fun other stamp h =>
        Nat.le_trans (hinv.versions other stamp h) (hversion other)
      seen := fun hdead other h => ?_
      looked := fun other h => ?_ }
  · obtain ⟨hseen, hlooked, hentries⟩ := hinv.unopened h
    refine ⟨hseen, fun other => ?_, hentries⟩
    change Function.update s.looked key false other = false
    rw [Function.update_apply, hlooked other, ite_self]
  · change s.seen other = some (Function.update s.version key (s.version key + 1) other) at h
    rw [Function.update_apply] at h
    split_ifs at h with hother
    · exact absurd (hinv.versions key _ (hother ▸ h)) (Nat.not_succ_le_self _)
    · exact (Feed.current_write_of_ne (Ne.symm hother)).mpr (hinv.seen hdead other h)
  · change Function.update s.looked key false other = true at h
    rw [Function.update_apply] at h
    split_ifs at h with hother
    exact (Feed.current_write_of_ne (Ne.symm hother)).mpr (hinv.looked other h)

theorem Inv.snapshot (hinv : s.Inv) {throws : Bool} {feed : Feed}
    (hfeed : s.feed.snapshot throws = some feed) : Inv { s with feed := feed } := by
  have hopening : s.feed.opening ≠ [] := by
    intro hnil
    unfold Feed.snapshot at hfeed
    rw [hnil] at hfeed
    cases hfeed
  obtain ⟨hseen, hlooked, hentries⟩ := hinv.unopened hopening
  refine
    { unopened := fun _ => ⟨hseen, hlooked, hentries⟩
      alive := hinv.alive
      stamps := hinv.stamps
      versions := hinv.versions
      seen := fun _ key h => ?_
      looked := fun key h => ?_ }
  · change s.seen key = _ at h
    rw [hseen key] at h
    cases h
  · change s.looked key = true at h
    rw [hlooked key] at h
    cases h

theorem Inv.deliver (hinv : s.Inv) (hopening : s.feed.opening = []) (hdead : s.dead = false) :
    (s.deliver keys).Inv where
  unopened := fun h => absurd hopening h
  alive := fun _ => hdead
  stamps := by
    rintro _ ⟨⟩ e he
    obtain ⟨key, -, rfl⟩ := List.mem_map.mp he
    exact le_refl _
  versions := hinv.versions
  seen := hinv.seen
  looked := hinv.looked

theorem Inv.versions_handled (hinv : s.Inv) {key : Units} {stamp : Nat}
    (hle : stamp ≤ s.version key) (other : Units) (stamp' : Nat)
    (h : Function.update s.seen key (some stamp) other = some stamp') :
    stamp' ≤ s.version other := by
  rw [Function.update_apply] at h
  split_ifs at h with hother
  · cases h
    exact hother ▸ hle
  · exact hinv.versions other stamp' h

theorem Inv.mark (hinv : s.Inv) {key : Units} {stamp : Nat} {rest : List (Units × Nat)}
    (hentries : s.entries = some ((key, stamp) :: rest)) {feed : Feed}
    (hopening : feed.opening = s.feed.opening)
    (hothers : ∀ other, key ≠ other → (feed.Current other ↔ s.feed.Current other))
    (hkey : stamp = s.version key → feed.Current key)
    (hkept : s.feed.Current key → feed.Current key) :
    Inv { s.mark key stamp rest with feed := feed } := by
  have hopened : s.feed.opening = [] := by
    by_contra h
    have hnone := (hinv.unopened h).2.2
    rw [hentries] at hnone
    cases hnone
  have halive : s.dead = false := hinv.alive (by rw [hentries]; exact Option.some_ne_none _)
  refine
    { unopened := fun h => absurd (hopening.trans hopened) h
      alive := fun _ => halive
      stamps := ?_
      versions := hinv.versions_handled (hinv.stamps _ hentries _ List.mem_cons_self)
      seen := fun _ other h => ?_
      looked := fun other h => ?_ }
  · rintro _ ⟨⟩ e he
    exact hinv.stamps _ hentries e (List.mem_cons_of_mem _ he)
  · change Function.update s.seen key (some stamp) other = some (s.version other) at h
    by_cases hother : key = other
    · subst hother
      rw [Function.update_self] at h
      exact hkey (Option.some.inj h)
    · rw [Function.update_of_ne (Ne.symm hother)] at h
      exact (hothers other hother).mpr (hinv.seen halive other h)
  · change Function.update s.looked key _ other = true at h
    by_cases hother : key = other
    · subst hother
      rw [Function.update_self, Bool.or_eq_true, beq_iff_eq] at h
      rcases h with hlooked | hstamp
      · exact hkept (hinv.looked key hlooked)
      · exact hkey hstamp
    · rw [Function.update_of_ne (Ne.symm hother)] at h
      exact (hothers other hother).mpr (hinv.looked other h)

theorem Inv.look (hinv : s.Inv) {throws : Bool} {key : Units} {stamp : Nat}
    {rest : List (Units × Nat)} (hentries : s.entries = some ((key, stamp) :: rest))
    (hnoted : s.first = true → stamp = s.version key → s.feed.Current key) :
    (s.look throws key stamp rest).Inv := by
  have halive : s.dead = false := hinv.alive (by rw [hentries]; exact Option.some_ne_none _)
  unfold Deno.look
  by_cases hquiet : s.seen key = some stamp ∨ s.first = true
  · rw [if_pos hquiet]
    refine hinv.mark hentries rfl (fun _ _ => Iff.rfl) (fun hstamp => ?_) id
    rcases hquiet with hseen | hfirst
    · exact hinv.seen halive key (hstamp ▸ hseen)
    · exact hnoted hfirst hstamp
  · rw [if_neg hquiet]
    cases throws with
    | true =>
        rw [if_pos rfl]
        refine
          { unopened := fun h => ?_
            alive := fun h => absurd rfl h
            stamps := fun _ h => nomatch h
            versions := hinv.versions_handled (hinv.stamps _ hentries _ List.mem_cons_self)
            seen := fun h => nomatch h
            looked := hinv.looked }
        have hnone := (hinv.unopened h).2.2
        rw [hentries] at hnone
        cases hnone
    | false =>
        rw [if_neg (by decide)]
        exact hinv.mark hentries rfl (fun _ hother => Feed.current_emit_of_ne hother)
          (fun _ => Feed.current_emit) (fun _ => Feed.current_emit)

theorem Inv.step {s' : Deno} (hinv : s.Inv) {move : Move} (hnoted : s.Noted move)
    (hstep : s.step keys move = some s') : s'.Inv := by
  cases move with
  | write key value =>
      cases hstep
      exact hinv.write key value
  | snapshot throws =>
      obtain ⟨feed, hfeed, rfl⟩ := Option.map_eq_some_iff.mp hstep
      exact hinv.snapshot hfeed
  | deliver =>
      simp only [Deno.step] at hstep
      split_ifs at hstep with hready
      cases hstep
      exact hinv.deliver hready.1 hready.2.2
  | look throws =>
      simp only [Deno.step] at hstep
      split at hstep
      · rename_i key stamp rest hentries
        cases hstep
        exact hinv.look hentries (hnoted key stamp rest hentries)
      · cases hstep
        exact
          { hinv with
            unopened := fun h =>
              let ⟨hseen, hlooked, _⟩ := hinv.unopened h
              ⟨hseen, hlooked, rfl⟩
            alive := fun h => absurd rfl h
            stamps := fun _ h => nomatch h }
      · cases hstep

theorem noted_of_current (move : Move)
    (hnext : ∀ s', s.step keys move = some s' → s'.Current) : s.Noted move := by
  cases move with
  | write key value => trivial
  | snapshot throws => trivial
  | deliver => trivial
  | look throws =>
      intro key stamp rest hentries hfirst hstamp
      have hstep : s.step keys (.look throws) = some (s.mark key stamp rest) := by
        simp only [Deno.step, hentries, Deno.look, hfirst, or_true, if_true]
      have hlooked : (s.mark key stamp rest).looked key = true := by
        change Function.update s.looked key (s.looked key || stamp == s.version key) key = true
        rw [Function.update_self, Bool.or_eq_true, beq_iff_eq]
        exact .inr hstamp
      exact hnext _ hstep key hlooked

theorem current_iff (keys : List Units) (store : Units → Value) (moves : List Move) :
    (machine keys).Meets Noted (new keys store) moves ↔ ∀ first rest s, moves = first ++ rest →
        (machine keys).run (new keys store) first = some s → s.Current :=
  (machine keys).meets_iff_states (fun _ hinv => hinv.looked)
    (fun _ _ _ hinv hnoted hstep => hinv.step hnoted hstep)
    (fun _ move _ hnext => noted_of_current move hnext) (inv_new store)

end Deno

end Deno

section Cloudflare

structure Notice where
  key : Units
  value : Value
  number : Nat

/-- A stream over a Durable Object: whether it is subscribed and how many writes there were
when it was, the notices on their way, how many writes there are, the last one of each key,
and the write whose notice was handled last. -/
structure Cloudflare where
  feed : Feed
  subscribed : Bool
  start : Nat
  notices : List Notice
  writes : Nat
  lastWrite : Units → Nat
  handled : Option Nat

namespace Cloudflare

inductive Move
  | write (key : Units) (value : Value)
  | snapshot (throws : Bool)
  | subscribe
  | handle

variable (keys : List Units)

def new (store : Units → Value) : Cloudflare :=
  ⟨⟨store, keys, []⟩, false, 0, [], 0, fun _ => 0, none⟩

local instance : LawfulBEq Units := inferInstance

def write (s : Cloudflare) (key : Units) (value : Value) : Cloudflare :=
  { s with
    feed := s.feed.write key value
    writes := s.writes + 1
    lastWrite := Function.update s.lastWrite key (s.writes + 1)
    notices :=
      if s.subscribed = true ∧ key ∈ keys then s.notices ++ [⟨key, value, s.writes + 1⟩]
      else s.notices }

def handle (s : Cloudflare) (notice : Notice) (rest : List Notice) : Cloudflare :=
  { s with
    feed := s.feed.emit notice.key notice.value
    notices := rest
    handled := some notice.number }

def step (s : Cloudflare) : Move → Option Cloudflare
  | .write key value => some (s.write keys key value)
  | .snapshot throws => (s.feed.snapshot throws).map (fun feed => { s with feed := feed })
  | .subscribe =>
      if s.feed.opening = [] ∧ s.subscribed = false then
        some { s with subscribed := true, start := s.writes }
      else none
  | .handle =>
      match s.notices with
      | notice :: rest => some (s.handle notice rest)
      | [] => none

def machine : Machine Cloudflare Move := ⟨step keys⟩

/-- Once a notice was handled, every key that was not written since was last sent with its
value. -/
def Current (s : Cloudflare) : Prop :=
  ∀ number, s.handled = some number → ∀ key ∈ keys, s.lastWrite key ≤ number →
    s.feed.Current key

/-- When a notice is handled, every other key that was not written since the subscription was
sent with its value. -/
def Noted (s : Cloudflare) : Move → Prop
  | .handle => ∀ notice rest, s.notices = notice :: rest →
      ∀ key ∈ keys, key ≠ notice.key → s.lastWrite key ≤ s.start → s.feed.Current key
  | _ => True

structure Known (s : Cloudflare) (notice : Notice) : Prop where
  key : notice.key ∈ keys
  start : s.start < notice.number
  number : notice.number ≤ s.lastWrite notice.key
  value : notice.number = s.lastWrite notice.key → notice.value = s.feed.store notice.key

/-- The last write of a key since the subscription is on its way or was sent. -/
structure Inv (s : Cloudflare) : Prop where
  unopened : s.subscribed = false → s.notices = [] ∧ s.handled = none
  opened : s.subscribed = true → s.feed.opening = []
  start : s.start ≤ s.writes
  lastWrite : ∀ key, s.lastWrite key ≤ s.writes
  known : ∀ notice ∈ s.notices, s.Known keys notice
  increasing : s.notices.Pairwise (fun n m => n.number < m.number)
  handled : ∀ number, s.handled = some number → number ≤ s.writes
  sent : s.subscribed = true → ∀ key ∈ keys, s.start < s.lastWrite key →
    (∃ notice ∈ s.notices, notice.key = key ∧ notice.number = s.lastWrite key) ∨
      ((∀ notice ∈ s.notices, s.lastWrite key < notice.number) ∧ s.feed.Current key)
  current : s.Current keys

variable {keys} {s : Cloudflare}

theorem inv_new (store : Units → Value) : (Cloudflare.new keys store).Inv keys where
  unopened := fun _ => ⟨rfl, rfl⟩
  opened := fun h => nomatch h
  start := le_refl 0
  lastWrite := fun _ => le_refl 0
  known := fun _ h => absurd h List.not_mem_nil
  increasing := .nil
  handled := fun _ h => nomatch h
  sent := fun h => nomatch h
  current := fun _ h => nomatch h

theorem Inv.snapshot (hinv : s.Inv keys) {throws : Bool} {feed : Feed}
    (hfeed : s.feed.snapshot throws = some feed) : Inv keys { s with feed := feed } := by
  have hsubscribed : s.subscribed = false := by
    by_contra h
    unfold Feed.snapshot at hfeed
    rw [hinv.opened (Bool.eq_true_of_not_eq_false h)] at hfeed
    cases hfeed
  obtain ⟨hnotices, hhandled⟩ := hinv.unopened hsubscribed
  refine
    { unopened := hinv.unopened
      opened := fun h => ?_
      start := hinv.start
      lastWrite := hinv.lastWrite
      known := fun notice h => ?_
      increasing := hinv.increasing
      handled := hinv.handled
      sent := fun h => ?_
      current := fun number h => ?_ }
  · exact absurd (hsubscribed.symm.trans h) Bool.false_ne_true
  · change notice ∈ s.notices at h
    rw [hnotices] at h
    exact absurd h List.not_mem_nil
  · exact absurd (hsubscribed.symm.trans h) Bool.false_ne_true
  · change s.handled = some number at h
    rw [hhandled] at h
    cases h

theorem Inv.subscribe (hinv : s.Inv keys) (hopening : s.feed.opening = [])
    (hsubscribed : s.subscribed = false) :
    Inv keys { s with subscribed := true, start := s.writes } := by
  obtain ⟨hnotices, -⟩ := hinv.unopened hsubscribed
  refine
    { unopened := fun h => nomatch h
      opened := fun _ => hopening
      start := le_refl _
      lastWrite := hinv.lastWrite
      known := fun notice h => ?_
      increasing := hinv.increasing
      handled := hinv.handled
      sent := fun _ key _ hlate => absurd (hinv.lastWrite key) (Nat.not_le.mpr hlate)
      current := hinv.current }
  change notice ∈ s.notices at h
  rw [hnotices] at h
  exact absurd h List.not_mem_nil

theorem Inv.write (hinv : s.Inv keys) (key : Units) (value : Value) :
    (s.write keys key value).Inv keys := by
  have hself : (s.write keys key value).lastWrite key = s.writes + 1 := Function.update_self ..
  have hother : ∀ other, other ≠ key →
      (s.write keys key value).lastWrite other = s.lastWrite other :=
    fun other hne => Function.update_of_ne hne ..
  have hcurrent : ∀ other, other ≠ key →
      ((s.write keys key value).feed.Current other ↔ s.feed.Current other) :=
    fun other hne => Feed.current_write_of_ne (Ne.symm hne)
  have hstore : ∀ other, other ≠ key →
      (s.write keys key value).feed.store other = s.feed.store other :=
    fun other hne => Function.update_of_ne hne ..
  have hgrow : ∀ other, s.lastWrite other ≤ (s.write keys key value).lastWrite other := by
    intro other
    by_cases hne : other = key
    · rw [hne, hself]
      exact Nat.le_succ_of_le (hinv.lastWrite key)
    · rw [hother other hne]
  -- a notice on its way stays what it was; of this key it is no longer the last
  have hkept : ∀ notice ∈ s.notices, (s.write keys key value).Known keys notice := by
    intro notice hnotice
    have hknown := hinv.known notice hnotice
    refine ⟨hknown.key, hknown.start, Nat.le_trans hknown.number (hgrow _), fun hlast => ?_⟩
    by_cases hne : notice.key = key
    · rw [hne, hself] at hlast
      have hle := Nat.le_trans hknown.number (hinv.lastWrite _)
      rw [hlast] at hle
      exact absurd hle (Nat.not_succ_le_self _)
    · rw [hother _ hne] at hlast
      rw [hstore _ hne]
      exact hknown.value hlast
  have hold : ∀ notice ∈ s.notices, notice.number < s.writes + 1 := by
    intro notice hnotice
    exact Nat.lt_succ_of_le (Nat.le_trans (hinv.known notice hnotice).number
      (hinv.lastWrite _))
  have hnotices : (s.write keys key value).notices =
      if s.subscribed = true ∧ key ∈ keys then s.notices ++ [⟨key, value, s.writes + 1⟩]
      else s.notices := rfl
  refine
    { unopened := fun h => ?_
      opened := hinv.opened
      start := Nat.le_succ_of_le hinv.start
      lastWrite := fun other => ?_
      known := fun notice h => ?_
      increasing := ?_
      handled := fun number h => Nat.le_succ_of_le (hinv.handled number h)
      sent := fun hsubscribed other hkey hlate => ?_
      current := fun number hnumber other hkey hle => ?_ }
  · change s.subscribed = false at h
    rw [hnotices, if_neg (fun hand => by rw [h] at hand; exact Bool.false_ne_true hand.1)]
    exact hinv.unopened h
  · by_cases hne : other = key
    · rw [hne, hself]
      exact le_refl _
    · rw [hother other hne]
      exact Nat.le_succ_of_le (hinv.lastWrite other)
  · rw [hnotices] at h
    split_ifs at h with hwanted
    · rcases List.mem_append.mp h with hold | hnew
      · exact hkept notice hold
      · rw [List.mem_singleton.mp hnew]
        refine ⟨hwanted.2, Nat.lt_succ_of_le hinv.start, le_of_eq hself.symm, fun _ => ?_⟩
        change value = Function.update s.feed.store key value key
        rw [Function.update_self]
    · exact hkept notice h
  · rw [hnotices]
    split_ifs with hwanted
    · refine List.pairwise_append.mpr ⟨hinv.increasing, List.pairwise_singleton _ _, ?_⟩
      intro notice hnotice new hnew
      rw [List.mem_singleton.mp hnew]
      exact hold notice hnotice
    · exact hinv.increasing
  · change s.subscribed = true at hsubscribed
    by_cases hne : other = key
    · left
      subst hne
      refine ⟨⟨other, value, s.writes + 1⟩, ?_, rfl, hself.symm⟩
      rw [hnotices, if_pos ⟨hsubscribed, hkey⟩]
      exact List.mem_append_right _ (List.mem_singleton_self _)
    · rw [hother other hne] at hlate ⊢
      rcases hinv.sent hsubscribed other hkey hlate with ⟨notice, hmem, heq⟩ | ⟨hlater, hsent⟩
      · refine .inl ⟨notice, ?_, heq⟩
        rw [hnotices]
        split_ifs
        · exact List.mem_append_left _ hmem
        · exact hmem
      · refine .inr ⟨fun notice hmem => ?_, (hcurrent other hne).mpr hsent⟩
        rw [hnotices] at hmem
        split_ifs at hmem
        · rcases List.mem_append.mp hmem with hold | hnew
          · exact hlater notice hold
          · rw [List.mem_singleton.mp hnew]
            exact Nat.lt_succ_of_le (hinv.lastWrite other)
        · exact hlater notice hmem
  · have hne : other ≠ key := by
      intro heq
      rw [heq, hself] at hle
      exact absurd (Nat.le_trans hle (hinv.handled number hnumber)) (Nat.not_succ_le_self _)
    rw [hother other hne] at hle
    exact (hcurrent other hne).mpr (hinv.current number hnumber other hkey hle)

theorem Inv.handle (hinv : s.Inv keys) {notice : Notice} {rest : List Notice}
    (hnotices : s.notices = notice :: rest)
    (hnoted : ∀ key ∈ keys, key ≠ notice.key → s.lastWrite key ≤ s.start →
      s.feed.Current key) : (s.handle notice rest).Inv keys := by
  have hhead : notice ∈ s.notices := by
    rw [hnotices]
    exact List.mem_cons_self
  have hrest : ∀ other ∈ rest, other ∈ s.notices := by
    intro other hother
    rw [hnotices]
    exact List.mem_cons_of_mem _ hother
  have hknown := hinv.known notice hhead
  have hincreasing := hinv.increasing
  rw [hnotices] at hincreasing
  obtain ⟨hfirst, hlater⟩ := List.pairwise_cons.mp hincreasing
  have hsubscribed : s.subscribed = true := by
    by_contra h
    rw [(hinv.unopened (Bool.eq_false_of_not_eq_true h)).1] at hnotices
    cases hnotices
  have hcurrent : ∀ key, key ≠ notice.key →
      ((s.handle notice rest).feed.Current key ↔ s.feed.Current key) :=
    fun key hne => Feed.current_emit_of_ne (Ne.symm hne)
  -- the notice of a key's last write makes it current
  have hself : s.lastWrite notice.key ≤ notice.number →
      (s.handle notice rest).feed.Current notice.key := by
    intro hle
    have hvalue := hknown.value (Nat.le_antisymm hknown.number hle)
    change (s.feed.emit notice.key notice.value).Current notice.key
    rw [hvalue]
    exact Feed.current_emit
  refine
    { unopened := fun h => absurd (hsubscribed.symm.trans h) (by decide)
      opened := hinv.opened
      start := hinv.start
      lastWrite := hinv.lastWrite
      known := fun other hother =>
        let h := hinv.known other (hrest other hother)
        ⟨h.key, h.start, h.number, h.value⟩
      increasing := hlater
      handled := ?_
      sent := fun _ key hkey hlate => ?_
      current := ?_ }
  · rintro number ⟨⟩
    exact Nat.le_trans hknown.number (hinv.lastWrite _)
  · change s.start < s.lastWrite key at hlate
    rcases hinv.sent hsubscribed key hkey hlate with ⟨last, hmem, hkeyeq, hnumber⟩ | ⟨hpast, hsent⟩
    · rw [hnotices] at hmem
      rcases List.mem_cons.mp hmem with rfl | hmem
      · refine .inr ⟨fun other hother => ?_, ?_⟩
        · change s.lastWrite key < other.number
          rw [← hnumber]
          exact hfirst other hother
        · subst hkeyeq
          exact hself (le_of_eq hnumber.symm)
      · exact .inl ⟨last, hmem, hkeyeq, hnumber⟩
    · refine .inr ⟨fun other hother => hpast other (hrest other hother), ?_⟩
      refine (hcurrent key ?_).mpr hsent
      rintro rfl
      exact absurd hknown.number (Nat.not_le.mpr (hpast notice hhead))
  · rintro number ⟨⟩ key hkey hle
    change s.lastWrite key ≤ notice.number at hle
    by_cases hne : key = notice.key
    · subst hne
      exact hself hle
    · refine (hcurrent key hne).mpr ?_
      by_cases hlate : s.start < s.lastWrite key
      · rcases hinv.sent hsubscribed key hkey hlate with
          ⟨last, hmem, hkeyeq, hnumber⟩ | ⟨-, hsent⟩
        · rw [hnotices] at hmem
          rcases List.mem_cons.mp hmem with rfl | hmem
          · exact absurd hkeyeq.symm hne
          · have hlt := hfirst last hmem
            rw [hnumber] at hlt
            exact absurd hle (Nat.not_le.mpr hlt)
        · exact hsent
      · exact hnoted key hkey hne (Nat.le_of_not_lt hlate)

theorem Inv.step {s' : Cloudflare} (hinv : s.Inv keys) {move : Move}
    (hnoted : s.Noted keys move) (hstep : s.step keys move = some s') : s'.Inv keys := by
  cases move with
  | write key value =>
      cases hstep
      exact hinv.write key value
  | snapshot throws =>
      obtain ⟨feed, hfeed, rfl⟩ := Option.map_eq_some_iff.mp hstep
      exact hinv.snapshot hfeed
  | subscribe =>
      simp only [Cloudflare.step] at hstep
      split_ifs at hstep with hready
      cases hstep
      exact hinv.subscribe hready.1 hready.2
  | handle =>
      simp only [Cloudflare.step] at hstep
      split at hstep
      · rename_i notice rest hnotices
        cases hstep
        exact hinv.handle hnotices (hnoted notice rest hnotices)
      · cases hstep

theorem Inv.noted_of_current (hinv : s.Inv keys) (move : Move)
    (hnext : ∀ s', s.step keys move = some s' → s'.Current keys) : s.Noted keys move := by
  cases move with
  | write key value => trivial
  | snapshot throws => trivial
  | subscribe => trivial
  | handle =>
      intro notice rest hnotices key hkey hne hle
      have hstep : s.step keys .handle = some (s.handle notice rest) := by
        simp only [Cloudflare.step, hnotices]
      have hknown := hinv.known notice (by rw [hnotices]; exact List.mem_cons_self)
      have hcurrent := hnext _ hstep notice.number rfl key hkey
        (Nat.le_trans hle (Nat.le_of_lt hknown.start))
      exact (Feed.current_emit_of_ne (Ne.symm hne)).mp hcurrent

theorem current_iff (keys : List Units) (store : Units → Value) (moves : List Move) :
    (machine keys).Meets (Noted keys) (new keys store) moves ↔
      ∀ first rest s, moves = first ++ rest →
        (machine keys).run (new keys store) first = some s → s.Current keys :=
  (machine keys).meets_iff_states (fun _ hinv => hinv.current)
    (fun _ _ _ hinv hnoted hstep => hinv.step hnoted hstep)
    (fun _ move hinv hnext => hinv.noted_of_current move hnext) (inv_new store)

end Cloudflare

end Cloudflare

section Streams

/-- Over every interleaving of writes with a stream of the router, on each kind of store: a
key whose last write a tick, a delivery or a notice came after was last sent with its value,
in every state of the run, exactly when every key was sent with the value it has at the
moment from which its changes are sent: the first look of a tick, the first delivery, or the
subscription. -/
theorem streams_current_iff (keys : List Units) (store : Units → Value) :
    (∀ moves, (Polling.machine keys).Meets Polling.Noted (Polling.new keys store) moves ↔
      ∀ first rest s, moves = first ++ rest →
        (Polling.machine keys).run (Polling.new keys store) first = some s → s.Current) ∧
    (∀ moves, (Deno.machine keys).Meets Deno.Noted (Deno.new keys store) moves ↔
      ∀ first rest s, moves = first ++ rest →
        (Deno.machine keys).run (Deno.new keys store) first = some s → s.Current) ∧
    ∀ moves, (Cloudflare.machine keys).Meets (Cloudflare.Noted keys)
        (Cloudflare.new keys store) moves ↔
      ∀ first rest s, moves = first ++ rest →
        (Cloudflare.machine keys).run (Cloudflare.new keys store) first = some s →
          s.Current keys :=
  ⟨Polling.current_iff keys store, Deno.current_iff keys store,
    Cloudflare.current_iff keys store⟩

/-- A write between the snapshot and the first tick is not sent when the tick has handled its
key. -/
theorem write_before_tick_lost :
    ∃ s, (Polling.machine [Wire.units "a"]).run (Polling.new [Wire.units "a"] fun _ => .null)
        [.snapshot false, .write (Wire.units "a") (.bool true), .tick, .look false] = some s ∧
      s.looked (Wire.units "a") = true ∧ ¬ s.Current := by
  refine ⟨_, rfl, rfl, fun hcurrent => ?_⟩
  have hlast := hcurrent (Wire.units "a") rfl
  unfold Feed.Current at hlast
  exact absurd hlast (by decide)

end Streams

end Live
end Zdeceptron
