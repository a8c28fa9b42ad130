import Mathlib.Tactic.Common

/-!
# Live sync under its retry policy

Both transports of `store.js` hold a failure count, a live flag and a cursor, and ask again
through `attempts` when a connection is lost.  What they do is kept as a log.

* `retried_within_bound`: so does a poll where no answer fails after its first event.
-/

namespace Zdeceptron
namespace Live
namespace Attempts

def RETRY_LIMIT : Nat := 8

inductive Obs (Cursor : Type)
  /-- A connection is opened, or a poll sent. -/
  | asked (since : Cursor)
  /-- A frame of a stream. -/
  | arrived
  /-- `onEvent` returned. -/
  | got (cursor : Cursor)
  /-- A poll was answered to its end. -/
  | answered
  /-- A connection was lost, or a poll failed. -/
  | dropped
  | failedAll
  | stopped

section Logs

variable {Cursor : Type} {first : Cursor} {log : List (Obs Cursor)} {o : Obs Cursor}

def Obs.isAsked : Obs Cursor → Bool
  | .asked _ => true
  | _ => false

def Obs.isEnd : Obs Cursor → Bool
  | .answered | .dropped => true
  | _ => false

def Obs.isStopped : Obs Cursor → Bool
  | .stopped => true
  | _ => false

def Obs.isFailedAll : Obs Cursor → Bool
  | .failedAll => true
  | _ => false

def opens (log : List (Obs Cursor)) : Nat := log.countP Obs.isAsked

def ends (log : List (Obs Cursor)) : Nat := log.countP Obs.isEnd

def told (log : List (Obs Cursor)) : Nat := log.countP Obs.isFailedAll

def Obs.streak (failures : Nat) : Obs Cursor → Nat
  | .dropped => failures + 1
  | .arrived | .got _ | .answered => 0
  | _ => failures

def streak (log : List (Obs Cursor)) : Nat := log.foldl Obs.streak 0

def Obs.last (cursor : Cursor) : Obs Cursor → Cursor
  | .got next => next
  | _ => cursor

/-- The cursor that `onEvent` returned last. -/
def last (first : Cursor) (log : List (Obs Cursor)) : Cursor := log.foldl Obs.last first

/-- What may follow a log.  `failAll` is called when the limit is reached, and nowhere else. -/
structure Allowed (first : Cursor) (log : List (Obs Cursor)) (o : Obs Cursor) : Prop where
  gives_up : o = .failedAll ↔ streak log = RETRY_LIMIT ∧ told log = 0
  asks : ∀ since, o = .asked since →
    opens log = ends log ∧ told log = 0 ∧ .stopped ∉ log ∧ since = last first log
  ended : o.isEnd = true → opens log = ends log + 1

def Legal (first : Cursor) (log : List (Obs Cursor)) : Prop :=
  ∀ before o after, log = before ++ o :: after → Allowed first before o

structure WithinBound (first : Cursor) (log : List (Obs Cursor)) (timers : Nat) : Prop where
  legal : Legal first log
  single : opens log ≤ ends log + 1
  told_once : told log ≤ 1
  gave_up : streak log = RETRY_LIMIT → told log = 1
  followed : .stopped ∉ log → opens log + timers + told log = ends log + 1

theorem legal_snoc : Legal first (log ++ [o]) ↔ Legal first log ∧ Allowed first log o := by
  constructor
  · intro h
    refine ⟨fun before p after hlog => h before p (after ++ [o]) ?_, h log o [] rfl⟩
    rw [hlog, List.append_assoc, List.cons_append]
  · rintro ⟨h, ho⟩ before p after hlog
    rcases List.eq_nil_or_concat after with rfl | ⟨rest, q, rfl⟩
    · obtain ⟨rfl, hp⟩ := List.append_inj' hlog rfl
      cases hp
      exact ho
    · rw [List.concat_eq_append, ← List.cons_append, ← List.append_assoc] at hlog
      exact h before p rest (List.append_inj' hlog rfl).1

@[simp] theorem opens_snoc : opens (log ++ [o]) = opens log + if o.isAsked then 1 else 0 := by
  simp [opens, List.countP_append, List.countP_singleton]

@[simp] theorem ends_snoc : ends (log ++ [o]) = ends log + if o.isEnd then 1 else 0 := by
  simp [ends, List.countP_append, List.countP_singleton]

@[simp] theorem told_snoc : told (log ++ [o]) = told log + if o.isFailedAll then 1 else 0 := by
  simp [told, List.countP_append, List.countP_singleton]

@[simp] theorem streak_snoc : streak (log ++ [o]) = o.streak (streak log) := by
  simp [streak, List.foldl_append]

@[simp] theorem last_snoc : last first (log ++ [o]) = o.last (last first log) := by
  simp [last, List.foldl_append]

end Logs

section Transports

variable {Cursor : Type}

/-- What the closures of both transports share: `failures`, `live`, `at`, and the log. -/
structure Core (Cursor : Type) where
  failures : Nat
  live : Bool
  cursor : Cursor
  log : List (Obs Cursor)

namespace Core

def start (cursor : Cursor) : Core Cursor := ⟨0, true, cursor, []⟩

def note (s : Core Cursor) (o : Obs Cursor) : Core Cursor := { s with log := s.log ++ [o] }

/-- `retry.ok`. -/
def ok (s : Core Cursor) : Core Cursor := { s with failures := 0 }

/-- `retry.next`, and whether it is worth trying again. -/
def next (s : Core Cursor) : Core Cursor × Bool :=
  if s.failures + 1 ≥ RETRY_LIMIT then
    (({ s with failures := s.failures + 1 }.note .dropped).note .failedAll, false)
  else ({ s with failures := s.failures + 1 }.note .dropped, true)

def ask (s : Core Cursor) : Core Cursor := s.note (.asked s.cursor)

def stop (s : Core Cursor) : Core Cursor := { s with live := false }.note .stopped

/-- `at = onEvent(...)`. -/
def receive (s : Core Cursor) (cursor : Cursor) : Core Cursor :=
  { s with cursor }.note (.got cursor)

end Core

/-- A call of `onEvent`: the cursor it returns, unless it or the decoder throws, and whether the
page stops the subscription in it. -/
structure Delivery (Cursor : Type) where
  returns : Option Cursor
  stops : Bool

/-- The connections that were opened, by whether they are open still, and the retries that
sleep. -/
structure Stream (Cursor : Type) where
  core : Core Cursor
  sources : List Bool
  timers : Nat

namespace Stream

inductive Act (Cursor : Type)
  | frame (i : Nat) (delivery : Delivery Cursor)
  | error (i : Nat)
  | timer
  | stop

/-- `open`. -/
def connect (s : Stream Cursor) : Stream Cursor :=
  { s with core := s.core.ask, sources := s.sources ++ [true] }

/-- What `streamTransport` returns: `live = false` and `source.close()`. -/
def stop (s : Stream Cursor) : Stream Cursor :=
  { s with core := s.core.stop, sources := s.sources.set (s.sources.length - 1) false }

def start (cursor : Cursor) : Stream Cursor := connect ⟨Core.start cursor, [], 0⟩

def handle (s : Stream Cursor) (delivery : Delivery Cursor) : Stream Cursor :=
  let s := { s with core := (s.core.note .arrived).ok }
  let s := if delivery.stops then s.stop else s
  match delivery.returns with
  | none => s
  | some cursor => { s with core := s.core.receive cursor }

/-- The listener of `error` of connection `i`. -/
def lose (s : Stream Cursor) (i : Nat) : Stream Cursor :=
  let s := { s with sources := s.sources.set i false }
  if !s.core.live || i != s.sources.length - 1 then s
  else { s with core := s.core.next.1, timers := s.timers + if s.core.next.2 then 1 else 0 }

def step (s : Stream Cursor) : Act Cursor → Stream Cursor
  | .frame i delivery => if s.sources[i]? = some true then s.handle delivery else s
  | .error i => if s.sources[i]? = some true then s.lose i else s
  | .timer =>
      if s.timers = 0 then s
      else
        let s := { s with timers := s.timers - 1 }
        if s.core.live then s.connect else s
  | .stop => s.stop

def run (cursor : Cursor) (acts : List (Act Cursor)) : Stream Cursor :=
  acts.foldl step (start cursor)

end Stream

inductive Stage
  | asking
  | sleeping
  | ended

/-- The answer of a poll: the events that are gone through, and whether nothing throws behind
them.  A refused or malformed answer is one that throws before its first event. -/
structure Answer (Cursor : Type) where
  events : List (Delivery Cursor)
  whole : Bool

structure Poll (Cursor : Type) where
  core : Core Cursor
  stage : Stage

inductive Reading
  | returned
  | answered
  | thrown

namespace Poll

inductive Act (Cursor : Type)
  | reply (answer : Answer Cursor)
  | timer
  | stop

def start (cursor : Cursor) : Poll Cursor := ⟨(Core.start cursor).ask, .asking⟩

def read (whole : Bool) (s : Core Cursor) : List (Delivery Cursor) → Core Cursor × Reading
  | [] => (s, if whole then .answered else .thrown)
  | delivery :: rest =>
      if !s.live then (s, .returned)
      else
        let s := if delivery.stops then s.stop else s
        match delivery.returns with
        | none => (s, .thrown)
        | some cursor => read whole (s.receive cursor) rest

/-- What follows the `try`. -/
def settle (s : Core Cursor) : Reading → Poll Cursor
  | .returned => ⟨s, .ended⟩
  | .answered => if s.live then ⟨(s.note .answered).ok, .sleeping⟩ else ⟨s, .ended⟩
  | .thrown => if s.live then ⟨s.next.1, if s.next.2 then .sleeping else .ended⟩ else ⟨s, .ended⟩

def step (s : Poll Cursor) : Act Cursor → Poll Cursor
  | .reply answer =>
      match s.stage with
      | .asking => settle (read answer.whole s.core answer.events).1
          (read answer.whole s.core answer.events).2
      | _ => s
  | .timer =>
      match s.stage with
      | .sleeping => if s.core.live then ⟨s.core.ask, .asking⟩ else ⟨s.core, .ended⟩
      | _ => s
  | .stop => { s with core := s.core.stop }

def run (cursor : Cursor) (acts : List (Act Cursor)) : Poll Cursor :=
  acts.foldl step (start cursor)

def timers (s : Poll Cursor) : Nat :=
  match s.stage with
  | .sleeping => 1
  | _ => 0

end Poll

/-- An answer that fails after `onEvent` returned for its first event. -/
def Answer.PartWay (answer : Answer Cursor) : Prop :=
  (answer.whole = false ∨ ∃ delivery ∈ answer.events, delivery.returns = none) ∧
    ∃ delivery cursor, answer.events.head? = some delivery ∧ delivery.returns = some cursor

end Transports

section Sessions

variable {Cursor : Type} {first cursor : Cursor} {s : Core Cursor} {o : Obs Cursor}

/-- Whether a connection is open, a retry is due, or the transport gave up. -/
inductive Phase
  | flying
  | waiting
  | ended
deriving DecidableEq

def Phase.after (phase : Phase) : Obs Cursor → Phase
  | .asked _ => .flying
  | .answered | .dropped => .waiting
  | .failedAll => .ended
  | _ => phase

structure Session (first : Cursor) (phase : Phase) (s : Core Cursor) : Prop where
  legal : Legal first s.log
  cursor : s.cursor = last first s.log
  live : s.live = true ↔ .stopped ∉ s.log
  flight : opens s.log = ends s.log + if phase = .flying then 1 else 0
  gaveUp : told s.log = if phase = .ended then 1 else 0
  bound : phase ≠ .ended → streak s.log < RETRY_LIMIT

variable {phase : Phase}

theorem Session.not_due (h : Session first phase s) :
    ¬ (streak s.log = RETRY_LIMIT ∧ told s.log = 0) := by
  rintro ⟨hlimit, htold⟩
  by_cases hover : phase = .ended
  · rw [h.gaveUp, if_pos hover] at htold
    exact absurd htold Nat.one_ne_zero
  · exact absurd hlimit (Nat.ne_of_lt (h.bound hover))

theorem Session.allowed (h : Session first phase s) (ho : o ≠ .failedAll)
    (hasks : ∀ since, o = .asked since →
      phase = .waiting ∧ s.live = true ∧ since = s.cursor)
    (hended : o.isEnd = true → phase = .flying) : Allowed first s.log o where
  gives_up := iff_of_false ho h.not_due
  asks since hsince := by
    obtain ⟨rfl, hlive, rfl⟩ := hasks since hsince
    exact ⟨h.flight, h.gaveUp, h.live.mp hlive, h.cursor⟩
  ended hend := by rw [h.flight, if_pos (hended hend)]

theorem Session.start (first : Cursor) : Session first .waiting (Core.start first) where
  legal before o after h := by simp [Core.start] at h
  cursor := rfl
  live := by simp [Core.start]
  flight := rfl
  gaveUp := rfl
  bound _ := Nat.zero_lt_succ 7

theorem Session.ok (h : Session first phase s) : Session first phase s.ok :=
  ⟨h.legal, h.cursor, h.live, h.flight, h.gaveUp, h.bound⟩

theorem Session.note (h : Session first phase s) (o : Obs Cursor) (ho : o ≠ .failedAll)
    (hasks : ∀ since, o = .asked since → phase = .waiting ∧ s.live = true ∧ since = s.cursor)
    (hended : o.isEnd = true → phase = .flying)
    (hdropped : o = .dropped → streak s.log + 1 < RETRY_LIMIT) {t : Core Cursor}
    (hlog : t.log = s.log ++ [o]) (hcursor : t.cursor = o.last s.cursor)
    (hlive : t.live = (s.live && !o.isStopped)) : Session first (phase.after o) t where
  legal := hlog ▸ legal_snoc.mpr ⟨h.legal, h.allowed ho hasks hended⟩
  cursor := by rw [hlog, hcursor, last_snoc, h.cursor]
  live := by
    rw [hlog, hlive]
    cases o <;> simp [Obs.isStopped, h.live]
  flight := by
    have hflight := h.flight
    rw [hlog, opens_snoc, ends_snoc]
    cases o with
    | asked since => simpa [Phase.after, Obs.isAsked, Obs.isEnd, (hasks since rfl).1] using hflight
    | answered | dropped => simpa [Phase.after, Obs.isAsked, Obs.isEnd, hended rfl] using hflight
    | failedAll => exact absurd rfl ho
    | _ => exact hflight
  gaveUp := by
    have hgaveUp := h.gaveUp
    rw [hlog, told_snoc]
    cases o with
    | asked since => simpa [Phase.after, Obs.isFailedAll, (hasks since rfl).1] using hgaveUp
    | answered | dropped => simpa [Phase.after, Obs.isFailedAll, hended rfl] using hgaveUp
    | failedAll => exact absurd rfl ho
    | _ => exact hgaveUp
  bound hover := by
    rw [hlog, streak_snoc]
    cases o with
    | asked since => exact h.bound ((hasks since rfl).1 ▸ nofun)
    | dropped => exact hdropped rfl
    | failedAll => exact absurd rfl ho
    | stopped => exact h.bound hover
    | _ => exact Nat.zero_lt_succ 7

theorem Session.ask (h : Session first .waiting s) (hlive : s.live = true) :
    Session first .flying s.ask :=
  h.note (.asked s.cursor) nofun (fun _ hsince => ⟨rfl, hlive, (Obs.asked.inj hsince).symm⟩)
    nofun nofun rfl rfl (Bool.and_true _).symm

theorem Session.arrived (h : Session first .flying s) :
    Session first .flying (s.note .arrived) :=
  h.note .arrived nofun nofun nofun nofun rfl rfl (Bool.and_true _).symm

theorem Session.receive (h : Session first .flying s) (cursor : Cursor) :
    Session first .flying (s.receive cursor) :=
  h.note (.got cursor) nofun nofun nofun nofun rfl rfl (Bool.and_true _).symm

theorem Session.answered (h : Session first .flying s) :
    Session first .waiting (s.note .answered) :=
  h.note .answered nofun nofun (fun _ => rfl) nofun rfl rfl (Bool.and_true _).symm

theorem Session.stop (h : Session first phase s) : Session first phase s.stop :=
  h.note .stopped nofun nofun nofun nofun rfl rfl (Bool.and_false _).symm

theorem next_of_lt (h : s.failures + 1 < RETRY_LIMIT) :
    s.next = ({ s with failures := s.failures + 1 }.note .dropped, true) :=
  if_neg (Nat.not_le.mpr h)

theorem next_of_le (h : RETRY_LIMIT ≤ s.failures + 1) :
    s.next = (({ s with failures := s.failures + 1 }.note .dropped).note .failedAll, false) :=
  if_pos h

theorem next_failures (h : s.failures = streak s.log) :
    s.next.1.failures = streak s.next.1.log := by
  unfold Core.next
  split <;> simp [Core.note, Obs.streak, h, -List.append_assoc]

theorem Session.next (h : Session first .flying s) (hfailures : s.failures = streak s.log) :
    Session first (if s.next.2 then .waiting else .ended) s.next.1 := by
  have hbound : streak s.log + 1 ≤ RETRY_LIMIT := h.bound nofun
  rcases Nat.lt_or_eq_of_le hbound with hlt | heq
  · rw [next_of_lt (hfailures ▸ hlt)]
    exact h.note .dropped nofun nofun (fun _ => rfl) (fun _ => hlt) rfl rfl (Bool.and_true _).symm
  · have hlegal := legal_snoc.mpr ⟨h.legal, h.allowed (o := .dropped) nofun nofun fun _ => rfl⟩
    have hflight : opens s.log = ends s.log + 1 := h.flight
    have hgaveUp : told s.log = 0 := h.gaveUp
    rw [next_of_le (hfailures ▸ Nat.le_of_eq heq.symm)]
    refine ⟨legal_snoc.mpr ⟨hlegal, ?_, nofun, nofun⟩, ?_, ?_, ?_, ?_, fun hne => absurd rfl hne⟩
    · exact iff_of_true rfl ⟨by simpa [Core.note, Obs.streak] using heq,
        by simpa [Core.note, Obs.isFailedAll] using hgaveUp⟩
    · simpa [Core.note, Obs.last, -List.append_assoc] using h.cursor
    · simpa [Core.note] using h.live
    · simpa [Core.note, Obs.isAsked, Obs.isEnd, -List.append_assoc] using hflight
    · simpa [Core.note, Obs.isFailedAll, -List.append_assoc] using hgaveUp

theorem Session.withinBound {timers : Nat} (h : Session first phase s)
    (hdue : s.live = true → timers = if phase = .waiting then 1 else 0) :
    WithinBound first s.log timers where
  legal := h.legal
  single := by
    rw [h.flight]
    split <;> omega
  told_once := by
    rw [h.gaveUp]
    split <;> omega
  gave_up hlimit := by
    by_cases hover : phase = .ended
    · rw [h.gaveUp, if_pos hover]
    · exact absurd hlimit (Nat.ne_of_lt (h.bound hover))
  followed hstop := by
    rw [hdue (h.live.mpr hstop), h.flight, h.gaveUp]
    cases phase <;> simp

end Sessions

section Streams

variable {Cursor : Type} {first : Cursor} {s : Stream Cursor}

namespace Stream

/-- A stream at which the policy holds, a connection that was replaced has no effect, and a retry
that is due is made. -/
structure Bounded (first : Cursor) (s : Stream Cursor) : Prop where
  within : WithinBound first s.core.log s.timers
  single : s.sources.count true ≤ 1
  replaced : ∀ i, i + 1 < s.sources.length → ∀ delivery,
    s.step (.frame i delivery) = s ∧ s.step (.error i) = s
  retried : s.timers ≠ 0 → .stopped ∉ s.core.log →
    (s.step .timer).core.log = s.core.log ++ [.asked (last first s.core.log)]

/-- Every connection but the last is closed, and the last is open while the session flies. -/
structure Inv (first : Cursor) (n : Nat) (opened : Bool) (phase : Phase) (s : Stream Cursor) :
    Prop where
  session : Session first phase s.core
  failures : s.core.failures = streak s.core.log
  sources : s.sources = List.replicate n false ++ [opened]
  flies : opened = true → s.core.live = true ∧ phase = .flying
  due : s.core.live = true → s.timers = if phase = .waiting then 1 else 0

variable {n : Nat} {opened : Bool} {phase : Phase}

theorem getElem?_sources (i : Nat) :
    (List.replicate n false ++ [opened])[i]? = some true ↔ i = n ∧ opened = true := by
  rcases Nat.lt_trichotomy i n with hlt | rfl | hgt
  · rw [List.getElem?_append_left (by simpa using hlt), List.getElem?_replicate, if_pos hlt]
    simp [Nat.ne_of_lt hlt]
  · simp
  · rw [List.getElem?_eq_none (by simpa using Nat.succ_le_of_lt hgt)]
    simp [Nat.ne_of_gt hgt]

theorem set_sources (value : Bool) :
    (List.replicate n false ++ [opened]).set n value = List.replicate n false ++ [value] := by
  rw [List.set_append_right _ _ (by simp)]
  simp

theorem inv_start (first : Cursor) : Inv first 0 true .flying (start first) where
  session := (Session.start first).ask rfl
  failures := rfl
  sources := rfl
  flies _ := ⟨rfl, rfl⟩
  due _ := rfl

theorem Inv.stop (h : Inv first n opened phase s) : Inv first n false phase s.stop where
  session := h.session.stop
  failures := by simpa [Stream.stop, Core.stop, Core.note, Obs.streak] using h.failures
  sources := by simp [Stream.stop, h.sources]
  flies := nofun
  due := nofun

theorem Inv.connect (h : Inv first n opened .waiting s) (hlive : s.core.live = true) :
    Inv first (n + 1) true .flying ({ s with timers := 0 } : Stream Cursor).connect where
  session := h.session.ask hlive
  failures := by simpa [Stream.connect, Core.ask, Core.note, Obs.streak] using h.failures
  sources := by
    cases opened with
    | true => exact nomatch (h.flies rfl).2
    | false => simp only [Stream.connect, h.sources, List.replicate_succ']
  flies _ := ⟨hlive, rfl⟩
  due _ := rfl

theorem Inv.handle (h : Inv first n opened .flying s) (delivery : Delivery Cursor) :
    ∃ b, Inv first n b .flying (s.handle delivery) := by
  have harrived : Inv first n opened .flying { s with core := (s.core.note .arrived).ok } :=
    ⟨h.session.arrived.ok, by simp [Core.ok, Core.note, Obs.streak], h.sources, h.flies,
      h.due⟩
  have hreceive : ∀ {b} {s : Stream Cursor}, Inv first n b .flying s → s.core.failures = 0 →
      ∀ cursor, Inv first n b .flying { s with core := s.core.receive cursor } :=
    fun h hzero cursor => ⟨h.session.receive cursor,
      by simpa [Core.receive, Core.note, Obs.streak] using hzero, h.sources, h.flies, h.due⟩
  obtain ⟨returns, stops⟩ := delivery
  cases stops with
  | true =>
      cases returns with
      | none => exact ⟨false, harrived.stop⟩
      | some cursor => exact ⟨false, hreceive harrived.stop rfl cursor⟩
  | false =>
      cases returns with
      | none => exact ⟨opened, harrived⟩
      | some cursor => exact ⟨opened, hreceive harrived rfl cursor⟩

theorem lose_last (hlive : s.core.live = true) (hn : n = s.sources.length - 1) :
    s.lose n =
      { core := s.core.next.1
        sources := s.sources.set n false
        timers := s.timers + if s.core.next.2 then 1 else 0 } := by
  unfold Stream.lose
  simp only [List.length_set, hlive, ← hn, bne_self_eq_false, Bool.not_true, Bool.or_self,
    Bool.false_eq_true, if_false]

theorem Inv.lose (h : Inv first n true phase s) : ∃ phase, Inv first n false phase (s.lose n) := by
  obtain ⟨hlive, rfl⟩ := h.flies rfl
  rw [lose_last hlive (by simp [h.sources])]
  refine ⟨_, h.session.next h.failures, next_failures h.failures, ?_, nofun, fun _ => ?_⟩
  · simp only [h.sources, set_sources]
  · simp only [h.due hlive]
    cases s.core.next.2 <;> rfl

theorem Inv.fires (h : Inv first n opened phase s) {i : Nat} (hopen : s.sources[i]? = some true) :
    i = n ∧ opened = true ∧ phase = .flying := by
  rw [h.sources, getElem?_sources] at hopen
  exact ⟨hopen.1, hopen.2, (h.flies hopen.2).2⟩

theorem Inv.waits (h : Inv first n opened phase s) (hlive : s.core.live = true)
    (htimers : s.timers ≠ 0) : phase = .waiting ∧ s.timers - 1 = 0 := by
  rw [h.due hlive] at htimers ⊢
  split at htimers
  · rename_i hwaiting
    exact ⟨hwaiting, by rw [if_pos hwaiting]⟩
  · exact absurd rfl htimers

theorem Inv.step (h : Inv first n opened phase s) (act : Act Cursor) :
    ∃ n opened phase, Inv first n opened phase (s.step act) := by
  cases act with
  | frame i delivery =>
      by_cases hopen : s.sources[i]? = some true
      · obtain ⟨-, -, rfl⟩ := h.fires hopen
        rw [Stream.step, if_pos hopen]
        exact ⟨_, (h.handle delivery).imp fun _ hb => ⟨_, hb⟩⟩
      · rw [Stream.step, if_neg hopen]
        exact ⟨_, _, _, h⟩
  | error i =>
      by_cases hopen : s.sources[i]? = some true
      · obtain ⟨rfl, rfl, -⟩ := h.fires hopen
        rw [Stream.step, if_pos hopen]
        exact ⟨_, _, h.lose⟩
      · rw [Stream.step, if_neg hopen]
        exact ⟨_, _, _, h⟩
  | timer =>
      by_cases htimers : s.timers = 0
      · rw [Stream.step, if_pos htimers]
        exact ⟨_, _, _, h⟩
      · rw [Stream.step, if_neg htimers]
        cases hlive : s.core.live with
        | false =>
            simp only [hlive, Bool.false_eq_true, if_false]
            exact ⟨n, opened, phase, h.session, h.failures, h.sources, h.flies,
              fun hl => absurd (hlive.symm.trans hl) Bool.false_ne_true⟩
        | true =>
            obtain ⟨rfl, hone⟩ := h.waits hlive htimers
            simp only [hlive, if_true]
            rw [hone]
            exact ⟨_, _, _, h.connect hlive⟩
  | stop => exact ⟨_, _, _, h.stop⟩

theorem Inv.bounded (h : Inv first n opened phase s) : Bounded first s where
  within := h.session.withinBound h.due
  single := by
    rw [h.sources, List.count_append, List.count_replicate]
    cases opened <;> simp
  replaced i hi delivery := by
    have hclosed : s.sources[i]? ≠ some true := by
      intro hopen
      rw [h.sources, List.length_append, List.length_replicate, List.length_singleton,
        (h.fires hopen).1] at hi
      omega
    exact ⟨if_neg hclosed, if_neg hclosed⟩
  retried htimers hstop := by
    rw [Stream.step, if_neg htimers]
    simp only [h.session.live.mpr hstop, if_true]
    rw [Stream.connect, Core.ask, Core.note, ← h.session.cursor]

theorem bounded_run (first : Cursor) (acts : List (Act Cursor)) :
    Bounded first (run first acts) := by
  have hrun : ∃ n opened phase, Inv first n opened phase (run first acts) := by
    refine List.foldlRecOn (motive := fun s => ∃ n opened phase, Inv first n opened phase s)
      acts step ⟨0, true, .flying, inv_start first⟩ ?_
    rintro s ⟨n, opened, phase, h⟩ act -
    exact h.step act
  obtain ⟨n, opened, phase, h⟩ := hrun
  exact h.bounded

end Stream

end Streams

section Polls

variable {Cursor : Type} {first : Cursor} {s : Poll Cursor} {c : Core Cursor}

namespace Poll

structure Bounded (first : Cursor) (s : Poll Cursor) : Prop where
  within : WithinBound first s.core.log s.timers
  retried : s.timers ≠ 0 → .stopped ∉ s.core.log →
    (s.step .timer).core.log = s.core.log ++ [.asked (last first s.core.log)]

def Act.PartWay : Act Cursor → Prop
  | .reply answer => answer.PartWay
  | _ => False

structure Inv (first : Cursor) (phase : Phase) (s : Poll Cursor) : Prop where
  session : Session first phase s.core
  asking : s.stage = .asking → phase = .flying ∧ s.core.failures = streak s.core.log
  sleeping : s.stage = .sleeping → phase = .waiting ∧ s.core.failures = streak s.core.log
  ended : s.stage = .ended → s.core.live = true → phase = .ended

variable {phase : Phase}

theorem read_session (whole : Bool) (events : List (Delivery Cursor))
    (h : Session first .flying c) : Session first .flying (read whole c events).1 := by
  induction events generalizing c with
  | nil => exact h
  | cons delivery rest ih =>
      rw [read]
      split
      · exact h
      · obtain ⟨returns, stops⟩ := delivery
        have hstop : Session first .flying (if stops then c.stop else c) := by
          split
          · exact h.stop
          · exact h
        cases returns with
        | none => exact hstop
        | some cursor => exact ih (hstop.receive cursor)

theorem read_whole (events : List (Delivery Cursor))
    (h : ∀ delivery ∈ events, delivery.returns ≠ none) : (read true c events).2 ≠ .thrown := by
  induction events generalizing c with
  | nil => exact nofun
  | cons delivery rest ih =>
      obtain ⟨hfirst, hrest⟩ := List.forall_mem_cons.mp h
      rw [read]
      split
      · exact nofun
      · cases hreturns : delivery.returns with
        | none => exact absurd hreturns hfirst
        | some cursor => exact ih hrest

theorem read_thrown {answer : Answer Cursor} (h : ¬ answer.PartWay)
    (hthrown : (read answer.whole c answer.events).2 = .thrown)
    (hfailures : c.failures = streak c.log) :
    (read answer.whole c answer.events).1.failures =
      streak (read answer.whole c answer.events).1.log := by
  have hfails : answer.whole = false ∨ ∃ delivery ∈ answer.events, delivery.returns = none := by
    by_contra hnot
    rw [not_or, Bool.not_eq_false] at hnot
    rw [hnot.1] at hthrown
    exact read_whole _ (fun delivery hmem hnone => hnot.2 ⟨delivery, hmem, hnone⟩) hthrown
  cases hevents : answer.events with
  | nil => exact hfailures
  | cons delivery rest =>
      cases hreturns : delivery.returns with
      | some cursor => exact absurd ⟨hfails, delivery, cursor, by rw [hevents]; rfl, hreturns⟩ h
      | none =>
          rw [read]
          split
          · exact hfailures
          · simp only [hreturns]
            split
            · simpa [Core.stop, Core.note, Obs.streak] using hfailures
            · exact hfailures

theorem inv_ended (h : Session first phase c) (hover : c.live = true → phase = .ended) :
    Inv first phase ⟨c, .ended⟩ :=
  ⟨h, nofun, nofun, fun _ => hover⟩

theorem inv_settle (h : Session first .flying c) (reading : Reading)
    (hthrown : reading = .thrown → c.failures = streak c.log)
    (hreturned : reading = .returned → c.live = false) :
    ∃ phase, Inv first phase (settle c reading) := by
  cases hlive : c.live with
  | false =>
      have hover := inv_ended h fun htrue => absurd (hlive.symm.trans htrue) Bool.false_ne_true
      cases reading <;> exact ⟨.flying, by simpa [settle, hlive] using hover⟩
  | true =>
      cases reading with
      | returned => exact absurd (hlive.symm.trans (hreturned rfl)) nofun
      | answered =>
          refine ⟨.waiting, ?_⟩
          rw [settle, if_pos hlive]
          exact ⟨h.answered.ok, nofun, fun _ => ⟨rfl, by simp [Core.ok, Core.note, Obs.streak]⟩,
            nofun⟩
      | thrown =>
          refine ⟨if c.next.2 then .waiting else .ended, ?_⟩
          rw [settle, if_pos hlive]
          have hnext := h.next (hthrown rfl)
          have hcount := next_failures (hthrown rfl)
          cases hagain : c.next.2 with
          | true =>
              rw [hagain] at hnext
              exact ⟨hnext, nofun, fun _ => ⟨rfl, hcount⟩, nofun⟩
          | false =>
              rw [hagain] at hnext
              exact inv_ended hnext fun _ => rfl

theorem read_returned (whole : Bool) (events : List (Delivery Cursor))
    (h : (read whole c events).2 = .returned) : (read whole c events).1.live = false := by
  induction events generalizing c with
  | nil => cases whole <;> exact nomatch h
  | cons delivery rest ih =>
      rw [read] at h ⊢
      split
      · rename_i hlive
        simpa using hlive
      · rename_i hlive
        rw [if_neg hlive] at h
        cases hreturns : delivery.returns with
        | none => simp [hreturns] at h
        | some cursor =>
            simp only [hreturns] at h ⊢
            exact ih h

theorem Inv.step (h : Inv first phase s) {act : Act Cursor} (hact : ¬ act.PartWay) :
    ∃ phase, Inv first phase (s.step act) := by
  obtain ⟨c, stage⟩ := s
  cases act with
  | reply answer =>
      cases stage with
      | asking =>
          obtain ⟨rfl, hfailures⟩ := h.asking rfl
          exact inv_settle (read_session _ _ h.session) _
            (fun hthrown => read_thrown hact hthrown hfailures) (read_returned _ _)
      | sleeping => exact ⟨_, h⟩
      | ended => exact ⟨_, h⟩
  | timer =>
      cases stage with
      | sleeping =>
          obtain ⟨rfl, hfailures⟩ := h.sleeping rfl
          cases hlive : c.live with
          | true =>
              refine ⟨.flying, ?_⟩
              simp only [Poll.step, hlive, if_true]
              refine ⟨h.session.ask hlive, fun _ => ⟨rfl, ?_⟩, nofun, nofun⟩
              simpa [Core.ask, Core.note, Obs.streak] using hfailures
          | false =>
              refine ⟨.waiting, ?_⟩
              simp only [Poll.step, hlive, Bool.false_eq_true, if_false]
              exact inv_ended h.session fun htrue => absurd (hlive.symm.trans htrue) nofun
      | asking => exact ⟨_, h⟩
      | ended => exact ⟨_, h⟩
  | stop =>
      have hsame : c.stop.failures = streak c.stop.log ↔ c.failures = streak c.log := by
        simp [Core.stop, Core.note, Obs.streak]
      exact ⟨phase, h.session.stop, fun hs => (h.asking hs).imp_right hsame.mpr,
        fun hs => (h.sleeping hs).imp_right hsame.mpr, fun _ => nofun⟩

theorem Inv.bounded (h : Inv first phase s) : Bounded first s := by
  obtain ⟨c, stage⟩ := s
  constructor
  · refine h.session.withinBound fun hlive => ?_
    cases stage with
    | asking => rw [(h.asking rfl).1]; rfl
    | sleeping => rw [(h.sleeping rfl).1]; rfl
    | ended => rw [h.ended rfl hlive]; rfl
  · intro htimers hstop
    cases stage with
    | sleeping =>
        have hlive : c.live = true := h.session.live.mpr hstop
        have hcursor : c.cursor = last first c.log := h.session.cursor
        simp only [Poll.step, hlive, if_true, Core.ask, Core.note, hcursor]
    | asking => exact absurd rfl htimers
    | ended => exact absurd rfl htimers

theorem bounded_run (first : Cursor) {acts : List (Act Cursor)}
    (hacts : ∀ act ∈ acts, ¬ act.PartWay) : Bounded first (run first acts) := by
  have hstart : ∃ phase, Inv first phase (start first) :=
    ⟨.flying, (Session.start first).ask rfl, fun _ => ⟨rfl, rfl⟩, nofun, nofun⟩
  have hrun : ∃ phase, Inv first phase (run first acts) := by
    refine List.foldlRecOn (motive := fun s => ∃ phase, Inv first phase s) acts step hstart ?_
    rintro s ⟨phase, h⟩ act hact
    exact h.step (hacts act hact)
  obtain ⟨phase, h⟩ := hrun
  exact h.bounded

end Poll

/-- A stream retries within its bound in every run, and a poll in every run in which no answer
fails after its first event. -/
theorem retried_within_bound (first : Cursor) (acts : List (Stream.Act Cursor))
    {polled : List (Poll.Act Cursor)} (h : ∀ act ∈ polled, ¬ act.PartWay) :
    Stream.Bounded first (Stream.run first acts) ∧ Poll.Bounded first (Poll.run first polled) :=
  ⟨Stream.bounded_run first acts, Poll.bounded_run first h⟩

theorem retried_within_bound_cut :
    Stream.Bounded 0 (Stream.run 0 [.frame 0 ⟨some 1, false⟩, .error 0, .timer]) ∧
      Poll.Bounded 0 (Poll.run 0 [.reply ⟨[⟨some 1, false⟩], true⟩, .timer, .reply ⟨[], false⟩]) :=
  retried_within_bound 0 _ (by simp [Poll.Act.PartWay, Answer.PartWay])

def partWayRun : List (Poll.Act Nat) :=
  (List.replicate 8 [.reply ⟨[⟨some 1, false⟩], false⟩, .timer]).flatten

/-- `failAll` is called although an event was received between any two of the failures. -/
theorem not_bounded_part_way : ¬ Poll.Bounded 0 (Poll.run 0 partWayRun) := by
  intro h
  have hlog : (Poll.run 0 partWayRun).core.log =
      (Poll.run 0 partWayRun).core.log.dropLast ++ [.failedAll] := rfl
  have hlimit := ((h.within.legal _ .failedAll [] hlog).gives_up.mp rfl).1
  exact absurd hlimit (by decide)

end Polls

end Attempts
end Live
end Zdeceptron
