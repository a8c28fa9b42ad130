import Zdeceptron.Library.Machine
import Zdeceptron.Store.Embedded
import Mathlib.Logic.Relation

/-!
# Many invocations over one store

An invocation runs its handlers against a recording of what they read and asked for, and
ends in one call of `apply`.  A conflict discards the recording and runs the handlers
again, eight times at most.  Any number of invocations take their steps in any order.

* `torn_read_answered`: one that only read need not have.
-/

namespace Zdeceptron
namespace Serve
namespace Invocations

open Library
open Store (Json Number Read Transaction Applied Values EmbeddedStore StoreError readsHold)

section Attempt

def ATTEMPTS : Nat := 8

inductive Shape
  | command
  | value
deriving DecidableEq

inductive Reply
  | value (seen : Option Json)
  | number (projected : Number)
  | done
  | thrown (error : StoreError)
deriving DecidableEq

inductive Call
  | get (key : String)
  | set (key : String) (value : Json)
  | incr (key : String) (delta : Number)
  | delete (key : String)
  | answer (text : String)
  | fail (message : String)
deriving DecidableEq

/-- An endpoint on its arguments.  The script is a parameter: what it does next is a function
of what the bindings of the attempt gave back so far. -/
structure Endpoint where
  name : String
  shape : Shape
  handler : List Reply → Call

structure HostError where
  endpoint : String
  message : String
deriving DecidableEq

/-- The writes an invocation has asked for, the reads that justify them, and what each key
holds as far as it is concerned. -/
structure Pending where
  reads : List Read
  writes : List Store.Write
  view : String → Option (Option Json)

namespace Pending

def fresh : Pending := ⟨[], [], fun _ => none⟩

def read (pending : Pending) (store : Values) (key : String) : Option Json × Pending :=
  match pending.view key with
  | some known => (known, pending)
  | none =>
      (store key,
        { pending with
          reads := pending.reads ++ [⟨key, store key⟩]
          view := Function.update pending.view key (some (store key)) })

def peek (pending : Pending) (store : Values) (key : String) : Option Json :=
  match pending.view key with
  | some known => known
  | none => store key

def set (pending : Pending) (key : String) (value : Json) : Pending :=
  { pending with
    writes := pending.writes ++ [.set key value]
    view := Function.update pending.view key (some (some value)) }

def incr (pending : Pending) (key : String) (delta : Number) : Pending :=
  { pending with writes := pending.writes ++ [.incr key delta] }

def delete (pending : Pending) (key : String) : Pending :=
  { pending with
    writes := pending.writes ++ [.delete key]
    view := Function.update pending.view key (some none) }

def intoTransaction (pending : Pending) : Transaction := ⟨pending.reads, pending.writes⟩

def project (key : String) (current : Option Json) (delta : Number) :
    Except StoreError Number :=
  match Store.incrBase key current with
  | .error error => .error error
  | .ok base =>
      match base.plus delta with
      | some projected => .ok projected
      | none => .error (StoreError.outOfRange key)

end Pending

/-- One run of every call, so far: the calls to come, the first of them running, the answer
of the last that ended, and what the bindings gave back.  `peeked` remembers what the store
held where an increment looked; the program keeps no record of it. -/
structure Attempt where
  calls : List Endpoint
  answer : String
  replies : List Reply
  pending : Pending
  peeked : List Read

namespace Attempt

def fresh (calls : List Endpoint) : Attempt := ⟨calls, "null", [], Pending.fresh, []⟩

def incr (a : Attempt) (peeks : Values) (key : String) (delta : Number) : Attempt :=
  let peeked := match a.pending.view key with
    | some _ => a.peeked
    | none => a.peeked ++ [⟨key, peeks key⟩]
  match Pending.project key (a.pending.peek peeks key) delta with
  | .error error => { a with replies := a.replies ++ [.thrown error], peeked := peeked }
  | .ok projected =>
      { a with
        replies := a.replies ++ [.number projected]
        pending := a.pending.incr key delta
        peeked := peeked }

/-- One binding called by the handler, or its end.  Reads and increments may be told of
different contents. -/
def next (a : Attempt) (reads peeks : Values) (endpoint : Endpoint) (rest : List Endpoint) :
    Except HostError Attempt :=
  match endpoint.handler a.replies with
  | .get key =>
      let (seen, pending) := a.pending.read reads key
      .ok { a with replies := a.replies ++ [.value seen], pending := pending }
  | .set key value =>
      .ok { a with replies := a.replies ++ [.done], pending := a.pending.set key value }
  | .incr key delta => .ok (a.incr peeks key delta)
  | .delete key =>
      .ok { a with replies := a.replies ++ [.done], pending := a.pending.delete key }
  | .answer text => .ok { a with calls := rest, answer := text }
  | .fail message => .error ⟨endpoint.name, message⟩

end Attempt

def displayed : StoreError → String
  | .notANumber key found =>
      "`" ++ key ++ "` holds " ++ found ++ ", which cannot be incremented; `add` needs a number"
  | .outOfRange key => "incrementing `" ++ key ++ "` left the range a number can represent"
  | .conflict key =>
      "`" ++ key ++ "` was changed by another handler while this one was running, so none of " ++
        "its writes were applied"

def contended (key : String) : String :=
  "`" ++ key ++ "` was changed by another handler on every one of 8 attempts, so this write " ++
    "was refused rather than applied over somebody else's"

/-- How an attempt ends; `applied` is what its transaction did, if it wrote at all. -/
inductive Ended
  | answered (text : String) (applied : Option Applied)
  | conflict (key : String)
  | failed (error : HostError)
deriving DecidableEq

def answerOf (calls : List Endpoint) (answer : String) (values : List (Option Json)) : String :=
  match calls with
  | [endpoint] =>
      match endpoint.shape with
      | .command =>
          match values.getLast? with
          | some (some json) => json.text
          | _ => "null"
      | .value => answer
  | _ => "null"

def nameOf (calls : List Endpoint) : String := (calls.head?.map Endpoint.name).getD ""

def Attempt.commit (a : Attempt) (calls : List Endpoint) (store : EmbeddedStore) :
    Ended × EmbeddedStore :=
  if a.pending.intoTransaction.isEmpty then (.answered a.answer none, store)
  else
    match store.apply a.pending.intoTransaction with
    | (.error (.conflict key), store') => (.conflict key, store')
    | (.error error, store') => (.failed ⟨nameOf calls, displayed error⟩, store')
    | (.ok applied, store') =>
        (.answered (answerOf calls a.answer applied.values) (some applied), store')

end Attempt

section System

inductive Status
  | running (attempt : Nat) (state : Attempt)
  | ok (answer : String)
  | err (error : HostError)

structure Invocation where
  calls : List Endpoint
  status : Status

/-- A commit: which invocation made it, between which stores, with what transaction, and what
its increments were told of. -/
structure Commit where
  invocation : Nat
  before : EmbeddedStore
  transaction : Transaction
  peeked : List Read
  values : List (Option Json)
  after : EmbeddedStore

structure System where
  store : EmbeddedStore
  invocations : List Invocation
  commits : List Commit

inductive Move
  | start (calls : List Endpoint)
  | act (i : Nat)

namespace System

def new (store : EmbeddedStore) : System := ⟨store, [], []⟩

/-- `run_all`, up to its first step. -/
def begin (calls : List Endpoint) : Invocation :=
  match calls with
  | [] => ⟨calls, .ok "null"⟩
  | _ :: _ => ⟨calls, .running 1 (Attempt.fresh calls)⟩

def become (s : System) (i : Nat) (calls : List Endpoint) (status : Status) : System :=
  { s with invocations := s.invocations.set i ⟨calls, status⟩ }

def recorded (s : System) (i : Nat) (a : Attempt) (store : EmbeddedStore) :
    Option Applied → List Commit
  | none => []
  | some applied => [⟨i, s.store, a.pending.intoTransaction, a.peeked, applied.values, store⟩]

def finish (s : System) (i : Nat) (calls : List Endpoint) (attempt : Nat) (a : Attempt) :
    System :=
  match a.commit calls s.store with
  | (.answered text applied, store) =>
      { s with store := store, commits := s.commits ++ s.recorded i a store applied }.become i
        calls (.ok text)
  | (.conflict key, store) =>
      if attempt < ATTEMPTS then
        { s with store := store }.become i calls (.running (attempt + 1) (Attempt.fresh calls))
      else { s with store := store }.become i calls (.err ⟨nameOf calls, contended key⟩)
  | (.failed error, store) => { s with store := store }.become i calls (.err error)

/-- One step of an invocation: a binding of the running handler, or the commit. -/
def act (s : System) (i : Nat) (calls : List Endpoint) (attempt : Nat) (a : Attempt) : System :=
  match a.calls with
  | [] => s.finish i calls attempt a
  | endpoint :: rest =>
      match a.next s.store.db.values s.store.db.values endpoint rest with
      | .error error => s.become i calls (.err error)
      | .ok a' => s.become i calls (.running attempt a')

def step (s : System) : Move → Option System
  | .start calls => some { s with invocations := s.invocations ++ [begin calls] }
  | .act i =>
      match s.invocations[i]? with
      | some ⟨calls, .running attempt a⟩ => some (s.act i calls attempt a)
      | _ => none

def machine : Machine System Move := ⟨step⟩

def commitsOf (s : System) (i : Nat) : List Commit :=
  s.commits.filter (fun c => c.invocation = i)

def held (start : EmbeddedStore) (s : System) : List Values :=
  start.db.values :: s.commits.map (fun c => c.after.db.values)

end System

end System

section Alone

variable {calls : List Endpoint} {a b : Attempt} {reads peeks : Values}

/-- One step of an attempt, told of contents that `looks` allows. -/
def Attempt.Step (looks : Values → Values → Prop) (a b : Attempt) : Prop :=
  ∃ reads peeks endpoint rest, looks reads peeks ∧ a.calls = endpoint :: rest ∧
    a.next reads peeks endpoint rest = .ok b

/-- What an attempt can come to, told of contents that `looks` allows. -/
def Attempt.Ran (looks : Values → Values → Prop) (calls : List Endpoint) (a : Attempt) : Prop :=
  Relation.ReflTransGen (Attempt.Step looks) (Attempt.fresh calls) a

/-- An invocation run against one store and nothing else: its reads see that store, its
increments are told of contents that `told` allows, and it commits there. -/
def Alone (told : Values → Prop) (calls : List Endpoint) (store : EmbeddedStore)
    (answer : String) (store' : EmbeddedStore) : Prop :=
  ∃ (a : Attempt) (applied : Option Applied),
    a.Ran (fun reads peeks => reads = store.db.values ∧ told peeks) calls ∧ a.calls = [] ∧
      a.commit calls store = (.answered answer applied, store')

theorem Attempt.Ran.mono {looks looks' : Values → Values → Prop}
    (h : ∀ reads peeks, looks reads peeks → looks' reads peeks) (hran : a.Ran looks calls) :
    a.Ran looks' calls := by
  refine Relation.ReflTransGen.mono ?_ _ _ hran
  rintro x y ⟨reads, peeks, endpoint, rest, hlooks, hstep⟩
  exact ⟨reads, peeks, endpoint, rest, h reads peeks hlooks, hstep⟩

theorem Attempt.Ran.next {looks : Values → Values → Prop} (hran : a.Ran looks calls)
    (hlooks : looks reads peeks) {endpoint : Endpoint} {rest : List Endpoint}
    (hcalls : a.calls = endpoint :: rest) (hnext : a.next reads peeks endpoint rest = .ok b) :
    b.Ran looks calls :=
  hran.tail ⟨reads, peeks, endpoint, rest, hlooks, hcalls, hnext⟩

theorem Attempt.Ran.unique {σ : Values}
    (ha : a.Ran (fun reads peeks => reads = σ ∧ peeks = σ) calls)
    (hb : b.Ran (fun reads peeks => reads = σ ∧ peeks = σ) calls) (hcalls : a.calls = [])
    (hcalls' : b.calls = []) : a = b := by
  have hunique : Relator.RightUnique
      (Attempt.Step (fun reads peeks => reads = σ ∧ peeks = σ)) := by
    rintro x y z ⟨_, _, endpoint, rest, ⟨rfl, rfl⟩, hx, hy⟩
      ⟨_, _, endpoint', rest', ⟨rfl, rfl⟩, hx', hz⟩
    cases hx.symm.trans hx'
    cases hy.symm.trans hz
    rfl
  have hend : ∀ {x y : Attempt}, x.calls = [] → Relation.ReflTransGen
      (Attempt.Step (fun reads peeks => reads = σ ∧ peeks = σ)) x y → x = y := by
    intro x y hx hxy
    rcases Relation.ReflTransGen.cases_head hxy with
      heq | ⟨z, ⟨_, _, endpoint, rest, -, hstep, -⟩, -⟩
    · exact heq
    · cases hx.symm.trans hstep
  rcases Relation.ReflTransGen.total_of_right_unique hunique ha hb with hab | hba
  · exact hend hcalls hab
  · exact (hend hcalls' hba).symm

theorem Alone.unique {store first second : EmbeddedStore} {answer other : String}
    (h : Alone (fun told => told = store.db.values) calls store answer first)
    (h' : Alone (fun told => told = store.db.values) calls store other second) :
    answer = other ∧ first = second := by
  obtain ⟨a, applied, hran, hcalls, hcommit⟩ := h
  obtain ⟨b, applied', hran', hcalls', hcommit'⟩ := h'
  cases hran.unique hran' hcalls hcalls'
  cases hcommit.symm.trans hcommit'
  exact ⟨rfl, rfl⟩

end Alone

section Reads

variable {a b : Attempt} {reads peeks σ : Values} {endpoint : Endpoint} {rest : List Endpoint}

theorem readsHold_first {first all : List Read} (h : first <+: all)
    (hall : readsHold σ all) : readsHold σ first :=
  fun read hread => hall read (h.subset hread)

theorem readsHold_snoc {first : List Read} {read : Read}
    (h : readsHold σ (first ++ [read])) : σ read.key = read.seen :=
  h read (List.mem_append_right _ (List.mem_singleton_self _))

theorem Pending.read_reads (pending : Pending) (store : Values) (key : String) :
    pending.reads <+: (pending.read store key).2.reads := by
  unfold Pending.read
  cases pending.view key with
  | some known => exact List.prefix_refl _
  | none => exact List.prefix_append _ _

theorem Pending.read_told {pending : Pending} {store : Values} {key : String}
    (h : readsHold σ (pending.read store key).2.reads) :
    pending.read σ key = pending.read store key := by
  unfold Pending.read at h ⊢
  cases hview : pending.view key with
  | some known => rfl
  | none =>
      simp only [hview] at h ⊢
      have hkey : σ key = store key := readsHold_snoc h
      rw [hkey]

theorem Attempt.incr_spec (a : Attempt) (peeks : Values) (key : String) (delta : Number) :
    (a.incr peeks key delta).pending.reads = a.pending.reads ∧
      a.peeked <+: (a.incr peeks key delta).peeked ∧ (readsHold σ (a.incr peeks key delta).peeked →
        a.incr σ key delta = a.incr peeks key delta) := by
  have hpeek : a.peeked <+: (a.incr peeks key delta).peeked := by
    unfold Attempt.incr
    cases hproject : Pending.project key (a.pending.peek peeks key) delta <;>
      cases hview : a.pending.view key <;> simp
  refine ⟨?_, hpeek, ?_⟩
  · unfold Attempt.incr
    cases hproject : Pending.project key (a.pending.peek peeks key) delta <;> rfl
  · intro h
    unfold Attempt.incr Pending.peek at h ⊢
    cases hview : a.pending.view key with
    | some known => rfl
    | none =>
        have hkey : σ key = peeks key := by
          simp only [hview] at h
          cases hproject : Pending.project key (peeks key) delta with
          | error _ | ok _ =>
              rw [hproject] at h
              exact readsHold_snoc h
        simp only [hkey]

theorem Attempt.next_grows (h : a.next reads peeks endpoint rest = .ok b) :
    a.pending.reads <+: b.pending.reads ∧ a.peeked <+: b.peeked := by
  unfold Attempt.next at h
  cases hcall : endpoint.handler a.replies with
  | get key =>
      rw [hcall] at h
      cases h
      exact ⟨a.pending.read_reads reads key, List.prefix_refl _⟩
  | incr key delta =>
      rw [hcall] at h
      cases h
      obtain ⟨hreads, hpeeked, -⟩ := a.incr_spec (σ := peeks) peeks key delta
      exact ⟨hreads ▸ List.prefix_refl _, hpeeked⟩
  | set key value | delete key | answer text =>
      rw [hcall] at h
      cases h
      exact ⟨List.prefix_refl _, List.prefix_refl _⟩
  | fail message =>
      rw [hcall] at h
      cases h

theorem Attempt.next_told (h : a.next reads peeks endpoint rest = .ok b)
    (hσ : readsHold σ b.pending.reads) : a.next σ peeks endpoint rest = .ok b := by
  unfold Attempt.next at h ⊢
  cases hcall : endpoint.handler a.replies with
  | get key =>
      simp only [hcall] at h ⊢
      cases h
      rw [Pending.read_told hσ]
  | set key value | incr key delta | delete key | answer text =>
      simp only [hcall] at h ⊢
      exact h
  | fail message =>
      simp only [hcall] at h
      cases h

theorem Attempt.next_peeked (h : a.next reads peeks endpoint rest = .ok b)
    (hσ : readsHold σ b.peeked) : a.next reads σ endpoint rest = .ok b := by
  unfold Attempt.next at h ⊢
  cases hcall : endpoint.handler a.replies with
  | incr key delta =>
      simp only [hcall] at h ⊢
      cases h
      rw [(a.incr_spec peeks key delta).2.2 hσ]
  | get key | set key value | delete key | answer text =>
      simp only [hcall] at h ⊢
      exact h
  | fail message =>
      simp only [hcall] at h
      cases h

end Reads

section Told

variable {H H' : Values → Prop} {calls : List Endpoint} {a b : Attempt} {σ : Values}
variable {endpoint : Endpoint} {rest : List Endpoint}

/-- What an attempt was told, where the store held contents of `H`: each time what the store
held; and what it would have been told at any contents where its reads still hold. -/
structure Attempt.Told (H : Values → Prop) (calls : List Endpoint) (a : Attempt) : Prop where
  torn : a.Ran (fun reads peeks => reads = peeks ∧ H reads) calls
  alone : ∀ σ, readsHold σ a.pending.reads → a.Ran (fun reads peeks => reads = σ ∧ H peeks) calls
  exact : ∀ σ, readsHold σ a.pending.reads → readsHold σ a.peeked →
    a.Ran (fun reads peeks => reads = σ ∧ peeks = σ) calls

theorem Attempt.told_fresh : (Attempt.fresh calls).Told H calls where
  torn := Relation.ReflTransGen.refl
  alone := fun _ _ => Relation.ReflTransGen.refl
  exact := fun _ _ _ => Relation.ReflTransGen.refl

theorem Attempt.Told.mono (h : a.Told H calls) (hsub : ∀ σ, H σ → H' σ) : a.Told H' calls where
  torn := h.torn.mono (fun _ _ hlooks => ⟨hlooks.1, hsub _ hlooks.2⟩)
  alone := fun σ hreads => (h.alone σ hreads).mono (fun _ _ hlooks =>
    ⟨hlooks.1, hsub _ hlooks.2⟩)
  exact := h.exact

theorem Attempt.Told.next (h : a.Told H calls) (hσ : H σ) (hcalls : a.calls = endpoint :: rest)
    (hnext : a.next σ σ endpoint rest = .ok b) : b.Told H calls := by
  obtain ⟨hreads, hpeeked⟩ := Attempt.next_grows hnext
  refine ⟨h.torn.next ⟨rfl, hσ⟩ hcalls hnext, ?_, ?_⟩
  · intro τ hτ
    exact (h.alone τ (readsHold_first hreads hτ)).next ⟨rfl, hσ⟩ hcalls
      (Attempt.next_told hnext hτ)
  · intro τ hτ hτ'
    exact (h.exact τ (readsHold_first hreads hτ) (readsHold_first hpeeked hτ')).next
      ⟨rfl, rfl⟩ hcalls (Attempt.next_peeked (Attempt.next_told hnext hτ) hτ')

end Told

section Linked

def Linked : EmbeddedStore → List Commit → EmbeddedStore → Prop
  | store, [], last => last = store
  | store, c :: rest, last =>
      c.before = store ∧
        (∃ applied, store.apply c.transaction = (.ok applied, c.after) ∧
          applied.values = c.values) ∧
        c.transaction.writes ≠ [] ∧ Linked c.after rest last

variable {start last : EmbeddedStore} {commits : List Commit} {c : Commit}

theorem Linked.snoc (h : Linked start commits last) (hbefore : c.before = last)
    {applied : Applied} (happly : last.apply c.transaction = (.ok applied, c.after))
    (hvalues : applied.values = c.values) (hwrites : c.transaction.writes ≠ []) :
    Linked start (commits ++ [c]) c.after := by
  induction commits generalizing start with
  | nil =>
      have hlast : last = start := h
      subst hlast
      exact ⟨hbefore, ⟨applied, happly, hvalues⟩, hwrites, rfl⟩
  | cons first rest ih =>
      obtain ⟨hfirst, happlied, hfirstWrites, hrest⟩ := h
      exact ⟨hfirst, happlied, hfirstWrites, ih hrest⟩

theorem exec_append {first second : List Store.Write} {values middle final : Values}
    {out out' : List (Option Json)} (h : Store.exec first values = .ok (middle, out))
    (h' : Store.exec second middle = .ok (final, out')) :
    Store.exec (first ++ second) values = .ok (final, out ++ out') := by
  induction first generalizing values out with
  | nil =>
      cases h
      exact h'
  | cons write rest ih =>
      rw [List.cons_append]
      unfold Store.exec at h ⊢
      cases hwrite : write.exec values with
      | error error =>
          rw [hwrite] at h
          cases h
      | ok result =>
          rw [hwrite] at h
          cases hrest : Store.exec rest result.1 with
          | error error =>
              simp only [hrest] at h
              cases h
          | ok folded =>
              simp only [hrest] at h
              cases h
              simp only [ih hrest, List.cons_append]

theorem Linked.exec (h : Linked start commits last) :
    Store.exec (commits.flatMap (fun c => c.transaction.writes)) start.db.values =
      .ok (last.db.values, commits.flatMap Commit.values) := by
  induction commits generalizing start with
  | nil =>
      have hlast : last = start := h
      subst hlast
      rfl
  | cons c rest ih =>
      obtain ⟨-, ⟨applied, happly, hvalues⟩, hwrites, hrest⟩ := h
      obtain ⟨hexec, -⟩ := EmbeddedStore.apply_ok hwrites happly
      rw [List.flatMap_cons, List.flatMap_cons]
      exact exec_append (hvalues ▸ hexec) (ih hrest)

end Linked

section Settled

variable {H H' : Values → Prop} {calls : List Endpoint} {a : Attempt} {store : EmbeddedStore}

/-- An invocation that answered after a commit: it ran alone there, but for what its blind
increments were told of, and in that too if they were told of what still held. -/
structure Wrote (H : Values → Prop) (calls : List Endpoint) (answer : String) (c : Commit) :
    Prop where
  writes : c.transaction.writes ≠ []
  alone : Alone H calls c.before answer c.after
  exact : readsHold c.before.db.values c.peeked →
    Alone (fun told => told = c.before.db.values) calls c.before answer c.after

/-- An invocation that answered without a write: each of its reads was held by the store, and
it ran alone wherever all of them hold. -/
def ReadOnly (H : Values → Prop) (calls : List Endpoint) (answer : String) : Prop :=
  ∃ a : Attempt, a.Ran (fun reads peeks => reads = peeks ∧ H reads) calls ∧ a.calls = [] ∧
    a.pending.writes = [] ∧ a.answer = answer ∧
    ∀ store : EmbeddedStore, readsHold store.db.values a.pending.reads →
      readsHold store.db.values a.peeked →
        Alone (fun told => told = store.db.values) calls store answer store

/-- What holds of an invocation, given its commits and what the store has held. -/
def Settled (H : Values → Prop) (commits : List Commit) (calls : List Endpoint) :
    Status → Prop
  | .running _ a => commits = [] ∧ a.Told H calls
  | .ok answer => (∃ c, commits = [c] ∧ Wrote H calls answer c) ∨
      (commits = [] ∧ ReadOnly H calls answer)
  | .err _ => commits = []

variable {store' : EmbeddedStore} {answer : String}

theorem Alone.mono (hsub : ∀ σ, H σ → H' σ)
    (h : Alone H calls store answer store') : Alone H' calls store answer store' := by
  obtain ⟨a, applied, hran, hcalls, hcommit⟩ := h
  exact ⟨a, applied, hran.mono (fun _ _ hlooks => ⟨hlooks.1, hsub _ hlooks.2⟩), hcalls, hcommit⟩

theorem Settled.mono {commits : List Commit} {status : Status} (hsub : ∀ σ, H σ → H' σ)
    (h : Settled H commits calls status) : Settled H' commits calls status := by
  cases status with
  | running attempt a => exact ⟨h.1, h.2.mono hsub⟩
  | ok answer =>
      rcases h with ⟨c, hc, hwrote⟩ | ⟨hnone, a, hran, hrest⟩
      · exact .inl ⟨c, hc, hwrote.writes, hwrote.alone.mono hsub, hwrote.exact⟩
      · exact .inr ⟨hnone, a, hran.mono (fun _ _ hlooks => ⟨hlooks.1, hsub _ hlooks.2⟩), hrest⟩
  | err error => exact h

theorem Attempt.commit_cases (a : Attempt) (calls : List Endpoint) (store : EmbeddedStore) :
    (a.pending.writes = [] ∧ a.commit calls store = (.answered a.answer none, store)) ∨
    (∃ applied store', a.pending.writes ≠ [] ∧
      store.apply a.pending.intoTransaction = (.ok applied, store') ∧
      readsHold store.db.values a.pending.reads ∧ a.commit calls store =
        (.answered (answerOf calls a.answer applied.values) (some applied), store')) ∨
    (∃ key, a.commit calls store = (.conflict key, store)) ∨
    ∃ error, a.commit calls store = (.failed error, store) := by
  unfold Attempt.commit
  by_cases hempty : a.pending.intoTransaction.isEmpty = true
  · rw [if_pos hempty]
    exact .inl ⟨List.isEmpty_iff.mp hempty, rfl⟩
  · rw [if_neg hempty]
    rcases happly : store.apply a.pending.intoTransaction with ⟨result, store'⟩
    cases result with
    | ok applied =>
        have hreads : readsHold store.db.values a.pending.reads := by
          unfold EmbeddedStore.apply at happly
          rw [if_neg hempty] at happly
          cases hcommit : store.db.commit a.pending.intoTransaction with
          | error error =>
              rw [hcommit] at happly
              cases happly
          | ok done => exact (Store.exec_of_commit hcommit).1
        have hwrites : a.pending.writes ≠ [] := fun h => hempty (List.isEmpty_iff.mpr h)
        exact .inr (.inl ⟨applied, store', hwrites, rfl, hreads, rfl⟩)
    | error error =>
        have hsame := EmbeddedStore.apply_error happly
        subst hsame
        cases error with
        | conflict key => exact .inr (.inr (.inl ⟨key, rfl⟩))
        | notANumber key found => exact .inr (.inr (.inr ⟨_, rfl⟩))
        | outOfRange key => exact .inr (.inr (.inr ⟨_, rfl⟩))

theorem Attempt.commit_answer {endpoint : Endpoint} (hshape : endpoint.shape = .value)
    {applied : Option Applied}
    (h : a.commit [endpoint] store = (.answered answer applied, store')) : answer = a.answer := by
  rcases a.commit_cases [endpoint] store with ⟨-, hanswered⟩ | ⟨_, _, -, -, -, hanswered⟩ |
    ⟨key, hconflict⟩ | ⟨error, hfailed⟩
  · exact (Ended.answered.inj (Prod.mk.inj (h.symm.trans hanswered)).1).1
  · have hended := (Ended.answered.inj (Prod.mk.inj (h.symm.trans hanswered)).1).1
    simpa only [answerOf, hshape] using hended
  · cases h.symm.trans hconflict
  · cases h.symm.trans hfailed

theorem Attempt.Told.readOnly (h : a.Told H calls) (hcalls : a.calls = [])
    (hwrites : a.pending.writes = []) : ReadOnly H calls a.answer := by
  refine ⟨a, h.torn, hcalls, hwrites, rfl, ?_⟩
  intro store hreads hpeeked
  refine ⟨a, none, h.exact _ hreads hpeeked, hcalls, ?_⟩
  unfold Attempt.commit
  exact if_pos (List.isEmpty_iff.mpr hwrites)

theorem Attempt.Told.wrote (h : a.Told H calls) (hcalls : a.calls = [])
    (hwrites : a.pending.writes ≠ []) {applied : Applied}
    (hreads : readsHold store.db.values a.pending.reads)
    (hcommit : a.commit calls store = (.answered answer (some applied), store')) (i : Nat) :
    Wrote H calls answer
      ⟨i, store, a.pending.intoTransaction, a.peeked, applied.values, store'⟩ where
  writes := hwrites
  alone := ⟨a, some applied, h.alone _ hreads, hcalls, hcommit⟩
  exact := fun hpeeked => ⟨a, some applied, h.exact _ hreads hpeeked, hcalls, hcommit⟩

end Settled

section Invariant

namespace System

variable {start : EmbeddedStore} {s s' : System} {i : Nat} {calls : List Endpoint}

/-- The commits so far make the store, and every invocation is settled by its own. -/
structure Inv (start : EmbeddedStore) (s : System) : Prop where
  linked : Linked start s.commits s.store
  owned : ∀ c ∈ s.commits, c.invocation < s.invocations.length
  settled : ∀ i invocation, s.invocations[i]? = some invocation →
    Settled (· ∈ s.held start) (s.commitsOf i) invocation.calls invocation.status

theorem inv_new (start : EmbeddedStore) : (new start).Inv start where
  linked := rfl
  owned := fun _ hc => nomatch hc
  settled := fun _ _ h => nomatch h

theorem Inv.held_store (hinv : s.Inv start) : s.store.db.values ∈ s.held start := by
  have hlast : ∀ {first : EmbeddedStore} {commits : List Commit},
      Linked first commits s.store →
        s.store.db.values ∈ first.db.values :: commits.map (fun c => c.after.db.values) := by
    intro first commits hlinked
    induction commits generalizing first with
    | nil =>
        have hsame : s.store = first := hlinked
        rw [hsame]
        exact List.mem_cons_self
    | cons c rest ih =>
        rw [List.map_cons]
        exact List.mem_cons_of_mem _ (ih hlinked.2.2.2)
  exact hlast hinv.linked

theorem Inv.become (hinv : s.Inv start) {status : Status}
    (hsettled : Settled (· ∈ s.held start) (s.commitsOf i) calls status) :
    (s.become i calls status).Inv start where
  linked := hinv.linked
  owned := by
    intro c hc
    have hlt := hinv.owned c hc
    simpa [System.become] using hlt
  settled := by
    intro j invocation hj
    by_cases hij : i = j
    · subst hij
      have hlt : i < s.invocations.length := by
        have hlen := (List.getElem?_eq_some_iff.mp hj).1
        simpa [System.become] using hlen
      have hset : (s.become i calls status).invocations[i]? = some ⟨calls, status⟩ :=
        List.getElem?_set_self hlt
      rw [hset] at hj
      cases hj
      exact hsettled
    · have hset : (s.become i calls status).invocations[j]? = s.invocations[j]? :=
        List.getElem?_set_ne hij
      rw [hset] at hj
      exact hinv.settled j invocation hj

theorem Inv.failed (hinv : s.Inv start) (hnone : s.commitsOf i = []) {error : HostError} :
    (s.become i calls (.err error)).Inv start :=
  have hsettled : Settled (· ∈ s.held start) (s.commitsOf i) calls (.err error) := hnone
  hinv.become hsettled

theorem Inv.wrote (hinv : s.Inv start) (hlt : i < s.invocations.length)
    (hnone : s.commitsOf i = []) {c : Commit} (hi : c.invocation = i)
    (hbefore : c.before = s.store) {applied : Applied}
    (happly : s.store.apply c.transaction = (.ok applied, c.after))
    (hvalues : applied.values = c.values) {answer : String}
    (hwrote : Wrote (· ∈ s.held start) calls answer c) :
    (System.become { s with store := c.after, commits := s.commits ++ [c] } i calls
      (.ok answer)).Inv start := by
  have hheld : ∀ σ, σ ∈ s.held start →
      σ ∈ held start { s with store := c.after, commits := s.commits ++ [c] } := by
    intro σ hσ
    unfold held at hσ ⊢
    rw [List.map_append, ← List.cons_append]
    exact List.mem_append_left _ hσ
  refine ⟨hinv.linked.snoc hbefore happly hvalues hwrote.writes, ?_, ?_⟩
  · intro d hd
    have hlen : (System.become { s with store := c.after, commits := s.commits ++ [c] } i calls
        (.ok answer)).invocations.length = s.invocations.length := List.length_set
    rw [hlen]
    rcases List.mem_append.mp hd with hold | hnew
    · exact hinv.owned d hold
    · rw [List.mem_singleton.mp hnew, hi]
      exact hlt
  · intro j invocation hj
    by_cases hij : i = j
    · subst hij
      have hset : (s.invocations.set i ⟨calls, .ok answer⟩)[i]? = some ⟨calls, .ok answer⟩ :=
        List.getElem?_set_self hlt
      have hcommits : commitsOf { s with store := c.after, commits := s.commits ++ [c] } i =
          [c] := by
        unfold commitsOf at hnone ⊢
        rw [List.filter_append, hnone]
        simp [hi]
      have hsome : some invocation = some ⟨calls, .ok answer⟩ := hj.symm.trans hset
      cases hsome
      refine .inl ⟨c, hcommits, ?_⟩
      exact ⟨hwrote.writes, hwrote.alone.mono hheld, hwrote.exact⟩
    · have hset : (s.invocations.set i ⟨calls, .ok answer⟩)[j]? = s.invocations[j]? :=
        List.getElem?_set_ne hij
      have hcommits : commitsOf { s with store := c.after, commits := s.commits ++ [c] } j =
          s.commitsOf j := by
        unfold commitsOf
        rw [List.filter_append]
        simp [hi, hij]
      have hold := hinv.settled j invocation (hset.symm.trans hj)
      exact (hcommits ▸ hold.mono hheld :)

theorem Inv.finish (hinv : s.Inv start) {attempt : Nat} {a : Attempt}
    (hi : s.invocations[i]? = some ⟨calls, .running attempt a⟩) (hcalls : a.calls = []) :
    (s.finish i calls attempt a).Inv start := by
  obtain ⟨hnone, htold⟩ : s.commitsOf i = [] ∧ a.Told (· ∈ s.held start) calls :=
    hinv.settled i _ hi
  have hlt : i < s.invocations.length := (List.getElem?_eq_some_iff.mp hi).1
  unfold System.finish
  rcases a.commit_cases calls s.store with ⟨hwrites, hcommit⟩ |
    ⟨applied, store', hwrites, happly, hreads, hcommit⟩ | ⟨key, hcommit⟩ | ⟨error, hcommit⟩
  · simp only [hcommit, recorded, List.append_nil]
    exact hinv.become (.inr ⟨hnone, htold.readOnly hcalls hwrites⟩)
  · simp only [hcommit, recorded]
    exact hinv.wrote hlt hnone rfl rfl happly rfl
      (htold.wrote hcalls hwrites hreads hcommit i)
  · simp only [hcommit]
    split_ifs with hattempt
    · exact hinv.become ⟨hnone, Attempt.told_fresh⟩
    · exact hinv.failed hnone
  · simp only [hcommit]
    exact hinv.failed hnone

theorem Inv.act (hinv : s.Inv start) {attempt : Nat} {a : Attempt}
    (hi : s.invocations[i]? = some ⟨calls, .running attempt a⟩) :
    (s.act i calls attempt a).Inv start := by
  obtain ⟨hnone, htold⟩ : s.commitsOf i = [] ∧ a.Told (· ∈ s.held start) calls :=
    hinv.settled i _ hi
  unfold System.act
  cases hcalls : a.calls with
  | nil => exact hinv.finish hi hcalls
  | cons endpoint rest =>
      cases hnext : a.next s.store.db.values s.store.db.values endpoint rest with
      | error error =>
          simp only [hnext]
          exact hinv.failed hnone
      | ok a' =>
          simp only [hnext]
          exact hinv.become ⟨hnone, htold.next hinv.held_store hcalls hnext⟩

theorem Inv.begin (hinv : s.Inv start) (calls : List Endpoint) :
    Inv start { s with invocations := s.invocations ++ [begin calls] } := by
  refine ⟨hinv.linked, ?_, ?_⟩
  · intro c hc
    rw [List.length_append]
    exact Nat.lt_add_right _ (hinv.owned c hc)
  · intro i invocation hi
    rcases Nat.lt_or_ge i s.invocations.length with hlt | hge
    · rw [List.getElem?_append_left hlt] at hi
      exact hinv.settled i invocation hi
    · rw [List.getElem?_append_right hge] at hi
      have hnone : s.commitsOf i = [] := by
        refine List.filter_eq_nil_iff.mpr fun c hc => ?_
        have hown := hinv.owned c hc
        simp only [decide_eq_true_eq]
        omega
      have hbegin : invocation = System.begin calls := by
        have hmem := List.mem_of_getElem? hi
        exact List.mem_singleton.mp hmem
      subst hbegin
      cases calls with
      | nil => exact .inr ⟨hnone, Attempt.told_fresh.readOnly rfl rfl⟩
      | cons endpoint rest => exact ⟨hnone, Attempt.told_fresh⟩

theorem Inv.step (hinv : s.Inv start) {move : Move} (hstep : s.step move = some s') :
    s'.Inv start := by
  cases move with
  | start calls =>
      cases hstep
      exact hinv.begin calls
  | act i =>
      simp only [System.step] at hstep
      split at hstep
      · next calls attempt a hi =>
          cases hstep
          exact hinv.act hi
      · cases hstep

end System

/-- Any number of invocations over one store, in any order of their steps.  The store holds
what the commits leave one after another, so no increment is lost.  An invocation that
answered either committed once, and ran alone at that commit but for what its blind increments
were told of, or asked for no write and committed nothing, each read of it having been held.
One that failed committed nothing. -/
theorem invocations_serialize (start : EmbeddedStore) (moves : List Move) (s : System)
    (hrun : System.machine.run (System.new start) moves = some s) :
    Linked start s.commits s.store ∧
      Store.exec (s.commits.flatMap (fun c => c.transaction.writes)) start.db.values =
        .ok (s.store.db.values, s.commits.flatMap Commit.values) ∧
      ∀ i invocation, s.invocations[i]? = some invocation →
        (∀ answer, invocation.status = .ok answer →
          (∃ c, s.commitsOf i = [c] ∧
            Wrote (· ∈ s.held start) invocation.calls answer c) ∨
          (s.commitsOf i = [] ∧ ReadOnly (· ∈ s.held start) invocation.calls answer)) ∧
        ∀ error, invocation.status = .err error → s.commitsOf i = [] := by
  have hinv : s.Inv start := System.machine.run_invariant
    (fun _ _ _ hinv hstep => hinv.step hstep) (System.inv_new start) hrun
  refine ⟨hinv.linked, hinv.linked.exec, ?_⟩
  intro i invocation hi
  have hsettled := hinv.settled i invocation hi
  constructor
  · intro answer hok
    rw [hok] at hsettled
    exact hsettled
  · intro error herr
    rw [herr] at hsettled
    exact hsettled

end Invariant

section Torn

/-- A handler that reads two keys and says whether it saw the second without the first. -/
def readsBoth : Endpoint where
  name := "both"
  shape := .value
  handler
    | [] => .get "first"
    | [.value _] => .get "second"
    | [.value none, .value (some _)] => .answer "torn"
    | _ => .answer "whole"

def writesBoth : Endpoint where
  name := "write"
  shape := .command
  handler
    | [] => .set "first" ⟨"1"⟩
    | [.done] => .set "second" ⟨"1"⟩
    | _ => .answer "null"

def counts : Endpoint where
  name := "counts"
  shape := .value
  handler
    | [] => .incr "count" ⟨Float.ofNat 1⟩
    | [.number projected] => .answer projected.toJson.text
    | _ => .answer "null"

def tornMoves : List Move :=
  [.start [readsBoth], .start [writesBoth], .act 0, .act 1, .act 1, .act 1, .act 1, .act 0,
    .act 0, .act 0]

/-- One of two increments commits after the other was told what the key holds. -/
def countMoves : List Move :=
  [.start [counts], .start [counts], .act 0, .act 1, .act 1, .act 1, .act 0, .act 0]

theorem Attempt.next_answer {a : Attempt} {reads peeks : Values} {endpoint : Endpoint}
    {rest : List Endpoint} {text : String} (h : endpoint.handler a.replies = .answer text) :
    a.next reads peeks endpoint rest = .ok { a with calls := rest, answer := text } := by
  unfold Attempt.next
  rw [h]

theorem alone_readsBoth (store : EmbeddedStore)
    (h : store.db.values "second" = none ∨ store.db.values "first" ≠ none) :
    Alone (fun told => told = store.db.values) [readsBoth] store "whole" store := by
  have hstart : (Attempt.fresh [readsBoth]).Ran
      (fun reads peeks => reads = store.db.values ∧ peeks = store.db.values) [readsBoth] :=
    Relation.ReflTransGen.refl
  have hfirst := hstart.next ⟨rfl, rfl⟩ rfl rfl
  have hsecond := hfirst.next ⟨rfl, rfl⟩ rfl rfl
  have hcall : readsBoth.handler [.value (store.db.values "first"),
      .value (store.db.values "second")] = .answer "whole" := by
    unfold readsBoth
    cases hone : store.db.values "first" with
    | none => rw [h.resolve_right (fun hne => hne hone)]
    | some one => cases store.db.values "second" <;> rfl
  exact ⟨_, none, hsecond.next ⟨rfl, rfl⟩ rfl (Attempt.next_answer hcall), rfl, rfl⟩

theorem not_alone_counts {store : EmbeddedStore} (h : store.db.values "count" = some ⟨"1"⟩)
    (store' : EmbeddedStore) :
    ¬ Alone (fun told => told = store.db.values) [counts] store "1" store' := by
  have hstart : (Attempt.fresh [counts]).Ran
      (fun reads peeks => reads = store.db.values ∧ peeks = store.db.values) [counts] :=
    Relation.ReflTransGen.refl
  have hproject : Pending.project "count" (some ⟨"1"⟩) ⟨Float.ofNat 1⟩ =
      .ok ⟨Float.ofNat 2⟩ := by decide +kernel
  have hincr : (Attempt.fresh [counts]).incr store.db.values "count" ⟨Float.ofNat 1⟩ =
      ⟨[counts], "null", [.number ⟨Float.ofNat 2⟩],
        ⟨[], [.incr "count" ⟨Float.ofNat 1⟩], fun _ => none⟩,
        [⟨"count", store.db.values "count"⟩]⟩ := by
    simp only [Attempt.incr, Pending.peek, Attempt.fresh, Pending.fresh, h, hproject]
    rfl
  have htext : (Number.toJson ⟨Float.ofNat 2⟩).text = "2" := by decide +kernel
  have hcounted := (hstart.next ⟨rfl, rfl⟩ rfl (congrArg Except.ok hincr)).next ⟨rfl, rfl⟩ rfl
    (Attempt.next_answer (congrArg Call.answer htext))
  rintro ⟨a, applied, hran, hcalls, hcommit⟩
  cases hcounted.unique hran rfl hcalls
  have hanswer : "1" = "2" := Attempt.commit_answer rfl hcommit
  exact absurd hanswer (by decide)

/-- An invocation that writes nothing may answer with what no store it ran over held, and one
that adds blindly with a number that its commit did not make. -/
theorem torn_read_answered :
    (∃ s, System.machine.run (System.new (EmbeddedStore.wrap .empty)) tornMoves = some s ∧
      s.invocations[0]? = some ⟨[readsBoth], .ok "torn"⟩ ∧
      ∀ store store', store.db.values ∈ s.held (EmbeddedStore.wrap .empty) →
        ¬ Alone (fun told => told = store.db.values) [readsBoth] store "torn" store') ∧
    ∃ s c, System.machine.run (System.new (EmbeddedStore.wrap .empty)) countMoves = some s ∧
      s.invocations[0]? = some ⟨[counts], .ok "1"⟩ ∧ s.commitsOf 0 = [c] ∧
      ∀ store', ¬ Alone (fun told => told = c.before.db.values) [counts] c.before "1" store' := by
  constructor
  · refine ⟨_, rfl, rfl, ?_⟩
    intro store store' hheld hopen
    have hwhole : store.db.values "second" = none ∨ store.db.values "first" ≠ none := by
      rcases List.mem_cons.mp hheld with hempty | hwritten
      · exact .inl (congrFun hempty "second")
      · right
        have hvalues := List.mem_singleton.mp hwritten
        rw [hvalues]
        exact Option.some_ne_none _
    exact absurd (hopen.unique (alone_readsBoth store hwhole)).1 (by decide)
  · refine ⟨_, _, rfl, by with_unfolding_all rfl, by with_unfolding_all rfl, ?_⟩
    exact fun store' => not_alone_counts (by with_unfolding_all rfl) store'

/-- The torn read is such a run. -/
theorem invocations_serialize_torn :
    ∃ s, System.machine.run (System.new (EmbeddedStore.wrap .empty)) tornMoves = some s ∧
      Linked (EmbeddedStore.wrap .empty) s.commits s.store ∧
      s.commitsOf 0 = [] ∧ ∃ c, s.commitsOf 1 = [c] ∧
        Wrote (· ∈ s.held (EmbeddedStore.wrap .empty)) [writesBoth] "1" c := by
  refine ⟨_, rfl, ?_⟩
  obtain ⟨hlinked, -, hall⟩ :=
    invocations_serialize (EmbeddedStore.wrap .empty) tornMoves _ rfl
  refine ⟨hlinked, rfl, ?_⟩
  rcases (hall 1 _ rfl).1 "1" rfl with hwrote | ⟨hnone, -⟩
  · exact hwrote
  · cases hnone

end Torn

end Invocations
end Serve
end Zdeceptron
