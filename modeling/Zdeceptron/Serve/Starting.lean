import Zdeceptron.Serve.Agreement

/-!
# Starting values

An endpoint that meets a key nothing has been written to works with what it carries of the
declaration, which is a literal or nothing.  Beside the empty store stands the one in which
every signal holds what it is declared to start at.

* `starting_consistent`: a run of requests that treat an absent key as its starting value.
-/

namespace Zdeceptron
namespace Serve

open Library
open Library.EcmaJson (Data)
open Wire (Value units encode decode)

section Declarations

/-- What a durable signal is declared to start at.  A number literal has no sign. -/
inductive Initial
  | number (n : Float) (unsigned : unsignedZero n = n)
  | text (text : Units)
  | truth (b : Bool)
  | emptyList
  | emptyMap
  | computed (value : Value)

def Initial.value : Initial → Value
  | .number n _ => .num n
  | .text s => .str s
  | .truth b => .bool b
  | .emptyList => .list []
  | .emptyMap => .map []
  | .computed value => value

/-- The starting value, where it is a literal and so can be printed into an endpoint. -/
def Initial.literalDefault : Initial → Option Value
  | .number n _ => some (.num n)
  | .text s => some (.str s)
  | .truth b => some (.bool b)
  | .emptyList => some (.list [])
  | .emptyMap => some (.map [])
  | .computed _ => none

def Initial.stored (init : Initial) : Data := (encode init.value).reread

abbrev Declared := Units → Option Initial

variable (declared : Declared)

/-- A handler whose reads fall back to what their signals are declared to start at. -/
inductive Body.Emitted : Body → Prop
  | done (value : Value) : Emitted (.done value)
  | throw (message : Units) : Emitted (.throw message)
  | read {key : Units} {init : Initial} {next : Value → Body} (h : declared key = some init)
      (hnext : ∀ value, Emitted (next value)) : Emitted (.read key init.literalDefault next)
  | environment {key : Units} {next : Value → Body} (hnext : ∀ value, Emitted (next value)) :
      Emitted (.environment key next)

/-- A bundle whose endpoints carry what the signals are declared to start at. -/
structure Bundle.Emitted (bundle : Bundle) : Prop where
  command : ∀ name command, bundle.endpoints name = some (.command command) →
    ∃ init, declared command.key = some init ∧ command.base = init.literalDefault
  value : ∀ name inputs body, bundle.endpoints name = some (.value inputs body) →
    ∀ args, Body.Emitted declared (body args)

/-- The store in which every signal holds what it is declared to start at. -/
def seeded : Host.Store := fun key => (declared key).map Initial.stored

end Declarations

section Condition

variable (declared : Declared) (store : Host.Store)

def Body.Meets (environment : Units → Option Units) : Body → Prop
  | .done _ => True
  | .throw _ => True
  | .read key starting next =>
      match store key with
      | none => ∃ value, starting = some value ∧ (next value).Meets environment
      | some d => ∀ value, decode d = .ok value →
          (next (if isNullish value then starting.getD value else value)).Meets environment
  | .environment key next =>
      ∀ value, environment key = some value → (next (.str value)).Meets environment

/-- The command does to an absent key what it does to the starting value: a `set` of the whole
key always, an addition or a subtraction where the signal starts at zero, an `append` or a
`remove` where it starts as an empty list, and a write through a path where it starts as the
literal `empty`. -/
def Command.Starts (command : Command) (init : Initial) : Prop :=
  match command.path, command.verb with
  | [], .set => True
  | [], .incr => init.stored = .num (Float.ofNat 0)
  | [], .decr => init.stored = .num (Float.ofNat 0)
  | [], .append => init.stored = .arr []
  | [], .remove => init.stored = .arr []
  | _ :: _, _ => init = .emptyList ∨ init = .emptyMap

/-- Every command of a transaction that meets an absent key does to it what it does to the
starting value. -/
def CallsMeet (number : Units → Float) :
    List (Units × Command × List Data) → Host.Pending → Prop
  | [], _ => True
  | (_, command, args) :: calls, pending =>
      (pending.peek store command.key = none →
        ∃ init, declared command.key = some init ∧ command.Starts init) ∧
      ∀ next, Host.perform number store (command.operation args) pending = .ok next →
        CallsMeet number calls next

/-- A request that treats every absent key it meets as holding its starting value. -/
def Request.Meets (number : Units → Float) (environment : Units → Option Units)
    (bundle : Bundle) : Request → Prop
  | .invoke call =>
      match bundle.endpoints call.name with
      | none => True
      | some (.command command) =>
          CallsMeet declared store number [(call.name, command, call.sent)] .fresh
      | some (.value inputs body) =>
          (body (parameters inputs call.sent)).Meets store environment
  | .atomic first rest =>
      ∀ calls, Host.resolveAll bundle (first :: rest) = .ok calls →
        CallsMeet declared store number calls .fresh

end Condition

section Stores

variable {declared : Declared}

variable (declared) in
/-- A key holds the same, or nothing where the other holds the starting value. -/
def Held (key : Units) (held held' : Option Data) : Prop :=
  held' = held ∨ (held = none ∧ ∃ init, declared key = some init ∧ held' = some init.stored)

variable (declared) in
def Follows (store store' : Host.Store) : Prop := ∀ key, Held declared key (store key) (store' key)

theorem follows_seeded : Follows declared (fun _ => none) (seeded declared) := by
  intro key
  unfold seeded
  cases hkey : declared key with
  | none => exact .inl rfl
  | some init => exact .inr ⟨rfl, init, hkey, rfl⟩

theorem Held.eq_of_some {key : Units} {d : Data} {held' : Option Data}
    (h : Held declared key (some d) held') : held' = some d := by
  rcases h with h | ⟨hnone, -⟩
  · exact h
  · cases hnone

variable {store store' : Host.Store}

theorem Follows.update (h : Follows declared store store') (key : Units) (held : Option Data) :
    Follows declared (Function.update store key held) (Function.update store' key held) := by
  intro other
  rw [Function.update_apply, Function.update_apply]
  split_ifs
  · exact .inl rfl
  · exact h other

theorem Initial.decode_stored {init : Initial} {value : Value}
    (h : init.literalDefault = some value) : ∃ read, decode init.stored = .ok read ∧
      (if isNullish read then value else read) = value := by
  cases init with
  | number n unsigned =>
      cases h
      show ∃ read, decode (Data.num n).reread = .ok read ∧ _
      rw [Data.reread]
      split_ifs with hfinite
      · exact ⟨.num n, by rw [unsigned, decode], rfl⟩
      · exact ⟨.null, by rw [decode], rfl⟩
  | text text =>
      cases h
      exact ⟨.str text, rfl, rfl⟩
  | truth b =>
      cases h
      exact ⟨.bool b, rfl, rfl⟩
  | emptyList =>
      cases h
      exact ⟨.list [], rfl, rfl⟩
  | emptyMap =>
      cases h
      exact ⟨.map [], rfl, rfl⟩
  | computed value => cases h

theorem Body.Emitted.run_eq {environment : Units → Option Units}
    (hstores : Follows declared store store') {body : Body} (h : body.Emitted declared)
    (hmeets : body.Meets store environment) :
    body.run (Host.get store' .fresh) (Host.env environment) =
      body.run (Host.get store .fresh) (Host.env environment) := by
  have hpeek : ∀ store key, Host.Pending.fresh.peek store key = store key := fun _ _ => rfl
  induction h with
  | done value => rfl
  | throw message => rfl
  | @read key init next hinit _ ih =>
      rw [Body.Meets] at hmeets
      rw [Body.run, Body.run, Host.get, Host.get, hpeek, hpeek]
      cases hkey : store key with
      | none =>
          rw [hkey] at hmeets
          obtain ⟨value, hliteral, hnext⟩ := hmeets
          have hheld := hstores key
          rw [hkey] at hheld
          rcases hheld with hnone | ⟨-, init', hinit', hstored⟩
          · rw [hnone, hliteral]
            exact ih value hnext
          · cases hinit.symm.trans hinit'
            obtain ⟨read, hread, hvalue⟩ := Initial.decode_stored hliteral
            simp only [hstored, hread, hliteral, Option.getD_some, hvalue]
            exact ih value hnext
      | some d =>
          rw [hkey] at hmeets
          rw [(hkey ▸ hstores key : Held declared key (some d) (store' key)).eq_of_some]
          cases hdecode : decode d with
          | error error => simp only [hdecode]
          | ok value =>
              simp only [hdecode]
              exact ih _ (hmeets value hdecode)
  | @environment key next _ ih =>
      rw [Body.Meets] at hmeets
      rw [Body.run, Body.run, Host.env]
      cases hkey : environment key with
      | none => rfl
      | some value => exact ih (.str value) (hmeets value hkey)

end Stores

section Writes

variable {declared : Declared} {store store' : Host.Store} {number : Units → Float}

theorem apply_snoc (store : Host.Store) (writes : List Host.Write) (write : Host.Write) :
    Host.apply store (writes ++ [write]) =
      match Host.apply store writes with
      | .error message => .error message
      | .ok (next, _) => (write.apply next).map (fun p => (p.1, some p.2)) := by
  induction writes generalizing store with
  | nil =>
      simp only [List.nil_append, Host.apply]
      cases write.apply store with
      | error message => rfl
      | ok result => rfl
  | cons first writes ih =>
      rw [List.cons_append, Host.apply, Host.apply]
      cases first.apply store with
      | error message => rfl
      | ok result =>
          simp only [ih]
          cases Host.apply result.1 writes with
          | error message => rfl
          | ok after =>
              simp only [Except.map]
              cases write.apply after.1 with
              | error message => rfl
              | ok last => rfl

/-- Both computations fail with one message, or both come to results that are alike. -/
def Alike {α β ε : Type} (R : α → β → Prop) : Except ε α → Except ε β → Prop
  | .error message, .error message' => message = message'
  | .ok a, .ok b => R a b
  | _, _ => False

theorem Alike.elim {α β ε : Type} {R : α → β → Prop} {x : Except ε α} {y : Except ε β}
    (h : Alike R x y) : (∃ message, x = .error message ∧ y = .error message) ∨
      ∃ a b, x = .ok a ∧ y = .ok b ∧ R a b := by
  cases x with
  | error message =>
      cases y with
      | error message' => exact .inl ⟨message, rfl, congrArg Except.error (Eq.symm h)⟩
      | ok b => exact False.elim h
  | ok a =>
      cases y with
      | error message' => exact False.elim h
      | ok b => exact .inr ⟨a, b, rfl, rfl, h⟩

variable (declared store) in
/-- What writes leave of the two stores: the answer is the same, and a key the invocation holds
something at is held. -/
def Left (pending : Host.Pending) (left left' : Host.Store × Option Data) : Prop :=
  left.2 = left'.2 ∧ Follows declared left.1 left'.1 ∧
    ∀ key, pending.peek store key ≠ none → left.1 key ≠ none

variable (declared store store') in
structure Together (pending pending' : Host.Pending) : Prop where
  writes : pending'.writes = pending.writes
  held : ∀ key, Held declared key (pending.peek store key) (pending'.peek store' key)
  applied : Alike (Left declared store pending) (Host.apply store pending.writes)
    (Host.apply store' pending.writes)

variable {pending pending' : Host.Pending}

theorem together_fresh (h : Follows declared store store') :
    Together declared store store' .fresh .fresh :=
  ⟨rfl, h, rfl, h, fun _ => id⟩

theorem peek_read (store : Host.Store) (pending : Host.Pending) (key : Units) :
    (pending.read store key).peek store = pending.peek store := by
  funext other
  simp only [Host.Pending.read, Host.Pending.peek, Function.update_apply]
  split_ifs with hkey
  · rw [hkey]
    rfl
  · rfl

theorem peek_set (store : Host.Store) (pending : Host.Pending) (key : Units) (d : Data) :
    (pending.set key d).peek store = Function.update (pending.peek store) key (some d) := by
  funext other
  simp only [Host.Pending.set, Host.Pending.peek, Function.update_apply]
  split_ifs <;> rfl

theorem Together.read (h : Together declared store store' pending pending') (key : Units) :
    Together declared store store' (pending.read store key) (pending'.read store' key) := by
  refine ⟨h.writes, ?_, ?_⟩
  · rw [peek_read, peek_read]
    exact h.held
  · unfold Left
    rw [peek_read]
    exact h.applied

theorem Together.set (h : Together declared store store' pending pending') (key : Units)
    (d : Data) : Together declared store store' (pending.set key d) (pending'.set key d) := by
  refine ⟨by rw [Host.Pending.set, Host.Pending.set, h.writes], ?_, ?_⟩
  · rw [peek_set, peek_set]
    exact Follows.update h.held key (some d)
  · rw [Host.Pending.set, apply_snoc, apply_snoc]
    rcases h.applied.elim with
      ⟨message, happly, happly'⟩ | ⟨left, left', happly, happly', -, hfollows, hheld⟩
    · rw [happly, happly']
      rfl
    · rw [happly, happly']
      refine ⟨rfl, hfollows.update key (some d), ?_⟩
      intro other hother
      dsimp only
      rw [Function.update_apply]
      split_ifs with hkey
      · exact Option.some_ne_none d
      · refine hheld other ?_
        have := peek_set store pending key d
        rw [Host.Pending.set] at this
        rwa [this, Function.update_of_ne hkey] at hother

theorem added_held {key : Units} {held held' : Option Data} (h : Held declared key held held')
    (hzero : held = none → ∃ init, declared key = some init ∧
      init.stored = .num (Float.ofNat 0)) (delta : Float) :
    Host.added key held' delta = Host.added key held delta := by
  rcases h with rfl | ⟨hnone, init, hinit, rfl⟩
  · rfl
  · obtain ⟨init', hinit', hstored⟩ := hzero hnone
    cases hinit.symm.trans hinit'
    rw [hnone, hstored]
    rfl

theorem Together.incr (h : Together declared store store' pending pending') {key : Units}
    (hzero : pending.peek store key = none → ∃ init, declared key = some init ∧
      init.stored = .num (Float.ofNat 0)) (delta : Float) :
    Alike (Together declared store store') (Host.zdIncr store pending key delta)
      (Host.zdIncr store' pending' key delta) := by
  unfold Host.zdIncr
  rw [added_held (h.held key) hzero]
  cases Host.added key (pending.peek store key) delta with
  | error message => rfl
  | ok sum =>
      refine ⟨by rw [Host.Pending.incr, Host.Pending.incr, h.writes], h.held, ?_⟩
      rw [Host.Pending.incr, apply_snoc, apply_snoc]
      rcases h.applied.elim with
        ⟨message, happly, happly'⟩ | ⟨left, left', happly, happly', -, hfollows, hheld⟩
      · rw [happly, happly']
        rfl
      · have hsum : Host.added key (left'.1 key) delta = Host.added key (left.1 key) delta :=
          added_held (hfollows key)
            (fun hnone => hzero (not_not.mp (fun hpeek => hheld key hpeek hnone))) delta
        rw [happly, happly']
        simp only [Host.Write.apply, hsum]
        cases Host.added key (left.1 key) delta with
        | error message => rfl
        | ok total =>
            refine ⟨rfl, hfollows.update key _, ?_⟩
            intro other hother
            dsimp only
            rw [Function.update_apply]
            split_ifs
            · exact Option.some_ne_none _
            · exact hheld other hother

theorem Together.put (h : Together declared store store' pending pending') {key : Units}
    {path : List Step} {base : Value} {change : Value → Except Units Value}
    (habsent : pending.peek store key = none → ∀ init, declared key = some init →
      ∃ value, decode init.stored = .ok value ∧
        Host.zdAt key change path (Host.orStarting value base) =
          Host.zdAt key change path (Host.orStarting .undefined base)) :
    Alike (Together declared store store') (Host.zdPut store pending key path base change)
      (Host.zdPut store' pending' key path base change) := by
  have hchanged : ∀ current, Alike (Together declared store store')
      ((Host.zdAt key change path current).map
        (fun next => (pending.read store key).set key (encode next).reread))
      ((Host.zdAt key change path current).map
        (fun next => (pending'.read store' key).set key (encode next).reread)) := by
    intro current
    cases Host.zdAt key change path current with
    | error message => rfl
    | ok next => exact (h.read key).set key _
  unfold Host.zdPut Host.get
  rcases h.held key with hsame | ⟨hnone, init, hinit, hstored⟩
  · rw [hsame]
    cases pending.peek store key with
    | none => exact hchanged _
    | some d =>
        cases hdecode : decode d with
        | error error => simp only [hdecode, Alike]
        | ok value =>
            simp only [hdecode]
            exact hchanged _
  · obtain ⟨value, hvalue, hsame⟩ := habsent hnone init hinit
    rw [hnone, hstored]
    simp only [hvalue, hsame]
    exact hchanged _

theorem Together.perform (h : Together declared store store' pending pending')
    {command : Command} {args : List Data}
    (hbase : ∃ init, declared command.key = some init ∧ command.base = init.literalDefault)
    (hstarts : pending.peek store command.key = none →
      ∃ init, declared command.key = some init ∧ command.Starts init) :
    Alike (Together declared store store')
      (Host.perform number store (command.operation args) pending)
      (Host.perform number store' (command.operation args) pending') := by
  obtain ⟨init, hinit, hbase⟩ := hbase
  have hstarts' : pending.peek store command.key = none → command.Starts init := by
    intro hnone
    obtain ⟨init', hinit', hstart⟩ := hstarts hnone
    cases hinit.symm.trans hinit'
    exact hstart
  have hother : ∀ init', declared command.key = some init' → init' = init := by
    intro init' hinit'
    exact Option.some.inj (hinit'.symm.trans hinit)
  obtain ⟨key, verb, path, base, fields⟩ := command
  dsimp only at hinit hbase hstarts' hother
  unfold Command.Starts at hstarts'
  unfold Command.operation Host.perform
  cases path with
  | cons segment path =>
      have hput : Alike (Together declared store store')
          (Host.zdPut store pending key (resolve args 1 (segment :: path)) (base.getD .undefined)
            (Host.changeOf number key (argument args 0) verb))
          (Host.zdPut store' pending' key (resolve args 1 (segment :: path)) (base.getD .undefined)
            (Host.changeOf number key (argument args 0) verb)) := by
        refine h.put (fun hnone init' hinit' => ?_)
        rw [hother init' hinit', hbase]
        rcases hstarts' hnone with rfl | rfl
        · exact ⟨.list [], rfl, rfl⟩
        · exact ⟨.map [], rfl, rfl⟩
      cases verb with
      | set | incr | decr | append | remove => exact hput
  | nil =>
      cases verb with
      | set => exact h.set key _
      | incr | decr => exact h.incr (fun hnone => ⟨init, hinit, hstarts' hnone⟩) _
      | append =>
          refine h.put (fun hnone init' hinit' => ⟨.list [], ?_, rfl⟩)
          rw [hother init' hinit', hstarts' hnone]
          rfl
      | remove =>
          refine h.put (fun hnone init' hinit' => ⟨.list [], ?_, rfl⟩)
          rw [hother init' hinit', hstarts' hnone]
          rfl

end Writes

section Requests

variable {declared : Declared} {store store' : Host.Store} {number : Units → Float}
  {environment : Units → Option Units} {bundle : Bundle}

def CallsEmitted (declared : Declared) (calls : List (Units × Command × List Data)) : Prop :=
  ∀ call ∈ calls, ∃ init, declared call.2.1.key = some init ∧
    call.2.1.base = init.literalDefault

variable {calls : List (Units × Command × List Data)}

theorem Together.record {pending pending' : Host.Pending}
    (h : Together declared store store' pending pending') (hemitted : CallsEmitted declared calls)
    (hmeets : CallsMeet declared store number calls pending) :
    Alike (Together declared store store') (Host.record number store calls pending)
      (Host.record number store' calls pending') := by
  induction calls generalizing pending pending' with
  | nil => exact h
  | cons call calls ih =>
      obtain ⟨name, command, args⟩ := call
      obtain ⟨hstarts, hrest⟩ := hmeets
      have halike : Alike (Together declared store store')
          (Host.perform number store (command.operation args) pending)
          (Host.perform number store' (command.operation args) pending') :=
        h.perform (hemitted _ List.mem_cons_self) hstarts
      rw [Host.record, Host.record]
      revert halike hrest
      cases Host.perform number store (command.operation args) pending with
      | error message =>
          cases Host.perform number store' (command.operation args) pending' with
          | error message' =>
              rintro - rfl
              rfl
          | ok next' => exact fun _ => False.elim
      | ok next =>
          cases Host.perform number store' (command.operation args) pending' with
          | error message' => exact fun _ => False.elim
          | ok next' =>
              intro hrest htogether
              exact ih htogether (fun call hcall => hemitted call (List.mem_cons_of_mem _ hcall))
                (hrest next rfl)

variable (declared) in
def Served (served served' : Host.Store × Data) : Prop :=
  served.2 = served'.2 ∧ Follows declared served.1 served'.1

theorem Follows.runAll (h : Follows declared store store') (hemitted : CallsEmitted declared calls)
    (hmeets : CallsMeet declared store number calls .fresh) :
    Alike (Served declared) (Host.runAll number store calls) (Host.runAll number store' calls) := by
  have halike := (together_fresh h).record hemitted hmeets
  unfold Host.runAll
  rcases halike.elim with ⟨error, hrecord, hrecord'⟩ | ⟨pending, pending', hrecord, hrecord', htogether⟩
  · rw [hrecord, hrecord']
    rfl
  · rw [hrecord, hrecord']
    unfold Host.commit
    dsimp only
    rw [htogether.writes]
    rcases htogether.applied.elim with
      ⟨message, happly, happly'⟩ | ⟨left, left', happly, happly', hvalue, hfollows, -⟩
    · rw [happly, happly']
      rfl
    · rw [happly, happly']
      dsimp only
      rw [hvalue]
      exact ⟨rfl, hfollows⟩

theorem callsEmitted_resolveAll (hbundle : bundle.Emitted declared) {requested : List Call}
    (h : Host.resolveAll bundle requested = .ok calls) :
    CallsEmitted declared calls := by
  induction requested generalizing calls with
  | nil =>
      cases h
      exact fun call hcall => absurd hcall List.not_mem_nil
  | cons first requested ih =>
      rw [Host.resolveAll] at h
      cases hendpoint : bundle.endpoints first.name with
      | none => simp [hendpoint] at h
      | some endpoint =>
          cases endpoint with
          | value inputs body => simp [hendpoint] at h
          | command command =>
              simp only [hendpoint] at h
              cases hrest : Host.resolveAll bundle requested with
              | error error => simp [hrest, Except.map] at h
              | ok rest =>
                  rw [hrest] at h
                  cases h
                  intro call hcall
                  rcases List.mem_cons.mp hcall with rfl | hcall
                  · exact hbundle.command _ command hendpoint
                  · exact ih hrest call hcall

theorem Follows.answered (h : Follows declared store store')
    {result result' : Except Host.HostError (Host.Store × Data)}
    (halike : Alike (Served declared) result result') :
    (match result with
        | .ok (store, answer) => (store, some answer)
        | .error _ => (store, none)).2 =
      (match result' with
        | .ok (store, answer) => (store, some answer)
        | .error _ => (store', none)).2 ∧
      Follows declared
        (match result with
          | .ok (store, answer) => (store, some answer)
          | .error _ => (store, none)).1
        (match result' with
          | .ok (store, answer) => (store, some answer)
          | .error _ => (store', none)).1 := by
  cases result with
  | error error =>
      cases result' with
      | error error' => exact ⟨rfl, h⟩
      | ok served' => exact False.elim halike
  | ok served =>
      cases result' with
      | error error' => exact False.elim halike
      | ok served' => exact ⟨congrArg some halike.1, halike.2⟩

theorem Follows.serve (h : Follows declared store store') (hbundle : bundle.Emitted declared)
    {request : Request} (hmeets : request.Meets declared store number environment bundle) :
    (Host.serve number environment bundle store request).2 =
        (Host.serve number environment bundle store' request).2 ∧
      Follows declared (Host.serve number environment bundle store request).1
        (Host.serve number environment bundle store' request).1 := by
  cases request with
  | invoke call =>
      rw [Request.Meets] at hmeets
      refine h.answered ?_
      dsimp only
      unfold Host.invoke
      cases hendpoint : bundle.endpoints call.name with
      | none => rfl
      | some endpoint =>
          rw [hendpoint] at hmeets
          cases endpoint with
          | command command =>
              refine h.runAll (fun call' hcall => ?_) hmeets
              rw [List.mem_singleton.mp hcall]
              exact hbundle.command _ command hendpoint
          | value inputs body =>
              dsimp only
              split_ifs with hlength
              · rfl
              · rw [(hbundle.value _ inputs body hendpoint _).run_eq h hmeets]
                cases (body (parameters inputs call.sent)).run (Host.get store .fresh)
                  (Host.env environment) with
                | error message => rfl
                | ok value => exact ⟨rfl, h⟩
  | atomic first rest =>
      rw [Request.Meets] at hmeets
      refine h.answered ?_
      dsimp only
      unfold Host.invokeAll
      cases hcalls : Host.resolveAll bundle (first :: rest) with
      | error error => rfl
      | ok calls => exact h.runAll (callsEmitted_resolveAll hbundle hcalls) (hmeets calls hcalls)

end Requests

section Runs

/-- The empty store and the one that holds the starting values, with what both answered. -/
structure Twice where
  store : Host.Store
  reference : Host.Store
  answers : List (Option Data)
  expected : List (Option Data)

variable (number : Units → Float) (environment : Units → Option Units) (bundle : Bundle)

def twice : Machine Twice Request where
  step s request :=
    some
      { store := (Host.serve number environment bundle s.store request).1
        reference := (Host.serve number environment bundle s.reference request).1
        answers := s.answers ++ [(Host.serve number environment bundle s.store request).2]
        expected := s.expected ++ [(Host.serve number environment bundle s.reference request).2] }

def Twice.start (declared : Declared) : Twice := ⟨fun _ => none, seeded declared, [], []⟩

/-- Requests that treat every absent key as holding its starting value are answered as they are
when every signal starts at what it is declared to start at. -/
theorem starting_consistent {declared : Declared} (hbundle : bundle.Emitted declared)
    {requests : List Request} {s : Twice}
    (hrun : (twice number environment bundle).run (.start declared) requests = some s)
    (hmeets : (twice number environment bundle).Meets
      (fun s request => request.Meets declared s.store number environment bundle)
      (.start declared) requests) :
    s.answers = s.expected := by
  have hinvariant : Follows declared s.store s.reference ∧ s.answers = s.expected := by
    refine Machine.run_invariant_of_meets (twice number environment bundle)
      (I := fun s => Follows declared s.store s.reference ∧ s.answers = s.expected) ?_
      ⟨follows_seeded, rfl⟩ hmeets hrun
    rintro s request next ⟨hfollows, hanswers⟩ hrequest hstep
    obtain ⟨hanswer, hnext⟩ := hfollows.serve hbundle hrequest
    cases hstep
    refine ⟨hnext, ?_⟩
    dsimp only
    rw [hanswers, hanswer]
  exact hinvariant.2

end Runs

section Checks

theorem unsignedZero_ofNat_zero : unsignedZero (Float.ofNat 0) = Float.ofNat 0 := by decide +kernel

theorem unsignedZero_ofNat_five : unsignedZero (Float.ofNat 5) = Float.ofNat 5 := by decide +kernel

/-- `state visits is durable Whole starting 5`. -/
def fromFive : Declared := fun key =>
  if key = units "visits" then some (.number (Float.ofNat 5) unsignedZero_ofNat_five) else none

theorem incrFromFive_fields :
    ∀ name, .field name ∈ ([] : List Segment) → Wire.IsFieldName name := by simp

/-- The endpoints of a counter that starts at `5`. -/
def counterFromFive : Bundle where
  endpoints name :=
    if name = units "visits" then
      some (.value [] (fun _ => .read (units "visits") (some (.num (Float.ofNat 5))) .done))
    else if name = units "visits.incr" then
      some (.command ⟨units "visits", .incr, [], some (.num (Float.ofNat 5)), incrFromFive_fields⟩)
    else none
  named := by
    intro name endpoint h
    split at h
    · rename_i hname
      subst hname
      decide
    · split at h
      · rename_i hname
        subst hname
        decide
      · cases h

theorem counterFromFive_emitted : counterFromFive.Emitted fromFive := by
  have hfive : fromFive (units "visits") =
      some (.number (Float.ofNat 5) unsignedZero_ofNat_five) := if_pos rfl
  constructor
  · intro name command h
    unfold counterFromFive at h
    dsimp only at h
    split_ifs at h
    · cases h
    · cases h
      exact ⟨_, hfive, rfl⟩
  · intro name inputs body h args
    unfold counterFromFive at h
    dsimp only at h
    split_ifs at h
    · cases h
      exact .read hfive .done
    · cases h

def belowTwo : Option Data → Bool
  | some (.num value) => decide (value < Float.ofNat 2)
  | _ => false

/-- The first addition to a counter that starts at `5` leaves it at `1`. -/
theorem first_addition_loses_starting :
    ¬ ∀ (number : Units → Float) (environment : Units → Option Units) (bundle : Bundle)
      (declared : Declared) (requests : List Request) (s : Twice), bundle.Emitted declared →
        (twice number environment bundle).run (.start declared) requests = some s →
          s.answers = s.expected := by
  intro h
  have hanswers := h (fun _ => Float.ofNat 0) (fun _ => none) counterFromFive fromFive
    [.invoke addVisit, .invoke readVisits] _ counterFromFive_emitted rfl
  have hread := congrArg (List.map belowTwo) hanswers
  revert hread
  decide +kernel

/-- `state visits is durable Whole starting 0`. -/
def fromZero : Declared := fun key =>
  if key = units "visits" then some (.number (Float.ofNat 0) unsignedZero_ofNat_zero) else none

theorem counter_emitted : counter.Emitted fromZero := by
  have hzero : fromZero (units "visits") =
      some (.number (Float.ofNat 0) unsignedZero_ofNat_zero) := if_pos rfl
  constructor
  · intro name command h
    unfold counter at h
    dsimp only at h
    split_ifs at h
    · cases h
    · cases h
      exact ⟨_, hzero, rfl⟩
  · intro name inputs body h args
    unfold counter at h
    dsimp only at h
    split_ifs at h
    · cases h
      exact .read hzero .done
    · cases h

/-- A counter that starts at `0` is read, and then added to. -/
theorem starting_consistent_counter :
    ∃ s, (twice (fun _ => Float.ofNat 0) (fun _ => none) counter).run (.start fromZero)
        [.invoke readVisits, .invoke addVisit] = some s ∧ s.answers = s.expected := by
  have hzero : fromZero (units "visits") =
      some (.number (Float.ofNat 0) unsignedZero_ofNat_zero) := if_pos rfl
  obtain ⟨s, hrun⟩ : ∃ s, (twice (fun _ => Float.ofNat 0) (fun _ => none) counter).run
      (.start fromZero) [.invoke readVisits, .invoke addVisit] = some s := ⟨_, rfl⟩
  refine ⟨s, hrun, starting_consistent _ _ _ counter_emitted hrun ⟨?_, ?_⟩⟩
  · show Request.Meets _ _ _ _ _ (.invoke readVisits)
    rw [Request.Meets, counter_read]
    exact ⟨_, rfl, trivial⟩
  rintro _ ⟨⟩
  refine ⟨?_, fun _ _ => trivial⟩
  show Request.Meets _ _ _ _ _ (.invoke addVisit)
  rw [Request.Meets, counter_add]
  refine ⟨fun _ => ⟨_, hzero, ?_⟩, fun _ _ => trivial⟩
  show Data.reread (.num (Float.ofNat 0)) = .num (Float.ofNat 0)
  rw [Data.reread, if_pos (by decide +kernel), unsignedZero_ofNat_zero]

end Checks

end Serve
end Zdeceptron
