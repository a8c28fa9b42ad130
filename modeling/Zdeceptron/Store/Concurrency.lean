import Zdeceptron.Store.Embedded
import Zdeceptron.Store.WatchRuns

/-!
# Many writers on one embedded store

A call of `apply` is two steps: its commit, inside the database's write lock, and
later the publishing of its updates, under the fan-out's lock.  Between the two
the updates are in flight, and other calls may commit, publish or subscribe.

* `World.publishes_in_order_iff`: all of these, for whole runs;
* `World.drained_client_holds`: a client that drained its stream holds what the database holds.
-/

namespace Zdeceptron
namespace Store

open Library

section World

/-- The database, the batches committed and not yet published, in the order of
their commits, and the fan-out with its clients. -/
structure World where
  db : Database
  inflight : List (List Update)
  session : Session

inductive Action
  | commit (transaction : Transaction)
  | publish (i : Nat)
  | subscribe (keys : Keys) (since : Option Seq)
  | tryNext (client : Nat)
  | drop (client : Nat)
deriving DecidableEq

namespace World

def wrap (db : Database) : World := ⟨db, [], Session.new db.latest⟩

/-- The first half of a call: an empty transaction and a failed one end here. -/
def commit (w : World) (transaction : Transaction) : World :=
  if transaction.isEmpty then w
  else
    match w.db.commit transaction with
    | .error _ => w
    | .ok (db, updates, _) => { w with db := db, inflight := w.inflight ++ [updates] }

def publish (w : World) (i : Nat) (updates : List Update) : World :=
  { w with inflight := w.inflight.eraseIdx i, session := w.session.publishAll updates }

def step (w : World) : Action → Option World
  | .commit transaction => some (w.commit transaction)
  | .publish i => (w.inflight[i]?).map (w.publish i)
  | .subscribe keys since => some { w with session := w.session.subscribe keys since }
  | .tryNext i => (w.session.step (.tryNext i)).map (fun s => { w with session := s })
  | .drop i => (w.session.step (.drop i)).map (fun s => { w with session := s })

def machine : Machine World Action := ⟨step⟩

def InOrder (_ : World) : Action → Prop
  | .publish i => i = 0
  | _ => True

structure Ordered (start : Seq) (w : World) : Prop where
  consecutive : Consecutive Update.seq start (w.session.published ++ w.inflight.flatten)
  latest : w.db.latest = start + (w.session.published ++ w.inflight.flatten).length
  nonempty : ∀ updates ∈ w.inflight, updates ≠ []

theorem ordered_wrap (db : Database) : (wrap db).Ordered db.latest where
  consecutive := trivial
  latest := rfl
  nonempty := by
    intro updates h
    cases h

end World

variable {transaction : Transaction}

theorem Transaction.keys_ne_nil (h : transaction.isEmpty = false) : transaction.keys ≠ [] := by
  cases hw : transaction.writes with
  | nil => simp [Transaction.isEmpty, hw] at h
  | cons write rest =>
      have hmem : write.key ∈ transaction.keys :=
        Transaction.mem_keys.mpr ⟨write, by simp [hw], rfl⟩
      exact List.ne_nil_of_mem hmem

theorem Database.commit_positions {db db' : Database} {updates : List Update} {applied : Applied}
    (h : db.commit transaction = .ok (db', updates, applied)) :
    Consecutive Update.seq db.latest updates ∧ db'.latest = db.latest + updates.length ∧
      updates.map Update.key = transaction.keys := by
  obtain ⟨hreads, last, out, hexec⟩ := exec_of_commit h
  rw [commit_eq_exec hreads hexec] at h
  cases h
  have hkeys := keys_announcements last db.latest transaction.keys
  refine ⟨consecutive_announcements _ _ _, ?_, hkeys⟩
  have hlength := congrArg List.length hkeys
  rw [List.length_map] at hlength
  rw [hlength]
  rfl

namespace World

variable {start : Seq} {w w' : World} {action : Action}

theorem Ordered.commit (h : w.Ordered start) (transaction : Transaction) :
    (w.commit transaction).Ordered start := by
  unfold World.commit
  by_cases hempty : transaction.isEmpty = true
  · rwa [if_pos hempty]
  · rw [if_neg hempty]
    cases hcommit : w.db.commit transaction with
    | error error => exact h
    | ok result =>
        obtain ⟨db, updates, applied⟩ := result
        obtain ⟨hcons, hlatest, hkeys⟩ := Database.commit_positions hcommit
        have hne := Transaction.keys_ne_nil (Bool.not_eq_true _ ▸ hempty)
        have hflat : w.session.published ++ (w.inflight ++ [updates]).flatten =
            (w.session.published ++ w.inflight.flatten) ++ updates := by simp
        refine ⟨?_, ?_, ?_⟩
        · simp only [hflat]
          refine consecutive_append.mpr ⟨h.consecutive, ?_⟩
          rwa [← h.latest]
        · simp only [hflat]
          rw [hlatest, h.latest]
          simp only [List.length_append, Nat.add_assoc]
        · intro batch hbatch
          rcases List.mem_append.mp hbatch with hbatch | hbatch
          · exact h.nonempty batch hbatch
          · rw [List.mem_singleton] at hbatch
            rintro rfl
            subst hbatch
            exact hne (by rw [← hkeys]; rfl)

variable {updates : List Update}

theorem Ordered.publish_oldest (h : w.Ordered start)
    (hget : w.inflight[0]? = some updates) : (w.publish 0 updates).Ordered start := by
  cases hfly : w.inflight with
  | nil => simp [hfly] at hget
  | cons first rest =>
      rw [hfly] at hget
      cases hget
      have hflat : (w.session.published ++ updates) ++ rest.flatten =
          w.session.published ++ w.inflight.flatten := by simp [hfly]
      have hrest : w.inflight.eraseIdx 0 = rest := by simp [hfly]
      refine ⟨?_, ?_, ?_⟩
      · simp only [World.publish, Session.publishAll, hrest, hflat]
        exact h.consecutive
      · simp only [World.publish, Session.publishAll, hrest, hflat]
        exact h.latest
      · simp only [World.publish, hrest]
        intro batch hbatch
        exact h.nonempty batch (by rw [hfly]; exact List.mem_cons_of_mem _ hbatch)

theorem Ordered.publish_later {i : Nat} (h : w.Ordered start)
    (hget : w.inflight[i]? = some updates) (hi : i ≠ 0) :
    ¬ Consecutive Update.seq start (w.publish i updates).session.published := by
  intro hcons
  cases hfly : w.inflight with
  | nil => simp [hfly] at hget
  | cons first rest =>
      obtain ⟨j, rfl⟩ := Nat.exists_eq_succ_of_ne_zero hi
      have hrest : rest[j]? = some updates := by simpa [hfly] using hget
      have hmem : updates ∈ rest := List.mem_of_getElem? hrest
      have hfirst : first ≠ [] := h.nonempty first (by simp [hfly])
      have hupdates : updates ≠ [] :=
        h.nonempty updates (by rw [hfly]; exact List.mem_cons_of_mem _ hmem)
      obtain ⟨u, us, rfl⟩ := List.exists_cons_of_ne_nil hupdates
      have hthis := (consecutive_append.mp hcons).2.1
      have hold := h.consecutive
      rw [hfly, List.flatten_cons] at hold
      have htail := (consecutive_append.mp (consecutive_append.mp hold).2).2
      have hu : u ∈ rest.flatten := List.mem_flatten.mpr ⟨_, hmem, by simp⟩
      have hlate := (htail.bounds hu).1
      have hpos := List.length_pos_of_ne_nil hfirst
      omega

theorem step_cases (hstep : w.step action = some w') :
    (∃ transaction, w' = w.commit transaction) ∨
      (∃ i updates, action = .publish i ∧ w.inflight[i]? = some updates ∧
        w' = w.publish i updates) ∨ ∃ session, w' = { w with session := session } ∧
        session.published = w.session.published := by
  cases action with
  | commit transaction => exact .inl ⟨transaction, (Option.some.inj hstep).symm⟩
  | publish i =>
      obtain ⟨updates, hget, rfl⟩ := Option.map_eq_some_iff.mp hstep
      exact .inr (.inl ⟨i, updates, rfl, hget, rfl⟩)
  | subscribe keys since => exact .inr (.inr ⟨_, (Option.some.inj hstep).symm, rfl⟩)
  | tryNext _ | drop _ =>
      obtain ⟨s, hs, rfl⟩ := Option.map_eq_some_iff.mp hstep
      obtain ⟨c, hc, hif⟩ := Option.bind_eq_some_iff.mp hs
      split_ifs at hif with hholds
      cases hif
      exact .inr (.inr ⟨_, rfl, rfl⟩)

theorem Ordered.step (h : w.Ordered start) (horder : InOrder w action)
    (hstep : w.step action = some w') : w'.Ordered start := by
  rcases step_cases hstep with ⟨transaction, rfl⟩ | ⟨i, updates, rfl, hget, rfl⟩ |
    ⟨session, rfl, hpublished⟩
  · exact h.commit transaction
  · cases horder
    exact h.publish_oldest hget
  · exact ⟨hpublished ▸ h.consecutive, hpublished ▸ h.latest, h.nonempty⟩

variable {es : List Action}

theorem ordered_of_run (h : w.Ordered start)
    (horder : machine.Meets InOrder w es) (hrun : machine.run w es = some w') :
    w'.Ordered start :=
  machine.run_invariant_of_meets (I := fun w => w.Ordered start)
    (fun _ _ _ h' hG hstep => h'.step hG hstep) h horder hrun

theorem session_of_step (hstep : w.step action = some w') :
    ∃ calls, Session.machine.run w.session calls = some w'.session := by
  cases action with
  | commit transaction =>
      cases hstep
      refine ⟨[], ?_⟩
      unfold World.commit
      split_ifs
      · rfl
      · cases w.db.commit transaction <;> rfl
  | publish i =>
      obtain ⟨updates, hget, rfl⟩ := Option.map_eq_some_iff.mp hstep
      exact ⟨[.publishAll updates], rfl⟩
  | subscribe keys since =>
      cases hstep
      exact ⟨[.subscribe keys since], rfl⟩
  | tryNext i =>
      obtain ⟨s, hs, rfl⟩ := Option.map_eq_some_iff.mp hstep
      exact ⟨[.tryNext i], Session.machine.run_cons_eq_some.mpr ⟨s, hs, rfl⟩⟩
  | drop i =>
      obtain ⟨s, hs, rfl⟩ := Option.map_eq_some_iff.mp hstep
      exact ⟨[.drop i], Session.machine.run_cons_eq_some.mpr ⟨s, hs, rfl⟩⟩

theorem session_of_run (hrun : machine.run w es = some w') :
    ∃ calls, Session.machine.run w.session calls = some w'.session := by
  refine machine.run_invariant
    (I := fun v => ∃ calls, Session.machine.run w.session calls = some v.session)
    ?_ ⟨[], rfl⟩ hrun
  rintro v e v' ⟨calls, hcalls⟩ hstep
  obtain ⟨more, hmore⟩ := session_of_step hstep
  exact ⟨calls ++ more, Session.machine.run_append_eq_some.mpr ⟨_, hcalls, hmore⟩⟩

theorem published_prefix_of_run (hrun : machine.run w es = some w') :
    w.session.published <+: w'.session.published := by
  obtain ⟨calls, hcalls⟩ := session_of_run hrun
  exact Session.published_prefix_of_run hcalls

theorem consecutive_iff_inOrder (h : w.Ordered start) (hrun : machine.run w es = some w') :
    Consecutive Update.seq start w'.session.published ↔ machine.Meets InOrder w es := by
  constructor
  · intro hcons
    induction es generalizing w with
    | nil => trivial
    | cons e es ih =>
        obtain ⟨v, hstep, hrest⟩ := machine.run_cons_eq_some.mp hrun
        obtain ⟨tail, htail⟩ := published_prefix_of_run hrest
        have hsofar : Consecutive Update.seq start v.session.published := by
          rw [← htail] at hcons
          exact (consecutive_append.mp hcons).1
        have horder : InOrder w e := by
          cases e with
          | publish i =>
              obtain ⟨updates, hget, rfl⟩ := Option.map_eq_some_iff.mp hstep
              by_contra hi
              exact h.publish_later hget hi hsofar
          | _ => trivial
        refine ⟨horder, ?_⟩
        intro v' hv'
        rw [show machine.step w e = some v from hstep, Option.some.injEq] at hv'
        subst hv'
        exact ih (h.step horder hstep) hrest
  · intro horder
    exact (consecutive_append.mp (ordered_of_run h horder hrun).consecutive).1

theorem latest_of_quiescent (h : w.Ordered start) (hinv : w.session.Inv start)
    (hquiet : w.inflight = []) : w.session.fanout.latest = w.db.latest := by
  rw [hinv.latest, h.latest, hquiet, List.flatten_nil, List.append_nil]

theorem ordered_at {db : Database} (fs : List Action)
    (horder : machine.Meets InOrder (wrap db) (es ++ fs))
    (hrun : machine.run (wrap db) es = some w) :
    w.Ordered db.latest ∧ w.session.Inv db.latest := by
  have hordered := ordered_of_run (ordered_wrap db) (machine.meets_of_meets_append horder) hrun
  obtain ⟨calls, hcalls⟩ := session_of_run hrun
  exact ⟨hordered,
    Session.inv_of_run hcalls (consecutive_append.mp hordered.consecutive).1⟩

/-- What a run of concurrent calls is to give: updates reach the fan-out in
consecutive order, its position never decreases and is the database's once all
calls have returned, and no client that reconnects is silently denied an
update. -/
structure Faithful (db : Database) (es : List Action) (t : World) : Prop where
  consecutive : Consecutive Update.seq db.latest t.session.published
  monotone : ∀ es₁ es₂ es₃ w w', es = es₁ ++ (es₂ ++ es₃) →
    machine.run (wrap db) es₁ = some w → machine.run w es₂ = some w' →
    w.session.fanout.latest ≤ w'.session.fanout.latest
  quiescent : t.inflight = [] → t.session.fanout.latest = t.db.latest
  never_denied : ∀ es₁ es₂ es₃ es₄ keys since w w' r c d u,
    es = es₁ ++ .subscribe keys since ::
      (es₂ ++ (es₃ ++ .subscribe keys (some c.cursor) :: es₄)) →
    machine.run (wrap db) es₁ = some w →
    (∀ seen, since = some seen → seen ≤ w.session.fanout.latest) →
    machine.run w (.subscribe keys since :: es₂) = some w' →
    w'.session.clients[w.session.clients.length]? = some c →
    w'.session.holds c = true →
    machine.run w' es₃ = some r →
    machine.run r (.subscribe keys (some c.cursor) :: es₄) = some t →
    t.session.clients[r.session.clients.length]? = some d →
    t.session.drained d = true →
    u ∈ t.session.published → u ∉ w.session.published → keys.contains u.key = true →
    Event.update u ∈ c.received ∨ Event.update u ∈ d.received ∨
      Event.resync r.session.fanout.latest ∈ d.received

theorem run_subscribe {keys : Keys} {since : Option Seq}
    (hrun : machine.run w (.subscribe keys since :: es) = some w') :
    ∃ calls, Session.machine.run (w.session.subscribe keys since) calls = some w'.session := by
  obtain ⟨v, hstep, hrest⟩ := machine.run_cons_eq_some.mp hrun
  cases hstep
  exact session_of_run hrest

/-- A run is faithful exactly when every batch is published in the order of the
commits. -/
theorem publishes_in_order_iff {db : Database} {es : List Action} {t : World}
    (hrun : machine.run (wrap db) es = some t) :
    Faithful db es t ↔ machine.Meets InOrder (wrap db) es := by
  constructor
  · intro h
    exact (consecutive_iff_inOrder (ordered_wrap db) hrun).mp h.consecutive
  · intro horder
    have hend : t.Ordered db.latest ∧ t.session.Inv db.latest :=
      ordered_at [] (by simpa using horder) hrun
    obtain ⟨hordered, hinv⟩ := hend
    refine ⟨hinv.consecutive, ?_, ?_, ?_⟩
    · rintro es₁ es₂ es₃ w w' rfl hw hw'
      obtain ⟨-, hinvw⟩ := ordered_at _ horder hw
      have hrun' : machine.run (wrap db) (es₁ ++ es₂) = some w' :=
        machine.run_append_eq_some.mpr ⟨w, hw, hw'⟩
      rw [← List.append_assoc] at horder
      obtain ⟨-, hinvw'⟩ := ordered_at _ horder hrun'
      rw [hinvw.latest, hinvw'.latest]
      exact Nat.add_le_add_left (published_prefix_of_run hw').length_le _
    · exact latest_of_quiescent hordered hinv
    · rintro es₁ es₂ es₃ es₄ keys since w w' r c d u rfl hw hsince hw' hc hholds hr ht hd
        hdrained hu hfresh hkey
      obtain ⟨-, hinvw⟩ := ordered_at _ horder hw
      have hrun' : machine.run (wrap db) (es₁ ++ .subscribe keys since :: es₂) = some w' :=
        machine.run_append_eq_some.mpr ⟨w, hw, hw'⟩
      have hinvw' : w'.session.Inv db.latest := by
        refine (ordered_at (es₃ ++ .subscribe keys (some c.cursor) :: es₄) ?_ hrun').2
        simpa using horder
      obtain ⟨first, hfirst⟩ := run_subscribe hw'
      obtain ⟨second, hsecond⟩ := session_of_run hr
      obtain ⟨after, hafter⟩ := run_subscribe ht
      refine hinv.never_denied hinvw' hsince hfirst hc hholds hsecond hafter hd hdrained
        hu ?_ hkey
      have hwhole : machine.run w (.subscribe keys since :: es₂ ++
          (es₃ ++ .subscribe keys (some c.cursor) :: es₄)) = some t := by
        refine machine.run_append_eq_some.mpr ⟨w', hw', ?_⟩
        exact machine.run_append_eq_some.mpr ⟨r, hr, ht⟩
      obtain ⟨rest, hrest⟩ := published_prefix_of_run hwhole
      have hcons := hinv.consecutive
      rw [← hrest] at hcons hu
      rcases List.mem_append.mp hu with hu | hu
      · exact absurd hu hfresh
      · rw [hinvw.latest]
        exact ((consecutive_append.mp hcons).2.bounds hu).1

/-- One writer at a time publishes in order. -/
theorem publishes_in_order_one_writer :
    ∃ t, machine.run (wrap Database.empty)
        [.commit ⟨[], [.set "a" ⟨"1"⟩]⟩, .publish 0, .commit ⟨[], [.set "b" ⟨"2"⟩]⟩] =
          some t ∧
      Faithful Database.empty
        [.commit ⟨[], [.set "a" ⟨"1"⟩]⟩, .publish 0, .commit ⟨[], [.set "b" ⟨"2"⟩]⟩] t :=
  ⟨_, rfl, (publishes_in_order_iff rfl).mpr
    ⟨trivial, fun _ h => by cases h; exact ⟨rfl, fun _ _ => ⟨trivial, fun _ _ => trivial⟩⟩⟩⟩

/-- Two writers commit `a` and `b` in this order and publish in the other one. -/
def crossedWriters : List Action :=
  [.subscribe (Keys.new ["a", "b"]) none,
    .commit ⟨[], [.set "a" ⟨"1"⟩]⟩, .commit ⟨[], [.set "b" ⟨"2"⟩]⟩,
    .publish 1, .tryNext 0, .drop 0, .publish 0,
    .subscribe (Keys.new ["a", "b"]) (some 2), .tryNext 1]

/-- The client that saw `b` reconnects with its position and never hears of `a`,
while the fan-out ends behind the database. -/
theorem crossedWriters_not_faithful :
    ∃ t c d, machine.run (wrap Database.empty) crossedWriters = some t ∧
      ¬ Faithful Database.empty crossedWriters t ∧
      t.inflight = [] ∧ t.session.fanout.latest = 1 ∧ t.db.latest = 2 ∧
      t.session.clients[0]? = some c ∧ c.received = [.update ⟨2, "b", some ⟨"2"⟩⟩] ∧
      t.session.clients[1]? = some d ∧ t.session.drained d = true ∧ d.received = [] ∧
      ⟨1, "a", some ⟨"1"⟩⟩ ∈ t.session.published := by
  refine ⟨_, _, _, rfl, ?_, rfl, rfl, rfl, rfl, rfl, rfl, by decide, rfl, by decide⟩
  intro h
  exact absurd (h.quiescent rfl) (by decide)

end World

end World

section Replay

/-- The values after a list of announcements. -/
def replay (values : Values) (updates : List Update) : Values :=
  rebuilt Update.key Update.value values updates

theorem replay_announcements (pending values : Values) (seq : Seq) (keys : List String) :
    replay values (announcements pending seq keys) = Overlay.flush pending keys values := by
  induction keys generalizing seq values with
  | nil => rfl
  | cons key rest ih => exact ih _ _

theorem Database.commit_replays {db db' : Database} {transaction : Transaction}
    {updates : List Update} {applied : Applied}
    (h : db.commit transaction = .ok (db', updates, applied)) :
    replay db.values updates = db'.values := by
  unfold Database.commit at h
  cases hreads : checkReads db.values transaction.reads with
  | error error =>
      rw [hreads] at h
      cases h
  | ok checked =>
      cases hcompute : compute db.values Overlay.empty [] transaction.writes with
      | error error =>
          simp only [hreads, hcompute] at h
          cases h
      | ok computed =>
          simp only [hreads, hcompute, writeKeys_eq] at h
          cases h
          exact replay_announcements _ db.values _ _

namespace World

variable {values : Values} {w w' : World} {action : Action} {es : List Action}

/-- What was announced, and what is still to be, leads from some values to the database's. -/
def Replays (values : Values) (w : World) : Prop :=
  replay values (w.session.published ++ w.inflight.flatten) = w.db.values

theorem Replays.step (h : w.Replays values) (horder : InOrder w action)
    (hstep : w.step action = some w') : w'.Replays values := by
  unfold Replays at h ⊢
  rcases step_cases hstep with ⟨transaction, rfl⟩ | ⟨i, updates, rfl, hget, rfl⟩ |
    ⟨session, rfl, hpublished⟩
  · unfold World.commit
    split_ifs
    · exact h
    · cases hcommit : w.db.commit transaction with
      | error error => exact h
      | ok result =>
          obtain ⟨db, updates, applied⟩ := result
          rw [List.flatten_concat, ← List.append_assoc, replay, rebuilt_append]
          change replay (replay _ _) updates = db.values
          rw [h, Database.commit_replays hcommit]
  · cases horder
    cases hfly : w.inflight with
    | nil => simp [hfly] at hget
    | cons first rest =>
        rw [hfly] at h hget
        cases hget
        simp only [World.publish, Session.publishAll, hfly, List.eraseIdx_cons_zero,
          List.append_assoc]
        exact h
  · exact hpublished ▸ h

theorem replays_of_run {db : Database} (horder : machine.Meets InOrder (wrap db) es)
    (hrun : machine.run (wrap db) es = some w) : w.Replays db.values :=
  machine.run_invariant_of_meets (I := fun w => w.Replays db.values)
    (fun _ _ _ h hG hstep => h.step hG hstep) (show (wrap db).Replays db.values from rfl)
    horder hrun

end World

/-- The update an event carries. -/
def Event.written : Event → Option Update
  | .update u => some u
  | .resync _ => none

theorem filterMap_written (updates : List Update) :
    (updates.map Event.update).filterMap Event.written = updates := by
  rw [List.filterMap_map]
  exact List.filterMap_some

namespace World

/-- Whatever the interleaving of commits, publishing, subscribing and receiving, if batches
are published in the order of their commits: once every call has returned, a client that
resumed after `seen`, drained its stream and was never told to read again holds what the
database holds for each of its keys, when it takes over each update it received on top of
what the database held at `seen`. -/
theorem drained_client_holds {db : Database} {es : List Action} {t : World}
    (horder : machine.Meets InOrder (wrap db) es) (hrun : machine.run (wrap db) es = some t)
    (hquiet : t.inflight = []) {i : Nat} {c : Client}
    (hclient : t.session.clients[i]? = some c) (hdrained : t.session.drained c = true)
    (hnotice : ∀ seq, Event.resync seq ∉ c.received) {seen : Seq} (hsince : c.since = some seen)
    (hfrom : db.latest ≤ seen) (hupto : seen ≤ c.subscription.seq) {key : String}
    (hkey : c.keys.contains key = true) :
    replay (replay db.values (t.session.published.take (seen - db.latest)))
      (c.received.filterMap Event.written) key = t.db.values key := by
  obtain ⟨calls, hcalls⟩ := session_of_run hrun
  have hcons := (consecutive_append.mp
    (ordered_of_run (ordered_wrap db) horder hrun).consecutive).1
  have hserved := (Session.inv_of_run hcalls hcons).served i c hclient
  have hlog := replays_of_run horder hrun
  unfold Replays at hlog
  rw [hquiet, List.flatten_nil, List.append_nil] at hlog
  have hafter : t.session.published.filter (fun update =>
      decide (seen < update.seq) && c.keys.contains update.key) =
        (t.session.published.drop (seen - db.latest)).filter
          (fun update => c.keys.contains update.key) := by
    rw [← hcons.filter_after_eq_drop hfrom, List.filter_filter]
    simp only [Bool.and_comm]
  have hreceived : c.received = ((t.session.published.drop (seen - db.latest)).filter
      (fun update => c.keys.contains update.key)).map Event.update := by
    have hall := hserved.received_of_drained hdrained
    have hwell := hserved.opening
    unfold Client.OpensWell at hwell
    rw [hsince] at hwell
    rcases hwell with hmissed | hresync
    · rw [hall, hmissed, Client.wanted, Client.later, ← List.map_append,
        Nat.min_eq_left hupto, filter_split hcons.pairwise_lt _ hupto, hafter]
    · rw [hresync] at hall
      exact absurd (hall ▸ List.mem_cons_self) (hnotice c.subscription.seq)
  rw [hreceived, filterMap_written]
  -- updates to the keys of others do not touch this one
  refine (rebuilt_filter rfl (fun update _ heq => heq ▸ hkey)).trans ?_
  change rebuilt _ _ (rebuilt _ _ _ _) _ key = _
  rw [← rebuilt_append, List.take_append_drop]
  exact congrFun hlog key

/-- A client resumes at the start, and a value is set. -/
def resumedMoves : List Action :=
  [.subscribe (Keys.new ["a"]) (some 0), .commit ⟨[], [.set "a" ⟨"1"⟩]⟩, .publish 0,
    .tryNext 0]

theorem drained_client_holds_set :
    ∃ t c, machine.run (wrap Database.empty) resumedMoves = some t ∧
      t.session.clients[0]? = some c ∧ replay (replay (fun _ => none) (t.session.published.take 0))
        (c.received.filterMap Event.written) "a" = t.db.values "a" ∧ t.db.values "a" = some ⟨"1"⟩ :=
  ⟨_, _, rfl, rfl,
    @drained_client_holds Database.empty resumedMoves _
      ⟨trivial, fun _ _ => ⟨trivial, fun _ h => by
        cases h
        exact ⟨rfl, fun _ _ => ⟨trivial, fun _ _ => trivial⟩⟩⟩⟩
      rfl rfl 0 _ rfl (by decide) (by simp) 0 rfl (Nat.le_refl 0) (Nat.le_refl 0) "a"
      (by decide), rfl⟩

end World

end Replay

end Store
end Zdeceptron
