import Zdeceptron.Library.Overlay
import Zdeceptron.Store.Watch

/-!
# One handler's effect on the embedded store

A transaction carries the reads a handler made and the writes it wants.  The
embedded store checks the reads, computes every next value in a working map, and
only then writes, handing the writes to the fan-out after the commit.
-/

namespace Zdeceptron
namespace Store

open Library

section Transaction

structure Read where
  key : String
  seen : Option Json
deriving DecidableEq

inductive Write
  | set (key : String) (value : Json)
  | incr (key : String) (delta : Number)
  | delete (key : String)
deriving DecidableEq

def Write.key : Write → String
  | .set key _ => key
  | .incr key _ => key
  | .delete key => key

structure Transaction where
  reads : List Read
  writes : List Write
deriving DecidableEq

namespace Transaction

def of (write : Write) : Transaction := ⟨[], [write]⟩

def isEmpty (transaction : Transaction) : Bool := transaction.writes.isEmpty

def keys (transaction : Transaction) : List String :=
  transaction.writes.foldl
    (fun seen write => if write.key ∈ seen then seen else seen ++ [write.key]) []

end Transaction

structure Applied where
  seq : Seq
  values : List (Option Json)
deriving DecidableEq

inductive StoreError
  | notANumber (key found : String)
  | outOfRange (key : String)
  | conflict (key : String)
deriving DecidableEq

end Transaction

section Database

abbrev Values := String → Option Json

/-- The database: the values, and the sequence counter once one was written. -/
structure Database where
  values : Values
  seq : Option Seq

def Database.empty : Database := ⟨fun _ => none, none⟩

def Database.latest (db : Database) : Seq := db.seq.getD 0

def incrBase (key : String) : Option Json → Except StoreError Number
  | none => .ok Number.zero
  | some json =>
      match Number.parse json.text with
      | some number => .ok number
      | none => .error (StoreError.notANumber key json.text)

def nextValue (write : Write) (current : Option Json) :
    Except StoreError (Option Json) :=
  match write with
  | .set _ value => .ok (some value)
  | .delete _ => .ok none
  | .incr key delta =>
      match incrBase key current with
      | .error error => .error error
      | .ok base =>
          match base.plus delta with
          | some sum => .ok (some sum.toJson)
          | none => .error (StoreError.outOfRange key)

def checkReads (values : Values) : List Read → Except StoreError Unit
  | [] => .ok ()
  | read :: rest =>
      if values read.key = read.seen then checkReads values rest
      else .error (StoreError.conflict read.key)

def compute (values : Values) (working : Overlay String (Option Json))
    (valuesOut : List (Option Json)) :
    List Write → Except StoreError (Overlay String (Option Json) × List (Option Json))
  | [] => .ok (working, valuesOut)
  | write :: rest =>
      let current := match working.pending write.key with
        | some pending => pending
        | none => values write.key
      match nextValue write current with
      | .error error => .error error
      | .ok next =>
          compute values (working.put write.key next) (valuesOut ++ [next]) rest

def writeKeys (working : Overlay String (Option Json)) :
    Values → Seq → List Update → List String → Values × Seq × List Update
  | values, seq, updates, [] => (values, seq, updates)
  | values, seq, updates, key :: rest =>
      let value := (working.pending key).getD none
      let written := match value with
        | some json => Function.update values key (some json)
        | none => Function.update values key none
      writeKeys working written (seq + 1) (updates ++ [⟨seq + 1, key, value⟩]) rest

def Database.commit (db : Database) (transaction : Transaction) :
    Except StoreError (Database × List Update × Applied) :=
  match checkReads db.values transaction.reads with
  | .error error => .error error
  | .ok () =>
      match compute db.values Overlay.empty [] transaction.writes with
      | .error error => .error error
      | .ok (working, valuesOut) =>
          let (values, last, updates) :=
            writeKeys working db.values (db.seq.getD 0) [] working.order
          .ok (⟨values, some last⟩, updates, ⟨last, valuesOut⟩)

structure EmbeddedStore where
  db : Database
  fanout : Fanout

namespace EmbeddedStore

def wrap (db : Database) : EmbeddedStore := ⟨db, Fanout.new (db.seq.getD 0)⟩

def apply (store : EmbeddedStore) (transaction : Transaction) :
    Except StoreError Applied × EmbeddedStore :=
  if transaction.isEmpty then (.ok ⟨store.fanout.latest, []⟩, store)
  else
    match store.db.commit transaction with
    | .error error => (.error error, store)
    | .ok (db, updates, applied) => (.ok applied, ⟨db, store.fanout.publishAll updates⟩)

def applyAll (store : EmbeddedStore) (transactions : List Transaction) : EmbeddedStore :=
  transactions.foldl (fun s transaction => (s.apply transaction).2) store

end EmbeddedStore

end Database

section Sequential

def Write.exec (write : Write) (values : Values) :
    Except StoreError (Values × Option Json) :=
  match nextValue write (values write.key) with
  | .error error => .error error
  | .ok next => .ok (Function.update values write.key next, next)

def exec : List Write → Values → Except StoreError (Values × List (Option Json))
  | [], values => .ok (values, [])
  | write :: rest, values =>
      match write.exec values with
      | .error error => .error error
      | .ok (next, value) =>
          match exec rest next with
          | .error error => .error error
          | .ok (last, out) => .ok (last, value :: out)

end Sequential

section Keys

def addKeys (seen : List String) (writes : List Write) : List String :=
  writes.foldl
    (fun seen write => if write.key ∈ seen then seen else seen ++ [write.key]) seen

theorem addKeys_cons (seen : List String) (write : Write) (rest : List Write) :
    addKeys seen (write :: rest) =
      addKeys (if write.key ∈ seen then seen else seen ++ [write.key]) rest := rfl

theorem mem_addKeys (seen : List String) (writes : List Write) {key : String} :
    key ∈ addKeys seen writes ↔ key ∈ seen ∨ ∃ write ∈ writes, write.key = key := by
  induction writes generalizing seen with
  | nil => simp [addKeys]
  | cons write rest ih =>
      rw [addKeys_cons, ih]
      by_cases hmem : write.key ∈ seen
      · rw [if_pos hmem]
        constructor
        · rintro (hseen | ⟨w, hw, hkey⟩)
          · exact Or.inl hseen
          · exact Or.inr ⟨w, List.mem_cons_of_mem _ hw, hkey⟩
        · rintro (hseen | ⟨w, hw, hkey⟩)
          · exact Or.inl hseen
          · rcases List.mem_cons.mp hw with rfl | hw
            · exact Or.inl (hkey ▸ hmem)
            · exact Or.inr ⟨w, hw, hkey⟩
      · rw [if_neg hmem]
        simp [or_assoc, eq_comm (a := key)]

theorem nodup_addKeys {seen : List String} (hseen : seen.Nodup) (writes : List Write) :
    (addKeys seen writes).Nodup := by
  induction writes generalizing seen with
  | nil => exact hseen
  | cons write rest ih =>
      rw [addKeys_cons]
      refine ih ?_
      split_ifs with hmem
      · exact hseen
      · refine List.Nodup.append hseen (List.nodup_singleton _) ?_
        intro key hkey hkey'
        rw [List.mem_singleton] at hkey'
        exact hmem (hkey' ▸ hkey)

theorem Transaction.keys_nodup (transaction : Transaction) : transaction.keys.Nodup :=
  nodup_addKeys List.nodup_nil _

theorem Transaction.mem_keys {transaction : Transaction} {key : String} :
    key ∈ transaction.keys ↔ ∃ write ∈ transaction.writes, write.key = key := by
  have h : key ∈ addKeys [] transaction.writes ↔ _ := mem_addKeys [] transaction.writes
  simpa [addKeys, Transaction.keys] using h

end Keys

section Commit

variable {values : Values}

theorem compute_eq_exec (values : Values) :
    ∀ (writes : List Write) (working : Overlay String (Option Json))
      (out : List (Option Json)), working.WellOrdered →
      (∀ error, exec writes (working.look values) = .error error →
        compute values working out writes = .error error) ∧
      (∀ last rest, exec writes (working.look values) = .ok (last, rest) →
        ∃ final : Overlay String (Option Json),
          compute values working out writes = .ok (final, out ++ rest) ∧
          final.WellOrdered ∧ final.look values = last ∧
          final.order = addKeys working.order writes)
  | [], working, out, hwell => by
      refine ⟨?_, ?_⟩
      · intro error h
        cases h
      · intro last rest h
        cases h
        exact ⟨working, by simp [compute], hwell, rfl, rfl⟩
  | write :: writes, working, out, hwell => by
      have hcurrent : (match working.pending write.key with
          | some pending => pending
          | none => values write.key) = working.look values write.key := by
        unfold Overlay.look
        cases working.pending write.key <;> rfl
      simp only [exec, Write.exec, compute, hcurrent]
      cases hnext : nextValue write (working.look values write.key) with
      | error error => simp
      | ok next =>
          simp only
          have ih := compute_eq_exec values writes (working.put write.key next)
            (out ++ [next]) (hwell.put _ _)
          rw [Overlay.look_put] at ih
          refine ⟨?_, ?_⟩
          · intro error h
            refine ih.1 error ?_
            cases hexec : exec writes
                (Function.update (working.look values) write.key next) with
            | error other =>
                rw [hexec] at h
                simpa using h
            | ok result =>
                rw [hexec] at h
                cases h
          · intro last rest h
            cases hexec : exec writes
                (Function.update (working.look values) write.key next) with
            | error other =>
                rw [hexec] at h
                cases h
            | ok result =>
                rw [hexec] at h
                cases h
                obtain ⟨final, hcompute, hfinal, hlook, horder⟩ := ih.2 _ _ hexec
                refine ⟨final, by simpa using hcompute, hfinal, hlook, ?_⟩
                rw [horder, addKeys_cons]
                simp only [Overlay.put, hwell.mem_order]

/-- The announcements of a list of keys at their values, numbered from a
position on. -/
def announcements (values : Values) : Seq → List String → List Update
  | _, [] => []
  | seq, key :: rest => ⟨seq + 1, key, values key⟩ :: announcements values (seq + 1) rest

theorem consecutive_announcements (values : Values) (seq : Seq) (keys : List String) :
    Consecutive Update.seq seq (announcements values seq keys) := by
  induction keys generalizing seq with
  | nil => trivial
  | cons key rest ih => exact ⟨rfl, ih (seq + 1)⟩

theorem keys_announcements (values : Values) (seq : Seq) (keys : List String) :
    (announcements values seq keys).map Update.key = keys := by
  induction keys generalizing seq with
  | nil => rfl
  | cons key rest ih => rw [announcements, List.map_cons, ih]

theorem writeKeys_eq (working : Overlay String (Option Json)) (values : Values) (seq : Seq)
    (updates : List Update) (keys : List String) :
    writeKeys working values seq updates keys =
      (Overlay.flush (fun key => (working.pending key).getD none) keys values, seq + keys.length,
        updates ++ announcements (fun key => (working.pending key).getD none) seq keys) := by
  induction keys generalizing values seq updates with
  | nil => simp [writeKeys, Overlay.flush, announcements]
  | cons key rest ih =>
      have hwritten : (match (working.pending key).getD none with
          | some json => Function.update values key (some json)
          | none => Function.update values key none) =
          Function.update values key ((working.pending key).getD none) := by
        cases (working.pending key).getD none <;> rfl
      rw [writeKeys]
      simp only [hwritten, ih, Overlay.flush, announcements, List.append_assoc,
        List.singleton_append, List.length_cons, Nat.add_assoc, Nat.add_comm 1]

theorem announcements_congr {f g : Values} {keys : List String}
    (h : ∀ key ∈ keys, f key = g key) (seq : Seq) :
    announcements f seq keys = announcements g seq keys := by
  induction keys generalizing seq with
  | nil => rfl
  | cons key rest ih =>
      rw [announcements, announcements, h key (by simp),
        ih (fun k hk => h k (List.mem_cons_of_mem _ hk))]

def readsHold (values : Values) (reads : List Read) : Prop :=
  ∀ read ∈ reads, values read.key = read.seen

theorem checkReads_eq_ok {reads : List Read} :
    checkReads values reads = .ok () ↔ readsHold values reads := by
  induction reads with
  | nil => simp [checkReads, readsHold]
  | cons read rest ih =>
      unfold checkReads
      by_cases hread : values read.key = read.seen
      · rw [if_pos hread, ih]
        simp [readsHold, hread]
      · rw [if_neg hread]
        simp [readsHold, hread]

variable {transaction : Transaction} {out : List (Option Json)}

theorem commit_eq_exec {db : Database} {last : Values}
    (hreads : readsHold db.values transaction.reads)
    (hexec : exec transaction.writes db.values = .ok (last, out)) :
    db.commit transaction = .ok (⟨last, some (db.latest + transaction.keys.length)⟩,
        announcements last db.latest transaction.keys,
        ⟨db.latest + transaction.keys.length, out⟩) := by
  obtain ⟨final, hcompute, hwell, hlook, horder⟩ :=
    (compute_eq_exec db.values transaction.writes Overlay.empty []
      Overlay.wellOrdered_empty).2 last out hexec
  have hkeys : final.order = transaction.keys := horder
  have hpending : ∀ key value, final.pending key = some value →
      (final.pending key).getD none = value := by
    intro key value hvalue
    rw [hvalue, Option.getD_some]
  have hflush := Overlay.flush_eq_look hwell hpending db.values
  have hnames : announcements (fun key => (final.pending key).getD none) db.latest
      final.order = announcements last db.latest final.order := by
    refine announcements_congr ?_ _
    intro key hkey
    rw [← hlook, ← hflush, Overlay.flush_of_mem hkey]
  unfold Database.commit
  rw [checkReads_eq_ok.mpr hreads]
  simp only [hcompute, List.nil_append]
  rw [writeKeys_eq]
  simp only [List.nil_append]
  rw [show db.seq.getD 0 = db.latest from rfl, hnames, hflush, hlook, hkeys]

theorem exec_of_commit {db : Database} {result : Database × List Update × Applied}
    (h : db.commit transaction = .ok result) :
    readsHold db.values transaction.reads ∧
      ∃ last out, exec transaction.writes db.values = .ok (last, out) := by
  unfold Database.commit at h
  cases hreads : checkReads db.values transaction.reads with
  | error error =>
      rw [hreads] at h
      cases h
  | ok checked =>
      refine ⟨checkReads_eq_ok.mp hreads, ?_⟩
      cases hexec : exec transaction.writes db.values with
      | ok folded => exact ⟨folded.1, folded.2, rfl⟩
      | error error =>
          have hcompute := (compute_eq_exec db.values transaction.writes Overlay.empty []
            Overlay.wellOrdered_empty).1 error hexec
          rw [hreads] at h
          simp only [hcompute] at h
          cases h

theorem length_exec {writes : List Write} {last : Values}
    (h : exec writes values = .ok (last, out)) : out.length = writes.length := by
  induction writes generalizing values last out with
  | nil =>
      cases h
      rfl
  | cons write rest ih =>
      unfold exec at h
      cases hwrite : write.exec values with
      | error error =>
          rw [hwrite] at h
          cases h
      | ok result =>
          rw [hwrite] at h
          cases hrest : exec rest result.1 with
          | error error =>
              simp only [hrest] at h
              cases h
          | ok folded =>
              simp only [hrest] at h
              cases h
              rw [List.length_cons, List.length_cons, ih hrest]

end Commit

section Apply

variable (store : EmbeddedStore) (transaction : Transaction)

theorem EmbeddedStore.apply_of_isEmpty (h : transaction.writes = []) :
    store.apply transaction = (.ok ⟨store.fanout.latest, []⟩, store) := by
  simp [EmbeddedStore.apply, Transaction.isEmpty, h]

variable {store transaction}

variable {store' : EmbeddedStore}

theorem EmbeddedStore.apply_error {error : StoreError}
    (h : store.apply transaction = (.error error, store')) : store' = store := by
  unfold EmbeddedStore.apply at h
  split_ifs at h
  · cases h
  · cases hcommit : store.db.commit transaction with
    | error other =>
        rw [hcommit] at h
        cases h
        rfl
    | ok result =>
        rw [hcommit] at h
        cases h

theorem EmbeddedStore.apply_ok {applied : Applied} (hwrites : transaction.writes ≠ [])
    (h : store.apply transaction = (.ok applied, store')) :
    exec transaction.writes store.db.values = .ok (store'.db.values, applied.values) ∧
      store'.db.latest = store.db.latest + transaction.keys.length ∧
      store'.fanout = store.fanout.publishAll
        (announcements store'.db.values store.db.latest transaction.keys) ∧
      applied.seq = store'.db.latest := by
  have hempty : transaction.isEmpty = false := by
    simpa [Transaction.isEmpty] using hwrites
  unfold EmbeddedStore.apply at h
  rw [hempty] at h
  simp only [Bool.false_eq_true, if_false] at h
  cases hcommit : store.db.commit transaction with
  | error other =>
      rw [hcommit] at h
      cases h
  | ok result =>
      obtain ⟨hreads, last, out, hexec⟩ := exec_of_commit hcommit
      rw [commit_eq_exec hreads hexec] at h
      cases h
      exact ⟨hexec, rfl, rfl, rfl⟩

theorem value_announcements {values : Values} {seq : Seq} {keys : List String}
    {update : Update} (h : update ∈ announcements values seq keys) :
    update.value = values update.key := by
  induction keys generalizing seq with
  | nil => cases h
  | cons key rest ih =>
      rcases List.mem_cons.mp h with rfl | h
      · rfl
      · exact ih h

end Apply

end Store
end Zdeceptron
