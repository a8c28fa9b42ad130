import Zdeceptron.Library.Machine
import Zdeceptron.Serve.Host

/-!
# The operations of one invocation

Writes wait for the commit, and later operations look at what they will leave through a
view.  A blind addition is not in the view.

* `batch_sees_iff`: every operation sees what the earlier ones leave exactly when no addition
  that changes a key is missed where the key is read.
-/

namespace Zdeceptron
namespace Serve
namespace Host

open Library
open Library.EcmaJson (Data)
open Wire (Value units encode decode)

section Operations

/-- An operation of `$store`: `get`, `delete`, or one of the five verbs. -/
inductive Op
  | get (key : Units)
  | delete (key : Units)
  | write (operation : Operation)

namespace Op

variable (number : Units → Float)

def reads : Op → Option Units
  | .get key => some key
  | .delete _ => none
  | .write operation =>
      match operation.verb, operation.place with
      | .set, none => none
      | .incr, none => none
      | .decr, none => none
      | _, _ => some operation.key

def key : Op → Units
  | .get key => key
  | .delete key => key
  | .write operation => operation.key

def blind : Op → Option Float
  | .get _ => none
  | .delete _ => none
  | .write operation =>
      match operation.verb, operation.place with
      | .incr, none => some (toNumber number operation.value)
      | .decr, none => some (-toNumber number operation.value)
      | _, _ => none

def perform (store : Store) (pending : Pending) : Op → Except Units Pending
  | .get key => (Host.get store pending key).map (fun _ => pending.read store key)
  | .delete key => .ok (pending.delete key)
  | .write operation => Host.perform number store operation pending

def exec (store : Store) (op : Op) : Except Units Store :=
  match op.perform number store .fresh with
  | .error message => .error message
  | .ok pending => (Host.apply store pending.writes).map Prod.fst

end Op

end Operations

section Apply

variable {store : Store}

def Write.left (store : Store) (write : Write) : Except Units Store :=
  (write.apply store).map Prod.fst

theorem apply_left (store : Store) (writes : List Write) :
    (Host.apply store writes).map Prod.fst = writes.foldlM Write.left store := by
  induction writes generalizing store with
  | nil => rfl
  | cons write rest ih =>
      rw [List.foldlM_cons, Host.apply]
      unfold Write.left
      cases write.apply store with
      | error message => rfl
      | ok p =>
          obtain ⟨next, value⟩ := p
          refine Eq.trans ?_ (ih next)
          simp only
          cases Host.apply next rest <;> rfl

theorem apply_left_snoc (store : Store) (writes : List Write) (write : Write) :
    (Host.apply store (writes ++ [write])).map Prod.fst =
      ((Host.apply store writes).map Prod.fst).bind (fun next => write.left next) := by
  rw [apply_left, apply_left, List.foldlM_append]
  cases writes.foldlM Write.left store with
  | error message => rfl
  | ok next =>
      change (List.foldlM Write.left next [write]) = write.left next
      rw [List.foldlM_cons]
      cases write.left next <;> rfl

end Apply

section Kinds

variable (number : Units → Float)

/-- The three kinds of operations: a blind one that sets its key, a blind addition, and one
that reads its key and sets it. -/
inductive Op.Kind (op : Op) : Prop
  | get (key : Units) (hop : op = .get key)
  | blind (write : Write) (update : Option Data) (hreads : op.reads = none)
      (hblind : op.blind number = none)
      (hperform : ∀ store pending, op.perform number store pending =
        .ok ⟨Function.update pending.view op.key (some update), pending.writes ++ [write]⟩)
      (hleft : ∀ store, write.left store = .ok (Function.update store op.key update))
  | add (delta : Float) (hreads : op.reads = none) (hblind : op.blind number = some delta)
      (hperform : ∀ store pending, op.perform number store pending =
        zdIncr store pending op.key delta)
  | put (path : List Step) (base : Value) (change : Value → Except Units Value)
      (hreads : op.reads = some op.key) (hblind : op.blind number = none)
      (hperform : ∀ store pending, op.perform number store pending =
        zdPut store pending op.key path base change)

theorem Op.kind (op : Op) : op.Kind number := by
  cases op with
  | get key => exact .get key rfl
  | delete key => exact .blind (.delete key) none rfl rfl (fun _ _ => rfl) (fun _ => rfl)
  | write operation =>
      obtain ⟨verb, key, value, place⟩ := operation
      cases place with
      | some place =>
          obtain ⟨path, base⟩ := place
          refine .put path base (changeOf number key value verb) ?_ ?_ ?_ <;>
            cases verb <;> first | rfl | exact fun _ _ => rfl
      | none =>
          cases verb with
          | set =>
              exact .blind (.set key (encode value).reread) (some (encode value).reread) rfl rfl
                (fun _ _ => rfl) (fun _ => rfl)
          | incr => exact .add (toNumber number value) rfl rfl (fun _ _ => rfl)
          | decr => exact .add (-toNumber number value) rfl rfl (fun _ _ => rfl)
          | append =>
              exact .put [] .undefined (changeOf number key value .append) rfl rfl
                (fun _ _ => rfl)
          | remove =>
              exact .put [] .undefined (changeOf number key value .remove) rfl rfl
                (fun _ _ => rfl)

theorem left_incr (store : Store) (key : Units) (delta : Float) :
    (Write.incr key delta).left store = (added key (store key) delta).map
        (fun sum => Function.update store key (some (.num sum))) := by
  simp only [Write.left, Write.apply]
  cases added key (store key) delta <;> rfl

theorem exec_of_perform {op : Op} {store : Store} {pending : Pending} {write : Write}
    (hperform : op.perform number store .fresh = .ok pending)
    (hwrites : pending.writes = [write]) : op.exec number store = write.left store := by
  unfold Op.exec
  rw [hperform]
  simp only
  rw [apply_left, hwrites, List.foldlM_cons]
  cases write.left store <;> rfl

theorem exec_add {op : Op} {delta : Float}
    (hperform : ∀ store pending, op.perform number store pending =
      zdIncr store pending op.key delta) (store : Store) :
    op.exec number store = (Write.incr op.key delta).left store := by
  have hfresh := hperform store .fresh
  unfold zdIncr at hfresh
  have hpeek : Pending.fresh.peek store op.key = store op.key := rfl
  rw [hpeek] at hfresh
  cases hadded : added op.key (store op.key) delta with
  | error message =>
      rw [hadded] at hfresh
      unfold Op.exec
      rw [hfresh, left_incr, hadded]
      rfl
  | ok sum =>
      rw [hadded] at hfresh
      exact exec_of_perform number hfresh rfl

end Kinds

section Batch

/-- An invocation on its way: what it recorded, the blind additions to each key since the
key's last entry in the view, and the store after each operation was executed on its own. -/
structure Batch where
  pending : Pending
  blind : Units → List Float
  executed : Except Units Store

namespace Batch

variable (number : Units → Float) (store : Store)

def new : Batch := ⟨.fresh, fun _ => [], .ok store⟩

def blindAfter (op : Op) (blind : Units → List Float) : Units → List Float :=
  Function.update blind op.key
    (match op.blind number with
    | some delta => blind op.key ++ [delta]
    | none => [])

def step (b : Batch) (op : Op) : Option Batch :=
  match op.perform number store b.pending with
  | .error _ => none
  | .ok pending =>
      some ⟨pending, blindAfter number op b.blind, b.executed.bind (op.exec number)⟩

def machine : Machine Batch Op := ⟨step number store⟩

def increase (key : Units) (current : Option Data) (delta : Float) :
    Except Units (Option Data) :=
  (added key current delta).map (fun sum => some (.num sum))

def increased (key : Units) (current : Option Data) (deltas : List Float) :
    Except Units (Option Data) :=
  deltas.foldlM (increase key) current

/-- Where the earlier operations can be executed one by one, an operation is told of its key
what they leave. -/
def Sees (b : Batch) (op : Op) : Prop :=
  ∀ key executed, op.reads = some key → b.executed = .ok executed →
    Host.get store b.pending key = Host.get executed .fresh key

/-- Where a key is read, the blind additions to it since its last entry in the view leave it
as it is. -/
def Unmixed (b : Batch) (op : Op) : Prop :=
  ∀ key executed, op.reads = some key → b.executed = .ok executed →
    increased key (b.pending.peek store key) (b.blind key) = .ok (b.pending.peek store key)

/-- The writes leave what the operations leave, and the view shows it but for the blind
additions. -/
structure Inv (b : Batch) : Prop where
  executed : (Host.apply store b.pending.writes).map Prod.fst = b.executed
  blind : ∀ executed, b.executed = .ok executed → ∀ key,
    increased key (b.pending.peek store key) (b.blind key) = .ok (executed key)

variable {number store} {b : Batch}

theorem inv_new : (Batch.new store).Inv store where
  executed := rfl
  blind := by
    rintro _ ⟨⟩ key
    rfl

theorem increased_snoc (key : Units) (current : Option Data) (deltas : List Float) (delta : Float) :
    increased key current (deltas ++ [delta]) =
      (increased key current deltas).bind (fun current => increase key current delta) := by
  unfold increased
  rw [List.foldlM_append]
  cases deltas.foldlM (increase key) current with
  | error message => rfl
  | ok d =>
      change [delta].foldlM (increase key) d = increase key d delta
      rw [List.foldlM_cons]
      cases increase key d delta <;> rfl

theorem eq_num_of_decode {d : Data} {x : Float} (h : decode d = .ok (.num x)) : d = .num x := by
  cases d with
  | num y =>
      simp only [decode, Except.ok.injEq, Value.num.injEq] at h
      rw [h]
  | null => simp [decode] at h
  | bool value => simp [decode] at h
  | str text => simp [decode] at h
  | arr items =>
      simp only [decode] at h
      split at h <;> cases h
  | obj fields =>
      rw [decode] at h
      split_ifs at h with hmarker
      · unfold Wire.decodeMap at h
        split at h
        · split at h <;> cases h
        · cases h
        · cases h
      · split at h <;> cases h

variable {key : Units}

theorem increase_eq_ok {current next : Option Data} {delta : Float}
    (h : increase key current delta = .ok next) : ∃ sum, next = some (.num sum) := by
  unfold increase at h
  cases hadded : added key current delta with
  | error message =>
      rw [hadded] at h
      cases h
  | ok sum =>
      rw [hadded] at h
      exact ⟨sum, (Except.ok.inj h).symm⟩

theorem eq_of_get_eq {deltas : List Float} {executed : Store} {pending : Pending}
    (hincreased : increased key (pending.peek store key) deltas = .ok (executed key))
    (hget : Host.get store pending key = Host.get executed .fresh key) :
    pending.peek store key = executed key := by
  rcases List.eq_nil_or_concat deltas with rfl | ⟨deltas, delta, rfl⟩
  · exact Except.ok.inj hincreased
  · rw [List.concat_eq_append, increased_snoc] at hincreased
    obtain ⟨sum, hsum⟩ : ∃ sum, executed key = some (.num sum) := by
      cases hfirst : increased key (pending.peek store key) deltas with
      | error message =>
          rw [hfirst] at hincreased
          cases hincreased
      | ok current =>
          rw [hfirst] at hincreased
          exact increase_eq_ok hincreased
    have hfresh : Host.get executed .fresh key = .ok (.num sum) := by
      have hpeek : Pending.fresh.peek executed key = executed key := rfl
      unfold Host.get
      rw [hpeek, hsum]
      rfl
    rw [hfresh] at hget
    unfold Host.get at hget
    cases hpeek : pending.peek store key with
    | none =>
        rw [hpeek] at hget
        cases hget
    | some d =>
        rw [hpeek] at hget
        simp only at hget
        cases hdecode : decode d with
        | error error =>
            rw [hdecode] at hget
            cases hget
        | ok value =>
            rw [hdecode] at hget
            cases hget
            rw [hsum, eq_num_of_decode hdecode]

theorem Inv.unmixed_iff (hinv : b.Inv store) (op : Op) :
    b.Unmixed store op ↔ b.Sees store op := by
  refine forall_congr' (fun key => forall_congr' (fun executed => ?_))
  refine imp_congr_right (fun _ => imp_congr_right (fun hexecuted => ?_))
  have hblind := hinv.blind executed hexecuted key
  constructor
  · intro hsame
    have heq : b.pending.peek store key = executed key :=
      Except.ok.inj (hsame.symm.trans hblind)
    have hpeek : Pending.fresh.peek executed key = executed key := rfl
    unfold Host.get
    rw [heq, hpeek]
  · intro hget
    rw [hblind, eq_of_get_eq hblind hget]

theorem peek_read (pending : Pending) (key other : Units) :
    (pending.read store key).peek store other = pending.peek store other := by
  simp only [Pending.read, Pending.peek, Function.update_apply]
  split_ifs with hother
  · rw [hother, Option.getD_some]
  · rfl

theorem left_incr_eq_ok {delta : Float} {before after : Store}
    (h : (Write.incr key delta).left before = .ok after) :
    increase key (before key) delta = .ok (after key) ∧
      ∀ other, other ≠ key → after other = before other := by
  rw [left_incr] at h
  unfold increase
  cases hadded : added key (before key) delta with
  | error message =>
      rw [hadded] at h
      cases h
  | ok sum =>
      rw [hadded] at h
      cases h
      refine ⟨?_, fun other hother => Function.update_of_ne hother _ _⟩
      simp only [Function.update_self]
      rfl

section Kinds

variable {op : Op} {pending : Pending}

theorem Inv.get (hinv : b.Inv store) {key : Units} (hunmixed : b.Unmixed store (.get key))
    (hperform : Op.perform number store b.pending (.get key) = .ok pending) :
    Inv store ⟨pending, blindAfter number (.get key) b.blind,
      b.executed.bind (Op.exec number · (.get key))⟩ := by
  have hsees := (hinv.unmixed_iff (.get key)).mp hunmixed
  simp only [Op.perform] at hperform
  cases hget : Host.get store b.pending key with
  | error message =>
      rw [hget] at hperform
      cases hperform
  | ok value =>
      rw [hget] at hperform
      cases hperform
      have hexec : ∀ executed, b.executed = .ok executed →
          Op.exec number executed (.get key) = .ok executed := by
        intro executed hexecuted
        simp only [Op.exec, Op.perform]
        rw [← hsees key executed rfl hexecuted, hget]
        rfl
      refine ⟨?_, ?_⟩
      · refine hinv.executed.trans ?_
        cases hexecuted : b.executed with
        | error message => rfl
        | ok executed => exact (hexec executed hexecuted).symm
      · intro executed hexecuted other
        have hbefore : b.executed = .ok executed := by
          cases hb : b.executed with
          | error message =>
              rw [hb] at hexecuted
              cases hexecuted
          | ok before =>
              rw [hb] at hexecuted
              exact (hexec before hb).symm.trans hexecuted
        rw [peek_read]
        change increased other _ (Function.update b.blind key [] other) = _
        by_cases hother : other = key
        · subst hother
          rw [Function.update_self]
          have hsame := hunmixed other executed rfl hbefore
          rw [hinv.blind executed hbefore other] at hsame
          exact hsame.symm
        · rw [Function.update_of_ne hother]
          exact hinv.blind executed hbefore other

theorem Inv.write (hinv : b.Inv store) {write : Write} {update : Option Data}
    (hblind : op.blind number = none)
    (hwrites : pending.writes = b.pending.writes ++ [write])
    (hpeek : ∀ other, pending.peek store other =
      if other = op.key then update else b.pending.peek store other)
    (hleft : ∀ store, write.left store = .ok (Function.update store op.key update))
    (hexec : ∀ executed, b.executed = .ok executed →
      op.exec number executed = write.left executed) :
    Inv store ⟨pending, blindAfter number op b.blind, b.executed.bind (op.exec number ·)⟩ := by
  refine ⟨?_, ?_⟩
  · simp only
    rw [hwrites, apply_left_snoc, hinv.executed]
    cases hexecuted : b.executed with
    | error message => rfl
    | ok executed => exact (hexec executed hexecuted).symm
  · intro executed hexecuted other
    simp only at hexecuted ⊢
    cases hb : b.executed with
    | error message =>
        rw [hb] at hexecuted
        cases hexecuted
    | ok before =>
        rw [hb] at hexecuted
        have hafter := (hexec before hb).symm.trans hexecuted
        rw [hleft before] at hafter
        cases hafter
        rw [hpeek other]
        unfold blindAfter
        rw [hblind]
        by_cases hother : other = op.key
        · subst hother
          rw [if_pos rfl, Function.update_self, Function.update_self]
          rfl
        · rw [if_neg hother, Function.update_of_ne hother, Function.update_of_ne hother]
          exact hinv.blind before hb other

theorem Inv.add (hinv : b.Inv store) {delta : Float} (hblind : op.blind number = some delta)
    (hperform : ∀ store pending, op.perform number store pending =
      zdIncr store pending op.key delta) (hok : op.perform number store b.pending = .ok pending) :
    Inv store ⟨pending, blindAfter number op b.blind, b.executed.bind (op.exec number ·)⟩ := by
  rw [hperform] at hok
  unfold zdIncr at hok
  cases hadded : added op.key (b.pending.peek store op.key) delta with
  | error message =>
      rw [hadded] at hok
      cases hok
  | ok sum =>
      rw [hadded] at hok
      cases hok
      refine ⟨?_, ?_⟩
      · change (Host.apply store (b.pending.writes ++ [.incr op.key delta])).map Prod.fst = _
        rw [apply_left_snoc, hinv.executed]
        cases b.executed with
        | error message => rfl
        | ok executed => exact (exec_add number hperform executed).symm
      · intro executed hexecuted other
        simp only at hexecuted ⊢
        cases hb : b.executed with
        | error message =>
            rw [hb] at hexecuted
            cases hexecuted
        | ok before =>
            rw [hb] at hexecuted
            have hafter := (exec_add number hperform before).symm.trans hexecuted
            obtain ⟨hkey, hothers⟩ := left_incr_eq_ok hafter
            change increased other (b.pending.peek store other) (blindAfter number op b.blind other)
              = _
            unfold blindAfter
            rw [hblind]
            by_cases hother : other = op.key
            · subst hother
              rw [Function.update_self, increased_snoc, hinv.blind before hb op.key]
              exact hkey
            · rw [Function.update_of_ne hother, hothers other hother]
              exact hinv.blind before hb other

theorem Inv.put (hinv : b.Inv store) (hunmixed : b.Unmixed store op) {path : List Step}
    {base : Value} {change : Value → Except Units Value} (hreads : op.reads = some op.key)
    (hblind : op.blind number = none) (hperform : ∀ store pending, op.perform number store pending =
      zdPut store pending op.key path base change)
    (hok : op.perform number store b.pending = .ok pending) :
    Inv store ⟨pending, blindAfter number op b.blind, b.executed.bind (op.exec number ·)⟩ := by
  have hsees := (hinv.unmixed_iff op).mp hunmixed
  rw [hperform] at hok
  unfold zdPut at hok
  cases hget : Host.get store b.pending op.key with
  | error message =>
      rw [hget] at hok
      cases hok
  | ok current =>
      rw [hget] at hok
      cases hnext : zdAt op.key change path (orStarting current base) with
      | error message =>
          simp only [hnext] at hok
          cases hok
      | ok next =>
          simp only [hnext] at hok
          cases hok
          refine @Inv.write number store b op _ hinv (Write.set op.key (encode next).reread)
            (some (encode next).reread) hblind rfl ?_ (fun _ => rfl) ?_
          · intro other
            simp only [Pending.set, Pending.peek, Function.update_apply]
            split_ifs
            · rfl
            · exact peek_read b.pending op.key other
          · intro executed hexecuted
            have hfresh := hperform executed .fresh
            unfold zdPut at hfresh
            rw [← hsees op.key executed hreads hexecuted, hget] at hfresh
            simp only [hnext] at hfresh
            exact exec_of_perform number hfresh rfl

theorem Inv.step {b' : Batch} (hinv : b.Inv store) (hunmixed : b.Unmixed store op)
    (hstep : b.step number store op = some b') : b'.Inv store := by
  unfold Batch.step at hstep
  cases hok : op.perform number store b.pending with
  | error message =>
      rw [hok] at hstep
      cases hstep
  | ok pending =>
      rw [hok] at hstep
      cases hstep
      cases op.kind number with
      | get key hop =>
          subst hop
          exact hinv.get hunmixed hok
      | add delta hreads hblind hperform => exact hinv.add hblind hperform hok
      | put path base change hreads hblind hperform =>
          exact hinv.put hunmixed hreads hblind hperform hok
      | blind write update hreads hblind hperform hleft =>
          rw [hperform] at hok
          cases hok
          refine hinv.write hblind rfl ?_ hleft ?_
          · intro other
            simp only [Pending.peek, Function.update_apply]
            split_ifs <;> rfl
          · exact fun executed _ => exec_of_perform number (hperform executed .fresh) rfl

end Kinds

end Batch

end Batch

section Runs

/-- Over every list of operations of one invocation: each `get`, append and write at a path
sees what executing the earlier operations one by one leaves, and a commit leaves what
executing all of them leaves, exactly when no operation reads a key whose blind additions
since the key was last read or set change it. -/
theorem batch_sees_iff (number : Units → Float) (store : Store) (ops : List Op) :
    (Batch.machine number store).Meets (Batch.Unmixed store) (Batch.new store) ops ↔
      (Batch.machine number store).Meets (Batch.Sees store) (Batch.new store) ops ∧
        ∀ b committed, (Batch.machine number store).run (Batch.new store) ops = some b →
          (Host.apply store b.pending.writes).map Prod.fst = .ok committed →
            b.executed = .ok committed := by
  let M := Batch.machine number store
  have hstep : ∀ (b : Batch) (op : Op) (b' : Batch), b.Inv store → b.Unmixed store op →
      M.step b op = some b' → b'.Inv store :=
    fun _ _ _ hinv hunmixed hstep => hinv.step hunmixed hstep
  have hcongr := M.meets_congr
    (fun b op b' hinv _ hunmixed he => hstep b op b' hinv hunmixed he)
    (fun _ op hinv => hinv.unmixed_iff op) Batch.inv_new (M.meets_true (Batch.new store) ops)
  constructor
  · intro hunmixed
    refine ⟨hcongr.mp hunmixed, ?_⟩
    intro b committed hrun hcommit
    have hinv := M.run_invariant_of_meets hstep Batch.inv_new hunmixed hrun
    rw [← hinv.executed]
    exact hcommit
  · exact fun h => hcongr.mpr h.1

def incrGet : List Op :=
  [.write ⟨.incr, units "n", .num (Float.ofNat 1), none⟩, .get (units "n")]

/-- The read is told that the key holds nothing, where executing the addition leaves 1. -/
theorem incr_not_seen :
    ¬ (Batch.machine (fun _ => Float.ofNat 0) (fun _ => none)).Meets
      (Batch.Sees fun _ => none) (Batch.new fun _ => none) incrGet := by
  intro hmeets
  have hget := (hmeets.2 _ rfl).1 (units "n") _ rfl rfl
  have hpending : (Except.ok Value.undefined : Except Units Value) = .ok (.num _) := hget
  cases hpending

end Runs

end Host
end Serve
end Zdeceptron
