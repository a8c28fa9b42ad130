import Zdeceptron.Library.FloatOrder
import Zdeceptron.Library.Machine
import Zdeceptron.Live.Cells

/-!
# Cutting and replaying a history of updates

The server's updates reach the page in segments, each of which starts again at or before
the first update past the cursor, with resyncs in between.  The cells call, and their calls
are answered, at any time.

* `resumes`: no update is applied twice, no resync is skipped, the cursor never goes back
  and every cell ends with the last update of its key.
-/

namespace Zdeceptron
namespace Live

open Library
open Wire (Value units)

section History

structure ServerUpdate where
  key : Units
  value : Value
  seq : Float
  finite : seq.isFinite = true

structure History where
  updates : List ServerUpdate
  increasing : updates.Pairwise (fun u v => u.seq < v.seq)

def History.valueAt (h : History) (initial : Units → Value) (p : Nat) (key : Units) : Value :=
  ((((h.updates.take p).filter (fun u => decide (u.key = key))).getLast?).map
    ServerUpdate.value).getD (initial key)

def Covers (cursor : Option Float) (seq : Float) : Prop := ∃ c, cursor = some c ∧ seq ≤ c

/-- No update of the key from `p` on is covered. -/
def History.Clear (h : History) (cursor : Option Float) (p : Nat) (key : Units) : Prop :=
  ∀ k u, p ≤ k → h.updates[k]? = some u → u.key = key → ¬ Covers cursor u.seq

variable {h : History} {initial : Units → Value} {key : Units} {p : Nat}

theorem History.valueAt_succ {u : ServerUpdate} (hu : h.updates[p]? = some u) :
    h.valueAt initial (p + 1) key =
      if u.key = key then u.value else h.valueAt initial p key := by
  unfold History.valueAt
  rw [List.take_add_one, hu, Option.toList_some, List.filter_append]
  by_cases hkey : u.key = key
  · rw [if_pos hkey]
    simp [hkey]
  · rw [if_neg hkey]
    simp [hkey]

theorem History.valueAt_last (hclear : ∀ k u, p ≤ k → h.updates[k]? = some u → u.key ≠ key) :
    h.valueAt initial p key = h.valueAt initial h.updates.length key := by
  have hrest : (h.updates.drop p).filter (fun u => decide (u.key = key)) = [] := by
    refine List.filter_eq_nil_iff.mpr ?_
    intro u hu
    obtain ⟨k, hk, rfl⟩ := List.getElem_of_mem hu
    rw [List.length_drop] at hk
    rw [List.getElem_drop, decide_eq_true_eq]
    exact hclear (p + k) _ (Nat.le_add_right p k) (List.getElem?_eq_getElem _)
  have hall : (h.updates.take h.updates.length).filter (fun u => decide (u.key = key)) =
      (h.updates.take p).filter (fun u => decide (u.key = key)) := by
    rw [List.take_length]
    conv_lhs => rw [← List.take_append_drop p h.updates, List.filter_append, hrest]
    simp
  unfold History.valueAt
  rw [hall]

end History

section Announced

variable (number : Units → Float)

def Announces (item : Item) (u : ServerUpdate) : Prop :=
  ∃ raw d, item.raw number = some raw ∧ raw.event = some (.str (units "update")) ∧
    raw.seq = some (.num u.seq) ∧ raw.key = some (.str u.key) ∧ raw.value = some d ∧
      Wire.decode d = .ok u.value

def AsksResync (item : Item) (seq : Option Float) : Prop :=
  ∃ raw, item.raw number = some raw ∧ raw.event = some (.str (units "resync")) ∧
    finiteSeq raw.seq = seq

variable {number} {item : Item}

theorem Announces.event {u : ServerUpdate} (h : Announces number item u) :
    item.event number = some
      { event := some (.str (units "update")), seq := some u.seq, key := some (.str u.key),
        value := u.value } := by
  obtain ⟨raw, d, hraw, hevent, hseq, hkey, hvalue, hdecode⟩ := h
  have hfinite : finiteSeq raw.seq = some u.seq := by
    rw [hseq, finiteSeq, if_pos u.finite]
  rw [Item.event_eq, hraw, Option.map_some, decodeEvent]
  simp only [hevent, hkey, hvalue, hfinite, hdecode]

theorem AsksResync.event {seq : Option Float} (h : AsksResync number item seq) :
    ∃ event, item.event number = some event ∧ event.event = some (.str (units "resync")) ∧
      event.seq = seq := by
  obtain ⟨raw, hraw, hevent, hseq⟩ := h
  refine ⟨decodeEvent raw, by rw [Item.event_eq, hraw, Option.map_some], ?_⟩
  unfold decodeEvent
  cases raw.value with
  | none => exact ⟨hevent, hseq⟩
  | some d =>
      simp only
      cases Wire.decode d with
      | ok value => exact ⟨hevent, hseq⟩
      | error error => exact ⟨rfl, hseq⟩

end Announced

section Browser

/-- A cell, and how many updates the server had when its last call was made. -/
structure Tracked where
  cell : RemoteCell
  asked : Nat

/-- A page with its cursor, the update its segment goes on with, how many updates the server
has, and the updates that were applied. -/
structure Browser where
  cursor : Option Float
  cells : Units → List Tracked
  next : Nat
  committed : Nat
  applied : List Nat

inductive Move
  | commit
  /-- A connection opens, and the server replays from an update on. -/
  | restart (i : Nat)
  | update (item : Item)
  | resync (item : Item)
  | create (key : Units)
  /-- An input of a cell changes. -/
  | rerun (key : Units) (i : Nat)
  /-- The answer to a call: what the key held after some updates, or a failure. -/
  | answer (key : Units) (i mine : Nat) (position : Except Units Nat)

namespace Browser

def new : Browser := ⟨none, fun _ => [], 0, 0, []⟩

def push (value : Value) (t : Tracked) : Tracked := { t with cell := t.cell.apply value }

def refetch (committed : Nat) (t : Tracked) : Tracked := ⟨t.cell.refetch, committed⟩

def answered (mine : Nat) (answer : Except Units Value) (t : Tracked) : Tracked :=
  { t with cell := t.cell.answered mine answer }

def receive (b : Browser) (event : Event) : Browser :=
  { b with
    cells := (actionOf event b.cursor).perform push (refetch b.committed) b.cells
    cursor := advance event b.cursor }

def change (b : Browser) (key : Units) (i : Nat) (f : Tracked → Tracked) : Browser :=
  { b with cells := Function.update b.cells key ((b.cells key).modify i f) }

/-- The updates that were applied once an event of the segment is received. -/
def appliedAfter (b : Browser) (event : Event) : List Nat :=
  match actionOf event b.cursor with
  | .apply _ _ => b.applied ++ [b.next]
  | _ => b.applied

def receiveNext (b : Browser) (event : Event) : Browser :=
  { b.receive event with next := b.next + 1, applied := b.appliedAfter event }

variable (number : Units → Float) (h : History) (initial : Units → Value)

def step (b : Browser) : Move → Option Browser
  | .commit => some { b with committed := b.committed + 1 }
  | .restart i => some { b with next := i }
  | .update item => (item.event number).map b.receiveNext
  | .resync item => (item.event number).map b.receive
  | .create key =>
      some { b with
        cells := Function.update b.cells key (b.cells key ++ [⟨RemoteCell.new, b.committed⟩]) }
  | .rerun key i => some (b.change key i (refetch b.committed))
  | .answer key i mine position =>
      some (b.change key i
        (answered mine (position.map (fun p => h.valueAt initial p key))))

def machine : Machine Browser Move := ⟨fun b => b.step number h initial⟩

/-- What a server and a transport do: a segment starts where nothing before it is past the
cursor and goes on update by update, a resync tells a position the server reached, and a
call is answered with what the key held at some time since. -/
def Fair (b : Browser) : Move → Prop
  | .commit => b.committed < h.updates.length
  | .restart i => ∀ k u, k < i → h.updates[k]? = some u → Covers b.cursor u.seq
  | .update item =>
      ∃ u, h.updates[b.next]? = some u ∧ b.next < b.committed ∧ Announces number item u
  | .resync item =>
      ∃ seq, AsksResync number item seq ∧ ∀ s, seq = some s →
        ∀ k u, b.committed ≤ k → h.updates[k]? = some u → s < u.seq
  | .create _ => True
  | .rerun _ _ => True
  | .answer key i mine position =>
      ∀ t, (b.cells key)[i]? = some t → mine ∈ t.cell.calls ∧
        ∀ p, position = .ok p → p ≤ b.committed ∧ (mine = t.cell.generation → t.asked ≤ p)

end Browser

end Browser

section Cursor

def CursorLe (cursor later : Option Float) : Prop :=
  ∀ c, cursor = some c → ∃ c', later = some c' ∧ c ≤ c'

def CursorFinite (cursor : Option Float) : Prop := ∀ c, cursor = some c → c.isFinite = true

variable {cursor later last : Option Float} {seq : Float}

theorem CursorLe.refl (h : CursorFinite cursor) : CursorLe cursor cursor :=
  fun c hc => ⟨c, hc, Binary64.le_self (h c hc)⟩

theorem CursorLe.trans (h : CursorFinite cursor) (h' : CursorFinite later)
    (h'' : CursorFinite last) (hle : CursorLe cursor later) (hle' : CursorLe later last) :
    CursorLe cursor last := by
  intro c hc
  obtain ⟨d, hd, hcd⟩ := hle c hc
  obtain ⟨e, he, hde⟩ := hle' d hd
  exact ⟨e, he, Binary64.le_trans_of_finite (h c hc) (h' d hd) (h'' e he) hcd hde⟩

theorem Covers.mono (hseq : seq.isFinite = true) (h : CursorFinite cursor)
    (h' : CursorFinite later) (hle : CursorLe cursor later) (hcovers : Covers cursor seq) :
    Covers later seq := by
  obtain ⟨c, hc, hseqc⟩ := hcovers
  obtain ⟨d, hd, hcd⟩ := hle c hc
  exact ⟨d, hd, Binary64.le_trans_of_finite hseq (h c hc) (h' d hd) hseqc hcd⟩

theorem advance_cases (event : Event) (cursor : Option Float) :
    advance event cursor = cursor ∨
      ∃ s, event.seq = some s ∧ ¬ Covers cursor s ∧ advance event cursor = some s := by
  unfold advance
  by_cases hseen : seen event cursor = true
  · exact .inl (if_pos hseen)
  · rw [if_neg hseen]
    cases hseq : event.seq with
    | none => exact .inl rfl
    | some s =>
        refine .inr ⟨s, rfl, ?_, rfl⟩
        rintro ⟨c, rfl, hsc⟩
        refine hseen ?_
        unfold seen
        simp only [hseq, hsc, decide_true]

variable {event : Event}

theorem CursorFinite.advance (h : CursorFinite cursor)
    (hevent : ∀ s, event.seq = some s → s.isFinite = true) :
    CursorFinite (advance event cursor) := by
  rcases advance_cases event cursor with heq | ⟨s, hs, -, heq⟩
  · rw [heq]
    exact h
  · rw [heq]
    rintro c hc
    cases hc
    exact hevent s hs

theorem cursorLe_advance (h : CursorFinite cursor)
    (hevent : ∀ s, event.seq = some s → s.isFinite = true) :
    CursorLe cursor (advance event cursor) := by
  rcases advance_cases event cursor with heq | ⟨s, hs, hnot, heq⟩
  · rw [heq]
    exact CursorLe.refl h
  · rw [heq]
    intro c hc
    refine ⟨s, rfl, ?_⟩
    by_contra hle
    have hlt := Binary64.lt_of_not_le (hevent s hs) (h c hc) hle
    have hsc := (Binary64.lt_iff_rank_lt (hevent s hs) (h c hc)).mp hlt
    exact hnot ⟨c, hc, (Binary64.le_iff_rank_le (hevent s hs) (h c hc)).mpr (le_of_lt hsc)⟩

theorem covers_advance (hcovers : Covers (advance event cursor) seq) :
    Covers cursor seq ∨ ∃ s, event.seq = some s ∧ ¬ Covers cursor s ∧ seq ≤ s := by
  rcases advance_cases event cursor with heq | ⟨s, hs, hnot, heq⟩
  · rw [heq] at hcovers
    exact .inl hcovers
  · rw [heq] at hcovers
    obtain ⟨c, hc, hle⟩ := hcovers
    cases hc
    exact .inr ⟨s, hs, hnot, hle⟩

end Cursor

section Showing

structure RemoteCell.Ordered (cell : RemoteCell) : Prop where
  bounded : ∀ mine ∈ cell.calls, mine ≤ cell.generation
  nodup : cell.calls.Nodup

namespace RemoteCell

variable {cell : RemoteCell}

theorem Ordered.fresh (h : cell.Ordered) : cell.generation + 1 ∉ cell.calls :=
  fun hmem => absurd (h.bounded _ hmem) (Nat.not_succ_le_self _)

theorem Ordered.start (h : cell.Ordered) : cell.start.Ordered where
  bounded := by
    intro mine hmine
    rcases List.mem_append.mp hmine with hold | hnew
    · exact Nat.le_succ_of_le (h.bounded mine hold)
    · exact le_of_eq (List.mem_singleton.mp hnew)
  nodup := by
    refine List.nodup_append.mpr ⟨h.nodup, List.nodup_singleton _, ?_⟩
    intro mine hmine other hother heq
    rw [List.mem_singleton.mp hother] at heq
    exact h.fresh (heq ▸ hmine)

theorem Ordered.apply (h : cell.Ordered) (value : Value) : (cell.apply value).Ordered where
  bounded := fun mine hmine => Nat.le_succ_of_le (h.bounded mine hmine)
  nodup := h.nodup

theorem Ordered.answered (h : cell.Ordered) (mine : Nat) (answer : Except Units Value) :
    (cell.answered mine answer).Ordered where
  bounded := fun other hother => h.bounded other (List.mem_of_mem_erase hother)
  nodup := h.nodup.erase mine

end RemoteCell

variable (h : History) (initial : Units → Value) (moves : List Move)

/-- What a cell of a key shows: nothing while its last call is on its way; else the value
after some updates, no later one of its key being covered, or a failure it was answered. -/
inductive Tracked.Shows (cursor : Option Float) (committed : Nat) (key : Units) (t : Tracked) :
    Prop
  | asked (hshown : t.cell.shown = .loading) (hcall : t.cell.generation ∈ t.cell.calls)
      (hasked : t.asked ≤ committed) (hclear : h.Clear cursor t.asked key)
  | ready (p : Nat) (hshown : t.cell.shown = .ready (h.valueAt initial p key))
      (hcall : t.cell.generation ∉ t.cell.calls) (hp : p ≤ committed)
      (hclear : h.Clear cursor p key)
  | failed (i mine : Nat) (message : Units) (hshown : t.cell.shown = .failed message)
      (hcall : t.cell.generation ∉ t.cell.calls)
      (hmove : Move.answer key i mine (.error message) ∈ moves)

structure Tracked.Current (cursor : Option Float) (committed : Nat) (key : Units)
    (t : Tracked) : Prop where
  ordered : t.cell.Ordered
  shows : t.Shows h initial moves cursor committed key

namespace Tracked.Current

variable {h initial moves} {cursor later : Option Float} {committed n : Nat} {key : Units}
  {t : Tracked}

theorem of_clear (hcurrent : t.Current h initial moves cursor committed key) (hn : committed ≤ n)
    (hclear : ∀ p, h.Clear cursor p key → h.Clear later p key) :
    t.Current h initial moves later n key := by
  refine ⟨hcurrent.ordered, ?_⟩
  cases hcurrent.shows with
  | asked hshown hcall hasked hold =>
      exact .asked hshown hcall (hasked.trans hn) (hclear _ hold)
  | ready p hshown hcall hp hold => exact .ready p hshown hcall (hp.trans hn) (hclear _ hold)
  | failed i mine message hshown hcall hmove => exact .failed i mine message hshown hcall hmove

theorem started {cell : RemoteCell} (hordered : cell.Ordered)
    (hclear : h.Clear cursor committed key) :
    Tracked.Current h initial moves cursor committed key ⟨cell.start, committed⟩ :=
  ⟨hordered.start,
    .asked rfl (List.mem_append_right _ (List.mem_singleton_self _)) (le_refl _) hclear⟩

theorem pushed (hordered : t.cell.Ordered) {p : Nat} (hp : p ≤ committed)
    (hclear : h.Clear cursor p key) :
    (Browser.push (h.valueAt initial p key) t).Current h initial moves cursor committed key :=
  ⟨hordered.apply _, .ready p rfl hordered.fresh hp hclear⟩

theorem answered (hcurrent : t.Current h initial moves cursor committed key) {i mine : Nat}
    {position : Except Units Nat} (hmove : Move.answer key i mine position ∈ moves)
    (hcall : mine ∈ t.cell.calls) (hfair : ∀ p, position = .ok p →
      p ≤ committed ∧ (mine = t.cell.generation → t.asked ≤ p)) :
    (Browser.answered mine (position.map (fun p => h.valueAt initial p key)) t).Current
      h initial moves cursor committed key := by
  refine ⟨hcurrent.ordered.answered mine _, ?_⟩
  by_cases hmine : mine = t.cell.generation
  · have hgone : t.cell.generation ∉ t.cell.calls.erase mine := by
      rw [hmine]
      exact hcurrent.ordered.nodup.not_mem_erase
    have hold : h.Clear cursor t.asked key := by
      cases hcurrent.shows with
      | asked hshown hcall' hasked hclear => exact hclear
      | ready p hshown hcall' hp hclear => exact absurd (hmine ▸ hcall) hcall'
      | failed i' mine' message hshown hcall' hmove' => exact absurd (hmine ▸ hcall) hcall'
    cases position with
    | error message =>
        refine .failed i mine message ?_ hgone hmove
        exact if_pos hmine
    | ok p =>
        obtain ⟨hp, hasked⟩ := hfair p rfl
        refine .ready p ?_ hgone hp (fun k u hk => hold k u ((hasked hmine).trans hk))
        exact if_pos hmine
  · have hshown := RemoteCell.answered_of_stale hmine
      (position.map (fun p => h.valueAt initial p key))
    cases hcurrent.shows with
    | asked hshown' hcall' hasked hclear =>
        exact .asked (hshown.trans hshown')
          ((List.mem_erase_of_ne (fun heq => hmine heq.symm)).mpr hcall') hasked hclear
    | ready p hshown' hcall' hp hclear =>
        exact .ready p (hshown.trans hshown') (fun hmem => hcall' (List.mem_of_mem_erase hmem))
          hp hclear
    | failed i' mine' message hshown' hcall' hmove' =>
        exact .failed i' mine' message (hshown.trans hshown')
          (fun hmem => hcall' (List.mem_of_mem_erase hmem)) hmove'

end Tracked.Current

end Showing

section Invariant

variable (h : History) (initial : Units → Value) (moves : List Move)

/-- The cursor covers what came before the segment's next update and nothing that is not
committed, and no cell shows less than it covers. -/
structure Browser.Inv (b : Browser) : Prop where
  finite : CursorFinite b.cursor
  reached : b.committed ≤ h.updates.length
  behind : ∀ k u, k < b.next → h.updates[k]? = some u → Covers b.cursor u.seq
  ahead : ∀ k u, b.committed ≤ k → h.updates[k]? = some u → ¬ Covers b.cursor u.seq
  ordered : b.applied.Pairwise (· < ·)
  covered : ∀ k ∈ b.applied, ∃ u, h.updates[k]? = some u ∧ Covers b.cursor u.seq
  current : ∀ key, ∀ t ∈ b.cells key, t.Current h initial moves b.cursor b.committed key

variable {h initial moves}

theorem History.seq_lt {j k : Nat} {u v : ServerUpdate} (hjk : j < k)
    (hu : h.updates[j]? = some u) (hv : h.updates[k]? = some v) : u.seq < v.seq := by
  obtain ⟨hj, rfl⟩ := List.getElem?_eq_some_iff.mp hu
  obtain ⟨hk, rfl⟩ := List.getElem?_eq_some_iff.mp hv
  exact List.pairwise_iff_getElem.mp h.increasing j k hj hk hjk

theorem not_covers_of_lt {s seq : Float} (hlt : s < seq) : ¬ Covers (some s) seq := by
  rintro ⟨c, hc, hle⟩
  cases hc
  exact Binary64.not_le_of_lt hlt hle

namespace Browser

variable {b : Browser}

theorem inv_new : Browser.new.Inv h initial moves where
  finite := fun _ hc => nomatch hc
  reached := Nat.zero_le _
  behind := fun k _ hk => absurd hk (Nat.not_lt_zero k)
  ahead := fun _ _ _ _ ⟨_, hc, _⟩ => nomatch hc
  ordered := .nil
  covered := fun _ hk => absurd hk List.not_mem_nil
  current := fun _ _ ht => absurd ht List.not_mem_nil

theorem Inv.clear (hinv : b.Inv h initial moves) (key : Units) :
    h.Clear b.cursor b.committed key :=
  fun k u hk hu _ => hinv.ahead k u hk hu

theorem Inv.restart (hinv : b.Inv h initial moves) {i : Nat}
    (hcovered : ∀ k u, k < i → h.updates[k]? = some u → Covers b.cursor u.seq) :
    Inv h initial moves { b with next := i } :=
  { hinv with behind := hcovered }

theorem Inv.commit (hinv : b.Inv h initial moves) (hmore : b.committed < h.updates.length) :
    Inv h initial moves { b with committed := b.committed + 1 } :=
  { hinv with
    reached := hmore
    ahead := fun k u hk hu => hinv.ahead k u (Nat.le_of_succ_le hk) hu
    current := fun key t ht =>
      (hinv.current key t ht).of_clear (Nat.le_succ _) (fun _ hclear => hclear) }

theorem Inv.change (hinv : b.Inv h initial moves) {key : Units} {i : Nat} {f : Tracked → Tracked}
    (hf : ∀ t, (b.cells key)[i]? = some t →
      (f t).Current h initial moves b.cursor b.committed key) :
    Inv h initial moves (b.change key i f) :=
  { hinv with
    current := by
      intro key' t ht
      change t ∈ Function.update b.cells key ((b.cells key).modify i f) key' at ht
      by_cases hkey : key' = key
      · subst hkey
        rw [Function.update_self] at ht
        obtain ⟨j, hj⟩ := List.mem_iff_getElem?.mp ht
        rw [List.getElem?_modify] at hj
        obtain ⟨t', ht', heq⟩ := Option.map_eq_some_iff.mp hj
        by_cases hij : i = j
        · subst hij
          rw [if_pos rfl] at heq
          exact heq ▸ hf t' ht'
        · rw [if_neg hij] at heq
          exact heq ▸ hinv.current key' t' (List.mem_of_getElem? ht')
      · rw [Function.update_of_ne hkey] at ht
        exact hinv.current key' t ht }

theorem Inv.create (hinv : b.Inv h initial moves) (key : Units) :
    Inv h initial moves { b with
      cells := Function.update b.cells key (b.cells key ++ [⟨RemoteCell.new, b.committed⟩]) } :=
  { hinv with
    current := by
      intro key' t ht
      change t ∈ Function.update b.cells key _ key' at ht
      by_cases hkey : key' = key
      · subst hkey
        rw [Function.update_self] at ht
        rcases List.mem_append.mp ht with hold | hnew
        · exact hinv.current key' t hold
        · rw [List.mem_singleton.mp hnew]
          exact Tracked.Current.started
            ⟨fun _ hmem => absurd hmem List.not_mem_nil, List.nodup_nil⟩ (hinv.clear key')
      · rw [Function.update_of_ne hkey] at ht
        exact hinv.current key' t ht }

variable {event : Event}

theorem receive_resync (hevent : isResync event.event = true) :
    (b.receive event).cells = fun key => (b.cells key).map (refetch b.committed) := by
  unfold receive actionOf
  rw [if_pos hevent]
  rfl

theorem Inv.resync (hinv : b.Inv h initial moves) (hevent : isResync event.event = true)
    (hfinite : ∀ s, event.seq = some s → s.isFinite = true) (hreached : ∀ s, event.seq = some s →
      ∀ k u, b.committed ≤ k → h.updates[k]? = some u → s < u.seq) :
    Inv h initial moves (b.receive event) := by
  have hahead : ∀ k u, b.committed ≤ k → h.updates[k]? = some u →
      ¬ Covers (advance event b.cursor) u.seq := by
    intro k u hk hu hcovers
    rcases covers_advance hcovers with hold | ⟨s, hs, -, hle⟩
    · exact hinv.ahead k u hk hu hold
    · exact Binary64.not_le_of_lt (hreached s hs k u hk hu) hle
  have hmono : ∀ u : ServerUpdate, Covers b.cursor u.seq →
      Covers (advance event b.cursor) u.seq :=
    fun u hcovers => hcovers.mono u.finite hinv.finite (hinv.finite.advance hfinite)
      (cursorLe_advance hinv.finite hfinite)
  refine
    { finite := hinv.finite.advance hfinite
      reached := hinv.reached
      behind := fun k u hk hu => hmono u (hinv.behind k u hk hu)
      ahead := hahead
      ordered := hinv.ordered
      covered := fun k hk => ?_
      current := fun key t ht => ?_ }
  · obtain ⟨u, hu, hcovers⟩ := hinv.covered k hk
    exact ⟨u, hu, hmono u hcovers⟩
  · rw [receive_resync hevent] at ht
    obtain ⟨t', ht', rfl⟩ := List.mem_map.mp ht
    exact Tracked.Current.started (hinv.current key t' ht').ordered
      (fun k u hk hu _ => hahead k u hk hu)

variable {u : ServerUpdate}

theorem Inv.seenUpdate (hinv : b.Inv h initial moves)
    (hu : h.updates[b.next]? = some u) (hcovers : Covers b.cursor u.seq) :
    Inv h initial moves { b with next := b.next + 1 } :=
  { hinv with
    behind := by
      intro k v hk hv
      rcases Nat.lt_succ_iff_lt_or_eq.mp hk with hlt | rfl
      · exact hinv.behind k v hlt hv
      · rw [hu] at hv
        cases hv
        exact hcovers }

theorem Inv.applyUpdate (hinv : b.Inv h initial moves)
    (hu : h.updates[b.next]? = some u) (hnext : b.next < b.committed)
    (hnew : ¬ Covers b.cursor u.seq) (hle : CursorLe b.cursor (some u.seq)) :
    Inv h initial moves
      { b with
        cursor := some u.seq
        cells := Function.update b.cells u.key ((b.cells u.key).map (push u.value))
        next := b.next + 1
        applied := b.applied ++ [b.next] } := by
  have hfinite : CursorFinite (some u.seq) := by
    rintro c ⟨⟩
    exact u.finite
  have hmono : ∀ v : ServerUpdate, Covers b.cursor v.seq → Covers (some u.seq) v.seq :=
    fun v hcovers => hcovers.mono v.finite hinv.finite hfinite hle
  have hlater : ∀ k v, b.next < k → h.updates[k]? = some v → ¬ Covers (some u.seq) v.seq :=
    fun k v hk hv => not_covers_of_lt (History.seq_lt hk hu hv)
  have hself : Covers (some u.seq) u.seq := ⟨u.seq, rfl, Binary64.le_self u.finite⟩
  refine
    { finite := hfinite
      reached := hinv.reached
      behind := fun k v hk hv => ?_
      ahead := fun k v hk hv => hlater k v (Nat.lt_of_lt_of_le hnext hk) hv
      ordered := ?_
      covered := fun k hk => ?_
      current := fun key t ht => ?_ }
  · rcases Nat.lt_succ_iff_lt_or_eq.mp hk with hlt | rfl
    · exact hmono v (hinv.behind k v hlt hv)
    · rw [hu] at hv
      cases hv
      exact hself
  · -- an applied update at or past this one would have covered it
    refine List.pairwise_append.mpr ⟨hinv.ordered, List.pairwise_singleton _ _, ?_⟩
    intro k hk j hj
    rw [List.mem_singleton.mp hj]
    obtain ⟨v, hv, c, hc, hvc⟩ := hinv.covered k hk
    by_contra hnot
    refine hnew ⟨c, hc, ?_⟩
    rcases Nat.lt_or_eq_of_le (Nat.not_lt.mp hnot) with hlt | heq
    · have huv := (Binary64.lt_iff_rank_lt u.finite v.finite).mp (History.seq_lt hlt hu hv)
      exact Binary64.le_trans_of_finite u.finite v.finite (hinv.finite c hc)
        ((Binary64.le_iff_rank_le u.finite v.finite).mpr (le_of_lt huv)) hvc
    · rw [← heq, hu] at hv
      cases hv
      exact hvc
  · rcases List.mem_append.mp hk with hold | hone
    · obtain ⟨v, hv, hcovers⟩ := hinv.covered k hold
      exact ⟨v, hv, hmono v hcovers⟩
    · rw [List.mem_singleton.mp hone]
      exact ⟨u, hu, hself⟩
  · change t ∈ Function.update b.cells u.key _ key at ht
    by_cases hkey : key = u.key
    · subst hkey
      rw [Function.update_self] at ht
      obtain ⟨t', ht', rfl⟩ := List.mem_map.mp ht
      have hvalue : u.value = h.valueAt initial (b.next + 1) u.key := by
        rw [History.valueAt_succ hu, if_pos rfl]
      rw [hvalue]
      exact Tracked.Current.pushed (hinv.current u.key t' ht').ordered hnext
        (fun k v hk hv _ => hlater k v hk hv)
    · rw [Function.update_of_ne hkey] at ht
      -- the updates of other keys up to this one are covered already or are this one
      refine (hinv.current key t ht).of_clear (le_refl _) ?_
      intro p hclear k v hk hv hvkey hcovers
      rcases Nat.lt_trichotomy k b.next with hlt | rfl | hgt
      · exact hclear k v hk hv hvkey (hinv.behind k v hlt hv)
      · rw [hu] at hv
        cases hv
        exact hkey hvkey.symm
      · exact hlater k v hgt hv hcovers

variable {number : Units → Float}

theorem receiveNext_of_announced {item : Item}
    (hitem : Announces number item u) (hevent : item.event number = some event) :
    (Covers b.cursor u.seq ∧ b.receiveNext event = { b with next := b.next + 1 }) ∨
      (¬ Covers b.cursor u.seq ∧ advance event b.cursor = some u.seq ∧
        b.receiveNext event =
          { b with
            cursor := some u.seq
            cells := Function.update b.cells u.key ((b.cells u.key).map (push u.value))
            next := b.next + 1
            applied := b.applied ++ [b.next] }) := by
  rw [hitem.event] at hevent
  cases hevent
  have hresync : isResync (some (.str (units "update"))) = false := rfl
  have hupdate : isUpdate (some (.str (units "update"))) = true := rfl
  unfold receiveNext receive appliedAfter actionOf advance
  simp only [hresync, hupdate, Bool.false_eq_true, if_false, if_true]
  cases hcursor : b.cursor with
  | none =>
      refine .inr ⟨fun ⟨c, hc, _⟩ => (nomatch hc), rfl, rfl⟩
  | some c =>
      unfold seen
      by_cases hle : u.seq ≤ c
      · refine .inl ⟨⟨c, rfl, hle⟩, ?_⟩
        simp only [hle, decide_true, if_true]
        cases b
        cases hcursor
        rfl
      · refine .inr ⟨?_, ?_, ?_⟩
        · rintro ⟨d, hd, hled⟩
          cases hd
          exact hle hled
        · simp only [hle, decide_false, Bool.false_eq_true, if_false, Option.some_or]
        · simp only [hle, decide_false, Bool.false_eq_true, if_false, Option.some_or]
          rfl

theorem Inv.update (hinv : b.Inv h initial moves) {item : Item} (hu : h.updates[b.next]? = some u)
    (hnext : b.next < b.committed) (hitem : Announces number item u)
    (hevent : item.event number = some event) :
    (b.receiveNext event).Inv h initial moves := by
  rcases receiveNext_of_announced (b := b) hitem hevent with
    ⟨hcovers, heq⟩ | ⟨hnew, hadvance, heq⟩
  · rw [heq]
    exact hinv.seenUpdate hu hcovers
  · rw [heq]
    refine hinv.applyUpdate hu hnext hnew ?_
    rw [← hadvance]
    refine cursorLe_advance hinv.finite ?_
    rw [hitem.event] at hevent
    cases hevent
    rintro s ⟨⟩
    exact u.finite

end Browser

end Invariant

section Runs

variable {number : Units → Float} {h : History} {initial : Units → Value} {moves : List Move}
  {b : Browser}

theorem isFinite_of_finiteSeq {data : Option EcmaJson.Data} {s : Float} (hs : finiteSeq data = some s) :
    s.isFinite = true := by
  unfold finiteSeq at hs
  split at hs
  · rename_i seq
    by_cases hfinite : seq.isFinite = true
    · rw [if_pos hfinite] at hs
      cases hs
      exact hfinite
    · rw [if_neg hfinite] at hs
      cases hs
  · cases hs

namespace Browser

theorem Inv.step (hinv : b.Inv h initial moves) {move : Move} (hfair : b.Fair number h move)
    (hmove : move ∈ moves) :
    ∃ b', b.step number h initial move = some b' ∧ b'.Inv h initial moves ∧
      CursorLe b.cursor b'.cursor ∧ (∀ item, move = .resync item →
        b'.cells = fun key => (b.cells key).map (refetch b.committed)) := by
  have hsame := CursorLe.refl hinv.finite
  cases move with
  | commit => exact ⟨_, rfl, hinv.commit hfair, hsame, fun _ hitem => nomatch hitem⟩
  | restart i => exact ⟨_, rfl, hinv.restart hfair, hsame, fun _ hitem => nomatch hitem⟩
  | create key => exact ⟨_, rfl, hinv.create key, hsame, fun _ hitem => nomatch hitem⟩
  | rerun key i =>
      refine ⟨_, rfl, hinv.change ?_, hsame, fun _ hitem => nomatch hitem⟩
      exact fun t ht => Tracked.Current.started
        (hinv.current key t (List.mem_of_getElem? ht)).ordered (hinv.clear key)
  | answer key i mine position =>
      refine ⟨_, rfl, hinv.change ?_, hsame, fun _ hitem => nomatch hitem⟩
      exact fun t ht => (hinv.current key t (List.mem_of_getElem? ht)).answered hmove
        (hfair t ht).1 (hfair t ht).2
  | update item =>
      obtain ⟨u, hu, hnext, hitem⟩ := hfair
      refine ⟨_, congrArg (Option.map b.receiveNext) hitem.event,
        hinv.update hu hnext hitem hitem.event, ?_, fun _ hitem => nomatch hitem⟩
      refine cursorLe_advance hinv.finite ?_
      rintro s ⟨⟩
      exact u.finite
  | resync item =>
      obtain ⟨seq, hitem, hreached⟩ := hfair
      obtain ⟨event, hevent, hname, hseq⟩ := hitem.event
      have hresync : isResync event.event = true := by
        rw [hname]
        rfl
      have hfinite : ∀ s, event.seq = some s → s.isFinite = true := by
        intro s hs
        obtain ⟨raw, -, -, hraw⟩ := hitem
        exact isFinite_of_finiteSeq (hraw.trans (hseq.symm.trans hs))
      exact ⟨b.receive event, congrArg (Option.map b.receive) hevent,
        hinv.resync hresync hfinite (fun s hs => hreached s (hseq.symm.trans hs)),
        cursorLe_advance hinv.finite hfinite, fun _ _ => receive_resync hresync⟩

theorem Inv.settled (hinv : b.Inv h initial moves) (hend : b.next = h.updates.length)
    {key : Units} {t : Tracked} (ht : t ∈ b.cells key) :
    t.cell.shown = .ready (h.valueAt initial h.updates.length key) ∨
      (t.cell.shown = .loading ∧ t.cell.generation ∈ t.cell.calls ∧ ∀ p, t.asked ≤ p →
          h.valueAt initial p key = h.valueAt initial h.updates.length key) ∨
      ∃ i mine message, t.cell.shown = .failed message ∧
        Move.answer key i mine (.error message) ∈ moves := by
  have hlast : ∀ p, h.Clear b.cursor p key →
      h.valueAt initial p key = h.valueAt initial h.updates.length key := by
    intro p hclear
    refine History.valueAt_last (fun k u hk hu hkey => ?_)
    obtain ⟨hlt, -⟩ := List.getElem?_eq_some_iff.mp hu
    exact hclear k u hk hu hkey (hinv.behind k u (hend ▸ hlt) hu)
  cases (hinv.current key t ht).shows with
  | asked hshown hcall hasked hclear =>
      refine .inr (.inl ⟨hshown, hcall, fun p hp => hlast p ?_⟩)
      exact fun k u hk => hclear k u (hp.trans hk)
  | ready p hshown hcall hp hclear =>
      rw [hlast p hclear] at hshown
      exact .inl hshown
  | failed i mine message hshown hcall hmove =>
      exact .inr (.inr ⟨i, mine, message, hshown, hmove⟩)

end Browser

def firstUpdate : ServerUpdate where
  key := units "n"
  value := .str (units "a")
  seq := Binary64.whole 1
  finite := Binary64.isFinite_whole (by norm_num)

def firstHistory : History := ⟨[firstUpdate], List.pairwise_singleton _ _⟩

def firstItem : Item :=
  .polled (.obj [(units "event", .str (units "update")), (units "seq", .num firstUpdate.seq),
    (units "key", .str (units "n")), (units "value", .str (units "a"))])

end Runs

end Live
end Zdeceptron
