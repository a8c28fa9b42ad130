import Zdeceptron.Library.FloatOrder
import Zdeceptron.Live.Client
import Zdeceptron.Store.WatchRuns

/-!
# What the store announces, as a page hears it

`payload` is one event of a subscription in the shape `store.js` decodes.  Positions below
`2 ^ 53` are numbers a page compares exactly, so a page's cursor is a position of the store.
-/

namespace Zdeceptron
namespace Live

open Library
open Library.EcmaJson (Data)
open Store (Seq Update Session Client)
open Wire (Value units)

section Payload

def utf16 (text : String) : Units :=
  text.toList.flatMap (fun c =>
    if c.toNat < 0x10000 then [c.toNat]
    else [0xD800 + (c.toNat - 0x10000) / 0x400, 0xDC00 + (c.toNat - 0x10000) % 0x400])

variable (read : Store.Json → Data)

/-- What a payload carries as its value: `null` for a delete. -/
def payloadValue (u : Update) : Data := (u.value.map read).getD .null

/-- One event, in the shape `store.js` decodes; `read` is the data of a stored text. -/
def payload : Store.Event → Data
  | .resync seq =>
      .obj [(units "event", .str (units "resync")), (units "seq", .num (Binary64.whole seq))]
  | .update u =>
      .obj [(units "event", .str (units "update")), (units "seq", .num (Binary64.whole u.seq)),
        (units "key", .str (utf16 u.key)), (units "value", payloadValue read u)]

end Payload

section Calls

def elsewhere (index : Option Nat) (call : Store.Call) : Bool :=
  match index, call with
  | some i, .tryNext j => j != i
  | some i, .drop j => j != i
  | _, _ => true

def InOrder (start : Seq) (session : Session) : Store.Call → Prop
  | .publishAll updates => Consecutive Update.seq start (session.published ++ updates)
  | _ => True

variable {start : Seq} {session session' : Session} {call : Store.Call}

theorem InOrder.step (h : InOrder start session call)
    (hcons : Consecutive Update.seq start session.published)
    (hstep : session.step call = some session') :
    Consecutive Update.seq start session'.published := by
  cases call with
  | publishAll updates =>
      cases hstep
      exact h
  | subscribe keys since =>
      cases hstep
      exact hcons
  | tryNext _ | drop _ =>
      obtain ⟨d, hd, hif⟩ := Option.bind_eq_some_iff.mp hstep
      split_ifs at hif with hholds
      cases hif
      exact hcons

theorem client_of_elsewhere {i : Nat} {c : Client} (hcall : elsewhere (some i) call = true)
    (hstep : session.step call = some session') (hclient : session.clients[i]? = some c) :
    session'.clients[i]? = some c := by
  cases call with
  | publishAll updates =>
      cases hstep
      exact hclient
  | subscribe keys since =>
      cases hstep
      simp only [Session.subscribe]
      rw [List.getElem?_append_left (List.getElem?_eq_some_iff.mp hclient).1]
      exact hclient
  | tryNext j =>
      obtain ⟨d, hd, hif⟩ := Option.bind_eq_some_iff.mp hstep
      split_ifs at hif with hholds
      cases hif
      have hj : j ≠ i := by simpa [elsewhere] using hcall
      simp only [Session.tryNext]
      rw [List.getElem?_set_ne hj]
      exact hclient
  | drop j =>
      obtain ⟨d, hd, hif⟩ := Option.bind_eq_some_iff.mp hstep
      split_ifs at hif with hholds
      cases hif
      exact hclient

end Calls

section Heard

def reached (seq : Seq) : Option Seq → Bool
  | none => false
  | some cursor => decide (seq ≤ cursor)

def advanceTo (seq : Seq) (cursor : Option Seq) : Option Seq :=
  if reached seq cursor then cursor else some seq

structure Heard where
  cursor : Option Seq
  told : List Update
deriving DecidableEq

namespace Heard

/-- What `receive` does with an event, in positions of the store. -/
def hear (h : Heard) (event : Store.Event) : Heard where
  cursor := advanceTo event.seq h.cursor
  told :=
    match event with
    | .update u => if reached u.seq h.cursor then h.told else h.told ++ [u]
    | .resync _ => h.told

def hearAll (h : Heard) (events : List Store.Event) : Heard := events.foldl hear h

theorem reached_advanceTo {seq later : Seq} {cursor : Option Seq} (hlt : seq < later)
    (hlater : reached later cursor = false) : reached later (advanceTo seq cursor) = false := by
  unfold advanceTo
  by_cases hseq : reached seq cursor = true
  · rw [if_pos hseq]
    exact hlater
  · rw [if_neg hseq, reached, decide_eq_false_iff_not, Nat.not_le]
    exact hlt

theorem advanceTo_ne_none (seq : Seq) (cursor : Option Seq) : advanceTo seq cursor ≠ none := by
  unfold advanceTo
  cases cursor with
  | none => exact Option.some_ne_none seq
  | some c =>
      by_cases hseq : reached seq (some c) = true
      · rw [if_pos hseq]
        exact Option.some_ne_none c
      · rw [if_neg hseq]
        exact Option.some_ne_none seq

variable {h : Heard} {events : List Store.Event}

variable {u : Update}

theorem told_hear (hu : u ∈ h.told) (event : Store.Event) :
    u ∈ (h.hear event).told := by
  cases event with
  | resync seq => exact hu
  | update v =>
      by_cases hv : reached v.seq h.cursor = true
      · simpa [hear, hv] using hu
      · simp [hear, hv, hu]

theorem told_hearAll (hu : u ∈ h.told) : u ∈ (h.hearAll events).told := by
  induction events generalizing h with
  | nil => exact hu
  | cons event events ih => exact ih (told_hear hu event)

theorem told_of_mem (hpair : events.Pairwise (fun e f => e.seq < f.seq))
    (hmem : .update u ∈ events) (hpast : reached u.seq h.cursor = false) :
    u ∈ (h.hearAll events).told := by
  induction events generalizing h with
  | nil => exact absurd hmem List.not_mem_nil
  | cons event events ih =>
      obtain ⟨hfirst, hrest⟩ := List.pairwise_cons.mp hpair
      rcases List.mem_cons.mp hmem with rfl | hmem
      · have htold : u ∈ (h.hear (.update u)).told := by
          simp [hear, hpast]
        exact told_hearAll (h := h.hear (.update u)) htold
      · exact ih hrest hmem (reached_advanceTo (hfirst _ hmem) hpast)

theorem mem_of_told (hu : u ∈ (h.hearAll events).told) :
    u ∈ h.told ∨ .update u ∈ events := by
  induction events generalizing h with
  | nil => exact .inl hu
  | cons event events ih =>
      rcases ih hu with htold | hmem
      · cases event with
        | resync seq => exact .inl htold
        | update v =>
            by_cases hv : reached v.seq h.cursor = true
            · simp only [hear, hv, if_true] at htold
              exact .inl htold
            · simp only [hear, hv, Bool.false_eq_true, if_false] at htold
              rcases List.mem_append.mp htold with hold | hnew
              · exact .inl hold
              · rw [List.mem_singleton.mp hnew]
                exact .inr List.mem_cons_self
      · exact .inr (List.mem_cons_of_mem event hmem)

theorem cursor_hearAll {k : Seq} (hk : (h.hearAll events).cursor = some k) :
    h.cursor = some k ∨ ∃ event ∈ events, event.seq = k := by
  induction events generalizing h with
  | nil => exact .inl hk
  | cons event events ih =>
      rcases ih hk with hcursor | ⟨other, hmem, hseq⟩
      · unfold hear advanceTo at hcursor
        by_cases hreached : reached event.seq h.cursor = true
        · simp only [hreached, if_true] at hcursor
          exact .inl hcursor
        · simp only [hreached, Bool.false_eq_true, if_false] at hcursor
          exact .inr ⟨event, List.mem_cons_self, Option.some.inj hcursor⟩
      · exact .inr ⟨other, List.mem_cons_of_mem event hmem, hseq⟩

theorem cursor_ne_none (hcursor : h.cursor ≠ none) : (h.hearAll events).cursor ≠ none := by
  induction events generalizing h with
  | nil => exact hcursor
  | cons event events ih => exact ih (advanceTo_ne_none event.seq h.cursor)

theorem cursor_ne_none_of_events (hevents : events ≠ []) :
    (h.hearAll events).cursor ≠ none := by
  cases events with
  | nil => exact absurd rfl hevents
  | cons event events =>
      exact cursor_ne_none (h := h.hear event) (advanceTo_ne_none event.seq h.cursor)

end Heard

end Heard

section Receive

variable {cursor : Option Seq} {seq : Seq} {event : Event}

theorem seen_whole (hseq : seq < 2 ^ 53) (hcursor : ∀ c, cursor = some c → c < 2 ^ 53)
    (hevent : event.seq = some (Binary64.whole seq)) :
    seen event (cursor.map Binary64.whole) = reached seq cursor := by
  unfold seen reached
  rw [hevent]
  cases cursor with
  | none => rfl
  | some c => simp only [Option.map_some, Binary64.whole_le_iff hseq (hcursor c rfl)]

theorem advance_whole (hseq : seq < 2 ^ 53) (hcursor : ∀ c, cursor = some c → c < 2 ^ 53)
    (hevent : event.seq = some (Binary64.whole seq)) :
    advance event (cursor.map Binary64.whole) = (advanceTo seq cursor).map Binary64.whole := by
  unfold advance advanceTo
  rw [seen_whole hseq hcursor hevent, hevent]
  split_ifs <;> rfl

theorem advanceTo_lt (hseq : seq < 2 ^ 53) (hcursor : ∀ c, cursor = some c → c < 2 ^ 53) :
    ∀ c, advanceTo seq cursor = some c → c < 2 ^ 53 := by
  intro c hc
  unfold advanceTo at hc
  split_ifs at hc
  · exact hcursor c hc
  · exact Option.some.inj hc ▸ hseq

theorem finiteSeq_whole (hseq : seq < 2 ^ 53) :
    finiteSeq (some (.num (Binary64.whole seq))) = some (Binary64.whole seq) :=
  if_pos (Binary64.isFinite_whole hseq)

theorem receive_update (h : event.event = some (.str (units "update"))) (page : Page)
    (cursor : Option Float) :
    receive event page cursor =
      (if seen event cursor then page else applyUpdate page event.key event.value,
        advance event cursor) := by
  unfold receive advance
  rw [h, isResync_update, isUpdate_update, if_neg Bool.false_ne_true, if_pos rfl]
  split_ifs <;> rfl

/-- The cells of a page that was told some updates. -/
def shown (value : Update → Value) (page : Page) (told : List Update) : Page :=
  told.foldl (fun page u => applyUpdate page (some (.str (utf16 u.key))) (value u)) page

end Receive

end Live
end Zdeceptron
