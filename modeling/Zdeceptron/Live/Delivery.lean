import Zdeceptron.Live.Client
import Zdeceptron.Library.Binary64

/-!
# What a poll and the opening of a stream deliver

The router stamps what it sends with readings of the clock, and the browser drops
every update whose stamp does not exceed the last one.  So no event is lost exactly
when the stamps strictly increase, which those of a poll, all of them one reading,
do for a single key only.

* `delivers_iff`: the two transports.
-/

namespace Zdeceptron
namespace Live

open Library
open Library.EcmaJson (Data)
open Wire (Value units)

section Content

/-- A stored value; its records list their fields in the order of own keys. -/
structure Stored where
  value : Value
  wellFormed : EcmaJson.WellFormed (Wire.encode value)

def Stored.read (stored : Stored) : Except Wire.ParseError Value :=
  Wire.parse (Wire.stringify stored.value)

abbrev Content := Units → Stored

def Content.get (content : Content) : Reads := fun key => .ok (content key).value

theorem Stored.read_eq_ok_iff (stored : Stored) (value : Value) :
    stored.read = .ok value ↔ Wire.decode (Wire.encode stored.value).reread = .ok value := by
  unfold Stored.read Wire.parse Wire.stringify
  rw [EcmaJson.reread_written stored.wellFormed]
  cases hdecode : Wire.decode (Wire.encode stored.value).reread with
  | ok read => simp [hdecode]
  | error error => simp [hdecode]

end Content

section Clock

/-- A reading of the clock: a finite number and not `-0`. -/
structure Reading where
  value : Float
  finite : value.isFinite = true
  unsigned : unsignedZero value = value

theorem Reading.reread (reading : Reading) :
    Data.reread (.num reading.value) = .num reading.value := by
  rw [Data.reread, if_pos reading.finite, reading.unsigned]

/-- A clock that never goes back: the reading each call of `Date.now` gets. -/
structure Clock where
  reading : Nat → Reading
  monotone : ∀ i, (reading i).value ≤ (reading (i + 1)).value

end Clock

section Announcements

/-- The event that announces a stored value, as it reaches `receive`. -/
def announcement (content : Content) (key : Units) (seq : Float) : Event :=
  match Wire.decode (Wire.encode (content key).value).reread with
  | .ok value =>
      { event := some (.str (units "update")), seq := some seq, key := some (.str key),
        value := value }
  | .error _ =>
      { event := some (.str (units "resync")), seq := some seq, key := none, value := .null }

theorem announcement_of_read {content : Content} {key : Units} {value : Value} (seq : Float)
    (h : (content key).read = .ok value) :
    announcement content key seq =
      { event := some (.str (units "update")), seq := some seq, key := some (.str key),
        value := value } := by
  unfold announcement
  rw [((content key).read_eq_ok_iff value).mp h]

theorem decodeEvent_announces (content : Content) (key : Units) (now : Reading) :
    decodeEvent
        { event := some (.str (units "update"))
          seq := some (.num now.value)
          key := some (.str key)
          value := some (Wire.encode (content key).value).reread } =
      announcement content key now.value := by
  have hseq : finiteSeq (some (.num now.value)) = some now.value := by
    rw [finiteSeq, if_pos now.finite]
  cases hdecode : Wire.decode (Wire.encode (content key).value).reread with
  | ok _ | error _ => simp only [decodeEvent, announcement, hseq, hdecode]

end Announcements

section Poll

theorem ownKeys_pollEvent :
    EcmaJson.OwnKeys [units "event", units "key", units "value", units "seq"] := by
  unfold EcmaJson.OwnKeys
  decide

variable (content : Content)

theorem wellFormed_pollEvent (key : Units) (seq : Float) :
    EcmaJson.WellFormed (Wire.encode (pollEvent key (content key).value seq)) := by
  rw [pollEvent, Wire.encode, Wire.encodeFields_eq_map]
  refine .obj ?_ ownKeys_pollEvent
  intro field hfield
  simp only [List.map_cons, List.map_nil, List.mem_cons, List.not_mem_nil, or_false] at hfield
  rcases hfield with rfl | rfl | rfl | rfl
  · exact .str _
  · exact .str _
  · exact (content key).wellFormed
  · exact .num _

theorem rawEvent_pollEvent (key : Units) (now : Reading) :
    rawEvent (Wire.encode (pollEvent key (content key).value now.value)).reread = some
        { event := some (.str (units "update"))
          seq := some (.num now.value)
          key := some (.str key)
          value := some (Wire.encode (content key).value).reread } := by
  have hseq := now.reread
  simp only [pollEvent, Wire.encode, Wire.encodeFields, Data.reread, EcmaJson.rereadFields]
    at hseq ⊢
  rw [hseq]
  rfl

theorem pollEvents_get (seq : Float) (keys : List Units) :
    pollEvents content.get seq keys =
      .ok (keys.map (fun key => pollEvent key (content key).value seq)) := by
  induction keys with
  | nil => rfl
  | cons key keys ih =>
      rw [pollEvents, ih]
      rfl

theorem decodedEvents_pollEvents (now : Reading) (keys : List Units) :
    decodedEvents (EcmaJson.rereadItems (Wire.encodeList
        (keys.map (fun key => pollEvent key (content key).value now.value)))) =
      keys.map (fun key => announcement content key now.value) := by
  induction keys with
  | nil => rfl
  | cons key keys ih =>
      rw [List.map_cons, Wire.encodeList, EcmaJson.rereadItems, decodedEvents,
        rawEvent_pollEvent]
      simp only [decodeEvent_announces, ih, List.map_cons]

theorem polledEvents_json {events : List Value}
    (h : EcmaJson.WellFormed (Wire.encode (.list events))) :
    polledEvents (json (.list events) 200) =
      decodedEvents (EcmaJson.rereadItems (Wire.encodeList events)) := by
  have hgood : 200 ≤ (json (.list events) 200).status ∧ (json (.list events) 200).status ≤ 299 :=
    ⟨Nat.le_refl 200, (by decide : 200 ≤ 299)⟩
  rw [polledEvents, if_pos hgood, json, Wire.stringify, EcmaJson.reread_written h,
    Wire.encode, Data.reread]

theorem polledEvents_once (now : Reading) (keys : List Units) :
    polledEvents (once content.get now.value keys) =
      keys.map (fun key => announcement content key now.value) := by
  by_cases hkeys : keys = []
  · subst hkeys
    rfl
  · have hwell : EcmaJson.WellFormed (Wire.encode (.list
        (keys.map (fun key => pollEvent key (content key).value now.value)))) := by
      rw [Wire.encode, Wire.encodeList_eq_map]
      refine .arr ?_
      intro d hd
      obtain ⟨event, hevent, rfl⟩ := List.mem_map.mp hd
      obtain ⟨key, _, rfl⟩ := List.mem_map.mp hevent
      exact wellFormed_pollEvent content key now.value
    have honce : once content.get now.value keys = json (.list
        (keys.map (fun key => pollEvent key (content key).value now.value))) 200 := by
      rw [once, if_neg hkeys, pollEvents_get]
    rw [honce, polledEvents_json hwell, decodedEvents_pollEvents]

end Poll

section Stream

def stamps (clock : Nat → Float) : Nat → List Units → List (Units × Float)
  | _, [] => []
  | reading, key :: keys => (key, clock reading) :: stamps clock (reading + 1) keys

theorem ownKeys_payload : EcmaJson.OwnKeys [units "key", units "value", units "seq"] := by
  unfold EcmaJson.OwnKeys
  decide

theorem wellFormed_payload (content : Content) (key : Units) (seq : Float) :
    EcmaJson.WellFormed (Wire.encode (.record [(units "key", .str key),
      (units "value", (content key).value), (units "seq", .num seq)])) := by
  rw [Wire.encode, Wire.encodeFields_eq_map]
  refine .obj ?_ ownKeys_payload
  intro field hfield
  simp only [List.map_cons, List.map_nil, List.mem_cons, List.not_mem_nil, or_false] at hfield
  rcases hfield with rfl | rfl | rfl
  · exact .str _
  · exact (content key).wellFormed
  · exact .num _

theorem decodeFrame_emit (number : Units → Float) (content : Content) (key : Units)
    (now : Reading) :
    decodeFrame number (emit key (content key).value now.value) =
      some (announcement content key now.value) := by
  have hseq := now.reread
  rw [← decodeEvent_announces]
  simp only [decodeFrame, emit, Wire.stringify]
  rw [EcmaJson.reread_written (wellFormed_payload content key now.value)]
  simp only [Wire.encode, Wire.encodeFields, Data.reread, EcmaJson.rereadFields] at hseq ⊢
  rw [hseq]
  rfl

theorem streamedEvents_opening (number : Units → Float) (content : Content) (clock : Clock)
    (reading : Nat) (id : Units) (keys : List Units) :
    streamedEvents number (opening content.get (fun i => (clock.reading i).value) reading id keys) =
      (stamps (fun i => (clock.reading i).value) reading keys).map
        (fun stamped => announcement content stamped.1 stamped.2) := by
  induction keys generalizing reading id with
  | nil => rfl
  | cons key keys ih =>
      have hframe := decodeFrame_emit number content key (clock.reading reading)
      rw [opening, stamps]
      simp only [Content.get, streamedEvents]
      have herror : units "update" ≠ units "error" := by decide
      have hevent : (emit key (content key).value (clock.reading reading).value).event =
          units "update" := rfl
      rw [hevent, if_neg herror, if_pos (Or.inl rfl), hframe, List.map_cons]
      exact congrArg _ (ih (reading + 1) _)

end Stream

section Delivery

/-- The events lose nothing: none of them is discarded, and afterwards the cells of
every key were last given what the store holds. -/
def Delivered (content : Content) (keys : List Units) (events : List Event) (page : Page)
    (cursor : Option Float) : Prop :=
  NoneDiscarded events page cursor ∧
    ∀ key ∈ keys, ∃ value, (content key).read = .ok value ∧
      ∀ cell ∈ (receiveAll events page cursor).1 key, cell.given.getLast? = some value

def Advancing : Option Float → List Float → Prop
  | _, [] => True
  | cursor, seq :: seqs => (∀ c, cursor = some c → ¬ seq ≤ c) ∧ Advancing (some seq) seqs

def Content.Readable (content : Content) (keys : List Units) : Prop :=
  ∀ key ∈ keys, ∃ value, (content key).read = .ok value

variable {content : Content} {key : Units} {value : Value} {seq : Float}
variable {stamped : List (Units × Float)} {keys : List Units}

theorem seen_announcement_iff (h : (content key).read = .ok value) (cursor : Option Float) :
    seen (announcement content key seq) cursor = false ↔ ∀ c, cursor = some c → ¬ seq ≤ c := by
  rw [announcement_of_read seq h]
  cases cursor <;> simp [seen]

theorem discarded_announcement (h : (content key).read = .ok value) (cursor : Option Float) :
    discarded (announcement content key seq) cursor =
      seen (announcement content key seq) cursor := by
  rw [announcement_of_read seq h, discarded, isResync_update, isUpdate_update, Bool.not_false,
    Bool.true_and, Bool.true_and]

variable {cursor : Option Float}

theorem receive_announcement (h : (content key).read = .ok value) (page : Page)
    (hseen : seen (announcement content key seq) cursor = false) :
    receive (announcement content key seq) page cursor =
      (applyUpdate page (some (.str key)) value, some seq) := by
  have hupdate := announcement_of_read seq h
  rw [hupdate] at hseen ⊢
  rw [receive, isResync_update, isUpdate_update, hseen]
  rfl

theorem noneDiscarded_iff (hread : content.Readable (stamped.map Prod.fst)) (page : Page)
    (cursor : Option Float) :
    NoneDiscarded (stamped.map (fun p => announcement content p.1 p.2)) page cursor ↔
      Advancing cursor (stamped.map Prod.snd) := by
  induction stamped generalizing page cursor with
  | nil => exact Iff.rfl
  | cons p stamped ih =>
      obtain ⟨value, hvalue⟩ := hread p.1 (by simp)
      have hrest : content.Readable (stamped.map Prod.fst) :=
        fun key hkey => hread key (List.mem_cons_of_mem _ hkey)
      simp only [List.map_cons, NoneDiscarded, Advancing]
      rw [discarded_announcement hvalue, seen_announcement_iff hvalue]
      refine and_congr_right ?_
      intro hnew
      rw [receive_announcement hvalue page ((seen_announcement_iff hvalue cursor).mpr hnew)]
      exact ih hrest _ _

theorem getLast?_given_applyUpdate (page : Page) (key other : Units) {value : Value} {cell : Cell}
    (hcell : cell ∈ applyUpdate page (some (.str key)) value other) :
    (other = key ∧ cell.given.getLast? = some value) ∨ (other ≠ key ∧ cell ∈ page other) := by
  unfold applyUpdate at hcell
  by_cases hkey : other = key
  · subst hkey
    simp only [Function.update_self] at hcell
    obtain ⟨before, _, rfl⟩ := List.mem_map.mp hcell
    exact .inl ⟨rfl, by simp [Cell.apply]⟩
  · simp only [Function.update_of_ne hkey] at hcell
    exact .inr ⟨hkey, hcell⟩

theorem given_receiveAll (hread : content.Readable (stamped.map Prod.fst)) {page : Page}
    (hadvance : Advancing cursor (stamped.map Prod.snd)) (hvalue : (content key).read = .ok value)
    (hkey : key ∈ stamped.map Prod.fst ∨ ∀ cell ∈ page key, cell.given.getLast? = some value) :
    ∀ cell ∈ (receiveAll (stamped.map (fun p => announcement content p.1 p.2)) page cursor).1 key,
      cell.given.getLast? = some value := by
  induction stamped generalizing page cursor with
  | nil =>
      rcases hkey with hkey | hkey
      · cases hkey
      · exact hkey
  | cons p stamped ih =>
      obtain ⟨first, hfirst⟩ := hread p.1 (by simp)
      have hrest : content.Readable (stamped.map Prod.fst) :=
        fun key hkey => hread key (List.mem_cons_of_mem _ hkey)
      obtain ⟨hnew, hadvance⟩ := hadvance
      have hstep := receive_announcement hfirst page
        ((seen_announcement_iff hfirst cursor).mpr hnew)
      rw [List.map_cons, receiveAll, hstep]
      refine ih hrest hadvance ?_
      by_cases hlater : key ∈ stamped.map Prod.fst
      · exact .inl hlater
      · right
        intro cell hcell
        rcases getLast?_given_applyUpdate page p.1 key hcell with ⟨rfl, hlast⟩ | ⟨hne, hcell⟩
        · rw [hfirst] at hvalue
          cases hvalue
          exact hlast
        · rcases hkey with hkey | hkey
          · rcases List.mem_cons.mp hkey with hkey | hkey
            · exact absurd hkey hne
            · exact absurd hkey hlater
          · exact hkey cell hcell

theorem delivered_announcements_iff (content : Content) (stamped : List (Units × Float))
    (page : Page) (cursor : Option Float) :
    Delivered content (stamped.map Prod.fst)
        (stamped.map (fun p => announcement content p.1 p.2)) page cursor ↔
      Advancing cursor (stamped.map Prod.snd) ∧ content.Readable (stamped.map Prod.fst) := by
  constructor
  · rintro ⟨hnone, hgiven⟩
    have hread : content.Readable (stamped.map Prod.fst) := by
      intro key hkey
      obtain ⟨value, hvalue, _⟩ := hgiven key hkey
      exact ⟨value, hvalue⟩
    exact ⟨(noneDiscarded_iff hread page cursor).mp hnone, hread⟩
  · rintro ⟨hadvance, hread⟩
    refine ⟨(noneDiscarded_iff hread page cursor).mpr hadvance, ?_⟩
    intro key hkey
    obtain ⟨value, hvalue⟩ := hread key hkey
    exact ⟨value, hvalue, given_receiveAll hread hadvance hvalue (.inl hkey)⟩

end Delivery

section Transports

variable {cursor : Option Float}

def Behind (cursor : Option Float) (seq : Float) : Prop := ∀ c, cursor = some c → c < seq

theorem Behind.unseen {seq : Float} (h : Behind cursor seq) :
    ∀ c, cursor = some c → ¬ seq ≤ c :=
  fun c hc => Binary64.not_le_of_lt (h c hc)

theorem advancing_replicate {now : Reading} (h : Behind cursor now.value) (n : Nat) :
    Advancing cursor (List.replicate n now.value) ↔ n ≤ 1 := by
  rcases n with _ | _ | n
  · simp [Advancing]
  · simpa [Advancing] using h.unseen
  · simp only [List.replicate_succ, Advancing]
    constructor
    · rintro ⟨_, hnew, _⟩
      exact absurd (Binary64.le_self now.finite) (hnew now.value rfl)
    · intro hle
      omega

theorem advancing_stamps_succ (clock : Clock) (reading : Nat) (keys : List Units) :
    Advancing (some (clock.reading reading).value)
        ((stamps (fun i => (clock.reading i).value) (reading + 1) keys).map Prod.snd) ↔
      ∀ i, i < keys.length →
        (clock.reading (reading + i)).value < (clock.reading (reading + i + 1)).value := by
  induction keys generalizing reading with
  | nil => simp [stamps, Advancing]
  | cons key keys ih =>
      simp only [stamps, List.map_cons, Advancing, ih, List.length_cons]
      constructor
      · rintro ⟨hnew, hrest⟩ i hi
        rcases i with _ | i
        · exact Binary64.lt_of_not_le (clock.reading reading).finite
            (clock.reading (reading + 1)).finite (hnew _ rfl)
        · have hlt := hrest i (Nat.lt_of_succ_lt_succ hi)
          rw [Nat.add_right_comm reading 1 i] at hlt
          exact hlt
      · intro hall
        refine ⟨?_, ?_⟩
        · rintro c hc
          cases hc
          exact Binary64.not_le_of_lt (hall 0 (Nat.succ_pos _))
        · intro i hi
          have hlt := hall (i + 1) (Nat.succ_lt_succ hi)
          rw [Nat.add_right_comm reading 1 i]
          exact hlt

theorem advancing_stamps (clock : Clock) {reading : Nat}
    (h : Behind cursor (clock.reading reading).value) (keys : List Units) :
    Advancing cursor ((stamps (fun i => (clock.reading i).value) reading keys).map Prod.snd) ↔
      ∀ i, i + 1 < keys.length →
        (clock.reading (reading + i)).value < (clock.reading (reading + i + 1)).value := by
  cases keys with
  | nil => simp [stamps, Advancing]
  | cons key keys =>
      simp only [stamps, List.map_cons, Advancing, advancing_stamps_succ, List.length_cons,
        Nat.add_lt_add_iff_right]
      exact and_iff_right h.unseen

theorem map_fst_stamps (clock : Nat → Float) (reading : Nat) (keys : List Units) :
    (stamps clock reading keys).map Prod.fst = keys := by
  induction keys generalizing reading with
  | nil => rfl
  | cons key keys ih => rw [stamps, List.map_cons, ih]

theorem poll_delivers_iff (content : Content) (keys : List Units) (page : Page)
    {now : Reading} (h : Behind cursor now.value) :
    Delivered content keys (polledEvents (once content.get now.value keys)) page cursor ↔
      keys.length ≤ 1 ∧ content.Readable keys := by
  have hdelivered := delivered_announcements_iff content
    (keys.map (fun key => (key, now.value))) page cursor
  have hkeys : keys.map (Prod.fst ∘ fun key => (key, now.value)) = keys := List.map_id keys
  have hstamps : keys.map (Prod.snd ∘ fun key => (key, now.value)) =
      List.replicate keys.length now.value := List.map_const
  rw [List.map_map, List.map_map, List.map_map, hkeys, hstamps,
    advancing_replicate h] at hdelivered
  rw [polledEvents_once]
  exact hdelivered

theorem stream_delivers_iff (number : Units → Float) (content : Content) (clock : Clock)
    (keys : List Units) (page : Page) (h : Behind cursor (clock.reading 1).value) :
    Delivered content keys (streamedEvents number
          (opening content.get (fun i => (clock.reading i).value) 1 [] keys)) page cursor ↔
      (∀ i, i + 1 < keys.length →
        (clock.reading (1 + i)).value < (clock.reading (1 + i + 1)).value) ∧
      content.Readable keys := by
  have hdelivered := delivered_announcements_iff content
    (stamps (fun i => (clock.reading i).value) 1 keys) page cursor
  rw [map_fst_stamps, advancing_stamps clock h] at hdelivered
  rw [streamedEvents_opening]
  exact hdelivered

/-- What reaches the cells when the router answers a poll with the current values,
or opens a stream with them: everything if and only if the values can be read and
the answer carries one event, or the clock advances from frame to frame. -/
theorem delivers_iff (number : Units → Float) (content : Content) (query : Option Units)
    (durableKeys : List Units) (page : Page) (cursor : Option Float) (now : Reading)
    (clock : Clock) (hpoll : Behind cursor now.value)
    (hstream : Behind cursor (clock.reading 1).value) :
    (Delivered content (watchedKeys query durableKeys)
          (polledEvents (once content.get now.value (watchedKeys query durableKeys)))
          page cursor ↔
        (watchedKeys query durableKeys).length ≤ 1 ∧
          content.Readable (watchedKeys query durableKeys)) ∧
      (Delivered content (watchedKeys query durableKeys)
          (streamedEvents number (opening content.get (fun i => (clock.reading i).value) 1 []
            (watchedKeys query durableKeys)))
          page cursor ↔
        (∀ i, i + 1 < (watchedKeys query durableKeys).length →
          (clock.reading (1 + i)).value < (clock.reading (1 + i + 1)).value) ∧
        content.Readable (watchedKeys query durableKeys)) :=
  ⟨poll_delivers_iff content _ page hpoll, stream_delivers_iff number content clock _ page hstream⟩

def oneMillisecond : Reading :=
  { value := Float.ofNat 1
    finite := by decide +kernel
    unsigned := by decide +kernel }

def standing : Clock :=
  { reading := fun _ => oneMillisecond
    monotone := fun _ => Binary64.le_self oneMillisecond.finite }

/-- A store that holds `true` under every key. -/
def allTrue : Content := fun _ => { value := .bool true, wellFormed := .bool true }

def oneCell : Page := fun _ => [{ given := [], refetches := 0 }]

/-- One key is delivered by either transport. -/
theorem delivers_one_key :
    Delivered allTrue [[97]] (polledEvents (once allTrue.get oneMillisecond.value [[97]]))
        oneCell none ∧
      Delivered allTrue [[97]]
        (streamedEvents (fun _ => 0)
          (opening allTrue.get (fun i => (standing.reading i).value) 1 [] [[97]]))
        oneCell none := by
  have hkeys : watchedKeys (some [97]) [[97], [98]] = [[97]] := by
    decide
  have hread : allTrue.Readable [[97]] := by
    rintro key _
    exact ⟨.bool true, ((allTrue key).read_eq_ok_iff (.bool true)).mpr rfl⟩
  have hbehind : ∀ seq, Behind none seq := by
    rintro seq c hc
    cases hc
  have h := delivers_iff (fun _ => 0) allTrue (some [97]) [[97], [98]] oneCell none
    oneMillisecond standing (hbehind _) (hbehind _)
  rw [hkeys] at h
  refine ⟨h.1.mpr ⟨Nat.le_refl 1, hread⟩, h.2.mpr ⟨?_, hread⟩⟩
  rintro i hi
  exact absurd hi (by simp)

/-- Two keys are not: the second event of a poll, and the second frame of the same
millisecond, are dropped. -/
theorem second_key_dropped :
    ¬ Delivered allTrue [[97], [98]]
        (polledEvents (once allTrue.get oneMillisecond.value [[97], [98]])) oneCell none ∧
      ¬ Delivered allTrue [[97], [98]]
        (streamedEvents (fun _ => 0)
          (opening allTrue.get (fun i => (standing.reading i).value) 1 [] [[97], [98]]))
        oneCell none := by
  have hbehind : Behind none oneMillisecond.value := by
    rintro c hc
    cases hc
  refine ⟨?_, ?_⟩
  · rw [poll_delivers_iff allTrue _ oneCell hbehind]
    rintro ⟨hlength, _⟩
    exact absurd hlength (by decide)
  · rw [stream_delivers_iff (fun _ => 0) allTrue standing _ oneCell hbehind]
    rintro ⟨hadvance, _⟩
    exact Binary64.not_le_of_lt (hadvance 0 (by decide))
      (Binary64.le_self oneMillisecond.finite)

end Transports

end Live
end Zdeceptron
