import Zdeceptron.Live.Announced

/-!
# The stream of the development server

One connection carries two channels: the server announces rebuilds and forwards the events
of a subscription.  The page listens to it by the names of the frames, and takes its cursor
from what they carry or, where they carry none, from their identifiers.

* `streams_faithful_iff`: every event arrives as what it is, and none is missed, exactly when
  no resync is delivered and no `ready` frame finds a cursor below its generation.
* `streamed_frames_received`, `polled_events_received`: the texts of the stream and of a poll
  leave the page of the browser where the frames and the events leave the model's.
-/

namespace Zdeceptron
namespace Live

open Library
open Library.EcmaJson (Data)
open Store (Seq Update Keys Session Client)
open Wire (Value units)

section Frames

inductive FrameName
  | ready
  | reload
  | update
  | resync
deriving DecidableEq

def FrameName.text : FrameName → Units
  | .ready => units "ready"
  | .reload => units "reload"
  | .update => units "update"
  | .resync => units "resync"

/-- What the server writes: an identifier, a name, and the event the data is made of; a frame
of the reload channel carries its generation only. -/
structure SentFrame where
  id : Nat
  name : FrameName
  event : Option Store.Event
deriving DecidableEq

def readyFrame (generation : Nat) : SentFrame := ⟨generation, .ready, none⟩

def reloadFrame (generation : Nat) : SentFrame := ⟨generation, .reload, none⟩

/-- Every event of a subscription is sent under the name `update`. -/
def durableFrame (event : Store.Event) : SentFrame := ⟨event.seq, .update, some event⟩

def openingFrame (lastEventId : Option Nat) (generation : Nat) : SentFrame :=
  match lastEventId with
  | some seen => if seen < generation then reloadFrame generation else readyFrame generation
  | none => readyFrame generation

/-- A page: its cursor with what its cells were told, and how often all of them were read
again. -/
structure LivePage where
  heard : Heard
  resyncs : Nat
deriving DecidableEq

def LivePage.advance (page : LivePage) (seq : Seq) : LivePage :=
  { page with heard := { page.heard with cursor := advanceTo seq page.heard.cursor } }

/-- What `store.js` does with a frame, in positions of the store.  A payload has a `seq` where
it is made of an event; the others leave the frame's identifier.  There is no listener for
`reload`. -/
def LivePage.receive (page : LivePage) (frame : SentFrame) : LivePage :=
  let seq := (frame.event.map Store.Event.seq).getD frame.id
  match frame.name with
  | .reload => page
  | .ready => page.advance seq
  | .resync => { page.advance seq with resyncs := page.resyncs + 1 }
  | .update =>
      match frame.event with
      | some (.update u) => { page with heard := page.heard.hear (.update u) }
      -- the payload has no key, so no cell is told
      | _ => page.advance seq

end Frames

section Texts

structure Carries (read : Store.Json → Data) (number : Units → Float) (frame : Frame)
    (sent : SentFrame) : Prop where
  name : frame.event = sent.name.text
  data : EcmaJson.parse frame.data =
    some ((sent.event.map (payload read)).getD (.num (Binary64.whole sent.id)))
  lastEventId : frame.lastEventId ≠ []
  number : number frame.lastEventId = Binary64.whole sent.id

end Texts

section Machine

/-- An open connection: its subscription, the announcements of rebuilds that wait for it,
and the frames that are on their way. -/
structure Connection where
  index : Nat
  reloads : List Nat
  frames : List SentFrame
deriving DecidableEq

structure LiveStream where
  session : Session
  generation : Nat
  connection : Option Connection
  page : LivePage
deriving DecidableEq

namespace LiveStream

inductive Move
  /-- A call of the store, or of another subscriber. -/
  | call (call : Store.Call)
  | rebuild
  | connect
  /-- The server takes the next event and writes its frame. -/
  | drain
  /-- The server writes the next announcement of a rebuild. -/
  | forward
  | deliver
  | cut
deriving DecidableEq

variable (keys : Keys)

def new (start : Seq) (since : Option Seq) : LiveStream :=
  ⟨Session.new start, 0, none, ⟨⟨since, []⟩, 0⟩⟩

def rebuild (s : LiveStream) : LiveStream :=
  { s with
    generation := s.generation + 1
    connection := s.connection.map (fun connection =>
      { connection with reloads := connection.reloads ++ [s.generation + 1] }) }

/-- The page opens a source of its own at its cursor, which sends no `Last-Event-ID`. -/
def connect (s : LiveStream) : LiveStream :=
  { s with
    session := s.session.subscribe keys s.page.heard.cursor
    connection := some ⟨s.session.clients.length, [], [openingFrame none s.generation]⟩ }

def drain (s : LiveStream) (connection : Connection) (c : Client) : LiveStream :=
  { s with
    session := s.session.tryNext connection.index c
    connection := some { connection with
      frames := connection.frames ++
        ((s.session.fanout.tryNext c.subscription).1.map durableFrame).toList } }

def step (s : LiveStream) : Move → Option LiveStream
  | .call call =>
      if elsewhere (s.connection.map Connection.index) call then
        (s.session.step call).map (fun session => { s with session := session })
      else none
  | .rebuild => some s.rebuild
  | .connect => if s.connection.isNone then some (s.connect keys) else none
  | .drain =>
      s.connection.bind (fun connection =>
        (s.session.clients[connection.index]?).bind (fun c =>
          if s.session.holds c then some (s.drain connection c) else none))
  | .forward =>
      s.connection.bind (fun connection =>
        match connection.reloads with
        | [] => none
        | generation :: rest => some { s with
            connection := some { connection with
              reloads := rest
              frames := connection.frames ++ [reloadFrame generation] } })
  | .deliver =>
      s.connection.bind (fun connection =>
        match connection.frames with
        | [] => none
        | frame :: rest => some { s with
            connection := some { connection with frames := rest }
            page := s.page.receive frame })
  | .cut => s.connection.map (fun _ => { s with connection := none })

def machine : Machine LiveStream Move := ⟨step keys⟩

def Ordered (start : Seq) (s : LiveStream) : Move → Prop
  | .call call => InOrder start s.session call
  | _ => True

/-- A frame a page does not misread: not a resync's, and a `ready` frame only where the
cursor is at or past its generation. -/
def Clean (page : LivePage) (frame : SentFrame) : Prop :=
  (frame.name = .ready → ∃ k, page.heard.cursor = some k ∧ frame.id ≤ k) ∧
    ∀ seq, frame.event ≠ some (.resync seq)

/-- A frame reaches the page as what it is: an update is received, a resync reads every cell
again, and a frame of the reload channel leaves the cursor. -/
def Faithful (page : LivePage) (frame : SentFrame) : Prop :=
  match frame.event with
  | some (.update u) =>
      page.receive frame = { page with heard := page.heard.hear (.update u) }
  | some (.resync _) => (page.receive frame).resyncs = page.resyncs + 1
  | none => (page.receive frame).heard.cursor = page.heard.cursor

def AtDelivery (P : LivePage → SentFrame → Prop) (s : LiveStream) : Move → Prop
  | .deliver => ∀ connection frame rest, s.connection = some connection →
      connection.frames = frame :: rest → P s.page frame
  | _ => True

/-- A page whose connection has nothing left for it was told every update to its keys past
the position it started from. -/
def Complete (since : Option Seq) (s : LiveStream) : Prop :=
  ∀ connection c, s.connection = some connection → connection.frames = [] →
    s.session.clients[connection.index]? = some c → s.session.drained c = true →
      ∀ u ∈ s.session.published, keys.contains u.key = true →
        (∀ k, since = some k → k < u.seq) → u ∈ s.page.heard.told

end LiveStream

end Machine

section Frames

variable {page : LivePage}

inductive SentFrame.Written : SentFrame → Prop
  | ready (generation : Nat) : Written (readyFrame generation)
  | reload (generation : Nat) : Written (reloadFrame generation)
  | durable (event : Store.Event) : Written (durableFrame event)

theorem advanceTo_eq_self_iff {seq : Seq} {cursor : Option Seq} :
    advanceTo seq cursor = cursor ↔ ∃ k, cursor = some k ∧ seq ≤ k := by
  unfold advanceTo
  cases cursor with
  | none => simp [reached]
  | some k =>
      by_cases hle : seq ≤ k
      · simp [reached, hle]
      · simp only [reached, hle, decide_false, Bool.false_eq_true, if_false]
        constructor
        · intro h
          exact absurd (le_of_eq (Option.some.inj h)) hle
        · rintro ⟨k', hk', hle'⟩
          cases hk'
          exact absurd hle' hle

theorem LiveStream.clean_iff {frame : SentFrame} (hwritten : frame.Written) :
    LiveStream.Clean page frame ↔ LiveStream.Faithful page frame := by
  cases hwritten with
  | ready generation =>
      refine Iff.trans ?_ advanceTo_eq_self_iff.symm
      exact ⟨fun h => h.1 rfl, fun h => ⟨fun _ => h, fun _ heq => nomatch heq⟩⟩
  | reload generation =>
      exact iff_of_true ⟨fun h => (nomatch h), fun _ heq => nomatch heq⟩ rfl
  | durable event =>
      cases event with
      | update u => exact iff_of_true ⟨fun h => (nomatch h), fun _ heq => nomatch heq⟩ rfl
      | resync seq =>
          refine iff_of_false (fun h => h.2 seq rfl) ?_
          intro h
          exact absurd h (Nat.ne_of_lt (Nat.lt_succ_self page.resyncs))

end Frames

section Texts

variable {read : Store.Json → Data} {number : Units → Float} {frame : Frame}
  {value : Update → Value} {live : LivePage}

/-- The page as the browser has it: its cells were given what it was told and are read again
as often as it was told to, and its cursor is a number. -/
def LivePage.view (value : Update → Value) (page : Page) (live : LivePage) :
    Page × Option Float :=
  (resyncAll^[live.resyncs] (shown value page live.heard.told),
    live.heard.cursor.map Binary64.whole)

/-- What `receive` does with an event of a poll, in positions of the store. -/
def LivePage.hear (live : LivePage) : Store.Event → LivePage
  | .resync seq => { live.advance seq with resyncs := live.resyncs + 1 }
  | .update u => { live with heard := live.heard.hear (.update u) }

theorem resyncAll_applyUpdate (page : Page) (key : Option Data) (value : Value) :
    resyncAll (applyUpdate page key value) = applyUpdate (resyncAll page) key value := by
  unfold applyUpdate
  split
  · rename_i name
    funext other
    by_cases hother : other = name
    · subst hother
      simp [resyncAll, Cell.apply, Cell.refetch, Function.comp_def]
    · simp [resyncAll, hother]
  · rfl

/-- An update as either transport decodes it. -/
def told (value : Update → Value) (u : Update) : Event :=
  ⟨some (.str (units "update")), some (Binary64.whole u.seq), some (.str (utf16 u.key)), value u⟩

/-- An event as a poll decodes it. -/
def announced (value : Update → Value) : Store.Event → Event
  | .resync seq => ⟨some (.str (units "resync")), some (Binary64.whole seq), none, .null⟩
  | .update u => told value u

theorem receive_told {u : Update} (hlt : u.seq < 2 ^ 53)
    (hcursor : ∀ c, live.heard.cursor = some c → c < 2 ^ 53) (page : Page) :
    receive (told value u) (live.view value page).1 (live.view value page).2 =
      (live.hear (.update u)).view value page := by
  rw [receive_update rfl]
  refine Prod.ext ?_ (advance_whole hlt hcursor rfl)
  have hseen : seen (told value u) (live.heard.cursor.map Binary64.whole) =
      reached u.seq live.heard.cursor := seen_whole hlt hcursor rfl
  change (if seen (told value u) (live.heard.cursor.map Binary64.whole) = true then _ else _) =
    resyncAll^[live.resyncs] (shown value page (if reached u.seq live.heard.cursor then
      live.heard.told else live.heard.told ++ [u]))
  rw [hseen]
  split_ifs
  · rfl
  · rw [shown, List.foldl_append]
    exact (Function.Commute.iterate_left (fun page => resyncAll_applyUpdate page _ _) _ _).symm

/-- A frame the page listens to is decoded to what the server wrote. -/
def SentFrame.decoded (value : Update → Value) (sent : SentFrame) : Event :=
  match sent.event with
  | some (.update u) => told value u
  | _ => ⟨some (.str sent.name.text), some (Binary64.whole sent.id), none, .null⟩

theorem decodeFrame_written {sent : SentFrame} (h : Carries read number frame sent)
    (hwritten : sent.Written) (hid : sent.id < 2 ^ 53)
    (hread : ∀ u, sent.event = some (.update u) →
      Wire.decode (payloadValue read u) = .ok (value u)) :
    decodeFrame number frame = some (sent.decoded value) := by
  have hfinite := finiteSeq_whole hid
  unfold decodeFrame
  rw [h.name, h.data]
  cases hwritten with
  | ready generation | reload generation =>
      change some (decodeEvent ⟨_, if frame.lastEventId = [] then none else
        some (.num (number frame.lastEventId)), none, none⟩) = _
      rw [if_neg h.lastEventId, h.number, decodeEvent]
      exact congrArg (fun seq => some (Event.mk _ seq none .null)) hfinite
  | durable event =>
      cases event with
      | resync seq =>
          change some (decodeEvent ⟨_, some (.num (Binary64.whole seq)), none, none⟩) = _
          exact congrArg (fun seq => some (Event.mk _ seq none .null)) hfinite
      | update u =>
          change some (decodeEvent ⟨_, some (.num (Binary64.whole u.seq)),
            some (.str (utf16 u.key)), some (payloadValue read u)⟩) = _
          simp only [decodeEvent, hread u rfl]
          exact congrArg (fun seq => some (Event.mk _ seq _ _)) hfinite

theorem receive_decoded {sent : SentFrame} (hwritten : sent.Written)
    (hlistened : sent.name ≠ .reload) (hid : sent.id < 2 ^ 53)
    (hcursor : ∀ c, live.heard.cursor = some c → c < 2 ^ 53) (page : Page) :
    receive (sent.decoded value) (live.view value page).1 (live.view value page).2 =
      (live.receive sent).view value page := by
  have hadvance : ∀ event : Event, event.seq = some (Binary64.whole sent.id) →
      advance event (live.heard.cursor.map Binary64.whole) =
        (advanceTo sent.id live.heard.cursor).map Binary64.whole :=
    fun _ hevent => advance_whole hid hcursor hevent
  cases hwritten with
  | ready generation => exact congrArg (Prod.mk _) (hadvance _ rfl)
  | reload generation => exact absurd rfl hlistened
  | durable event =>
      cases event with
      | resync seq =>
          rw [receive_update rfl]
          exact Prod.ext (ite_self _) (hadvance _ rfl)
      | update u => exact receive_told hid hcursor page

theorem streamedEvents_cons {name : FrameName} (h : frame.event = name.text)
    (frames : List Frame) :
    streamedEvents number (frame :: frames) =
      if name = .reload then streamedEvents number frames
      else (decodeFrame number frame).toList ++ streamedEvents number frames := by
  cases name with
  | reload =>
      rw [streamedEvents, h, if_neg (by decide), if_neg (by decide)]
      rfl
  | _ =>
      rw [streamedEvents, h, if_neg (by decide), if_pos (by decide)]
      cases decodeFrame number frame <;> rfl

theorem LivePage.cursor_receive {sent : SentFrame} (hwritten : sent.Written)
    (hid : sent.id < 2 ^ 53) (hcursor : ∀ c, live.heard.cursor = some c → c < 2 ^ 53) :
    ∀ c, (live.receive sent).heard.cursor = some c → c < 2 ^ 53 := by
  cases hwritten with
  | ready generation => exact advanceTo_lt hid hcursor
  | reload generation => exact hcursor
  | durable event =>
      cases event with
      | resync seq => exact advanceTo_lt hid hcursor
      | update u => exact advanceTo_lt hid hcursor

theorem decodedEvents_payload {events : List Store.Event}
    (hseq : ∀ event ∈ events, event.seq < 2 ^ 53)
    (hread : ∀ u, .update u ∈ events → Wire.decode (payloadValue read u) = .ok (value u)) :
    decodedEvents (events.map (payload read)) = events.map (announced value) := by
  induction events with
  | nil => rfl
  | cons event events ih =>
      have hfinite := finiteSeq_whole (hseq event List.mem_cons_self)
      have hrest := ih (fun e he => hseq e (List.mem_cons_of_mem event he))
        (fun u hu => hread u (List.mem_cons_of_mem event hu))
      rw [List.map_cons, List.map_cons, ← hrest]
      cases event with
      | resync seq =>
          exact congrArg (fun seq => Event.mk _ seq none .null :: _) hfinite
      | update u =>
          change decodeEvent ⟨_, some (.num (Binary64.whole u.seq)), _,
            some (payloadValue read u)⟩ :: _ = _
          simp only [decodeEvent, hread u List.mem_cons_self]
          exact congrArg (fun seq => Event.mk _ seq _ _ :: _) hfinite

end Texts

section Invariant

variable (keys : Keys) (start : Seq) (since : Option Seq)

namespace LiveStream

/-- What is known of an open connection: `done` was delivered, `todo` is on its way. -/
structure Open (s : LiveStream) (connection : Connection) (c : Client)
    (done todo : List Store.Event) : Prop where
  client : s.session.clients[connection.index]? = some c
  keys : c.keys = keys
  received : c.received = done ++ todo
  stream : c.received <+: c.opening ++ c.later s.session.published c.subscription.seq
  frames : connection.frames.filterMap SentFrame.event = todo
  covered : ∀ e ∈ done, ∃ k, s.page.heard.cursor = some k ∧ e.seq ≤ k
  updates : ∀ e ∈ done, ∃ u, e = .update u
  since : ∀ k, c.since = some k → ∃ k', s.page.heard.cursor = some k' ∧ k ≤ k'
  null : c.since = none → s.page.heard.cursor = none ∧
    ∃ generation rest, connection.frames = readyFrame generation :: rest

/-- The cursor is where the page started from or a position the server reached, and every
update up to it was told. -/
structure Inv (s : LiveStream) : Prop where
  session : s.session.Inv start
  cursor : ∀ k, s.page.heard.cursor = some k →
    since = some k ∨ k ≤ start + s.session.published.length
  told : ∀ k, s.page.heard.cursor = some k → ∀ u ∈ s.session.published,
    keys.contains u.key = true → (∀ k', since = some k' → k' < u.seq) → u.seq ≤ k →
      u ∈ s.page.heard.told
  written : ∀ connection, s.connection = some connection →
    ∀ frame ∈ connection.frames, frame.Written
  opened : ∀ connection, s.connection = some connection →
    ∃ c done todo, s.Open keys connection c done todo

variable {keys start since} {s : LiveStream} {connection : Connection} {c : Client}
  {done todo : List Store.Event}

theorem inv_new : (LiveStream.new start since).Inv keys start since where
  session := Store.Session.inv_new start
  cursor := fun _ hk => .inl hk
  told := fun _ _ _ hu => absurd hu List.not_mem_nil
  written := fun _ hconnection => nomatch hconnection
  opened := fun _ hconnection => nomatch hconnection

section Stream

variable {u : Update}

theorem Open.mem_stream (hopen : s.Open keys connection c done todo)
    (hwell : c.OpensWell s.session.published) {k : Seq} (hsince : c.since = some k)
    (hnotice : c.opening ≠ [.resync c.subscription.seq])
    (hu : u ∈ s.session.published) (hkey : keys.contains u.key = true) (hpast : k < u.seq) :
    .update u ∈ c.opening ++ c.later s.session.published c.subscription.seq := by
  unfold Client.OpensWell at hwell
  rw [hsince] at hwell
  rcases hwell with hwanted | hresync
  · by_cases hlate : c.subscription.seq < u.seq
    · refine List.mem_append_right _ (List.mem_map_of_mem (List.mem_filter.mpr ⟨hu, ?_⟩))
      rw [hopen.keys, hkey]
      simp [hlate]
    · rw [hwanted]
      refine List.mem_append_left _ (List.mem_map_of_mem (List.mem_filter.mpr ⟨hu, ?_⟩))
      rw [hopen.keys, hkey]
      simp only [Bool.and_true, Bool.and_eq_true, decide_eq_true_eq]
      exact ⟨Nat.lt_of_le_of_lt (Nat.min_le_left _ _) hpast, Nat.le_of_not_lt hlate⟩
  · exact absurd hresync hnotice

variable {rest : List Store.Event}

theorem Open.no_notice (hopen : s.Open keys connection c done todo)
    (htodo : todo = .update u :: rest) :
    c.opening ≠ [.resync c.subscription.seq] := by
  intro hopening
  obtain ⟨later, hlater⟩ := hopen.stream
  rw [hopening, hopen.received, htodo] at hlater
  cases done with
  | nil => cases (List.cons.inj hlater).1
  | cons e es =>
      obtain ⟨v, rfl⟩ := hopen.updates e List.mem_cons_self
      cases (List.cons.inj hlater).1

theorem Open.mem_done (hopen : s.Open keys connection c done todo) (hinv : s.session.Inv start)
    (htodo : todo = .update u :: rest) {v : Update}
    (hv : .update v ∈ c.opening ++ c.later s.session.published c.subscription.seq)
    (hle : v.seq ≤ u.seq) : .update v ∈ done ∨ v = u := by
  have hpair := hinv.stream_pairwise (hinv.served _ c hopen.client).opening
  obtain ⟨later, hlater⟩ := hopen.stream
  rw [← hlater, hopen.received, htodo, List.append_assoc] at hpair hv
  rcases List.mem_append.mp hv with hdone | hafter
  · exact .inl hdone
  · rw [List.cons_append] at hafter hpair
    rcases List.mem_cons.mp hafter with heq | hrest
    · exact .inr (Store.Event.update.inj heq)
    · have hlt := (List.pairwise_cons.mp (List.pairwise_append.mp hpair).2.1).1 _ hrest
      exact absurd hle (Nat.not_le.mpr hlt)

theorem Open.seq_le (hopen : s.Open keys connection c done todo) (hinv : s.session.Inv start)
    {e : Store.Event} (he : e ∈ c.received) :
    e.seq ≤ start + s.session.published.length := by
  have hserved := hinv.served _ c hopen.client
  rcases List.mem_append.mp (hopen.stream.subset he) with hopening | hlater
  · rw [← hinv.latest]
    exact Nat.le_trans (hserved.opening.upto e hopening) hserved.opened
  · obtain ⟨u, hu, rfl⟩ := List.mem_map.mp hlater
    exact (hinv.consecutive.bounds (List.mem_filter.mp hu).1).2

end Stream

section Deliver

variable {frame : SentFrame} {rest : List SentFrame}

theorem Inv.skip (hinv : s.Inv keys start since) (hconnection : s.connection = some connection)
    (hframes : connection.frames = frame :: rest) (hevent : frame.event = none)
    (hfirst : ∀ generation, frame = readyFrame generation → s.page.heard.cursor ≠ none) :
    Inv keys start since { s with connection := some { connection with frames := rest } } := by
  obtain ⟨c, done, todo, hopen⟩ := hinv.opened connection hconnection
  refine { hinv with written := ?_, opened := ?_ }
  · rintro _ ⟨⟩ other hother
    refine hinv.written connection hconnection other ?_
    rw [hframes]
    exact List.mem_cons_of_mem frame hother
  · rintro _ ⟨⟩
    refine ⟨c, done, todo, ?_⟩
    refine { hopen with frames := ?_, null := ?_ }
    · have h := hopen.frames
      rw [hframes, List.filterMap_cons_none hevent] at h
      exact h
    · intro hnull
      obtain ⟨hcursor, generation, others, heq⟩ := hopen.null hnull
      rw [hframes] at heq
      exact absurd hcursor (hfirst generation (List.cons.inj heq).1)

theorem Inv.update (hinv : s.Inv keys start since)
    (hconnection : s.connection = some connection) {u : Update}
    (hframes : connection.frames = durableFrame (.update u) :: rest) :
    Inv keys start since
      { s with
        connection := some { connection with frames := rest }
        page := s.page.receive (durableFrame (.update u)) } := by
  obtain ⟨c, done, todo, hopen⟩ := hinv.opened connection hconnection
  obtain ⟨later, htodo⟩ : ∃ later, todo = .update u :: later := by
    have h := hopen.frames
    rw [hframes] at h
    exact ⟨_, h.symm⟩
  have hsome : c.since ≠ none := by
    intro hnull
    obtain ⟨-, generation, others, heq⟩ := hopen.null hnull
    rw [hframes] at heq
    cases (List.cons.inj heq).1
  obtain ⟨k₀, hk₀⟩ := Option.ne_none_iff_exists'.mp hsome
  obtain ⟨k, hk, hk₀k⟩ := hopen.since k₀ hk₀
  have hreceived : .update u ∈ c.received := by
    rw [hopen.received, htodo]
    exact List.mem_append_right _ List.mem_cons_self
  have hcursor : (s.page.receive (durableFrame (.update u))).heard.cursor =
      advanceTo u.seq (some k) := by
    rw [← hk]
    rfl
  have hgrow : ∃ k', advanceTo u.seq (some k) = some k' ∧ k ≤ k' ∧ u.seq ≤ k' ∧
      (k' = k ∨ k' = u.seq) := by
    unfold advanceTo
    by_cases hle : u.seq ≤ k
    · exact ⟨k, by simp [reached, hle], le_refl _, hle, .inl rfl⟩
    · exact ⟨u.seq, by simp [reached, hle], Nat.le_of_not_le hle, le_refl _, .inr rfl⟩
  obtain ⟨k', hk', hkk', huk', hwhich⟩ := hgrow
  rw [hk'] at hcursor
  refine
    { session := hinv.session
      cursor := ?_
      told := ?_
      written := ?_
      opened := ?_ }
  · intro n hn
    change (s.page.receive (durableFrame (.update u))).heard.cursor = some n at hn
    rw [hcursor] at hn
    cases hn
    rcases hwhich with rfl | rfl
    · exact hinv.cursor k' hk
    · exact .inr (hopen.seq_le hinv.session hreceived)
  · intro n hn v hv hkey habove hle
    change (s.page.receive (durableFrame (.update u))).heard.cursor = some n at hn
    rw [hcursor] at hn
    cases hn
    change v ∈ (s.page.heard.hear (.update u)).told
    by_cases hvk : v.seq ≤ k
    · exact Heard.told_hear (hinv.told k hk v hv hkey habove hvk) _
    · -- past the cursor, so in the stream, and not before the update
      have hvu : v.seq ≤ u.seq := by
        rcases hwhich with rfl | rfl
        · exact absurd hle hvk
        · exact hle
      have hmem := hopen.mem_stream (hinv.session.served _ c hopen.client).opening hk₀
        (hopen.no_notice htodo) hv hkey (Nat.lt_of_le_of_lt hk₀k (Nat.lt_of_not_le hvk))
      rcases hopen.mem_done hinv.session htodo hmem hvu with hdone | rfl
      · obtain ⟨n, hn, hvn⟩ := hopen.covered _ hdone
        rw [hk] at hn
        cases hn
        exact absurd hvn hvk
      · have hnew : reached v.seq s.page.heard.cursor = false := by
          rw [hk]
          exact decide_eq_false hvk
        simp [Heard.hear, hnew]
  · rintro _ ⟨⟩ other hother
    refine hinv.written connection hconnection other ?_
    rw [hframes]
    exact List.mem_cons_of_mem _ hother
  · rintro _ ⟨⟩
    refine ⟨c, done ++ [.update u], later, ?_⟩
    refine
      { client := hopen.client
        keys := hopen.keys
        received := ?_
        stream := hopen.stream
        frames := ?_
        covered := ?_
        updates := ?_
        since := ?_
        null := fun hnull => absurd hnull hsome }
    · rw [hopen.received, htodo, List.append_assoc, List.singleton_append]
    · have h := hopen.frames
      rw [hframes, htodo] at h
      exact (List.cons.inj h).2
    · intro e he
      refine ⟨k', hcursor, ?_⟩
      rcases List.mem_append.mp he with hold | hnew
      · obtain ⟨n, hn, hen⟩ := hopen.covered e hold
        rw [hk] at hn
        cases hn
        exact Nat.le_trans hen hkk'
      · rw [List.mem_singleton.mp hnew]
        exact huk'
    · intro e he
      rcases List.mem_append.mp he with hold | hnew
      · exact hopen.updates e hold
      · exact ⟨u, List.mem_singleton.mp hnew⟩
    · intro n hn
      rw [hk₀] at hn
      cases hn
      exact ⟨k', hcursor, Nat.le_trans hk₀k hkk'⟩

end Deliver

section Steps

variable {s' : LiveStream}

theorem Open.extend (hopen : s.Open keys connection c done todo) {connection' : Connection}
    {c' : Client} {more : List Store.Event} (hpage : s'.page = s.page)
    (hclient : s'.session.clients[connection'.index]? = some c')
    (hkeys : c'.keys = c.keys) (hsince : c'.since = c.since)
    (hreceived : c'.received = c.received ++ more)
    (hstream : c'.received <+: c'.opening ++ c'.later s'.session.published c'.subscription.seq)
    {frames : List SentFrame} (hframes : connection'.frames = connection.frames ++ frames)
    (hmore : frames.filterMap SentFrame.event = more) :
    s'.Open keys connection' c' done (todo ++ more) where
  client := hclient
  keys := hkeys.trans hopen.keys
  received := by rw [hreceived, hopen.received, List.append_assoc]
  stream := hstream
  frames := by rw [hframes, List.filterMap_append, hopen.frames, hmore]
  covered := by
    rw [hpage]
    exact hopen.covered
  updates := hopen.updates
  since := by
    rw [hpage, hsince]
    exact hopen.since
  null := by
    rw [hpage, hsince]
    intro hnull
    obtain ⟨hcursor, generation, rest, hrest⟩ := hopen.null hnull
    exact ⟨hcursor, generation, rest ++ frames, by rw [hframes, hrest, List.cons_append]⟩

theorem later_grows {published published' : List Update} (h : published <+: published')
    (seq : Seq) : c.later published seq <+: c.later published' seq := by
  obtain ⟨rest, rfl⟩ := h
  unfold Client.later
  rw [List.filter_append, List.map_append]
  exact List.prefix_append _ _

theorem received_prefix {session : Session} {i : Nat} (hserved : session.Served i c)
    (hholds : session.holds c = true) :
    c.received ++ (session.fanout.tryNext c.subscription).1.toList <+:
      c.opening ++ c.later session.published c.subscription.seq := by
  have hstream := hserved.stream (hserved.rx ▸ hholds)
  rcases session.fanout.tryNext_cases c.subscription with
    ⟨event, rest, hpending, htry⟩ | ⟨channel, update, rest, hpending, hchannel, hqueue, htry⟩ |
      ⟨hpending, hqueue, htry⟩
  · rw [hpending] at hstream
    rw [htry, ← hstream]
    exact ⟨rest ++ (Store.queueAt session.fanout.channels i).map Store.Event.update, by simp⟩
  · rw [hserved.rx] at hchannel
    have hat : Store.queueAt session.fanout.channels i = update :: rest := by
      unfold Store.queueAt
      rw [hchannel, Option.map_some, Option.getD_some, hqueue]
    rw [hpending, hat] at hstream
    rw [htry, ← hstream]
    exact ⟨rest.map Store.Event.update, by simp⟩
  · rw [htry, ← hstream]
    simp only [Option.toList_none, List.append_nil, List.append_assoc]
    exact List.prefix_append _ _

theorem Inv.call (hinv : s.Inv keys start since) {call : Store.Call} {session : Session}
    (hcall : elsewhere (s.connection.map Connection.index) call = true)
    (hstep : s.session.step call = some session) (hordered : InOrder start s.session call) :
    Inv keys start since { s with session := session } := by
  have hgrow := Store.Session.published_prefix hstep
  have hcons := hordered.step hinv.session.consecutive hstep
  refine
    { session := hinv.session.step hstep hcons
      cursor := fun k hk => (hinv.cursor k hk).imp_right (fun hle =>
        Nat.le_trans hle (Nat.add_le_add_left hgrow.length_le _))
      told := ?_
      written := hinv.written
      opened := ?_ }
  · intro k hk u hu hkey habove hle
    refine hinv.told k hk u ?_ hkey habove hle
    -- a new update is past every position the server had reached
    rcases hinv.cursor k hk with hsince | hreach
    · exact absurd hle (Nat.not_le.mpr (habove k hsince))
    · have hu' : u ∈ session.published.take s.session.published.length :=
        hcons.mem_take_iff.mpr ⟨hu, Nat.le_trans hle hreach⟩
      obtain ⟨rest, hrest⟩ := hgrow
      rwa [← hrest, List.take_left] at hu'
  · intro connection hconnection
    change s.connection = some connection at hconnection
    obtain ⟨c, done, todo, hopen⟩ := hinv.opened connection hconnection
    rw [hconnection] at hcall
    refine ⟨c, done, todo ++ [], hopen.extend rfl
      (client_of_elsewhere hcall hstep hopen.client) rfl rfl (List.append_nil _).symm ?_
      (List.append_nil _).symm rfl⟩
    exact hopen.stream.trans
      ((List.prefix_append_right_inj c.opening).mpr (later_grows hgrow _))

theorem Inv.rebuild (hinv : s.Inv keys start since) : s.rebuild.Inv keys start since where
  session := hinv.session
  cursor := hinv.cursor
  told := hinv.told
  written := by
    intro connection hconnection
    obtain ⟨connection', hconnection', rfl⟩ := Option.map_eq_some_iff.mp hconnection
    exact hinv.written connection' hconnection'
  opened := by
    intro connection hconnection
    obtain ⟨connection', hconnection', rfl⟩ := Option.map_eq_some_iff.mp hconnection
    obtain ⟨c, done, todo, hopen⟩ := hinv.opened connection' hconnection'
    refine ⟨c, done, todo ++ [], hopen.extend rfl
      hopen.client rfl rfl (List.append_nil _).symm hopen.stream (List.append_nil _).symm rfl⟩

theorem Inv.forward (hinv : s.Inv keys start since) (hconnection : s.connection = some connection)
    {generation : Nat} {rest : List Nat} :
    Inv keys start since { s with
      connection := some { connection with
        reloads := rest
        frames := connection.frames ++ [reloadFrame generation] } } := by
  obtain ⟨c, done, todo, hopen⟩ := hinv.opened connection hconnection
  refine { hinv with written := ?_, opened := ?_ }
  · rintro _ ⟨⟩ frame hframe
    rcases List.mem_append.mp hframe with hold | hnew
    · exact hinv.written connection hconnection frame hold
    · rw [List.mem_singleton.mp hnew]
      exact .reload generation
  · rintro _ ⟨⟩
    exact ⟨c, done, todo ++ [], hopen.extend rfl hopen.client rfl rfl
      (List.append_nil _).symm hopen.stream rfl rfl⟩

theorem Inv.connect (hinv : s.Inv keys start since) :
    (s.connect keys).Inv keys start since where
  session := hinv.session.subscribe keys s.page.heard.cursor
  cursor := hinv.cursor
  told := hinv.told
  written := by
    rintro _ ⟨⟩ frame hframe
    rw [List.mem_singleton.mp hframe]
    exact .ready s.generation
  opened := by
    rintro _ ⟨⟩
    refine ⟨Client.mk keys s.page.heard.cursor
      (s.session.fanout.subscribe keys s.page.heard.cursor).2
      (s.session.fanout.replay keys s.page.heard.cursor) [], [], [], ?_⟩
    refine
      { client := List.getElem?_concat_length
        keys := rfl
        received := rfl
        stream := List.nil_prefix
        frames := rfl
        covered := fun e he => absurd he List.not_mem_nil
        updates := fun e he => absurd he List.not_mem_nil
        since := fun k hk => ⟨k, hk, le_refl k⟩
        null := fun hnull => ⟨hnull, s.generation, [], rfl⟩ }

theorem Inv.drain (hinv : s.Inv keys start since) (hconnection : s.connection = some connection)
    (hclient : s.session.clients[connection.index]? = some c)
    (hholds : s.session.holds c = true) : (s.drain connection c).Inv keys start since := by
  obtain ⟨c', done, todo, hopen⟩ := hinv.opened connection hconnection
  rw [hopen.client] at hclient
  cases hclient
  have hsession := hinv.session.tryNext hopen.client
  have hlt := (List.getElem?_eq_some_iff.mp hopen.client).1
  let c₁ : Client := { c with
    subscription := (s.session.fanout.tryNext c.subscription).2.2
    received := c.received ++ (s.session.fanout.tryNext c.subscription).1.toList }
  have hclient₁ : (s.session.tryNext connection.index c).clients[connection.index]? = some c₁ :=
    List.getElem?_set_self hlt
  refine
    { session := hsession
      cursor := hinv.cursor
      told := hinv.told
      written := ?_
      opened := ?_ }
  · rintro _ ⟨⟩ frame hframe
    rcases List.mem_append.mp hframe with hold | hnew
    · exact hinv.written connection hconnection frame hold
    · obtain ⟨event, -, rfl⟩ := Option.map_eq_some_iff.mp (Option.mem_toList.mp hnew)
      exact .durable event
  · rintro _ ⟨⟩
    refine ⟨c₁, done, todo ++ (s.session.fanout.tryNext c.subscription).1.toList,
      hopen.extend rfl hclient₁ rfl rfl rfl ?_ rfl ?_⟩
    · have hseq : c₁.subscription.seq = c.subscription.seq := Store.Fanout.tryNext_seq _ _
      rw [hseq]
      exact received_prefix (hinv.session.served _ c hopen.client) hholds
    · cases (s.session.fanout.tryNext c.subscription).1 <;> rfl

theorem Inv.step (hinv : s.Inv keys start since) {move : Move}
    (hguard : s.Ordered start move ∧ s.AtDelivery Clean move)
    (hstep : s.step keys move = some s') : s'.Inv keys start since := by
  cases move with
  | call call =>
      simp only [LiveStream.step] at hstep
      split_ifs at hstep with hcall
      obtain ⟨session, hsession, rfl⟩ := Option.map_eq_some_iff.mp hstep
      exact hinv.call hcall hsession hguard.1
  | rebuild =>
      cases hstep
      exact hinv.rebuild
  | connect =>
      simp only [LiveStream.step] at hstep
      split_ifs at hstep with hnone
      cases hstep
      exact hinv.connect
  | drain =>
      obtain ⟨connection, hconnection, hbind⟩ := Option.bind_eq_some_iff.mp hstep
      obtain ⟨c, hclient, hif⟩ := Option.bind_eq_some_iff.mp hbind
      split_ifs at hif with hholds
      cases hif
      exact hinv.drain hconnection hclient hholds
  | forward =>
      obtain ⟨connection, hconnection, hmatch⟩ := Option.bind_eq_some_iff.mp hstep
      cases hreloads : connection.reloads with
      | nil =>
          rw [hreloads] at hmatch
          cases hmatch
      | cons generation rest =>
          rw [hreloads] at hmatch
          cases hmatch
          exact hinv.forward hconnection
  | deliver =>
      obtain ⟨connection, hconnection, hmatch⟩ := Option.bind_eq_some_iff.mp hstep
      cases hframes : connection.frames with
      | nil =>
          rw [hframes] at hmatch
          cases hmatch
      | cons frame rest =>
          rw [hframes] at hmatch
          cases hmatch
          have hclean : Clean s.page frame := hguard.2 connection frame rest hconnection hframes
          have hwritten : frame.Written := by
            refine hinv.written connection hconnection frame ?_
            rw [hframes]
            exact List.mem_cons_self
          cases hwritten with
          | ready generation =>
              have hsome := hclean.1 rfl
              have hsame : advanceTo generation s.page.heard.cursor = s.page.heard.cursor :=
                advanceTo_eq_self_iff.mpr hsome
              have hpage : s.page.receive (readyFrame generation) = s.page := by
                change s.page.advance generation = s.page
                unfold LivePage.advance
                rw [hsame]
              rw [hpage]
              refine hinv.skip hconnection hframes rfl (fun _ _ hnone => ?_)
              obtain ⟨k, hk, -⟩ := hsome
              rw [hnone] at hk
              cases hk
          | reload generation =>
              exact hinv.skip hconnection hframes rfl (fun _ heq => nomatch heq)
          | durable event =>
              cases event with
              | update u => exact hinv.update hconnection hframes
              | resync seq => exact absurd rfl (hclean.2 seq)
  | cut =>
      obtain ⟨connection, hconnection, rfl⟩ := Option.map_eq_some_iff.mp hstep
      exact
        { hinv with
          written := fun _ h => nomatch h
          opened := fun _ h => nomatch h }

theorem Inv.delivery_iff (hinv : s.Inv keys start since) (move : Move) :
    s.AtDelivery Clean move ↔ s.AtDelivery Faithful move := by
  cases move with
  | deliver =>
      refine forall_congr' (fun connection => forall_congr' (fun frame => ?_))
      refine forall_congr' (fun rest => imp_congr_right (fun hconnection => ?_))
      refine imp_congr_right (fun hframes => ?_)
      refine clean_iff (hinv.written connection hconnection frame ?_)
      rw [hframes]
      exact List.mem_cons_self
  | _ => exact Iff.rfl

theorem Inv.complete (hinv : s.Inv keys start since) : s.Complete keys since := by
  intro connection c hconnection hframes hclient hdrained u hu hkey habove
  obtain ⟨c', done, todo, hopen⟩ := hinv.opened connection hconnection
  rw [hopen.client] at hclient
  cases hclient
  have htodo : todo = [] := by
    rw [← hopen.frames, hframes]
    rfl
  have hsome : c.since ≠ none := by
    intro hnull
    obtain ⟨-, generation, rest, hrest⟩ := hopen.null hnull
    rw [hframes] at hrest
    cases hrest
  obtain ⟨k₀, hk₀⟩ := Option.ne_none_iff_exists'.mp hsome
  obtain ⟨k, hk, hk₀k⟩ := hopen.since k₀ hk₀
  refine hinv.told k hk u hu hkey habove ?_
  by_contra hpast
  have hserved := hinv.session.served _ c hopen.client
  have hall : done = c.opening ++ c.later s.session.published c.subscription.seq := by
    rw [← hserved.received_of_drained hdrained, hopen.received, htodo, List.append_nil]
  have hnotice : c.opening ≠ [.resync c.subscription.seq] := by
    intro hopening
    have hmem : .resync c.subscription.seq ∈ done := by
      rw [hall, hopening]
      exact List.mem_cons_self
    obtain ⟨v, hv⟩ := hopen.updates _ hmem
    cases hv
  have hmem := hopen.mem_stream hserved.opening hk₀ hnotice hu hkey
    (Nat.lt_of_le_of_lt hk₀k (Nat.lt_of_not_le hpast))
  rw [← hall] at hmem
  obtain ⟨n, hn, hle⟩ := hopen.covered _ hmem
  rw [hk] at hn
  cases hn
  exact hpast hle

end Steps

end LiveStream

end Invariant

section Runs

open LiveStream

/-- Over every run of a development server and a page that holds a stream open, from any
cursor, with any announcements, rebuilds and reconnections: each frame reaches the page as
what it is, and the page is told every update past the position it started from whenever
nothing is on its way, exactly when no resync is delivered and every `ready` frame that is
delivered finds a cursor at or past its generation. -/
theorem streams_faithful_iff (keys : Keys) (start : Seq) (since : Option Seq)
    (moves : List LiveStream.Move)
    (hordered : (LiveStream.machine keys).Meets (Ordered start) (LiveStream.new start since)
      moves) :
    (LiveStream.machine keys).Meets (AtDelivery Clean) (LiveStream.new start since) moves ↔
      (LiveStream.machine keys).Meets (AtDelivery Faithful) (LiveStream.new start since)
          moves ∧
        ∀ first rest s, moves = first ++ rest →
          (LiveStream.machine keys).run (LiveStream.new start since) first = some s →
            s.Complete keys since := by
  let M := LiveStream.machine keys
  have hstep : ∀ (s : LiveStream) (move : LiveStream.Move) (s' : LiveStream),
      s.Inv keys start since → (s.Ordered start move ∧ s.AtDelivery Clean move) →
        M.step s move = some s' → s'.Inv keys start since :=
    fun _ _ _ hinv hguard hstep => hinv.step hguard hstep
  have hcongr := M.meets_congr
    (fun s move s' hinv hordered hclean he => hstep s move s' hinv ⟨hordered, hclean⟩ he)
    (fun _ move hinv => hinv.delivery_iff move) inv_new hordered
  constructor
  · intro hclean
    refine ⟨hcongr.mp hclean, ?_⟩
    intro first rest s hmoves hfirst
    have hboth := Machine.Meets.and M hordered hclean
    rw [hmoves] at hboth
    exact (M.run_invariant_of_meets hstep inv_new (M.meets_of_meets_append hboth)
      hfirst).complete
  · exact fun h => hcongr.mpr h.1

/-- A fresh store, one rebuild, a page that connects, and the store's first update. -/
def droppedMoves : List LiveStream.Move :=
  [.rebuild, .connect, .deliver, .call (.publishAll [⟨1, "a", none⟩]), .drain, .deliver]

theorem ordered_droppedMoves :
    (LiveStream.machine (Keys.new ["a"])).Meets (Ordered 0) (LiveStream.new 0 none)
      droppedMoves := by
  refine ⟨trivial, fun s hs => ⟨trivial, fun s' hs' => ⟨trivial, fun t ht => ⟨?_, ?_⟩⟩⟩⟩
  · cases hs
    cases hs'
    cases ht
    exact ⟨rfl, trivial⟩
  · exact fun _ _ => ⟨trivial, fun _ _ => ⟨trivial, fun _ _ => trivial⟩⟩

theorem streams_faithful_iff_dropped :
    (LiveStream.machine (Keys.new ["a"])).Meets (AtDelivery Clean) (LiveStream.new 0 none)
        droppedMoves ↔
      (LiveStream.machine (Keys.new ["a"])).Meets (AtDelivery Faithful)
          (LiveStream.new 0 none) droppedMoves ∧
        ∀ first rest s, droppedMoves = first ++ rest →
          (LiveStream.machine (Keys.new ["a"])).run (LiveStream.new 0 none) first = some s →
            s.Complete (Keys.new ["a"]) none :=
  streams_faithful_iff (Keys.new ["a"]) 0 none droppedMoves ordered_droppedMoves

/-- The `ready` frame takes the cursor to the generation, and the update is dropped. -/
theorem streams_drop :
    ¬ (LiveStream.machine (Keys.new ["a"])).Meets (AtDelivery Faithful)
        (LiveStream.new 0 none) droppedMoves ∧
      ∃ s, (LiveStream.machine (Keys.new ["a"])).run (LiveStream.new 0 none) droppedMoves =
          some s ∧ s.page = ⟨⟨some 1, []⟩, 0⟩ ∧ ¬ s.Complete (Keys.new ["a"]) none := by
  constructor
  · intro hmeets
    have hready := ((hmeets.2 _ rfl).2 _ rfl).1
    have hsame : advanceTo 1 none = none := hready _ _ _ rfl rfl
    cases hsame
  · refine ⟨_, rfl, rfl, fun hcomplete => ?_⟩
    have htold := hcomplete _ _ rfl rfl rfl (by decide) ⟨1, "a", none⟩ List.mem_cons_self
      (by decide) (fun _ hk => nomatch hk)
    exact List.not_mem_nil htold

end Runs

end Live
end Zdeceptron
