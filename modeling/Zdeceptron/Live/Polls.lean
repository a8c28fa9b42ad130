import Zdeceptron.Live.Announced

/-!
# A page that polls

Each poll is a subscription of its own, which resumes after the cursor the answers before
it left behind, is drained without waiting and then dropped.

* `polls_prompt_iff`: no update is missed exactly when no poll that has one to deliver was
  sent with a null cursor.
-/

namespace Zdeceptron
namespace Live

open Library
open Store (Seq Update Keys Session Client)

section Polls

/-- A poll that was sent: its subscription, how many updates had been announced when it was
opened, and its answer. -/
structure Poll where
  index : Nat
  opened : Nat
  answer : Option (List Store.Event)
deriving DecidableEq

/-- A server and a page that polls it.  `handled` says how many updates had been announced
when the first answer arrived, or when the last poll that was answered since was opened. -/
structure Poller where
  session : Session
  heard : Heard
  poll : Option Poll
  handled : Option Nat
deriving DecidableEq

inductive Poller.Move
  /-- A call of the store, or of another subscriber. -/
  | call (call : Store.Call)
  | ask
  /-- The server takes the next event, or answers when there is none. -/
  | drain
  | arrive
  | lose
deriving DecidableEq

namespace Poller

variable (keys : Keys)

def new (start : Seq) : Poller := ⟨Session.new start, ⟨none, []⟩, none, none⟩

def ask (s : Poller) : Poller :=
  { s with
    session := s.session.subscribe keys s.heard.cursor
    poll := some ⟨s.session.clients.length, s.session.published.length, none⟩ }

/-- `try_next` once, and the answer when it finds nothing. -/
def drain (s : Poller) (p : Poll) (c : Client) : Poller :=
  if s.session.drained c then
    { s with
      session := { s.session with fanout := s.session.fanout.dropSubscription c.subscription }
      poll := some { p with answer := some c.received } }
  else { s with session := s.session.tryNext p.index c }

def arrive (s : Poller) (p : Poll) (events : List Store.Event) : Poller :=
  { s with
    heard := s.heard.hearAll events
    poll := none
    handled := some (if s.handled.isSome then p.opened else s.session.published.length) }

def step (s : Poller) : Move → Option Poller
  | .call call =>
      if elsewhere (s.poll.map Poll.index) call then
        (s.session.step call).map (fun session => { s with session := session })
      else none
  | .ask => if s.poll.isNone then some (s.ask keys) else none
  | .drain =>
      s.poll.bind (fun p =>
        (s.session.clients[p.index]?).bind (fun c =>
          if p.answer.isNone && s.session.holds c then some (s.drain p c) else none))
  | .arrive => s.poll.bind (fun p => p.answer.map (s.arrive p))
  | .lose => s.poll.map (fun _ => { s with poll := none })

def machine : Machine Poller Move := ⟨step keys⟩

/-- The updates a poll has to deliver: those to the page's keys that were announced before
it was opened and after the first answer, or after the last poll before it was opened. -/
def due (s : Poller) (p : Poll) : List Update :=
  match s.handled with
  | none => []
  | some handled =>
      ((s.session.published.take p.opened).drop handled).filter
        (fun u => keys.contains u.key)

def Ordered (start : Seq) (s : Poller) : Move → Prop
  | .call call => InOrder start s.session call
  | _ => True

def Resumes (s : Poller) : Move → Prop
  | .arrive => ∀ p events, s.poll = some p → p.answer = some events → s.due keys p ≠ [] →
      s.heard.cursor ≠ none
  | _ => True

/-- After an answer every update that was due has reached the cells, unless the answer asks
for a resync; and if any was due the cursor is not null. -/
def Prompt (s : Poller) : Move → Prop
  | .arrive => ∀ p events, s.poll = some p → p.answer = some events →
      (∀ u ∈ s.due keys p,
        u ∈ (s.heard.hearAll events).told ∨ ∃ seq, .resync seq ∈ events) ∧
        (s.due keys p ≠ [] → (s.heard.hearAll events).cursor ≠ none)
  | _ => True

end Poller

section Invariant

variable (keys : Keys) (start : Seq)

structure Poller.Sent (s : Poller) (p : Poll) (c : Client) : Prop where
  client : s.session.clients[p.index]? = some c
  keys : c.keys = keys
  since : c.since = s.heard.cursor
  opened : c.subscription.seq = start + p.opened
  within : p.opened ≤ s.session.published.length
  cursor : ∀ k, s.heard.cursor = some k → k ≤ start + p.opened
  handled : ∀ k, s.handled = some k → k ≤ p.opened
  answer : ∀ events, p.answer = some events → ∃ late, late <+: s.session.published ∧
    events = c.opening ++ c.later late c.subscription.seq

/-- The cursor is a position the server reached, and every update to the page's keys that
may still be due and is not past the cursor has reached the cells. -/
structure Poller.Inv (s : Poller) : Prop where
  session : s.session.Inv start
  cursor : ∀ k, s.heard.cursor = some k → k ≤ start + s.session.published.length
  handled : ∀ k, s.handled = some k → k ≤ s.session.published.length
  told : s.heard.told ≠ [] → s.heard.cursor ≠ none
  reached : ∀ n k, s.handled = some n → s.heard.cursor = some k →
    ∀ u ∈ s.session.published, start + n < u.seq → keys.contains u.key = true → u.seq ≤ k →
      u ∈ s.heard.told
  sent : ∀ p, s.poll = some p → ∃ c, s.Sent keys start p c

namespace Poller

variable {keys start} {s : Poller} {p : Poll} {c : Client}

theorem inv_new : (Poller.new start).Inv keys start where
  session := Store.Session.inv_new start
  cursor := fun _ hk => nomatch hk
  handled := fun _ hk => nomatch hk
  told := fun h => absurd rfl h
  reached := fun _ _ hn => nomatch hn
  sent := fun _ hp => nomatch hp

variable {u : Update}

theorem mem_due (hinv : s.Inv keys start) {n : Nat} (hn : s.handled = some n) :
    u ∈ s.due keys p ↔ u ∈ s.session.published ∧ start + n < u.seq ∧
      u.seq ≤ start + p.opened ∧ keys.contains u.key = true := by
  have hcons := hinv.session.consecutive
  have htake : Consecutive Update.seq start (s.session.published.take p.opened) := by
    rw [← List.take_append_drop p.opened s.session.published] at hcons
    exact (consecutive_append.mp hcons).1
  unfold due
  rw [hn]
  simp only
  rw [List.mem_filter, htake.mem_drop_iff, hcons.mem_take_iff]
  tauto

theorem Sent.opensWell (hsent : s.Sent keys start p c) (hinv : s.Inv keys start) :
    c.OpensWell s.session.published :=
  (hinv.session.served p.index c hsent.client).opening

theorem Sent.pairwise (hsent : s.Sent keys start p c) (hinv : s.Inv keys start)
    {late : List Update} (hlate : late <+: s.session.published) :
    (c.opening ++ c.later late c.subscription.seq).Pairwise (fun e f => e.seq < f.seq) := by
  refine (hinv.session.stream_pairwise (hsent.opensWell hinv)).sublist ?_
  exact (List.Sublist.refl _).append ((hlate.sublist.filter _).map _)

theorem Sent.told_opened (hsent : s.Sent keys start p c) (hinv : s.Inv keys start)
    {late : List Update} (hlate : late <+: s.session.published) (hcursor : s.heard.cursor ≠ none)
    (hu : u ∈ s.session.published) (hopened : u.seq ≤ start + p.opened)
    (hkey : keys.contains u.key = true) (hpast : reached u.seq s.heard.cursor = false) :
    u ∈ (s.heard.hearAll (c.opening ++ c.later late c.subscription.seq)).told ∨
      ∃ seq, .resync seq ∈ c.opening ++ c.later late c.subscription.seq := by
  obtain ⟨k, hk⟩ := Option.ne_none_iff_exists'.mp hcursor
  have hwell := hsent.opensWell hinv
  unfold Client.OpensWell at hwell
  rw [hsent.since, hk] at hwell
  rcases hwell with hwanted | hresync
  · left
    refine Heard.told_of_mem (hsent.pairwise hinv hlate) (List.mem_append_left _ ?_) hpast
    rw [hk, Live.reached, decide_eq_false_iff_not, Nat.not_le] at hpast
    rw [hwanted, hsent.opened, Nat.min_eq_left (hsent.cursor k hk)]
    refine List.mem_map_of_mem (List.mem_filter.mpr ⟨hu, ?_⟩)
    rw [hsent.keys, hkey]
    simp [hpast, hopened]
  · right
    rw [hresync]
    exact ⟨_, List.mem_append_left _ (List.mem_singleton_self _)⟩

theorem Sent.told_late (hsent : s.Sent keys start p c) (hinv : s.Inv keys start)
    {late : List Update} (hlate : late <+: s.session.published)
    (hu : u ∈ late) (hopened : start + p.opened < u.seq) (hkey : keys.contains u.key = true) :
    u ∈ (s.heard.hearAll (c.opening ++ c.later late c.subscription.seq)).told := by
  refine Heard.told_of_mem (hsent.pairwise hinv hlate) (List.mem_append_right _ ?_) ?_
  · refine List.mem_map_of_mem (List.mem_filter.mpr ⟨hu, ?_⟩)
    rw [hsent.keys, hkey, hsent.opened]
    simp [hopened]
  · cases hk : s.heard.cursor with
    | none => rfl
    | some k =>
        rw [Live.reached, decide_eq_false_iff_not, Nat.not_le]
        exact Nat.lt_of_le_of_lt (hsent.cursor k hk) hopened

section Steps

variable {s' : Poller} {events : List Store.Event}

theorem Sent.grow (hsent : s.Sent keys start p c) (hheard : s'.heard = s.heard)
    (hhandled : s'.handled = s.handled)
    (hpublished : s.session.published <+: s'.session.published)
    (hclient : s'.session.clients[p.index]? = some c) : s'.Sent keys start p c where
  client := hclient
  keys := hsent.keys
  since := by rw [hheard, hsent.since]
  opened := hsent.opened
  within := Nat.le_trans hsent.within hpublished.length_le
  cursor := by
    rw [hheard]
    exact hsent.cursor
  handled := by
    rw [hhandled]
    exact hsent.handled
  answer := fun events hevents =>
    let ⟨late, hlate, heq⟩ := hsent.answer events hevents
    ⟨late, hlate.trans hpublished, heq⟩

theorem Inv.call (hinv : s.Inv keys start) {call : Store.Call} {session : Session}
    (hcall : elsewhere (s.poll.map Poll.index) call = true) (hstep : s.session.step call = some session)
    (hordered : InOrder start s.session call) :
    Inv keys start { s with session := session } := by
  obtain ⟨rest, hrest⟩ := Store.Session.published_prefix hstep
  have hcons := hordered.step hinv.session.consecutive hstep
  have hlonger : s.session.published.length ≤ session.published.length := by
    rw [← hrest, List.length_append]
    exact Nat.le_add_right _ _
  refine
    { session := hinv.session.step hstep hcons
      cursor := fun k hk => Nat.le_trans (hinv.cursor k hk) (Nat.add_le_add_left hlonger _)
      handled := fun k hk => Nat.le_trans (hinv.handled k hk) hlonger
      told := hinv.told
      reached := ?_
      sent := ?_ }
  · intro n k hn hk u hu hlow hkey hhigh
    refine hinv.reached n k hn hk u ?_ hlow hkey hhigh
    -- a new update is past the cursor
    have hu' : u ∈ session.published.take s.session.published.length :=
      hcons.mem_take_iff.mpr ⟨hu, Nat.le_trans hhigh (hinv.cursor k hk)⟩
    rwa [← hrest, List.take_left] at hu'
  · intro p hp
    obtain ⟨c, hsent⟩ := hinv.sent p hp
    change s.poll = some p at hp
    rw [hp] at hcall
    exact ⟨c, hsent.grow rfl rfl ⟨rest, hrest⟩ (client_of_elsewhere hcall hstep hsent.client)⟩

theorem Inv.ask (hinv : s.Inv keys start) : (s.ask keys).Inv keys start where
  session := hinv.session.subscribe keys s.heard.cursor
  cursor := hinv.cursor
  handled := hinv.handled
  told := hinv.told
  reached := hinv.reached
  sent := by
    rintro p ⟨⟩
    refine ⟨_, List.getElem?_concat_length, rfl, rfl, ?_, le_refl _, hinv.cursor, hinv.handled,
      fun _ hevents => nomatch hevents⟩
    exact hinv.session.latest

theorem Inv.drain (hinv : s.Inv keys start) (hp : s.poll = some p)
    (hsent : s.Sent keys start p c) (hanswer : p.answer = none) :
    (s.drain p c).Inv keys start := by
  have hserved := hinv.session.served p.index c hsent.client
  unfold Poller.drain
  by_cases hdrained : s.session.drained c = true
  · rw [if_pos hdrained]
    refine { hinv with session := hinv.session.drop hsent.client, sent := ?_ }
    rintro q ⟨⟩
    refine ⟨c, ?_⟩
    refine { hsent with answer := ?_ }
    rintro events ⟨⟩
    exact ⟨s.session.published, List.prefix_refl _, hserved.received_of_drained hdrained⟩
  · rw [if_neg hdrained]
    refine { hinv with session := hinv.session.tryNext hsent.client, sent := ?_ }
    intro q hq
    change s.poll = some q at hq
    rw [hp] at hq
    cases hq
    have hlt := (List.getElem?_eq_some_iff.mp hsent.client).1
    refine ⟨{ c with
      subscription := (s.session.fanout.tryNext c.subscription).2.2
      received := c.received ++ (s.session.fanout.tryNext c.subscription).1.toList }, ?_⟩
    refine
      { hsent with
        client := List.getElem?_set_self hlt
        opened := (Store.Fanout.tryNext_seq _ _).trans hsent.opened
        answer := ?_ }
    intro events hevents
    rw [hanswer] at hevents
    cases hevents

theorem Sent.cursor_le (hsent : s.Sent keys start p c) (hinv : s.Inv keys start)
    {late : List Update} (hlate : late <+: s.session.published) {k : Seq}
    (hk : (s.heard.hearAll (c.opening ++ c.later late c.subscription.seq)).cursor = some k) :
    k ≤ start + p.opened ∨ k ≤ start + late.length := by
  have hcons : Consecutive Update.seq start late := by
    obtain ⟨rest, hrest⟩ := hlate
    have h := hinv.session.consecutive
    rw [← hrest] at h
    exact (consecutive_append.mp h).1
  rcases Heard.cursor_hearAll hk with hold | ⟨event, hevent, rfl⟩
  · exact .inl (hsent.cursor k hold)
  · rcases List.mem_append.mp hevent with hopening | hlater
    · left
      rw [← hsent.opened]
      exact (hsent.opensWell hinv).upto event hopening
    · right
      obtain ⟨u, hu, rfl⟩ := List.mem_map.mp hlater
      exact (hcons.bounds (List.mem_filter.mp hu).1).2

theorem Inv.arrive (hinv : s.Inv keys start) (hsent : s.Sent keys start p c)
    (hanswer : p.answer = some events) :
    (s.arrive p events).Inv keys start := by
  obtain ⟨late, hlate, rfl⟩ := hsent.answer events hanswer
  have hcursor : ∀ k, (s.heard.hearAll (c.opening ++ c.later late c.subscription.seq)).cursor =
      some k → k ≤ start + s.session.published.length := by
    intro k hk
    rcases hsent.cursor_le hinv hlate hk with hle | hle
    · exact Nat.le_trans hle (Nat.add_le_add_left hsent.within _)
    · exact Nat.le_trans hle (Nat.add_le_add_left hlate.length_le _)
  refine
    { session := hinv.session
      cursor := hcursor
      handled := ?_
      told := ?_
      reached := ?_
      sent := fun _ hq => nomatch hq }
  · rintro k ⟨⟩
    split_ifs with hfirst
    · exact hsent.within
    · exact le_refl _
  · intro htold
    by_cases hevents : c.opening ++ c.later late c.subscription.seq = []
    · have hsame : (s.arrive p (c.opening ++ c.later late c.subscription.seq)).heard =
          s.heard := by
        rw [hevents]
        rfl
      rw [hsame] at htold ⊢
      exact hinv.told htold
    · exact Heard.cursor_ne_none_of_events hevents
  · rintro n k ⟨⟩ hk u hu hlow hkey hhigh
    have hopened : start + p.opened < u.seq := by
      refine Nat.lt_of_le_of_lt (Nat.add_le_add_left ?_ start) hlow
      split_ifs with hfirst
      · exact le_refl _
      · exact hsent.within
    rcases hsent.cursor_le hinv hlate hk with hle | hle
    · exact absurd (Nat.le_trans hhigh hle) (Nat.not_le.mpr hopened)
    · refine hsent.told_late hinv hlate ?_ hopened hkey
      obtain ⟨rest, hrest⟩ := hlate
      have hu' : u ∈ s.session.published.take late.length :=
        hinv.session.consecutive.mem_take_iff.mpr ⟨hu, Nat.le_trans hhigh hle⟩
      rwa [← hrest, List.take_left] at hu'

theorem Inv.step (hinv : s.Inv keys start) {move : Move} (hordered : s.Ordered start move)
    (hstep : s.step keys move = some s') : s'.Inv keys start := by
  cases move with
  | call call =>
      simp only [Poller.step] at hstep
      split_ifs at hstep with hcall
      obtain ⟨session, hsession, rfl⟩ := Option.map_eq_some_iff.mp hstep
      exact hinv.call hcall hsession hordered
  | ask =>
      simp only [Poller.step] at hstep
      split_ifs at hstep with hnone
      cases hstep
      exact hinv.ask
  | drain =>
      obtain ⟨p, hp, hbind⟩ := Option.bind_eq_some_iff.mp hstep
      obtain ⟨c, hclient, hif⟩ := Option.bind_eq_some_iff.mp hbind
      split_ifs at hif with hready
      cases hif
      rw [Bool.and_eq_true, Option.isNone_iff_eq_none] at hready
      obtain ⟨d, hsent⟩ := hinv.sent p hp
      rw [hsent.client] at hclient
      cases hclient
      exact hinv.drain hp hsent hready.1
  | arrive =>
      obtain ⟨p, hp, hmap⟩ := Option.bind_eq_some_iff.mp hstep
      obtain ⟨events, hanswer, rfl⟩ := Option.map_eq_some_iff.mp hmap
      obtain ⟨c, hsent⟩ := hinv.sent p hp
      exact hinv.arrive hsent hanswer
  | lose =>
      obtain ⟨p, hp, rfl⟩ := Option.map_eq_some_iff.mp hstep
      exact { hinv with sent := fun _ hq => nomatch hq }

theorem Sent.seq_of_null (hsent : s.Sent keys start p c) (hinv : s.Inv keys start)
    (hnull : s.heard.cursor = none) (hanswer : p.answer = some events) :
    ∀ event ∈ events, (∃ u, event = .update u) ∧ start + p.opened < event.seq := by
  obtain ⟨late, hlate, rfl⟩ := hsent.answer events hanswer
  have hwell := hsent.opensWell hinv
  unfold Client.OpensWell at hwell
  rw [hsent.since, hnull] at hwell
  intro event hevent
  rw [hwell, List.nil_append] at hevent
  obtain ⟨u, hu, rfl⟩ := List.mem_map.mp hevent
  have hlow := (List.mem_filter.mp hu).2
  rw [hsent.opened, Bool.and_eq_true, decide_eq_true_eq] at hlow
  exact ⟨⟨u, rfl⟩, hlow.1⟩

theorem Inv.prompt_iff (hinv : s.Inv keys start) (move : Move) :
    s.Resumes keys move ↔ s.Prompt keys move := by
  cases move with
  | call call => exact Iff.rfl
  | ask => exact Iff.rfl
  | drain => exact Iff.rfl
  | lose => exact Iff.rfl
  | arrive =>
      refine forall_congr' (fun p => forall_congr' (fun events => ?_))
      refine imp_congr_right (fun hp => imp_congr_right (fun hanswer => ?_))
      obtain ⟨c, hsent⟩ := hinv.sent p hp
      obtain ⟨late, hlate, hevents⟩ := hsent.answer events hanswer
      cases hn : s.handled with
      | none =>
          have hdue : s.due keys p = [] := by
            unfold due
            rw [hn]
          rw [hdue]
          exact iff_of_true (fun h => absurd rfl h)
            ⟨fun u hu => absurd hu List.not_mem_nil, fun h => absurd rfl h⟩
      | some n =>
          constructor
          · intro hresumes
            refine ⟨?_, fun hdue => Heard.cursor_ne_none (hresumes hdue)⟩
            intro u hu
            obtain ⟨hpublished, hlow, hopened, hkey⟩ := (mem_due hinv hn).mp hu
            have hcursor := hresumes (List.ne_nil_of_mem hu)
            obtain ⟨k, hk⟩ := Option.ne_none_iff_exists'.mp hcursor
            by_cases hle : u.seq ≤ k
            · exact .inl (Heard.told_hearAll
                (hinv.reached n k hn hk u hpublished hlow hkey hle))
            · rw [hevents]
              refine hsent.told_opened hinv hlate hcursor hpublished hopened hkey ?_
              rw [hk, Live.reached, decide_eq_false_iff_not]
              exact hle
          · rintro ⟨hprompt, -⟩ hdue hnull
            obtain ⟨u, hu⟩ := List.exists_mem_of_ne_nil _ hdue
            obtain ⟨-, -, hopened, -⟩ := (mem_due hinv hn).mp hu
            have hlater := hsent.seq_of_null hinv hnull hanswer
            rcases hprompt u hu with htold | ⟨seq, hresync⟩
            · rcases Heard.mem_of_told htold with hold | hmem
              · exact hinv.told (List.ne_nil_of_mem hold) hnull
              · exact absurd hopened (Nat.not_le.mpr (hlater _ hmem).2)
            · obtain ⟨⟨v, hv⟩, -⟩ := hlater _ hresync
              cases hv

end Steps

end Poller

end Invariant

/-- Over every run of a page that polls, its polls interleaved with announcements and with
other subscribers in any way: each answer delivers all that was due, and leaves a cursor if
anything was, exactly when no poll that has something to deliver was sent with a null
cursor. -/
theorem polls_prompt_iff (keys : Keys) (start : Seq) (moves : List Poller.Move)
    (hordered : (Poller.machine keys).Meets (Poller.Ordered start) (Poller.new start) moves) :
    (Poller.machine keys).Meets (Poller.Resumes keys) (Poller.new start) moves ↔
      (Poller.machine keys).Meets (Poller.Prompt keys) (Poller.new start) moves :=
  (Poller.machine keys).meets_congr
    (fun _ _ _ hinv hmove _ hstep => Poller.Inv.step hinv hmove hstep)
    (fun _ move hinv => hinv.prompt_iff move) Poller.inv_new hordered

def missedMoves : List Poller.Move :=
  [.ask, .drain, .arrive, .call (.publishAll [⟨1, "a", none⟩]), .ask, .drain, .arrive]

theorem ordered_missedMoves :
    (Poller.machine (Keys.new ["a"])).Meets (Poller.Ordered 0) (Poller.new 0) missedMoves := by
  refine ⟨trivial, fun s hs => ⟨trivial, fun s' hs' => ⟨trivial, fun t ht => ⟨?_, ?_⟩⟩⟩⟩
  · cases hs
    cases hs'
    cases ht
    exact ⟨rfl, trivial⟩
  · exact fun _ _ => ⟨trivial, fun _ _ => ⟨trivial, fun _ _ => ⟨trivial, fun _ _ => trivial⟩⟩⟩

theorem polls_prompt_iff_missed :
    (Poller.machine (Keys.new ["a"])).Meets (Poller.Resumes (Keys.new ["a"])) (Poller.new 0)
        missedMoves ↔
      (Poller.machine (Keys.new ["a"])).Meets (Poller.Prompt (Keys.new ["a"])) (Poller.new 0)
        missedMoves :=
  polls_prompt_iff (Keys.new ["a"]) 0 missedMoves ordered_missedMoves

/-- The second answer does not deliver the update, and the cursor stays null. -/
theorem polls_miss :
    ((Poller.machine (Keys.new ["a"])).run (Poller.new 0) missedMoves).map Poller.heard =
        some ⟨none, []⟩ ∧
      ¬ (Poller.machine (Keys.new ["a"])).Meets (Poller.Prompt (Keys.new ["a"]))
        (Poller.new 0) missedMoves := by
  refine ⟨rfl, fun hmeets => ?_⟩
  have hlast := ((((((hmeets.2 _ rfl).2 _ rfl).2 _ rfl).2 _ rfl).2 _ rfl).2 _ rfl).1
  exact (hlast _ _ rfl rfl).2 (by decide) rfl

end Polls

end Live
end Zdeceptron
