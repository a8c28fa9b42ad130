import Zdeceptron.Library.Machine
import Zdeceptron.Store.Watch

/-!
# Runs of a fan-out

A session is a fan-out together with the clients that subscribed to it and what
each of them received so far.  Its events are the calls of the fan-out: publish,
subscribe, take the next event, drop a subscription.

The invariant behind every statement is that the stream of a connected client,
that is what it received, what is pending and what is queued on its channel, is
its opening followed by every later update to one of its keys.
-/

namespace Zdeceptron
namespace Store

open Library

section Retain

/-- Some listed subscriber on channel `i` wants the update. -/
def heard (update : Update) (subscribers : List (Keys × Nat)) (i : Nat) : Bool :=
  subscribers.any (fun p => decide (p.2 = i) && p.1.contains update.key)

/-- The receiver of channel `i` is there. -/
def connectedAt (channels : List Channel) (i : Nat) : Bool :=
  (channels[i]?).any (fun channel => channel.connected)

def Channel.hear (update : Update) (wanted : Bool) (channel : Channel) : Channel :=
  if channel.connected && wanted then
    { channel with queue := channel.queue ++ [update] }
  else channel

variable {update : Update}

variable {channels sent : List Channel} {tx : Nat}

theorem send_eq_some (h : send channels tx update = some sent) (i : Nat) :
    sent[i]? = (channels[i]?).map (Channel.hear update (decide (tx = i))) ∧
      connectedAt channels tx = true := by
  unfold send at h
  cases hc : channels[tx]? with
  | none => simp [hc] at h
  | some channel =>
      rw [hc] at h
      by_cases hconn : channel.connected = true
      · simp only [hconn, if_true, Option.some.injEq] at h
        subst h
        refine ⟨?_, by simp [connectedAt, hc, hconn]⟩
        have hlt : tx < channels.length := (List.getElem?_eq_some_iff.mp hc).1
        by_cases htx : tx = i
        · subst htx
          rw [List.getElem?_set_self hlt, hc]
          simp [Channel.hear, hconn]
        · rw [List.getElem?_set_ne htx]
          cases channels[i]? <;> simp [Channel.hear, htx]
      · simp [hconn] at h

theorem send_eq_none {channels : List Channel}
    (h : send channels tx update = none) : connectedAt channels tx = false := by
  unfold send at h
  cases hc : channels[tx]? with
  | none => simp [connectedAt, hc]
  | some channel =>
      rw [hc] at h
      by_cases hconn : channel.connected = true
      · simp [hconn] at h
      · simpa [connectedAt, hc] using hconn

theorem connectedAt_of_send (h : send channels tx update = some sent) (i : Nat) :
    connectedAt sent i = connectedAt channels i := by
  unfold connectedAt
  rw [(send_eq_some h i).1]
  cases channels[i]? with
  | none => rfl
  | some channel =>
      simp only [Option.map_some, Option.any_some, Channel.hear]
      split_ifs <;> rfl

theorem retain_subscribers (update : Update) :
    ∀ (subscribers : List (Keys × Nat)) (channels : List Channel),
      (retain update subscribers channels).1 =
        subscribers.filter
          (fun p => !p.1.contains update.key || connectedAt channels p.2)
  | [], _ => rfl
  | (keys, tx) :: rest, channels => by
      unfold retain
      by_cases hk : keys.contains update.key = true
      · rw [if_pos hk]
        cases hs : send channels tx update with
        | none =>
            simp only
            rw [retain_subscribers update rest channels,
              List.filter_cons_of_neg (by simp [hk, send_eq_none hs])]
        | some sent =>
            simp only
            rw [retain_subscribers update rest sent,
              List.filter_cons_of_pos (by simp [(send_eq_some hs tx).2])]
            simp only [connectedAt_of_send hs]
      · rw [if_neg hk, retain_subscribers update rest channels,
          List.filter_cons_of_pos (by simp [hk])]

theorem retain_channels (update : Update) :
    ∀ (subscribers : List (Keys × Nat)) (channels : List Channel),
      (subscribers.map Prod.snd).Nodup → ∀ i,
        (retain update subscribers channels).2[i]? =
          (channels[i]?).map (Channel.hear update (heard update subscribers i))
  | [], channels, _, i => by
      cases hc : channels[i]? <;> simp [retain, heard, Channel.hear, hc]
  | (keys, tx) :: rest, channels, hnodup, i => by
      rw [List.map_cons, List.nodup_cons] at hnodup
      obtain ⟨hfresh, hrest⟩ := hnodup
      have hquiet : tx = i → heard update rest i = false := by
        rintro rfl
        simp only [heard, List.any_eq_false, Bool.and_eq_true, decide_eq_true_eq, not_and]
        rintro p hp hpi
        exact absurd (List.mem_map.mpr ⟨p, hp, hpi⟩) hfresh
      have hcons : heard update ((keys, tx) :: rest) i =
          ((decide (tx = i) && keys.contains update.key) || heard update rest i) := rfl
      unfold retain
      by_cases hk : keys.contains update.key = true
      · rw [if_pos hk]
        cases hs : send channels tx update with
        | none =>
            simp only
            rw [retain_channels update rest channels hrest i, hcons]
            by_cases htx : tx = i
            · have hoff := send_eq_none hs
              rw [htx] at hoff
              cases hc : channels[i]? with
              | none => rfl
              | some channel =>
                  simp only [connectedAt, hc, Option.any_some] at hoff
                  simp [Channel.hear, hoff]
            · simp [htx]
        | some sent =>
            simp only
            rw [retain_channels update rest sent hrest i, (send_eq_some hs i).1, hcons]
            by_cases htx : tx = i
            · rw [hquiet htx]
              cases channels[i]? with
              | none => rfl
              | some channel => simp [Channel.hear, htx, hk]
            · cases channels[i]? with
              | none => rfl
              | some channel => simp [Channel.hear, htx]
      · rw [if_neg hk, retain_channels update rest channels hrest i, hcons]
        simp [hk]

end Retain

section Session

/-- One subscriber: what it asked for, its end of the stream, what the stream
opened with and what it received so far. -/
structure Client where
  keys : Keys
  since : Option Seq
  subscription : Subscription
  opening : List Event
  received : List Event
deriving DecidableEq

structure Session where
  fanout : Fanout
  clients : List Client
  published : List Update
deriving DecidableEq

inductive Call
  | publishAll (updates : List Update)
  | subscribe (keys : Keys) (since : Option Seq)
  | tryNext (client : Nat)
  | drop (client : Nat)
deriving DecidableEq

namespace Session

def new (latest : Seq) : Session :=
  { fanout := Fanout.new latest, clients := [], published := [] }

def announce (s : Session) (update : Update) : Session :=
  { s with fanout := s.fanout.announce update, published := s.published ++ [update] }

def publishAll (s : Session) (updates : List Update) : Session :=
  { s with fanout := s.fanout.publishAll updates, published := s.published ++ updates }

def subscribe (s : Session) (keys : Keys) (since : Option Seq) : Session :=
  let opened := s.fanout.subscribe keys since
  { s with
    fanout := opened.1
    clients := s.clients ++
      [{ keys := keys, since := since, subscription := opened.2,
         opening := opened.2.pending, received := [] }] }

def holds (s : Session) (c : Client) : Bool :=
  connectedAt s.fanout.channels c.subscription.rx

def tryNext (s : Session) (i : Nat) (c : Client) : Session :=
  let (event, fanout, subscription) := s.fanout.tryNext c.subscription
  { s with
    fanout := fanout
    clients := s.clients.set i
      { c with subscription := subscription, received := c.received ++ event.toList } }

def step (s : Session) : Call → Option Session
  | .publishAll updates => some (s.publishAll updates)
  | .subscribe keys since => some (s.subscribe keys since)
  | .tryNext i =>
      (s.clients[i]?).bind (fun c => if s.holds c then some (s.tryNext i c) else none)
  | .drop i =>
      (s.clients[i]?).bind (fun c =>
        if s.holds c then
          some { s with fanout := s.fanout.dropSubscription c.subscription }
        else none)

def machine : Machine Session Call := ⟨step⟩

theorem publishAll_eq_foldl (s : Session) (updates : List Update) :
    s.publishAll updates = updates.foldl announce s := by
  induction updates generalizing s with
  | nil => simp [publishAll, Fanout.publishAll]
  | cons u us ih =>
      rw [List.foldl_cons, ← ih]
      simp [publishAll, announce, Fanout.publishAll]

end Session

end Session

section Invariant

/-- The updates queued on channel `i`. -/
def queueAt (channels : List Channel) (i : Nat) : List Update :=
  ((channels[i]?).map Channel.queue).getD []

namespace Client

def wanted (c : Client) (published : List Update) (low high : Seq) : List Event :=
  (published.filter (fun update =>
    decide (low < update.seq) && decide (update.seq ≤ high) &&
      c.keys.contains update.key)).map Event.update

def later (c : Client) (published : List Update) (low : Seq) : List Event :=
  (published.filter (fun update =>
    decide (low < update.seq) && c.keys.contains update.key)).map Event.update

/-- The opening is what was missed, or a notice that it cannot be replayed. -/
def OpensWell (c : Client) (published : List Update) : Prop :=
  match c.since with
  | none => c.opening = []
  | some seen =>
      c.opening = c.wanted published (min seen c.subscription.seq) c.subscription.seq ∨
        c.opening = [Event.resync c.subscription.seq]

end Client

namespace Session

/-- What holds of client `i` between any two calls. -/
structure Served (s : Session) (i : Nat) (c : Client) : Prop where
  rx : c.subscription.rx = i
  opened : c.subscription.seq ≤ s.fanout.latest
  opening : c.OpensWell s.published
  listed : connectedAt s.fanout.channels i = true →
    ∀ keys, (keys, i) ∈ s.fanout.subscribers ↔ keys = c.keys
  stream : connectedAt s.fanout.channels i = true →
    c.received ++ c.subscription.pending ++
        (queueAt s.fanout.channels i).map Event.update =
      c.opening ++ c.later s.published c.subscription.seq

structure Inv (start : Seq) (s : Session) : Prop where
  consecutive : Consecutive Update.seq start s.published
  latest : s.fanout.latest = start + s.published.length
  window : IsWindow BACKLOG s.fanout.backlog s.published
  aligned : s.clients.length = s.fanout.channels.length
  within : ∀ p ∈ s.fanout.subscribers, p.2 < s.fanout.channels.length
  nodup : (s.fanout.subscribers.map Prod.snd).Nodup
  served : ∀ i c, s.clients[i]? = some c → s.Served i c

theorem inv_new (start : Seq) : Inv start (Session.new start) where
  consecutive := consecutive_nil start
  latest := rfl
  window := isWindow_nil BACKLOG
  aligned := rfl
  within := by
    intro p hp
    cases hp
  nodup := List.nodup_nil
  served := by
    intro i c hc
    simp [Session.new] at hc

end Session

section Announce

variable {start : Seq} {s : Session} {update : Update}

theorem heard_of_listed {i : Nat} {keys : Keys} {subscribers : List (Keys × Nat)}
    (h : ∀ other, (other, i) ∈ subscribers ↔ other = keys) :
    heard update subscribers i = keys.contains update.key := by
  rw [Bool.eq_iff_iff]
  simp only [heard, List.any_eq_true, Bool.and_eq_true, decide_eq_true_eq]
  constructor
  · rintro ⟨⟨other, j⟩, hmem, hj, hkey⟩
    simp only at hj hkey
    subst hj
    rwa [← (h other).mp hmem]
  · intro hkey
    exact ⟨(keys, i), (h keys).mpr rfl, rfl, hkey⟩

theorem connectedAt_announce (hnodup : (s.fanout.subscribers.map Prod.snd).Nodup) (i : Nat) :
    connectedAt (s.announce update).fanout.channels i = connectedAt s.fanout.channels i := by
  unfold connectedAt
  simp only [Session.announce, Fanout.announce]
  rw [retain_channels update _ _ hnodup i]
  cases s.fanout.channels[i]? with
  | none => rfl
  | some channel =>
      simp only [Option.map_some, Option.any_some, Channel.hear]
      split_ifs <;> rfl

theorem queueAt_announce (hnodup : (s.fanout.subscribers.map Prod.snd).Nodup)
    {i : Nat} (hconn : connectedAt s.fanout.channels i = true) :
    queueAt (s.announce update).fanout.channels i =
      queueAt s.fanout.channels i ++
        (if heard update s.fanout.subscribers i then [update] else []) := by
  unfold connectedAt at hconn
  unfold queueAt
  simp only [Session.announce, Fanout.announce]
  rw [retain_channels update _ _ hnodup i]
  cases hc : s.fanout.channels[i]? with
  | none => simp [hc] at hconn
  | some channel =>
      rw [hc, Option.any_some] at hconn
      by_cases hheard : heard update s.fanout.subscribers i = true <;>
        simp [Channel.hear, hconn, hheard]

theorem length_retain (update : Update) :
    ∀ (subscribers : List (Keys × Nat)) (channels : List Channel),
      (retain update subscribers channels).2.length = channels.length
  | [], _ => rfl
  | (keys, tx) :: rest, channels => by
      unfold retain
      split_ifs with hk
      · cases hs : send channels tx update with
        | none => exact length_retain update rest channels
        | some sent =>
            simp only
            rw [length_retain update rest sent]
            unfold send at hs
            split at hs
            · split_ifs at hs
              cases hs
              exact List.length_set
            · cases hs
      · exact length_retain update rest channels

theorem later_snoc (c : Client) (published : List Update) {low : Seq}
    (hlow : low < update.seq) :
    c.later (published ++ [update]) low =
      c.later published low ++
        (if c.keys.contains update.key then [Event.update update] else []) := by
  unfold Client.later
  rw [List.filter_append, List.map_append]
  by_cases hk : c.keys.contains update.key = true <;> simp [hk, hlow]

theorem wanted_snoc (c : Client) (published : List Update) {low high : Seq}
    (hhigh : high < update.seq) :
    c.wanted (published ++ [update]) low high = c.wanted published low high := by
  unfold Client.wanted
  rw [List.filter_append, List.map_append]
  have hlate : ¬ update.seq ≤ high := Nat.not_le.mpr hhigh
  simp [hlate]

theorem opensWell_snoc {c : Client} {published : List Update}
    (h : c.OpensWell published) (hseq : c.subscription.seq < update.seq) :
    c.OpensWell (published ++ [update]) := by
  unfold Client.OpensWell at h ⊢
  cases hs : c.since with
  | none => simpa [hs] using h
  | some seen =>
      simp only [hs] at h ⊢
      rwa [wanted_snoc c published hseq]

theorem Session.Inv.announce (h : s.Inv start)
    (hnext : update.seq = s.fanout.latest + 1) : (s.announce update).Inv start where
  consecutive := by
    refine consecutive_append.mpr ⟨h.consecutive, ?_, trivial⟩
    rw [hnext, h.latest]
  latest := by
    simp only [Session.announce, Fanout.announce, List.length_append,
      List.length_singleton]
    rw [hnext, h.latest, Nat.add_assoc]
  window := isWindow_pushBounded (by decide) h.window update
  aligned := by
    simp only [Session.announce, Fanout.announce]
    rw [length_retain]
    exact h.aligned
  within := by
    rintro p hp
    simp only [Session.announce, Fanout.announce] at hp ⊢
    rw [retain_subscribers] at hp
    rw [length_retain]
    exact h.within p (List.mem_of_mem_filter hp)
  nodup := by
    simp only [Session.announce, Fanout.announce]
    rw [retain_subscribers]
    exact h.nodup.sublist (List.filter_sublist.map _)
  served := by
    intro i c hc
    have hserved := h.served i c hc
    have hlt : c.subscription.seq < update.seq := by
      rw [hnext]
      exact Nat.lt_succ_of_le hserved.opened
    refine ⟨hserved.rx, ?_, opensWell_snoc hserved.opening hlt, ?_, ?_⟩
    · exact Nat.le_of_lt hlt
    · intro hconn keys
      rw [connectedAt_announce h.nodup] at hconn
      rw [← hserved.listed hconn keys]
      simp only [Session.announce, Fanout.announce]
      rw [retain_subscribers, List.mem_filter]
      simp [hconn]
    · intro hconn
      rw [connectedAt_announce h.nodup] at hconn
      rw [queueAt_announce h.nodup hconn, heard_of_listed (hserved.listed hconn),
        List.map_append, ← List.append_assoc, hserved.stream hconn]
      simp only [Session.announce]
      rw [later_snoc c s.published hlt, List.append_assoc]
      by_cases hk : c.keys.contains update.key = true <;> simp [hk]

theorem Session.Inv.publishAll {updates : List Update} (h : s.Inv start)
    (hcons : Consecutive Update.seq start (s.published ++ updates)) :
    (s.publishAll updates).Inv start := by
  rw [Session.publishAll_eq_foldl]
  induction updates generalizing s with
  | nil => exact h
  | cons u us ih =>
      rw [List.foldl_cons]
      refine ih (h.announce ?_) ?_
      · have := (consecutive_append.mp hcons).2.1
        rw [h.latest]
        exact this
      · simpa [Session.announce] using hcons

end Announce

section Calls

variable {start : Seq} {s : Session}

variable {c : Client} {s' : Session} {i : Nat}

theorem Session.Served.transfer (h : s.Served i c) (hpublished : s'.published = s.published)
    (hlatest : s'.fanout.latest = s.fanout.latest) (hlisted : ∀ keys,
      (keys, i) ∈ s'.fanout.subscribers ↔ (keys, i) ∈ s.fanout.subscribers)
    (hsame : connectedAt s'.fanout.channels i = true →
      s'.fanout.channels[i]? = s.fanout.channels[i]?) : s'.Served i c := by
  have hconn : connectedAt s'.fanout.channels i = true →
      connectedAt s.fanout.channels i = true := by
    intro hc
    have := hsame hc
    unfold connectedAt at hc ⊢
    rwa [← this]
  refine ⟨h.rx, ?_, ?_, ?_, ?_⟩
  · rw [hlatest]
    exact h.opened
  · rw [hpublished]
    exact h.opening
  · intro hc keys
    rw [hlisted keys]
    exact h.listed (hconn hc) keys
  · intro hc
    have hstream := h.stream (hconn hc)
    unfold queueAt at hstream ⊢
    rw [hsame hc, hpublished]
    exact hstream

theorem Session.Inv.replay_opensWell (h : s.Inv start) (hseq : c.subscription.seq = s.fanout.latest)
    (hopening : c.opening = s.fanout.replay c.keys c.since) :
    c.OpensWell s.published := by
  have hupto : ∀ u ∈ s.published, u.seq ≤ c.subscription.seq := by
    intro u hu
    rw [hseq, h.latest]
    exact (h.consecutive.bounds hu).2
  unfold Client.OpensWell
  cases hs : c.since with
  | none => simp [hopening, hs, Fanout.replay]
  | some seen =>
      simp only
      rw [hs, Fanout.replay] at hopening
      by_cases hahead : s.fanout.latest ≤ seen
      · left
        rw [if_pos hahead] at hopening
        rw [hopening, hseq, Nat.min_eq_right hahead]
        unfold Client.wanted
        symm
        rw [List.map_eq_nil_iff, List.filter_eq_nil_iff]
        intro u hu
        simp only [Bool.and_eq_true, decide_eq_true_eq]
        rintro ⟨⟨hlow, hhigh⟩, -⟩
        exact absurd hhigh (Nat.not_le.mpr hlow)
      · rw [if_neg hahead] at hopening
        cases hhead : s.fanout.backlog.head? with
        | none =>
            right
            rw [hopening, hhead, hseq]
        | some oldest =>
            simp only [hhead] at hopening
            by_cases hreach : oldest.seq ≤ seen + 1
            · left
              rw [if_pos hreach] at hopening
              have htail := resume_from_window h.consecutive h.window hhead hreach
              rw [hopening, Client.wanted, hseq,
                Nat.min_eq_left (Nat.le_of_not_le hahead)]
              congr 1
              calc s.fanout.backlog.filter
                    (fun u => decide (seen < u.seq) && c.keys.contains u.key)
                  = (s.fanout.backlog.filter (fun u => decide (seen < u.seq))).filter
                      (fun u => c.keys.contains u.key) := by
                    rw [List.filter_filter]
                    refine List.filter_congr ?_
                    intro u _
                    exact Bool.and_comm _ _
                _ = (s.published.filter (fun u => decide (seen < u.seq))).filter
                      (fun u => c.keys.contains u.key) := by rw [htail]
                _ = _ := by
                    rw [List.filter_filter]
                    refine List.filter_congr ?_
                    intro u hu
                    have hle := hupto u hu
                    rw [hseq] at hle
                    simp [hle, Bool.and_comm]
            · right
              rw [if_neg hreach] at hopening
              rw [hopening, hseq]

theorem Session.Inv.later_latest (h : s.Inv start) (c : Client) :
    c.later s.published s.fanout.latest = [] := by
  unfold Client.later
  rw [List.map_eq_nil_iff, List.filter_eq_nil_iff]
  intro u hu
  have := (h.consecutive.bounds hu).2
  rw [← h.latest] at this
  simp only [Bool.and_eq_true, decide_eq_true_eq]
  rintro ⟨hlow, -⟩
  exact absurd this (Nat.not_le.mpr hlow)

theorem Session.Inv.subscribe (h : s.Inv start) (keys : Keys) (since : Option Seq) :
    (s.subscribe keys since).Inv start where
  consecutive := h.consecutive
  latest := h.latest
  window := h.window
  aligned := by
    simp only [Session.subscribe, Fanout.subscribe, List.length_append,
      List.length_singleton, h.aligned]
  within := by
    rintro p hp
    simp only [Session.subscribe, Fanout.subscribe, List.mem_append, List.length_append,
      List.length_singleton] at hp ⊢
    rcases hp with hp | hp
    · exact Nat.lt_succ_of_lt (h.within p hp)
    · rw [List.mem_singleton] at hp
      subst hp
      exact Nat.lt_succ_self _
  nodup := by
    simp only [Session.subscribe, Fanout.subscribe, List.map_append, List.map_cons,
      List.map_nil]
    refine List.Nodup.append h.nodup (List.nodup_singleton _) ?_
    intro tx htx htx'
    rw [List.mem_singleton] at htx'
    obtain ⟨p, hp, rfl⟩ := List.mem_map.mp htx
    exact absurd (h.within p hp) (by rw [htx']; exact Nat.lt_irrefl _)
  served := by
    intro i c hc
    simp only [Session.subscribe] at hc
    rcases Nat.lt_or_ge i s.clients.length with hi | hi
    · rw [List.getElem?_append_left hi] at hc
      have hchan : i < s.fanout.channels.length := h.aligned ▸ hi
      refine (h.served i c hc).transfer rfl rfl ?_ ?_
      · intro other
        simp only [Session.subscribe, Fanout.subscribe, List.mem_append,
          List.mem_singleton, Prod.mk.injEq]
        constructor
        · rintro (hmem | ⟨-, rfl⟩)
          · exact hmem
          · exact absurd hchan (Nat.lt_irrefl _)
        · exact Or.inl
      · intro _
        simp only [Session.subscribe, Fanout.subscribe]
        exact List.getElem?_append_left hchan
    · have hi' : i = s.clients.length := by
        have hlt := (List.getElem?_eq_some_iff.mp hc).1
        simp only [List.length_append, List.length_singleton] at hlt
        omega
      subst hi'
      simp only [List.getElem?_concat_length, Option.some.injEq] at hc
      subst hc
      refine ⟨h.aligned.symm, Nat.le_refl _, ?_, ?_, ?_⟩
      · exact h.replay_opensWell rfl rfl
      · intro _ other
        simp only [Session.subscribe, Fanout.subscribe, List.mem_append,
          List.mem_singleton, Prod.mk.injEq]
        constructor
        · rintro (hmem | ⟨rfl, -⟩)
          · exact absurd (h.within _ hmem) (by simp [h.aligned])
          · rfl
        · rintro rfl
          exact Or.inr ⟨rfl, h.aligned⟩
      · intro _
        have hempty : queueAt (s.subscribe keys since).fanout.channels
            s.clients.length = [] := by
          simp [queueAt, Session.subscribe, Fanout.subscribe, h.aligned]
        rw [hempty, List.map_nil, List.append_nil, List.nil_append]
        simp only [Session.subscribe, Fanout.subscribe]
        rw [h.later_latest, List.append_nil]

theorem Fanout.tryNext_cases (fanout : Fanout) (subscription : Subscription) :
    (∃ event rest, subscription.pending = event :: rest ∧ fanout.tryNext subscription =
          (some event, fanout, { subscription with pending := rest })) ∨
      (∃ channel update rest, subscription.pending = [] ∧
        fanout.channels[subscription.rx]? = some channel ∧
        channel.queue = update :: rest ∧
        fanout.tryNext subscription =
          (some (Event.update update),
            { fanout with
                channels := fanout.channels.set subscription.rx
                  { channel with queue := rest } },
            subscription)) ∨
      (subscription.pending = [] ∧ queueAt fanout.channels subscription.rx = [] ∧
        fanout.tryNext subscription = (none, fanout, subscription)) := by
  cases hp : subscription.pending with
  | cons event rest => exact Or.inl ⟨event, rest, rfl, by simp [Fanout.tryNext, hp]⟩
  | nil =>
      right
      cases hc : fanout.channels[subscription.rx]? with
      | none => exact Or.inr ⟨rfl, by simp [queueAt, hc], by simp [Fanout.tryNext, hp, hc]⟩
      | some channel =>
          cases hq : channel.queue with
          | nil =>
              exact Or.inr
                ⟨rfl, by simp [queueAt, hc, hq], by simp [Fanout.tryNext, hp, hc, hq]⟩
          | cons update rest =>
              exact Or.inl ⟨channel, update, rest, rfl, rfl, hq,
                by simp [Fanout.tryNext, hp, hc, hq]⟩

theorem Session.Inv.replace (h : s.Inv start) (i : Nat) (c' : Client)
    (hpublished : s'.published = s.published)
    (hlatest : s'.fanout.latest = s.fanout.latest)
    (hbacklog : s'.fanout.backlog = s.fanout.backlog)
    (hsubscribers : s'.fanout.subscribers = s.fanout.subscribers)
    (hlength : s'.fanout.channels.length = s.fanout.channels.length)
    (hclients : s'.clients = s.clients.set i c')
    (hothers : ∀ j, j ≠ i → s'.fanout.channels[j]? = s.fanout.channels[j]?)
    (hserved : s'.Served i c') : s'.Inv start where
  consecutive := hpublished ▸ h.consecutive
  latest := by rw [hlatest, hpublished, h.latest]
  window := by
    rw [hbacklog, hpublished]
    exact h.window
  aligned := by rw [hclients, List.length_set, hlength, h.aligned]
  within := by
    rw [hsubscribers, hlength]
    exact h.within
  nodup := by
    rw [hsubscribers]
    exact h.nodup
  served := by
    intro j c hc
    rw [hclients] at hc
    by_cases hj : j = i
    · subst hj
      have hlt := (List.getElem?_eq_some_iff.mp hc).1
      rw [List.length_set] at hlt
      rw [List.getElem?_set_self hlt, Option.some.injEq] at hc
      subst hc
      exact hserved
    · rw [List.getElem?_set_ne (Ne.symm hj)] at hc
      refine (h.served j c hc).transfer hpublished hlatest ?_ ?_
      · intro keys
        rw [hsubscribers]
      · intro _
        exact hothers j hj

theorem set_of_getElem? {clients : List Client}
    (hc : clients[i]? = some c) : clients.set i c = clients := by
  obtain ⟨hi, rfl⟩ := List.getElem?_eq_some_iff.mp hc
  exact List.set_getElem_self hi

theorem Session.Inv.tryNext (h : s.Inv start)
    (hc : s.clients[i]? = some c) : (s.tryNext i c).Inv start := by
  have hserved := h.served i c hc
  rcases s.fanout.tryNext_cases c.subscription with
    ⟨event, rest, hpending, htry⟩ | ⟨channel, update, rest, hpending, hchan, hqueue, htry⟩ |
      ⟨hpending, hqueue, htry⟩
  · refine h.replace i { c with
      subscription := { c.subscription with pending := rest }
      received := c.received ++ [event] } ?_ ?_ ?_ ?_ ?_ ?_ ?_ ?_
    all_goals simp only [Session.tryNext, htry, Option.toList_some, implies_true]
    refine ⟨hserved.rx, hserved.opened, hserved.opening, hserved.listed, ?_⟩
    intro hconn
    have hstream := hserved.stream hconn
    rw [hpending] at hstream
    simpa [Client.later] using hstream
  · have hrx := hserved.rx
    have hlt : i < s.fanout.channels.length :=
      hrx ▸ (List.getElem?_eq_some_iff.mp hchan).1
    refine h.replace i { c with received := c.received ++ [Event.update update] }
      ?_ ?_ ?_ ?_ ?_ ?_ ?_ ?_
    all_goals simp only [Session.tryNext, htry, Option.toList_some, List.length_set]
    · rintro j hj
      rw [hrx, List.getElem?_set_ne (Ne.symm hj)]
    · rw [hrx] at hchan ⊢
      have hconn : connectedAt (s.fanout.channels.set i { channel with queue := rest }) i =
          connectedAt s.fanout.channels i := by
        simp only [connectedAt, List.getElem?_set_self hlt, hchan, Option.any_some]
      refine ⟨hrx, hserved.opened, hserved.opening, ?_, ?_⟩
      · intro hc'
        exact hserved.listed (hconn ▸ hc')
      · intro hc'
        have hstream := hserved.stream (hconn ▸ hc')
        simp only [queueAt, hchan, hpending, Option.map_some, Option.getD_some] at hstream
        rw [hqueue] at hstream
        simpa [queueAt, hlt, hpending, Client.later] using hstream
  · have hsame : s.tryNext i c = s := by
      simp [Session.tryNext, htry, set_of_getElem? hc]
    rw [hsame]
    exact h

theorem Session.Inv.drop (h : s.Inv start) (hc : s.clients[i]? = some c) :
    Session.Inv start { s with fanout := s.fanout.dropSubscription c.subscription } := by
  have hserved := h.served i c hc
  have hrx := hserved.rx
  have hlt : i < s.fanout.channels.length := h.aligned ▸ (List.getElem?_eq_some_iff.mp hc).1
  refine h.replace i c ?_ ?_ ?_ ?_ ?_ ?_ ?_ ?_
  all_goals simp only [Fanout.dropSubscription, List.length_set]
  · exact (set_of_getElem? hc).symm
  · rintro j hj
    rw [hrx, List.getElem?_set_ne (Ne.symm hj)]
  · have hgone : connectedAt
        (s.fanout.channels.set i { queue := [], connected := false }) i = false := by
      simp [connectedAt, hlt]
    refine ⟨hrx, hserved.opened, hserved.opening, ?_, ?_⟩
    all_goals
      intro hconn
      simp only [hrx, hgone] at hconn
      cases hconn

variable {call : Call}

theorem Session.Inv.step (h : s.Inv start) (hstep : s.step call = some s')
    (hcons : Consecutive Update.seq start s'.published) : s'.Inv start := by
  cases call with
  | publishAll updates =>
      cases hstep
      exact h.publishAll hcons
  | subscribe keys since =>
      cases hstep
      exact h.subscribe keys since
  | tryNext i =>
      obtain ⟨c, hc, hif⟩ := Option.bind_eq_some_iff.mp hstep
      split_ifs at hif with hholds
      cases hif
      exact h.tryNext hc
  | drop i =>
      obtain ⟨c, hc, hif⟩ := Option.bind_eq_some_iff.mp hstep
      split_ifs at hif with hholds
      cases hif
      exact h.drop hc

theorem Session.published_prefix
    (hstep : s.step call = some s') : s.published <+: s'.published := by
  cases call with
  | publishAll updates =>
      cases hstep
      exact List.prefix_append _ _
  | subscribe keys since =>
      cases hstep
      exact List.prefix_refl _
  | tryNext _ | drop _ =>
      obtain ⟨c, hc, hif⟩ := Option.bind_eq_some_iff.mp hstep
      split_ifs at hif with hholds
      cases hif
      exact List.prefix_refl _

variable {calls : List Call} {t : Session}

theorem Session.published_prefix_of_run
    (hrun : Session.machine.run s calls = some t) : s.published <+: t.published :=
  Session.machine.run_invariant (I := fun s' => s.published <+: s'.published)
    (fun _ _ _ h hstep => h.trans (Session.published_prefix hstep))
    (List.prefix_refl _) hrun

theorem Session.Inv.run (h : s.Inv start) (hrun : Session.machine.run s calls = some t)
    (hcons : Consecutive Update.seq start t.published) : t.Inv start := by
  refine Session.machine.run_invariant
    (I := fun s => Consecutive Update.seq start s.published → s.Inv start) ?_
    (fun _ => h) hrun hcons
  rintro s call s' ih hstep hcons'
  obtain ⟨rest, hrest⟩ := Session.published_prefix hstep
  rw [← hrest] at hcons'
  refine (ih (consecutive_append.mp hcons').1).step hstep ?_
  rwa [← hrest]

theorem Session.inv_of_run (hrun : Session.machine.run (Session.new start) calls = some t)
    (hcons : Consecutive Update.seq start t.published) : t.Inv start :=
  (Session.inv_new start).run hrun hcons

/-- Client `i` asked what `c` asked and was opened as `c` was. -/
def Session.Asked (s : Session) (i : Nat) (c : Client) : Prop :=
  ∃ c', s.clients[i]? = some c' ∧ c'.keys = c.keys ∧ c'.since = c.since ∧
    c'.opening = c.opening ∧ c'.subscription.seq = c.subscription.seq

theorem Fanout.tryNext_seq (fanout : Fanout) (subscription : Subscription) :
    (fanout.tryNext subscription).2.2.seq = subscription.seq := by
  rcases fanout.tryNext_cases subscription with
    ⟨_, _, _, htry⟩ | ⟨_, _, _, _, _, _, htry⟩ | ⟨_, _, htry⟩ <;> rw [htry]

theorem Session.Asked.step (h : s.Asked i c) (hstep : s.step call = some s') : s'.Asked i c := by
  obtain ⟨c', hc', hkeys, hsince, hopening, hseq⟩ := h
  cases call with
  | publishAll updates =>
      cases hstep
      exact ⟨c', hc', hkeys, hsince, hopening, hseq⟩
  | subscribe keys since =>
      cases hstep
      refine ⟨c', ?_, hkeys, hsince, hopening, hseq⟩
      simp only [Session.subscribe]
      rw [List.getElem?_append_left (List.getElem?_eq_some_iff.mp hc').1]
      exact hc'
  | tryNext j =>
      obtain ⟨d, hd, hif⟩ := Option.bind_eq_some_iff.mp hstep
      split_ifs at hif with hholds
      cases hif
      by_cases hj : j = i
      · subst hj
        rw [hc', Option.some.injEq] at hd
        subst hd
        have hlt := (List.getElem?_eq_some_iff.mp hc').1
        exact ⟨_, List.getElem?_set_self hlt, hkeys, hsince, hopening,
          (Fanout.tryNext_seq _ _).trans hseq⟩
      · refine ⟨c', ?_, hkeys, hsince, hopening, hseq⟩
        simp only [Session.tryNext]
        rw [List.getElem?_set_ne hj]
        exact hc'
  | drop j =>
      obtain ⟨d, hd, hif⟩ := Option.bind_eq_some_iff.mp hstep
      split_ifs at hif with hholds
      cases hif
      exact ⟨c', hc', hkeys, hsince, hopening, hseq⟩

theorem Session.Asked.run
    (h : s.Asked i c) (hrun : Session.machine.run s calls = some t) : t.Asked i c :=
  Session.machine.run_invariant (I := fun s => s.Asked i c)
    (fun _ _ _ h' hstep => h'.step hstep) h hrun

theorem Session.asked_subscribe (s : Session) (keys : Keys) (since : Option Seq) :
    (s.subscribe keys since).Asked s.clients.length
      { keys := keys, since := since,
        subscription := (s.fanout.subscribe keys since).2,
        opening := s.fanout.replay keys since, received := [] } :=
  ⟨_, List.getElem?_concat_length, rfl, rfl, rfl, rfl⟩

end Calls

section Drained

variable {start : Seq} {s : Session}

def Session.drained (s : Session) (c : Client) : Bool :=
  s.holds c && (s.fanout.tryNext c.subscription).1.isNone

theorem Session.Served.received_of_drained {i : Nat} {c : Client} (h : s.Served i c)
    (hdrained : s.drained c = true) :
    c.received = c.opening ++ c.later s.published c.subscription.seq := by
  simp only [Session.drained, Bool.and_eq_true, Session.holds, h.rx] at hdrained
  obtain ⟨hconn, hnone⟩ := hdrained
  have hstream := h.stream hconn
  rcases s.fanout.tryNext_cases c.subscription with
    ⟨_, _, _, htry⟩ | ⟨_, _, _, _, _, _, htry⟩ | ⟨hpending, hqueue, _⟩
  · simp [htry] at hnone
  · simp [htry] at hnone
  · rw [h.rx] at hqueue
    simpa [hpending, hqueue] using hstream

theorem Session.Inv.lost_of_resync (h : s.Inv start) {keys : Keys} {seen seq : Seq}
    (hresync : Event.resync seq ∈ s.fanout.replay keys (some seen)) :
    seq = s.fanout.latest ∧ ∃ lost, seen < lost ∧ lost ≤ s.fanout.latest ∧
        ∀ update ∈ s.fanout.backlog, update.seq ≠ lost := by
  unfold Fanout.replay at hresync
  by_cases hahead : s.fanout.latest ≤ seen
  · simp [hahead] at hresync
  · simp only [hahead, if_false] at hresync
    have hlost (hgap : ∀ oldest, s.fanout.backlog.head? = some oldest →
        seen + 1 < oldest.seq) :
        ∃ lost, seen < lost ∧ lost ≤ s.fanout.latest ∧
          ∀ update ∈ s.fanout.backlog, update.seq ≠ lost :=
      ⟨seen + 1, Nat.lt_succ_self _, Nat.lt_of_not_le hahead,
        exists_lost_position h.consecutive h.window hgap⟩
    cases hhead : s.fanout.backlog.head? with
    | none =>
        simp only [hhead, List.mem_singleton, Event.resync.injEq] at hresync
        exact ⟨hresync, hlost (by simp [hhead])⟩
    | some oldest =>
        simp only [hhead] at hresync
        by_cases hreach : oldest.seq ≤ seen + 1
        · rw [if_pos hreach] at hresync
          obtain ⟨update, -, hne⟩ := List.mem_map.mp hresync
          cases hne
        · rw [if_neg hreach, List.mem_singleton, Event.resync.injEq] at hresync
          refine ⟨hresync, hlost ?_⟩
          intro other hother
          rw [hhead, Option.some.injEq] at hother
          subst hother
          exact Nat.lt_of_not_le hreach

theorem Session.Inv.received_of_resumed {t : Session} (h : t.Inv start)
    {keys : Keys} {seen : Seq} {after : List Call} {c : Client}
    (hafter : Session.machine.run (s.subscribe keys (some seen)) after = some t)
    (hclient : t.clients[s.clients.length]? = some c) (hdrained : t.drained c = true) :
    c.received =
        (t.published.filter (fun update =>
          decide (min seen s.fanout.latest < update.seq) &&
            keys.contains update.key)).map Event.update ∨
      c.received =
        Event.resync s.fanout.latest ::
          (t.published.filter (fun update =>
            decide (s.fanout.latest < update.seq) &&
              keys.contains update.key)).map Event.update := by
  have hserved := h.served _ c hclient
  obtain ⟨c', hc', hkeys, hsince, hopening, hseq⟩ :=
    (s.asked_subscribe keys (some seen)).run hafter
  rw [hclient, Option.some.injEq] at hc'
  subst hc'
  simp only [Fanout.subscribe] at hkeys hsince hopening hseq
  have hreceived := hserved.received_of_drained hdrained
  have hwell := hserved.opening
  simp only [Client.OpensWell, hsince] at hwell
  rcases hwell with hmissed | hnotice
  · left
    rw [hreceived, hmissed, Client.wanted, Client.later, ← List.map_append,
      filter_split h.consecutive.pairwise_lt _ (Nat.min_le_right _ _), hseq, hkeys]
  · right
    rw [hreceived, hnotice, Client.later, hseq, hkeys]
    rfl

/-- Over any run with consecutive positions: the backlog stays within its bound,
a client that resumes after `seen` and drains its stream received exactly the
updates it had not seen, or a notice and every update after it, and the notice
is sent only if one of them can no longer be replayed. -/
theorem resumed_client_receives {before after : List Call} {t : Session}
    {keys : Keys} {seen : Seq}
    (hbefore : Session.machine.run (Session.new start) before = some s)
    (hafter : Session.machine.run (s.subscribe keys (some seen)) after = some t)
    (hcons : Consecutive Update.seq start t.published) :
    t.fanout.backlog.length ≤ BACKLOG ∧
      (∀ c, t.clients[s.clients.length]? = some c → t.drained c = true →
        c.received =
            (t.published.filter (fun update =>
              decide (min seen s.fanout.latest < update.seq) &&
                keys.contains update.key)).map Event.update ∨
          c.received =
            Event.resync s.fanout.latest ::
              (t.published.filter (fun update =>
                decide (s.fanout.latest < update.seq) &&
                  keys.contains update.key)).map Event.update) ∧
      ∀ seq, Event.resync seq ∈ s.fanout.replay keys (some seen) →
        seq = s.fanout.latest ∧
          ∃ lost, seen < lost ∧ lost ≤ s.fanout.latest ∧
            ∀ update ∈ s.fanout.backlog, update.seq ≠ lost := by
  have hrun : Session.machine.run (Session.new start)
      (before ++ Call.subscribe keys (some seen) :: after) = some t :=
    (Session.machine.run_append_eq_some).mpr
      ⟨s, hbefore, (Session.machine.run_cons_eq_some).mpr ⟨_, rfl, hafter⟩⟩
  have hinv := Session.inv_of_run hrun hcons
  obtain ⟨rest, hrest⟩ := Session.published_prefix_of_run hafter
  rw [← hrest] at hcons
  have hthen := Session.inv_of_run hbefore (consecutive_append.mp hcons).1
  refine ⟨hinv.window.length_le, ?_, ?_⟩
  · intro c hclient hdrained
    exact hinv.received_of_resumed hafter hclient hdrained
  · intro seq hresync
    exact hthen.lost_of_resync hresync

/-- Two updates published, one of them seen: the other one is received. -/
theorem resumed_client_receives_second :
    ∃ s t, Session.machine.run (Session.new 0)
        [Call.publishAll [⟨1, "a", none⟩, ⟨2, "a", none⟩]] = some s ∧
      Session.machine.run (s.subscribe (Keys.new ["a"]) (some 1)) [Call.tryNext 0] =
        some t ∧
      t.fanout.backlog.length ≤ BACKLOG :=
  ⟨_, _, rfl, rfl,
    (@resumed_client_receives 0 _ [Call.publishAll [⟨1, "a", none⟩, ⟨2, "a", none⟩]]
      [Call.tryNext 0] _ (Keys.new ["a"]) 1 rfl rfl (by decide)).1⟩

/-- A cursor ahead of the fan-out is not a position the stream waits for: the
update at position 1 is sent to a client that said it had seen up to 5. -/
theorem cursor_ahead_receives_seen :
    ∃ t c, Session.machine.run ((Session.new 0).subscribe (Keys.new ["a"]) (some 5))
        [Call.publishAll [⟨1, "a", none⟩], Call.tryNext 0] = some t ∧
      Consecutive Update.seq 0 t.published ∧
      t.clients[0]? = some c ∧ t.drained c = true ∧
      c.received ≠
        (t.published.filter (fun update =>
          decide (5 < update.seq) && (Keys.new ["a"]).contains update.key)).map
          Event.update ∧
      ∀ rest, c.received ≠ Event.resync (Session.new 0).fanout.latest :: rest := by
  refine ⟨_, _, rfl, by decide, rfl, by decide, by decide, ?_⟩
  intro rest hrest
  cases hrest

end Drained

section Reconnect

variable {start : Seq} {s : Session}

def Event.seq : Event → Seq
  | .resync seq => seq
  | .update u => u.seq

/-- The last position a client saw: that of the last event it received, or the
one it resumed from, or the one its stream opened at. -/
def Client.cursor (c : Client) : Seq :=
  ((c.received.getLast?).map Event.seq).getD (c.since.getD c.subscription.seq)

variable {published : List Update}

theorem pairwise_map_update (p : Update → Bool)
    (h : published.Pairwise (fun u v => u.seq < v.seq)) :
    ((published.filter p).map Event.update).Pairwise (fun e f => e.seq < f.seq) := by
  rw [List.pairwise_map]
  exact h.sublist List.filter_sublist

variable {c : Client}

theorem Client.OpensWell.upto
    (h : c.OpensWell published) : ∀ e ∈ c.opening, e.seq ≤ c.subscription.seq := by
  intro e he
  unfold Client.OpensWell at h
  cases hs : c.since with
  | none =>
      simp only [hs] at h
      rw [h] at he
      cases he
  | some seen =>
      simp only [hs] at h
      rcases h with h | h
      · rw [h] at he
        obtain ⟨u, hu, rfl⟩ := List.mem_map.mp he
        have hu' := (List.mem_filter.mp hu).2
        simp only [Bool.and_eq_true, decide_eq_true_eq] at hu'
        exact hu'.1.2
      · rw [h, List.mem_singleton] at he
        rw [he]
        exact Nat.le_refl _

theorem Session.Inv.stream_pairwise (h : s.Inv start) (hwell : c.OpensWell s.published) :
    (c.opening ++ c.later s.published c.subscription.seq).Pairwise (fun e f => e.seq < f.seq) := by
  have hpair := h.consecutive.pairwise_lt
  refine List.pairwise_append.mpr ⟨?_, pairwise_map_update _ hpair, ?_⟩
  · unfold Client.OpensWell at hwell
    cases hs : c.since with
    | none =>
        simp only [hs] at hwell
        rw [hwell]
        exact List.Pairwise.nil
    | some seen =>
        simp only [hs] at hwell
        rcases hwell with hwell | hwell
        · rw [hwell]
          exact pairwise_map_update _ hpair
        · rw [hwell]
          exact List.pairwise_singleton _ _
  · intro e he f hf
    have hle := hwell.upto e he
    obtain ⟨u, hu, rfl⟩ := List.mem_map.mp hf
    have hu' := (List.mem_filter.mp hu).2
    simp only [Bool.and_eq_true, decide_eq_true_eq] at hu'
    exact Nat.lt_of_le_of_lt hle hu'.1

theorem Session.Inv.cursor_le (h : s.Inv start) {i : Nat}
    (hc : s.clients[i]? = some c) (hholds : s.holds c = true)
    (hsince : ∀ seen, c.since = some seen → seen ≤ c.subscription.seq) :
    c.cursor ≤ s.fanout.latest := by
  have hserved := h.served i c hc
  have hstream := hserved.stream (hserved.rx ▸ hholds)
  unfold Client.cursor
  cases hlast : c.received.getLast? with
  | none =>
      simp only [Option.map_none, Option.getD_none]
      refine Nat.le_trans ?_ hserved.opened
      cases hs : c.since with
      | none => exact Nat.le_refl _
      | some seen => exact hsince seen hs
  | some last =>
      simp only [Option.map_some, Option.getD_some]
      have hmem : last ∈ c.opening ++ c.later s.published c.subscription.seq := by
        rw [← hstream, List.append_assoc]
        exact List.mem_append_left _ (List.mem_of_getLast? hlast)
      rcases List.mem_append.mp hmem with hmem | hmem
      · exact Nat.le_trans (hserved.opening.upto last hmem) hserved.opened
      · obtain ⟨u, hu, rfl⟩ := List.mem_map.mp hmem
        rw [h.latest]
        exact (h.consecutive.bounds (List.mem_filter.mp hu).1).2

theorem Session.Inv.received_upto_cursor (h : s.Inv start) {i : Nat}
    (hc : s.clients[i]? = some c) (hholds : s.holds c = true)
    (hsince : ∀ seen, c.since = some seen → seen ≤ c.subscription.seq)
    {u : Update} (hu : u ∈ s.published) (hlate : c.subscription.seq < u.seq)
    (hcursor : u.seq ≤ c.cursor) (hkey : c.keys.contains u.key = true) :
    Event.update u ∈ c.received := by
  have hserved := h.served i c hc
  have hconn : connectedAt s.fanout.channels i = true := hserved.rx ▸ hholds
  have hstream := hserved.stream hconn
  have hpair := h.stream_pairwise hserved.opening
  have hmem : Event.update u ∈ c.opening ++ c.later s.published c.subscription.seq := by
    refine List.mem_append_right _ (List.mem_map.mpr ⟨u, ?_, rfl⟩)
    exact List.mem_filter.mpr ⟨hu, by simp [hlate, hkey]⟩
  rw [← hstream, List.append_assoc] at hpair hmem
  rcases List.mem_append.mp hmem with hmem | hmem
  · exact hmem
  · exfalso
    unfold Client.cursor at hcursor
    cases hlast : c.received.getLast? with
    | none =>
        simp only [hlast, Option.map_none, Option.getD_none] at hcursor
        cases hs : c.since with
        | none =>
            simp only [hs, Option.getD_none] at hcursor
            exact absurd hcursor (Nat.not_le.mpr hlate)
        | some seen =>
            simp only [hs, Option.getD_some] at hcursor
            exact absurd (Nat.le_trans hcursor (hsince seen hs)) (Nat.not_le.mpr hlate)
    | some last =>
        simp only [hlast, Option.map_some, Option.getD_some] at hcursor
        have hlt := (List.pairwise_append.mp hpair).2.2 last (List.mem_of_getLast? hlast)
          (Event.update u) hmem
        exact absurd hcursor (Nat.not_le.mpr hlt)

theorem Session.Inv.never_denied {s' t : Session} (ht : t.Inv start)
    (hs' : s'.Inv start) {keys : Keys} {since : Option Seq} {first second after : List Call}
    {c d : Client} {r : Session} (hsince : ∀ seen, since = some seen → seen ≤ s.fanout.latest)
    (hfirst : Session.machine.run (s.subscribe keys since) first = some s')
    (hc : s'.clients[s.clients.length]? = some c) (hholds : s'.holds c = true)
    (hsecond : Session.machine.run s' second = some r)
    (hafter : Session.machine.run (r.subscribe keys (some c.cursor)) after = some t)
    (hd : t.clients[r.clients.length]? = some d) (hdrained : t.drained d = true)
    {u : Update} (hu : u ∈ t.published) (hlate : s.fanout.latest < u.seq)
    (hkey : keys.contains u.key = true) :
    Event.update u ∈ c.received ∨ Event.update u ∈ d.received ∨
      Event.resync r.fanout.latest ∈ d.received := by
  obtain ⟨c', hc', hkeys, hcsince, hopening, hseq⟩ := (s.asked_subscribe keys since).run hfirst
  rw [hc, Option.some.injEq] at hc'
  subst hc'
  simp only [Fanout.subscribe] at hkeys hcsince hseq
  by_cases hcursor : u.seq ≤ c.cursor
  · left
    have hprefix : s'.published <+: t.published :=
      (Session.published_prefix_of_run hsecond).trans
        (Session.published_prefix_of_run (s := r.subscribe keys _) hafter)
    have hseen : ∀ seen, c.since = some seen → seen ≤ c.subscription.seq := by
      intro seen hseen
      rw [hseq]
      exact hsince seen (hcsince ▸ hseen)
    have hu' : u ∈ s'.published := by
      obtain ⟨rest, hrest⟩ := hprefix
      rw [← hrest] at hu
      rcases List.mem_append.mp hu with hu | hu
      · exact hu
      · exfalso
        have hcons := ht.consecutive
        rw [← hrest] at hcons
        have hafter' := ((consecutive_append.mp hcons).2.bounds hu).1
        rw [← hs'.latest] at hafter'
        have hle := hs'.cursor_le hc hholds hseen
        exact absurd (Nat.le_trans hcursor hle) (Nat.not_le.mpr hafter')
    exact hs'.received_upto_cursor hc hholds hseen hu' (hseq ▸ hlate) hcursor
      (hkeys ▸ hkey)
  · right
    have hpast : c.cursor < u.seq := Nat.lt_of_not_le hcursor
    rcases ht.received_of_resumed hafter hd hdrained with hreceived | hreceived
    · left
      rw [hreceived]
      refine List.mem_map.mpr ⟨u, List.mem_filter.mpr ⟨hu, ?_⟩, rfl⟩
      have := Nat.lt_of_le_of_lt (Nat.min_le_left c.cursor r.fanout.latest) hpast
      simp [this, hkey]
    · right
      rw [hreceived]
      exact List.mem_cons_self

end Reconnect

end Invariant

end Store
end Zdeceptron
