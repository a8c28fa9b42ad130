import Zdeceptron.Runtime.SignalReads

/-!
# Runs of a reactive graph

* `stale_pair`: a run where one is not.
-/

namespace Zdeceptron
namespace Runtime

variable {α : Type}

section Definitions

structure State.Good (compute : (d : Nat) → Compute α d) (st : State α) : Prop where
  inv : st.graph.Inv compute
  disposed : ∀ e, .disposed e ∈ st.log →
    e < st.graph.effects.length ∧ st.graph.live e = false
  ordered : st.log.Pairwise (fun a b => ∀ e, a = .disposed e → b ≠ .ran e)
  returned : ∀ g, .returned g ∈ st.log → g.Consistent compute
  right : (∀ event ∈ st.log, event.Clean) → ∀ event ∈ st.log, event.Right compute

def Outer (listener : Option Node) : Prop := ∀ d, listener ≠ some (.derived d)

end Definitions

section Steps

variable {compute : (d : Nat) → Compute α d} {st st' : State α}

theorem State.Good.map (h : st.Good compute) {f : Graph α → Graph α}
    (hinv : (f st.graph).Inv compute)
    (heffects : st.graph.effects.length ≤ (f st.graph).effects.length)
    (hlive : ∀ e < st.graph.effects.length, st.graph.live e = false →
      (f st.graph).live e = false) : (st.map f).Good compute where
  inv := hinv
  disposed e he := by
    obtain ⟨hlt, hdead⟩ := h.disposed e he
    exact ⟨Nat.lt_of_lt_of_le hlt heffects, hlive e hlt hdead⟩
  ordered := h.ordered
  returned := h.returned
  right := h.right

theorem State.Good.note (h : st.Good compute) {event : Event α}
    (hdisposed : ∀ e, event = .disposed e →
      e < st.graph.effects.length ∧ st.graph.live e = false)
    (hran : ∀ e, event = .ran e → .disposed e ∉ st.log)
    (hreturned : ∀ g, event = .returned g → g.Consistent compute)
    (hright : event.Right compute) : (st.note event).Good compute where
  inv := h.inv
  disposed e he := by
    rcases List.mem_append.mp he with he | he
    · exact h.disposed e he
    · exact hdisposed e (List.mem_singleton.mp he).symm
  ordered := by
    refine List.pairwise_append.mpr ⟨h.ordered, List.pairwise_singleton _ _, ?_⟩
    rintro a ha b hb e rfl rfl
    exact hran e (List.mem_singleton.mp hb).symm ha
  returned g hg := by
    rcases List.mem_append.mp hg with hg | hg
    · exact h.returned g hg
    · exact hreturned g (List.mem_singleton.mp hg).symm
  right := by
    intro hclean other hother
    rcases List.mem_append.mp hother with hother | hother
    · exact h.right (fun e he => hclean e (List.mem_append_left _ he)) other hother
    · obtain rfl := List.mem_singleton.mp hother
      exact hright

variable {listener : Option Node}

theorem State.Good.reads {below : Nat} {new : List (Event α)}
    (h : st.Good compute) (hreads : st.Reads compute below listener st' new) :
    st'.Good compute := by
  have hread : ∀ event ∈ new, ∃ d given before, event = .read d given before := by
    intro event hevent
    have hat := hreads.reads event hevent
    cases event with
    | read d given before => exact ⟨d, given, before, rfl⟩
    | ran e => exact hat.elim
    | disposed e => exact hat.elim
    | returned g => exact hat.elim
  refine ⟨hreads.inv, ?_, ?_, ?_, ?_⟩
  · intro e he
    rw [hreads.log] at he
    rw [hreads.graph.effects, hreads.graph.live]
    rcases List.mem_append.mp he with he | he
    · exact h.disposed e he
    · obtain ⟨d, given, before, heq⟩ := hread _ he
      cases heq
  · rw [hreads.log]
    refine List.pairwise_append.mpr ⟨h.ordered, ?_, ?_⟩
    · refine List.pairwise_of_forall_mem_list ?_
      rintro a ha b hb e rfl
      obtain ⟨d, given, before, heq⟩ := hread _ ha
      cases heq
    · rintro a ha b hb e rfl rfl
      obtain ⟨d, given, before, heq⟩ := hread _ hb
      cases heq
  · intro g hg
    rw [hreads.log] at hg
    rcases List.mem_append.mp hg with hg | hg
    · exact h.returned g hg
    · obtain ⟨d, given, before, heq⟩ := hread _ hg
      cases heq
  · rw [hreads.log]
    intro hclean event hevent
    rcases List.mem_append.mp hevent with hevent | hevent
    · exact h.right (fun e he => hclean e (List.mem_append_left _ he)) event hevent
    · exact hreads.right (fun e he => hclean e (List.mem_append_right _ he)) event hevent

theorem State.Good.readSource (h : st.Good compute) (houter : Outer listener) (source : Source) :
    (readSource compute source listener st).1.Good compute := by
  have hlistens : ∀ n, st.graph.Listens n listener := by
    intro n m hm
    refine ⟨?_, ?_⟩
    · rintro d rfl
      exact absurd hm (houter d)
    · rintro i _ rfl
      exact absurd hm (houter i)
  cases source with
  | derived d =>
      obtain ⟨new, hreads, -⟩ := readDerived_spec d listener st h.inv (hlistens (d + 1))
      exact h.reads hreads
  | signal s =>
      cases listener with
      | none => exact h
      | some n => exact h.reads (readSignal_spec s h.inv (hlistens 0 n rfl).1).1

theorem Graph.Inv.kill {g : Graph α} (h : g.Inv compute) (e : Nat) :
    ({ g with live := Function.update g.live e false } : Graph α).Inv compute := by
  have hlive : ∀ i, Function.update g.live e false i = true → g.live i = true := by
    intro i hi
    by_cases hie : i = e
    · subst hie
      simp at hi
    · simpa [hie] using hi
  refine ⟨h.linked, h.nodup, h.saw_source, ?_, h.replays, ?_⟩
  · intro n hn source v hv
    refine h.fresh n ?_ source v hv
    cases n with
    | derived d => exact hn
    | effect i => exact hlive i hn
  · intro i hi
    exact h.created i (hlive i hi)

theorem Graph.Inv.create {g : Graph α} (h : g.Inv compute) (body : Callback α)
    (hsaw : g.saw (.effect g.effects.length) = []) :
    ({ g with
      effects := g.effects ++ [body]
      live := Function.update g.live g.effects.length true } : Graph α).Inv compute := by
  refine ⟨h.linked, h.nodup, h.saw_source, ?_, h.replays, ?_⟩
  · intro n hn source v hv
    by_cases hnew : n = .effect g.effects.length
    · subst hnew
      rw [show ({ g with
        effects := g.effects ++ [body]
        live := Function.update g.live g.effects.length true } : Graph α).saw
          (.effect g.effects.length) = [] from hsaw] at hv
      cases hv
    · refine h.fresh n ?_ source v hv
      cases n with
      | derived d => exact hn
      | effect i =>
          have hi : i ≠ g.effects.length := fun heq => hnew (by rw [heq])
          simpa [Graph.Resting, hi] using hn
  · intro i hi
    by_cases hnew : i = g.effects.length
    · simp [hnew]
    · have hold := h.created i (by simpa [hnew] using hi)
      simp only [List.length_append, List.length_singleton]
      omega

theorem Graph.open_effect (g : Graph α) (e : Nat) : g.Open (.effect e) := by
  rintro d ⟨⟩

theorem State.Good.disposeEffect (h : st.Good compute) (e : Nat) :
    (disposeEffect e st).Good compute := by
  unfold Runtime.disposeEffect
  split
  · rename_i hlt
    refine State.Good.note ?_ ?_ (by rintro _ ⟨⟩) (by rintro _ ⟨⟩) trivial
    · refine h.map ?_ (Nat.le_refl _) ?_
      · exact (h.inv.kill e).clearSources (Graph.open_effect _ e)
      · intro i _ hi
        by_cases hie : i = e
        · subst hie
          exact Function.update_self ..
        · exact (Function.update_of_ne hie ..).trans hi
    · rintro _ ⟨⟩
      exact ⟨hlt, Function.update_self ..⟩
  · exact h

theorem State.Good.createEffect (h : st.Good compute) (body : Callback α) :
    (createEffect body st).Good compute := by
  have hclear := h.inv.clearSources (Graph.open_effect st.graph st.graph.effects.length)
  refine State.Good.note ?_ (by rintro _ ⟨⟩) ?_ (by rintro _ ⟨⟩) trivial
  · refine h.map (hclear.create body (Function.update_self ..)) ?_ ?_
    · simp [Graph.clearSources]
    · intro e he hdead
      exact (Function.update_of_ne (Nat.ne_of_lt he) ..).trans hdead
  · rintro _ ⟨⟩ hdisposed
    exact Nat.lt_irrefl _ (h.disposed _ hdisposed).1

theorem State.Good.depth (h : st.Good compute) (depth : Nat) :
    (st.map (fun g => { g with batchDepth := depth })).Good compute :=
  h.map ⟨h.inv.linked, h.inv.nodup, h.inv.saw_source, h.inv.fresh, h.inv.replays,
    h.inv.created⟩ (Nat.le_refl _) (fun _ _ hdead => hdead)

theorem State.Good.pop (h : st.Good compute) {n : Node} {rest : List Node}
    (f : Graph α → Graph α) (hinv : (f st.graph).Inv compute)
    (hready : (f st.graph).ready = n :: rest)
    (hn : ¬ (f st.graph).Resting n ∨ (f st.graph).saw n = [])
    (heffects : (f st.graph).effects = st.graph.effects)
    (hlive : (f st.graph).live = st.graph.live) :
    (st.map (fun g => { f g with ready := rest })).Good compute := by
  refine h.map (hinv.pop hready hn) ?_ ?_
  · exact Nat.le_of_eq (congrArg List.length heffects).symm
  · intro e _ hdead
    exact (congrFun hlive e).trans hdead

end Steps

section Run

variable [DecidableEq α] {compute : (d : Nat) → Compute α d} {st st' : State α}
  {flush : State α → Option (State α)}

omit [DecidableEq α] in
theorem leaveBatch_good
    (hflush : ∀ st st' : State α, st.Good compute → flush st = some st' → st'.Good compute)
    (h : st.Good compute) (hrun : leaveBatch flush st = some st') : st'.Good compute := by
  rw [leaveBatch] at hrun
  split at hrun
  · exact hflush _ _ (h.depth _) hrun
  · cases hrun
    exact h.depth _

theorem writeSignal_good
    (hflush : ∀ st st' : State α, st.Good compute → flush st = some st' → st'.Good compute)
    (h : st.Good compute) {s : Nat} {resolved : α}
    (hrun : writeSignal flush s resolved st = some st') : st'.Good compute := by
  rw [writeSignal] at hrun
  split at hrun
  · cases hrun
    exact h
  · refine leaveBatch_good hflush ?_ hrun
    refine State.Good.map (h.depth _) ?_ (Nat.le_refl _) (fun _ _ hdead => hdead)
    exact (h.depth _).inv.setValue s resolved

theorem runCallback_good
    (hflush : ∀ st st' : State α, st.Good compute → flush st = some st' → st'.Good compute)
    (callback : Callback α) :
    ∀ (listener : Option Node) (st : State α) (r : State α × α), Outer listener →
      st.Good compute → runCallback compute flush listener callback st = some r →
      r.1.Good compute := by
  induction callback with
  | done value =>
      intro listener st r _ h hrun
      cases hrun
      exact h
  | read source next ih =>
      intro listener st r houter h hrun
      exact ih _ _ _ _ houter (h.readSource houter source) hrun
  | write s change next ih =>
      intro listener st r houter h hrun
      obtain ⟨st', hwrite, hnext⟩ := Option.bind_eq_some_iff.mp hrun
      exact ih _ _ _ _ houter (writeSignal_good hflush h hwrite) hnext
  | batch inner next ihinner ihnext =>
      intro listener st r houter h hrun
      obtain ⟨r', hinner, hrest⟩ := Option.bind_eq_some_iff.mp hrun
      obtain ⟨st', hleave, hnext⟩ := Option.bind_eq_some_iff.mp hrest
      have hgood := ihinner _ _ _ houter (h.depth _) hinner
      exact ihnext _ _ _ _ houter (leaveBatch_good hflush hgood hleave) hnext
  | effect body next ihbody ihnext =>
      intro listener st r houter h hrun
      obtain ⟨r', hbody, hnext⟩ := Option.bind_eq_some_iff.mp hrun
      have hgood := ihbody _ _ _ (by rintro d ⟨⟩) (h.createEffect body) hbody
      exact ihnext _ _ _ _ houter hgood hnext
  | dispose e next ih =>
      intro listener st r houter h hrun
      exact ih _ _ _ houter (h.disposeEffect e) hrun

theorem runNode_good {n : Node} {rest : List Node} (h : st.Good compute)
    (hready : st.graph.ready = n :: rest)
    (hrun : runNode compute n (st.map (fun g => { g with ready := rest })) = some st') :
    st'.Good compute := by
  cases n with
  | derived d =>
      cases hrun
      refine h.pop (fun g => g.markStale d) (h.inv.markStale d) hready (.inl ?_) rfl rfl
      rintro ⟨v, hv⟩
      simp [Graph.markStale, Graph.invalidate] at hv
  | effect e =>
      have hdead : st.graph.live e = false →
          (st.map (fun g => { g with ready := rest })).Good compute := by
        intro hdead
        refine h.pop (fun g => g) h.inv hready (.inl ?_) rfl rfl
        intro hlive
        rw [Graph.Resting, hdead] at hlive
        cases hlive
      rw [runNode] at hrun
      cases hbody : st.graph.effects[e]? with
      | none =>
          simp only [State.map, hbody] at hrun
          cases hrun
          refine hdead ?_
          cases hlive : st.graph.live e with
          | false => rfl
          | true =>
              have hlt := h.inv.created e hlive
              rw [List.getElem?_eq_none_iff] at hbody
              omega
      | some body =>
          cases hlive : st.graph.live e with
          | false =>
              simp only [State.map, hbody, hlive, Bool.false_eq_true, if_false] at hrun
              cases hrun
              exact hdead hlive
          | true =>
              simp only [State.map, hbody, hlive, if_true] at hrun
              obtain ⟨r, hcallback, rfl⟩ := Option.map_eq_some_iff.mp hrun
              refine runCallback_good ?_ body _ _ _ (by rintro d ⟨⟩) ?_ hcallback
              · rintro st st' hgood hsome
                cases hsome
                exact hgood
              · refine State.Good.note (h.pop (fun g => g.clearSources (.effect e))
                  (h.inv.clearSources (Graph.open_effect _ e)) hready (.inr ?_) rfl rfl)
                  (by rintro _ ⟨⟩) ?_ (by rintro _ ⟨⟩) trivial
                · exact Function.update_self ..
                · rintro _ ⟨⟩ hdisposed
                  have hdisposed := (h.disposed e hdisposed).2
                  rw [hlive] at hdisposed
                  cases hdisposed

omit [DecidableEq α] in
theorem takeReady_eq_nil {g : Graph α} (h : g.takeReady.ready = []) :
    g.pending = [] ∧ g.ready = [] := by
  rw [Graph.takeReady] at h
  split at h
  · rename_i hready
    exact ⟨h, hready⟩
  · rename_i hready
    rw [hready] at h
    cases h

omit [DecidableEq α] in
theorem State.Good.takeReady (h : st.Good compute) :
    (st.map Graph.takeReady).Good compute := by
  have hsame : st.graph.takeReady.effects = st.graph.effects ∧
      st.graph.takeReady.live = st.graph.live := by
    rw [Graph.takeReady]
    split
    · exact ⟨rfl, rfl⟩
    · exact ⟨rfl, rfl⟩
  refine h.map h.inv.takeReady ?_ ?_
  · exact Nat.le_of_eq (congrArg List.length hsame.1).symm
  · intro e _ hdead
    exact (congrFun hsame.2 e).trans hdead

theorem drain_good (steps : Nat) :
    ∀ st st' : State α, st.Good compute → drain compute steps st = some st' →
      st'.Good compute ∧ st'.graph.pending = [] ∧ st'.graph.ready = [] := by
  induction steps with
  | zero =>
      intro st st' h hdrain
      rw [drain] at hdrain
      split at hdrain
      · rename_i hready
        cases hdrain
        exact ⟨h, takeReady_eq_nil hready⟩
      · cases hdrain
  | succ steps ih =>
      intro st st' h hdrain
      rw [drain] at hdrain
      split at hdrain
      · rename_i hready
        cases hdrain
        exact ⟨h, takeReady_eq_nil hready⟩
      · rename_i n rest hready
        obtain ⟨st₁, hnode, hrest⟩ := Option.bind_eq_some_iff.mp hdrain
        exact ih _ _ (runNode_good h.takeReady hready hnode) hrest

theorem flush_good (h : st.Good compute) (hflush : Runtime.flush compute st = some st') :
    st'.Good compute := by
  obtain ⟨st₁, hdrain, rfl⟩ := Option.map_eq_some_iff.mp hflush
  obtain ⟨hgood, hpending, hready⟩ := drain_good _ _ _ h hdrain
  refine hgood.note (by rintro _ ⟨⟩) (by rintro _ ⟨⟩) ?_ trivial
  rintro _ ⟨⟩
  exact hgood.inv.consistent hpending hready

omit [DecidableEq α] in
theorem initial_good (value : Nat → α) : (initial value).Good compute := by
  refine ⟨⟨?_, ?_, ?_, ?_, ?_, ?_⟩, ?_, ?_, ?_, ?_⟩ <;> simp [initial]

theorem runScript_good (script : List (Callback α)) :
    ∀ st st' : State α, st.Good compute → runScript compute script st = some st' →
      st'.Good compute := by
  induction script with
  | nil =>
      intro st st' h hrun
      cases hrun
      exact h
  | cons callback script ih =>
      intro st st' h hrun
      obtain ⟨r, hcallback, hrest⟩ := Option.bind_eq_some_iff.mp hrun
      refine ih _ _ ?_ hrest
      exact runCallback_good (fun _ _ => flush_good) callback _ _ _ (by rintro d ⟨⟩) h
        hcallback

/-- Where every read finds its derived stale or settled, every read is right. -/
theorem reads_right_of_clean (compute : (d : Nat) → Compute α d) (value : Nat → α)
    (script : List (Callback α)) {st : State α}
    (h : runScript compute script (initial value) = some st)
    (hclean : ∀ event ∈ st.log, event.Clean) :
    ∀ event ∈ st.log, event.Right compute :=
  (runScript_good script _ _ (initial_good value) h).right hclean

end Run

section Checks

/-- `Graph.Settled`, looked for along so many edges. -/
def Graph.settledWithin (g : Graph α) : Nat → Nat → Bool
  | 0, _ => false
  | steps + 1, d =>
      decide (.derived d ∉ g.pending ∧ .derived d ∉ g.ready) &&
        (g.sources (.derived d)).all (fun source =>
          match source with
          | .signal _ => true
          | .derived i => g.settledWithin steps i)

def Event.cleanWithin (steps : Nat) : Event α → Bool
  | .read d _ before => (before.cache d).isNone || before.settledWithin steps d
  | _ => true

theorem Graph.settled_of_settledWithin {g : Graph α} (steps : Nat) :
    ∀ {d}, g.settledWithin steps d = true → g.Settled d := by
  induction steps with
  | zero =>
      rintro d ⟨⟩
  | succ steps ih =>
      intro d h
      rw [Graph.settledWithin, Bool.and_eq_true, decide_eq_true_iff, List.all_eq_true] at h
      obtain ⟨⟨hpending, hready⟩, hlower⟩ := h
      refine .intro d (not_or.mpr ⟨hpending, hready⟩) ?_
      intro i hi
      exact ih (hlower _ hi)

theorem Event.clean_of_cleanWithin {steps : Nat} {event : Event α}
    (h : event.cleanWithin steps = true) : event.Clean := by
  cases event with
  | read d given before =>
      rw [Event.cleanWithin, Bool.or_eq_true, Option.isNone_iff_eq_none] at h
      rcases h with hstale | hsettled
      · exact .inl hstale
      · exact .inr (Graph.settled_of_settledWithin steps hsettled)
  | ran e => trivial
  | disposed e => trivial
  | returned g => trivial

instance [DecidableEq α] (compute : (d : Nat) → Compute α d) (event : Event α) :
    Decidable (event.Right compute) :=
  match event with
  | .read d given before =>
      inferInstanceAs (Decidable (given = evalDerived compute before.value d))
  | .ran _ => isTrue trivial
  | .disposed _ => isTrue trivial
  | .returned _ => isTrue trivial

def tenfold : (d : Nat) → Compute Nat d :=
  fun _ => .signal 0 (fun value => .done (10 * value))

/-- Two effects read a derived, its signal is written, one effect is disposed of and
the signal is written again. -/
def steadyScript : List (Callback Nat) :=
  [.effect (.read (.derived 0) .done) (fun _ => .done 0),
    .effect (.read (.derived 0) .done) (fun _ => .done 0),
    .write 0 (fun _ => 5) .done,
    .dispose 0 (.done 0),
    .write 0 (fun _ => 6) .done]

def steadyRun : State Nat :=
  (runScript tenfold steadyScript (initial (fun _ => 1))).get (by decide)

/-- An effect reads a signal before the derived of it, and the signal is written. -/
def pairScript : List (Callback Nat) :=
  [.effect (.read (.signal 0) (fun _ => .read (.derived 0) .done)) (fun _ => .done 0),
    .write 0 (fun _ => 5) .done]

def pairRun : State Nat :=
  (runScript tenfold pairScript (initial (fun _ => 1))).get (by decide)

theorem reads_right_of_clean_steady :
    steadyRun.log.length = 13 ∧ ∀ event ∈ steadyRun.log, event.Right tenfold :=
  ⟨by decide, reads_right_of_clean tenfold (fun _ => 1) steadyScript
    (Option.some_get _).symm (fun event hevent =>
      Event.clean_of_cleanWithin
        (List.all_eq_true.mp (by decide : steadyRun.log.all (Event.cleanWithin 1) = true)
          event hevent))⟩

/-- The effect of the pair is given a derived of the signal as it was. -/
theorem stale_pair :
    ¬ ∀ (compute : (d : Nat) → Compute Nat d) (value : Nat → Nat)
      (script : List (Callback Nat)) (st : State Nat),
      runScript compute script (initial value) = some st →
        ∀ event ∈ st.log, event.Right compute := by
  intro h
  have hpair := h tenfold (fun _ => 1) pairScript pairRun (Option.some_get _).symm
  revert hpair
  decide

end Checks

end Runtime
end Zdeceptron
