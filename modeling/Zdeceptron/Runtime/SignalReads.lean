import Zdeceptron.Runtime.SignalInvariant

/-!
# Reads

A read may run the functions of deriveds.  It changes no signal, makes no derived
stale and marks nothing; it keeps the invariant, and what it gives is cached when it
returns.
-/

namespace Zdeceptron
namespace Runtime

variable {α : Type}

section Definitions

/-- A read for `listener` that runs no derived from `below` on. -/
structure Graph.Reads (below : Nat) (listener : Option Node) (g g' : Graph α) : Prop where
  value : g'.value = g.value
  effects : g'.effects = g.effects
  live : g'.live = g.live
  batchDepth : g'.batchDepth = g.batchDepth
  pending : g'.pending = g.pending
  ready : g'.ready = g.ready
  cached : ∀ d v, g.cache d = some v → g'.cache d = some v
  above : ∀ d, below ≤ d → g'.cache d = g.cache d
  saw : ∀ m, some m ≠ listener → (∀ d < below, m ≠ .derived d) → g'.saw m = g.saw m
  sources : ∀ m, (∀ d < below, m ≠ .derived d) → ∀ source ∈ g.sources m,
    source ∈ g'.sources m

/-- A derived that is not stale is settled when neither it nor any derived it was
computed from waits. -/
inductive Graph.Settled (g : Graph α) : Nat → Prop
  | intro (d : Nat) (waits : ¬ g.Waiting (.derived d))
      (lower : ∀ i, Source.derived i ∈ g.sources (.derived d) → g.Settled i) : g.Settled d

def Event.Clean : Event α → Prop
  | .read d _ before => before.cache d = none ∨ before.Settled d
  | _ => True

def Event.Right (compute : (d : Nat) → Compute α d) : Event α → Prop
  | .read d given before => given = evalDerived compute before.value d
  | _ => True

/-- A read made while the signals hold `value`. -/
def Event.ReadAt (value : Nat → α) : Event α → Prop
  | .read _ _ before => before.value = value
  | _ => False

/-- A read takes `st` to `st'` and logs `new`, right if every read it makes is clean. -/
structure State.Reads (compute : (d : Nat) → Compute α d) (below : Nat)
    (listener : Option Node) (st st' : State α) (new : List (Event α)) : Prop where
  graph : st.graph.Reads below listener st'.graph
  inv : st'.graph.Inv compute
  log : st'.log = st.log ++ new
  reads : ∀ event ∈ new, event.ReadAt st.graph.value
  right : (∀ event ∈ new, event.Clean) → ∀ event ∈ new, event.Right compute

/-- A listener that a read of a derived before `n` may be made for. -/
def Graph.Listens (g : Graph α) (n : Nat) (listener : Option Node) : Prop :=
  ∀ m, listener = some m → g.Open m ∧ ∀ i < n, m ≠ .derived i

def Reader.Spec (compute : (d : Nat) → Compute α d) (d : Nat) (read : Reader α) : Prop :=
  ∀ listener st, st.graph.Inv compute → st.graph.Listens (d + 1) listener →
    ∃ new, st.Reads compute (d + 1) listener (read listener st).1 new ∧
      (read listener st).1.graph.cache d = some (read listener st).2 ∧
      ∀ m, listener = some m →
        (read listener st).1.graph.saw m =
          st.graph.saw m ++ [(.derived d, (read listener st).2)] ∧
        ∃ before, .read d (read listener st).2 before ∈ new

end Definitions

section Frame

variable {below : Nat} {listener : Option Node} {g g' g'' : Graph α}

theorem Graph.Reads.refl : g.Reads below listener g := by
  refine ⟨rfl, rfl, rfl, rfl, rfl, rfl, ?_, ?_, ?_, ?_⟩
  · exact fun _ _ h => h
  · exact fun _ _ => rfl
  · exact fun _ _ _ => rfl
  · exact fun _ _ _ h => h

theorem Graph.Reads.trans (h : g.Reads below listener g') (h' : g'.Reads below listener g'') :
    g.Reads below listener g'' where
  value := h'.value.trans h.value
  effects := h'.effects.trans h.effects
  live := h'.live.trans h.live
  batchDepth := h'.batchDepth.trans h.batchDepth
  pending := h'.pending.trans h.pending
  ready := h'.ready.trans h.ready
  cached d v hv := h'.cached d v (h.cached d v hv)
  above d hd := (h'.above d hd).trans (h.above d hd)
  saw m hm hd := (h'.saw m hm hd).trans (h.saw m hm hd)
  sources m hd source hsource := h'.sources m hd source (h.sources m hd source hsource)

theorem Graph.Reads.weaken {above : Nat} {listener' : Option Node}
    (h : g.Reads below listener g') (hle : below ≤ above)
    (hlistener : ∀ m, some m ≠ listener' → (∀ d < above, m ≠ .derived d) → some m ≠ listener) :
    g.Reads above listener' g' where
  value := h.value
  effects := h.effects
  live := h.live
  batchDepth := h.batchDepth
  pending := h.pending
  ready := h.ready
  cached := h.cached
  above d hd := h.above d (Nat.le_trans hle hd)
  saw m hm hd := h.saw m (hlistener m hm hd) (fun d hlt => hd d (Nat.lt_of_lt_of_le hlt hle))
  sources m hd := h.sources m (fun d hlt => hd d (Nat.lt_of_lt_of_le hlt hle))

theorem Graph.Reads.mono {above : Nat} (h : g.Reads below listener g') (hle : below ≤ above) :
    g.Reads above listener g' := h.weaken hle (fun _ hm _ => hm)

theorem Graph.Reads.nested {d : Nat} (h : g.Reads d (some (.derived d)) g') :
    g.Reads (d + 1) listener g' :=
  h.weaken (Nat.le_succ d) (fun _ _ hd e => hd d (Nat.lt_succ_self d) (Option.some.inj e))

theorem Graph.Reads.anyone (h : g.Reads below none g') : g.Reads below listener g' :=
  h.weaken (Nat.le_refl _) (fun _ _ _ => by rintro ⟨⟩)

theorem Graph.Reads.listens (h : g.Reads below listener g') {n : Nat} (hle : below ≤ n)
    (hlistens : g.Listens n listener) : g'.Listens n listener := by
  rintro m rfl
  obtain ⟨hopen, hlower⟩ := hlistens m rfl
  refine ⟨?_, hlower⟩
  rintro d rfl
  have hd : n ≤ d := by
    by_contra hlt
    exact hlower d (by omega) rfl
  rw [h.above d (Nat.le_trans hle hd)]
  exact hopen d rfl

theorem Graph.reads_register (g : Graph α) (source : Source) (reader : Option Node) :
    g.Reads below listener (g.register source reader) := by
  cases reader with
  | none => exact Graph.Reads.refl
  | some n =>
      refine ⟨rfl, rfl, rfl, rfl, rfl, rfl, fun _ _ h => h, fun _ _ => rfl,
        fun _ _ _ => rfl, ?_⟩
      intro m _ other hother
      by_cases hm : m = n
      · subst hm
        simp [Graph.register, mem_addTo, hother]
      · simpa [Graph.register, hm] using hother

theorem Graph.reads_observe (g : Graph α) (source : Source) (v : α) (n : Node) :
    g.Reads below (some n) (g.observe source v (some n)) := by
  refine ⟨rfl, rfl, rfl, rfl, rfl, rfl, fun _ _ h => h, fun _ _ => rfl, ?_,
    fun _ _ _ h => h⟩
  intro m hm _
  have hne : m ≠ n := fun e => hm (by rw [e])
  simp [Graph.observe, hne]

theorem Graph.reads_clearSources (g : Graph α) (d : Nat) :
    g.Reads (d + 1) listener (g.clearSources (.derived d)) := by
  refine ⟨rfl, rfl, rfl, rfl, rfl, rfl, fun _ _ h => h, fun _ _ => rfl, ?_, ?_⟩
  · intro m _ hd
    simp [Graph.clearSources, hd d (by omega)]
  · intro m hd source hsource
    simpa [Graph.clearSources, hd d (by omega)] using hsource

theorem Graph.reads_store {d : Nat} (hstale : g.cache d = none) (v : α) :
    g.Reads (d + 1) listener (g.store d v) := by
  refine ⟨rfl, rfl, rfl, rfl, rfl, rfl, ?_, ?_, fun _ _ _ => rfl, fun _ _ _ h => h⟩
  · intro i w hw
    have hi : i ≠ d := by
      rintro rfl
      rw [hstale] at hw
      cases hw
    simpa [Graph.store, hi] using hw
  · intro i hi
    have hne : i ≠ d := by omega
    simp [Graph.store, hne]

end Frame

section Right

variable {compute : (d : Nat) → Compute α d} {g : Graph α}

theorem Graph.Settled.cached_eq {d : Nat} (hsettled : g.Settled d) (h : g.Inv compute) :
    ∀ {v}, g.cache d = some v → v = evalDerived compute g.value d := by
  induction hsettled with
  | intro d hwait _ ih =>
      intro v hv
      exact h.cached_eq hv hwait (fun i w _ hi hw => ih i hi hw)

end Right

section Trans

variable {compute : (d : Nat) → Compute α d} {below : Nat} {listener : Option Node}
  {st st' st'' : State α} {new new' : List (Event α)}

theorem State.Reads.trans (h : st.Reads compute below listener st' new)
    (h' : st'.Reads compute below listener st'' new') :
    st.Reads compute below listener st'' (new ++ new') where
  graph := h.graph.trans h'.graph
  inv := h'.inv
  log := by rw [h'.log, h.log, List.append_assoc]
  reads := by
    intro event hevent
    rcases List.mem_append.mp hevent with hevent | hevent
    · exact h.reads event hevent
    · rw [← h.graph.value]
      exact h'.reads event hevent
  right := by
    intro hclean event hevent
    rcases List.mem_append.mp hevent with hevent | hevent
    · exact h.right (fun e he => hclean e (List.mem_append_left _ he)) event hevent
    · exact h'.right (fun e he => hclean e (List.mem_append_right _ he)) event hevent

theorem State.Reads.mono {above : Nat} (h : st.Reads compute below listener st' new)
    (hle : below ≤ above) : st.Reads compute above listener st' new :=
  ⟨h.graph.mono hle, h.inv, h.log, h.reads, h.right⟩

theorem State.Reads.nested {d : Nat} (h : st.Reads compute d (some (.derived d)) st' new) :
    st.Reads compute (d + 1) listener st' new :=
  ⟨h.graph.nested, h.inv, h.log, h.reads, h.right⟩

theorem State.Reads.anyone (h : st.Reads compute below none st' new) :
    st.Reads compute below listener st' new :=
  ⟨h.graph.anyone, h.inv, h.log, h.reads, h.right⟩

theorem State.reads_map {f : Graph α → Graph α}
    (h : st.graph.Reads below listener (f st.graph)) (hinv : (f st.graph).Inv compute) :
    st.Reads compute below listener (st.map f) [] where
  graph := h
  inv := hinv
  log := (List.append_nil _).symm
  reads := by simp
  right := by simp

end Trans

section Spec

variable {compute : (d : Nat) → Compute α d}

theorem Graph.listens_derived {g : Graph α} {n d : Nat} (hle : n ≤ d)
    (hstale : g.cache d = none) : g.Listens n (some (.derived d)) := by
  rintro m hm
  obtain rfl := Option.some.inj hm
  refine ⟨?_, ?_⟩
  · rintro i hi
    obtain rfl := Node.derived.inj hi
    exact hstale
  · rintro i hi e
    obtain rfl := Node.derived.inj e
    omega

theorem readSignal_spec (s : Nat) {n : Node} {st : State α} (hinv : st.graph.Inv compute)
    (hopen : st.graph.Open n) :
    st.Reads compute 0 (some n) (readSignal s (some n) st).1 [] ∧
      (readSignal s (some n) st).1.graph.saw n =
        st.graph.saw n ++ [(.signal s, st.graph.value s)] := by
  constructor
  · show st.Reads compute 0 (some n) (st.map (fun g =>
      (g.register (.signal s) (some n)).observe (.signal s) (g.value s) (some n))) []
    refine State.reads_map ?_ ?_
    · exact (Graph.reads_register _ _ _).trans (Graph.reads_observe _ _ _ _)
    · exact (hinv.register _ _).observe (source_mem_register _ _) rfl hopen
  · simp [readSignal, State.map, Graph.observe, Graph.register]

theorem runCompute_spec {d : Nat} {lower : Fin d → Reader α}
    (hlower : ∀ i, Reader.Spec compute i.val (lower i)) (body : Compute α d) :
    ∀ st : State α, st.graph.Inv compute → st.graph.cache d = none →
      ∃ new seen, st.Reads compute d (some (.derived d)) (runCompute lower body st).1 new ∧
        (runCompute lower body st).1.graph.saw (.derived d) = st.graph.saw (.derived d) ++ seen ∧
        body.replay seen = some (runCompute lower body st).2 ∧ (∀ source w, (source, w) ∈ seen →
          (runCompute lower body st).1.graph.current source = some w) ∧
        ∀ i w, (Source.derived i, w) ∈ seen → ∃ before, .read i w before ∈ new := by
  induction body with
  | done value =>
      intro st hinv hstale
      refine ⟨[], [], ⟨Graph.Reads.refl, hinv, (List.append_nil _).symm, by simp, by simp⟩,
        (List.append_nil _).symm, rfl, by simp, by simp⟩
  | signal s next ih =>
      intro st hinv hstale
      have hopen : st.graph.Open (.derived d) := by
        rintro i hi
        obtain rfl := Node.derived.inj hi
        exact hstale
      obtain ⟨hreads, hsaw⟩ := readSignal_spec s hinv hopen
      obtain ⟨new, seen, hrun, hseen, hreplay, hcurrent, hlogged⟩ :=
        ih (readSignal s (some (.derived d)) st).2 (readSignal s (some (.derived d)) st).1
          hreads.inv ((hreads.graph.above d (Nat.zero_le d)).trans hstale)
      refine ⟨new, (.signal s, st.graph.value s) :: seen,
        (hreads.mono (Nat.zero_le d)).trans hrun, ?_, ?_, ?_, ?_⟩
      · rw [runCompute, hseen, hsaw, List.append_assoc, List.singleton_append]
      · rw [Compute.replay, if_pos rfl]
        exact hreplay
      · intro source w hw
        rcases List.mem_cons.mp hw with hw | hw
        · cases hw
          have hvalue := (hrun.graph.value.trans hreads.graph.value)
          exact congrArg some (congrFun hvalue s)
        · exact hcurrent source w hw
      · intro i w hw
        rcases List.mem_cons.mp hw with hw | hw
        · cases hw
        · exact hlogged i w hw
  | derived i next ih =>
      intro st hinv hstale
      obtain ⟨new, hreads, hcached, hlistener⟩ :=
        hlower i (some (.derived d)) st hinv (Graph.listens_derived i.isLt hstale)
      obtain ⟨hsaw, before, hbefore⟩ := hlistener _ rfl
      obtain ⟨new', seen, hrun, hseen, hreplay, hcurrent, hlogged⟩ :=
        ih (lower i (some (.derived d)) st).2 (lower i (some (.derived d)) st).1 hreads.inv
          ((hreads.graph.above d i.isLt).trans hstale)
      refine ⟨new ++ new', (.derived i.val, (lower i (some (.derived d)) st).2) :: seen,
        (hreads.mono i.isLt).trans hrun, ?_, ?_, ?_, ?_⟩
      · rw [runCompute, hseen, hsaw, List.append_assoc, List.singleton_append]
      · rw [Compute.replay, if_pos rfl]
        exact hreplay
      · intro source w hw
        rcases List.mem_cons.mp hw with hw | hw
        · cases hw
          exact hrun.graph.cached _ _ hcached
        · exact hcurrent source w hw
      · intro j w hw
        rcases List.mem_cons.mp hw with hw | hw
        · cases hw
          exact ⟨before, List.mem_append_left _ hbefore⟩
        · obtain ⟨before', hbefore'⟩ := hlogged j w hw
          exact ⟨before', List.mem_append_right _ hbefore'⟩

theorem refresh_spec {d : Nat} {lower : Fin d → Reader α}
    (hlower : ∀ i, Reader.Spec compute i.val (lower i)) {st : State α}
    (hinv : st.graph.Inv compute) :
    ∃ new, st.Reads compute (d + 1) none (refresh lower (compute d) st).1 new ∧
      (refresh lower (compute d) st).1.graph.cache d = some (refresh lower (compute d) st).2 ∧
      ((∀ event ∈ new, event.Clean) →
        (∀ v, st.graph.cache d = some v → v = evalDerived compute st.graph.value d) →
        (refresh lower (compute d) st).2 = evalDerived compute st.graph.value d) := by
  cases hcache : st.graph.cache d with
  | some value =>
      refine ⟨[], ?_, ?_, ?_⟩
      · simp only [refresh, hcache]
        exact ⟨Graph.Reads.refl, hinv, (List.append_nil _).symm, by simp, by simp⟩
      · simp only [refresh, hcache]
      · rintro - hvalue
        simp only [refresh, hcache]
        exact hvalue value rfl
  | none =>
      have hopen : st.graph.Open (.derived d) := by
        rintro i hi
        obtain rfl := Node.derived.inj hi
        exact hcache
      have hclear : st.Reads compute (d + 1) none
          (st.map (fun g => g.clearSources (.derived d))) [] :=
        State.reads_map (Graph.reads_clearSources _ d) (hinv.clearSources hopen)
      obtain ⟨new, seen, hrun, hseen, hreplay, hcurrent, hlogged⟩ :=
        runCompute_spec hlower (compute d) (st.map (fun g => g.clearSources (.derived d)))
          hclear.inv hcache
      have hstale := (hrun.graph.above d (Nat.le_refl d)).trans hcache
      rw [show (st.map (fun g => g.clearSources (.derived d))).graph.saw (.derived d) = [] by
        simp [State.map, Graph.clearSources], List.nil_append] at hseen
      subst hseen
      have hstore : (runCompute lower (compute d)
          (st.map (fun g => g.clearSources (.derived d)))).1.Reads compute (d + 1) none
          ((runCompute lower (compute d)
            (st.map (fun g => g.clearSources (.derived d)))).1.map (fun g => g.store d
              (runCompute lower (compute d)
                (st.map (fun g => g.clearSources (.derived d)))).2)) [] :=
        State.reads_map (Graph.reads_store hstale _) (hrun.inv.store hstale hreplay hcurrent)
      refine ⟨new, ?_, ?_, ?_⟩
      · simp only [refresh, hcache]
        have hall := (hclear.trans hrun.nested).trans hstore
        rw [List.nil_append, List.append_nil] at hall
        exact hall
      · simp [refresh, hcache, State.map, Graph.store]
      · rintro hclean -
        simp only [refresh, hcache]
        have hvalue := (hrun.graph.value.trans hclear.graph.value)
        refine replay_eval hreplay ?_ ?_
        · intro s w hw
          have hw' := hcurrent _ w hw
          rw [Graph.current, hvalue] at hw'
          exact (Option.some.inj hw').symm
        · intro i w hw
          obtain ⟨before, hbefore⟩ := hlogged i.val w hw
          rw [evalTable_eq]
          have hright := hrun.right hclean _ hbefore
          have hat := hrun.reads _ hbefore
          rw [Event.ReadAt] at hat
          rw [Event.Right, hat] at hright
          exact hright

theorem readDerivedWith_spec {d : Nat} {lower : Fin d → Reader α}
    (hlower : ∀ i, Reader.Spec compute i.val (lower i)) :
    Reader.Spec compute d (readDerivedWith lower (compute d)) := by
  intro listener st hinv hlistens
  have hregister : st.Reads compute (d + 1) none
      (st.map (fun g => g.register (.derived d) listener)) [] :=
    State.reads_map (Graph.reads_register _ _ _) (hinv.register _ _)
  obtain ⟨new, hrefresh, hcached, hright⟩ :=
    refresh_spec hlower hregister.inv
  have hreads := hregister.trans hrefresh
  rw [List.nil_append] at hreads
  cases listener with
  | none => exact ⟨new, hreads, hcached, by rintro m ⟨⟩⟩
  | some n =>
      have hsource := hrefresh.graph.sources n (hlistens n rfl).2 _
        (source_mem_register (.derived d) n)
      have hopen := (hreads.anyone.graph.listens (Nat.le_refl _) hlistens n rfl).1
      refine ⟨new ++ [.read d (readDerivedWith lower (compute d) (some n) st).2 st.graph],
        ⟨?_, ?_, ?_, ?_, ?_⟩, hcached, ?_⟩
      · exact hreads.graph.anyone.trans (Graph.reads_observe _ _ _ _)
      · exact hrefresh.inv.observe hsource hcached hopen
      · rw [← List.append_assoc, ← hreads.log]
        rfl
      · intro event hevent
        rcases List.mem_append.mp hevent with hevent | hevent
        · exact hreads.reads event hevent
        · obtain rfl := List.mem_singleton.mp hevent
          rfl
      · intro hclean event hevent
        have hnew : ∀ event ∈ new, event.Clean :=
          fun e he => hclean e (List.mem_append_left _ he)
        rcases List.mem_append.mp hevent with hevent | hevent
        · exact hreads.right hnew event hevent
        · obtain rfl := List.mem_singleton.mp hevent
          refine hright hnew ?_
          intro v hv
          rcases hclean _ (List.mem_append_right _ (List.mem_singleton_self _)) with
            hstale | hsettled
          · rw [show st.graph.cache d = some v from hv] at hstale
            cases hstale
          · exact hsettled.cached_eq hinv hv
      · rintro m hm
        obtain rfl := Option.some.inj hm
        refine ⟨?_, st.graph, List.mem_append_right _ (List.mem_singleton_self _)⟩
        rw [← hreads.graph.saw n (by rintro ⟨⟩) (hlistens n rfl).2]
        exact Function.update_self ..

theorem readTable_spec (n : Nat) (i : Fin n) :
    Reader.Spec compute i.val (readTable compute n i) := by
  induction n with
  | zero => exact i.elim0
  | succ n ih =>
      rw [readTable]
      split
      · rename_i hi
        exact ih ⟨i.val, hi⟩
      · have hi : i.val = n := by omega
        rw [hi]
        exact readDerivedWith_spec ih

theorem readDerived_spec (d : Nat) : Reader.Spec compute d (readDerived compute d) :=
  readDerivedWith_spec (readTable_spec d)

end Spec

end Runtime
end Zdeceptron
