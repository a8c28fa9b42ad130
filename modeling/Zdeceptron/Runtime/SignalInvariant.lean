import Zdeceptron.Runtime.Signal
import Mathlib.Data.List.Nodup

/-!
# What keeps a reactive graph right

The edges go both ways, a derived that is not stale is what its function gives for
what it saw, and a resting node either saw what its sources hold now or waits to run.
Every operation keeps this.
-/

namespace Zdeceptron
namespace Runtime

variable {α : Type}

section Definitions

/-- What a read would find, `none` in a stale derived. -/
def Graph.current (g : Graph α) : Source → Option α
  | .signal s => some (g.value s)
  | .derived d => g.cache d

def Graph.Waiting (g : Graph α) (n : Node) : Prop := n ∈ g.pending ∨ n ∈ g.ready

def Graph.Resting (g : Graph α) : Node → Prop
  | .derived d => ∃ v, g.cache d = some v
  | .effect e => g.live e = true

/-- What the function of a derived gives when its reads give what is listed. -/
def Compute.replay {d : Nat} : Compute α d → List (Source × α) → Option α
  | .done value, [] => some value
  | .done _, _ :: _ => none
  | .signal _ _, [] => none
  | .signal s next, (source, value) :: rest =>
      if source = .signal s then (next value).replay rest else none
  | .derived _ _, [] => none
  | .derived i next, (source, value) :: rest =>
      if source = .derived i.val then (next value).replay rest else none

structure Graph.Inv (compute : (d : Nat) → Compute α d) (g : Graph α) : Prop where
  linked : ∀ n source, source ∈ g.sources n ↔ n ∈ g.readers source
  nodup : ∀ source, (g.readers source).Nodup
  saw_source : ∀ n source v, (source, v) ∈ g.saw n → source ∈ g.sources n
  fresh : ∀ n, g.Resting n → ∀ source v, (source, v) ∈ g.saw n →
    g.current source = some v ∨ g.Waiting n
  replays : ∀ d v, g.cache d = some v → (compute d).replay (g.saw (.derived d)) = some v
  created : ∀ e, g.live e = true → e < g.effects.length

def Graph.Open (g : Graph α) (n : Node) : Prop := ∀ d, n = .derived d → g.cache d = none

end Definitions

section Lists

variable {β : Type} [DecidableEq β]

theorem mem_addTo {xs : List β} {x y : β} : y ∈ addTo xs x ↔ y ∈ xs ∨ y = x := by
  unfold addTo
  split
  · constructor
    · exact Or.inl
    · rintro (h | rfl)
      · exact h
      · assumption
  · simp

theorem nodup_addTo {xs : List β} (h : xs.Nodup) (x : β) : (addTo xs x).Nodup := by
  unfold addTo
  split
  · exact h
  · rename_i hx
    refine List.nodup_append.mpr ⟨h, List.nodup_singleton x, ?_⟩
    rintro y hy z hz rfl
    rw [List.mem_singleton] at hz
    exact hx (hz ▸ hy)

theorem mem_foldl_addTo {xs ys : List β} {y : β} :
    y ∈ ys.foldl addTo xs ↔ y ∈ xs ∨ y ∈ ys := by
  induction ys generalizing xs with
  | nil => simp
  | cons z ys ih =>
      rw [List.foldl_cons, ih, mem_addTo, List.mem_cons]
      tauto

end Lists

section Steps

variable {compute : (d : Nat) → Compute α d} {g : Graph α}

theorem Graph.Inv.register (h : g.Inv compute) (source : Source) (listener : Option Node) :
    (g.register source listener).Inv compute := by
  cases listener with
  | none => exact h
  | some n =>
      refine ⟨?_, ?_, ?_, h.fresh, h.replays, h.created⟩
      · intro m other
        have hlinked := h.linked m other
        by_cases hm : m = n
        · subst hm
          by_cases hother : other = source
          · subst hother
            simp [Graph.register, mem_addTo]
          · simpa [Graph.register, mem_addTo, hother] using hlinked
        · by_cases hother : other = source
          · subst hother
            simpa [Graph.register, mem_addTo, hm] using hlinked
          · simpa [Graph.register, hm, hother] using hlinked
      · intro other
        by_cases hother : other = source
        · subst hother
          simpa [Graph.register] using nodup_addTo (h.nodup other) n
        · simpa [Graph.register, hother] using h.nodup other
      · intro m other v hv
        have hmem := h.saw_source m other v hv
        by_cases hm : m = n
        · subst hm
          simp [Graph.register, mem_addTo, hmem]
        · simpa [Graph.register, hm] using hmem

theorem source_mem_register (source : Source) (n : Node) :
    source ∈ (g.register source (some n)).sources n := by
  simp [Graph.register, mem_addTo]

variable {n : Node}

theorem Graph.Open.ne (hopen : g.Open n) {d : Nat} {v : α} (hv : g.cache d = some v) :
    Node.derived d ≠ n := by
  rintro rfl
  cases hv.symm.trans (hopen d rfl)

theorem Graph.Inv.observe (h : g.Inv compute) {source : Source} {value : α}
    (hsource : source ∈ g.sources n) (hcurrent : g.current source = some value)
    (hopen : g.Open n) : (g.observe source value (some n)).Inv compute := by
  have hsaw : ∀ m other v, (other, v) ∈ (g.observe source value (some n)).saw m →
      (other, v) ∈ g.saw m ∨ m = n ∧ other = source ∧ v = value := by
    intro m other v hv
    by_cases hm : m = n
    · subst hm
      simpa [Graph.observe] using hv
    · simp only [Graph.observe, Function.update_of_ne hm] at hv
      exact .inl hv
  refine ⟨h.linked, h.nodup, ?_, ?_, ?_, h.created⟩
  · intro m other v hv
    rcases hsaw m other v hv with hv | ⟨rfl, rfl, rfl⟩
    · exact h.saw_source m other v hv
    · exact hsource
  · intro m hm other v hv
    rcases hsaw m other v hv with hv | ⟨rfl, rfl, rfl⟩
    · exact h.fresh m hm other v hv
    · exact .inl hcurrent
  · intro d v hv
    simp only [Graph.observe, Function.update_of_ne (hopen.ne hv)]
    exact h.replays d v hv

theorem Graph.Inv.clearSources (h : g.Inv compute) (hopen : g.Open n) :
    (g.clearSources n).Inv compute := by
  refine ⟨?_, ?_, ?_, ?_, ?_, h.created⟩
  · intro m source
    have hlinked := h.linked m source
    have hn := h.linked n source
    simp only [Graph.clearSources]
    by_cases hm : m = n
    · subst hm
      rw [Function.update_self]
      by_cases hmem : source ∈ g.sources m
      · rw [if_pos hmem, (h.nodup source).mem_erase_iff]
        simp
      · rw [if_neg hmem, ← hlinked]
        simp [hmem]
    · rw [Function.update_of_ne hm, hlinked]
      by_cases hmem : source ∈ g.sources n
      · rw [if_pos hmem, List.mem_erase_of_ne hm]
      · rw [if_neg hmem]
  · intro source
    simp only [Graph.clearSources]
    split
    · exact (h.nodup source).erase n
    · exact h.nodup source
  · intro m source v hv
    by_cases hm : m = n
    · subst hm
      simp [Graph.clearSources] at hv
    · simp only [Graph.clearSources, Function.update_of_ne hm] at hv ⊢
      exact h.saw_source m source v hv
  · intro m hm' source v hv
    by_cases hm : m = n
    · subst hm
      simp [Graph.clearSources] at hv
    · simp only [Graph.clearSources, Function.update_of_ne hm] at hv
      exact h.fresh m hm' source v hv
  · intro d v hv
    simp only [Graph.clearSources, Function.update_of_ne (hopen.ne hv)]
    exact h.replays d v hv

theorem Graph.Inv.store (h : g.Inv compute) {d : Nat} {v : α} (hstale : g.cache d = none)
    (hreplay : (compute d).replay (g.saw (.derived d)) = some v)
    (hsaw : ∀ source w, (source, w) ∈ g.saw (.derived d) → g.current source = some w) :
    (g.store d v).Inv compute := by
  have hcurrent : ∀ source w, g.current source = some w →
      (g.store d v).current source = some w := by
    intro source w hw
    cases source with
    | signal s => exact hw
    | derived i =>
        have hne : i ≠ d := by
          rintro rfl
          rw [show g.cache i = some w from hw] at hstale
          cases hstale
        simpa [Graph.current, Graph.store, hne] using hw
  refine ⟨h.linked, h.nodup, h.saw_source, ?_, ?_, h.created⟩
  · intro m hm source w hw
    by_cases hmd : m = .derived d
    · subst hmd
      exact .inl (hcurrent source w (hsaw source w hw))
    · have hrest : g.Resting m := by
        cases m with
        | effect e => exact hm
        | derived i =>
            have hne : i ≠ d := fun e => hmd (by rw [e])
            simpa [Graph.Resting, Graph.store, hne] using hm
      rcases h.fresh m hrest source w hw with hfresh | hwait
      · exact .inl (hcurrent source w hfresh)
      · exact .inr hwait
  · intro i w hw
    by_cases hi : i = d
    · subst hi
      simp only [Graph.store, Function.update_self, Option.some.injEq] at hw
      subst hw
      exact hreplay
    · simp only [Graph.store, Function.update_of_ne hi] at hw
      exact h.replays i w hw

theorem Graph.Inv.change (h : g.Inv compute) {g' : Graph α} (changed : Source)
    (hreaders : g'.readers = g.readers) (hsources : g'.sources = g.sources)
    (hsaw : g'.saw = g.saw) (hlive : g'.live = g.live) (heffects : g'.effects = g.effects)
    (hcache : ∀ d v, g'.cache d = some v → g.cache d = some v)
    (hcurrent : ∀ source, source ≠ changed → g'.current source = g.current source)
    (hwait : ∀ n, g.Waiting n → g'.Waiting n)
    (hmark : ∀ n ∈ g.readers changed, g'.Waiting n) : g'.Inv compute := by
  refine ⟨?_, ?_, ?_, ?_, ?_, ?_⟩
  · rw [hreaders, hsources]
    exact h.linked
  · rw [hreaders]
    exact h.nodup
  · rw [hsaw, hsources]
    exact h.saw_source
  · intro n hn source v hv
    rw [hsaw] at hv
    have hrest : g.Resting n := by
      cases n with
      | effect e =>
          rw [Graph.Resting, hlive] at hn
          exact hn
      | derived d =>
          obtain ⟨w, hw⟩ := hn
          exact ⟨w, hcache d w hw⟩
    by_cases hchanged : source = changed
    · subst hchanged
      exact .inr (hmark n ((h.linked n source).mp (h.saw_source n source v hv)))
    · rcases h.fresh n hrest source v hv with hfresh | hwaiting
      · exact .inl ((hcurrent source hchanged).trans hfresh)
      · exact .inr (hwait n hwaiting)
  · intro d v hv
    rw [hsaw]
    exact h.replays d v (hcache d v hv)
  · rw [hlive, heffects]
    exact h.created

theorem waiting_invalidate {nodes : List Node} :
    (g.invalidate nodes).Waiting n ↔ g.Waiting n ∨ n ∈ nodes := by
  simp only [Graph.Waiting, Graph.invalidate, mem_foldl_addTo]
  tauto

theorem Graph.Inv.setValue (h : g.Inv compute) (s : Nat) (value : α) :
    ((g.setValue s value).invalidate (g.readers (.signal s))).Inv compute := by
  refine h.change (.signal s) rfl rfl rfl rfl rfl (fun _ _ hv => hv) ?_ ?_ ?_
  · intro source hne
    cases source with
    | derived d => rfl
    | signal t =>
        have ht : t ≠ s := fun e => hne (by rw [e])
        simp [Graph.current, Graph.invalidate, Graph.setValue, ht]
  · intro n hn
    exact waiting_invalidate.mpr (.inl hn)
  · intro n hn
    exact waiting_invalidate.mpr (.inr hn)

theorem Graph.Inv.markStale (h : g.Inv compute) (d : Nat) : (g.markStale d).Inv compute := by
  refine h.change (.derived d) rfl rfl rfl rfl rfl ?_ ?_ ?_ ?_
  · intro i v hv
    by_cases hi : i = d
    · subst hi
      simp [Graph.markStale, Graph.invalidate] at hv
    · simpa [Graph.markStale, Graph.invalidate, hi] using hv
  · intro source hne
    cases source with
    | signal s => rfl
    | derived i =>
        have hi : i ≠ d := fun e => hne (by rw [e])
        simp [Graph.current, Graph.markStale, Graph.invalidate, hi]
  · intro n hn
    exact waiting_invalidate.mpr (.inl hn)
  · intro n hn
    exact waiting_invalidate.mpr (.inr hn)

theorem Graph.Inv.pop (h : g.Inv compute) {rest : List Node}
    (hready : g.ready = n :: rest) (hn : ¬ g.Resting n ∨ g.saw n = []) :
    ({ g with ready := rest } : Graph α).Inv compute := by
  refine ⟨h.linked, h.nodup, h.saw_source, ?_, h.replays, h.created⟩
  intro m hm source v hv
  rcases h.fresh m hm source v hv with hfresh | hwait
  · exact .inl hfresh
  · rcases hwait with hpending | hmem
    · exact .inr (.inl hpending)
    · rw [hready] at hmem
      rcases List.mem_cons.mp hmem with rfl | hmem
      · rcases hn with hn | hn
        · exact absurd hm hn
        · rw [show ({ g with ready := rest } : Graph α).saw m = g.saw m from rfl, hn] at hv
          cases hv
      · exact .inr (.inr hmem)

theorem Graph.Inv.takeReady (h : g.Inv compute) : g.takeReady.Inv compute := by
  unfold Graph.takeReady
  split
  · rename_i hready
    refine ⟨h.linked, h.nodup, h.saw_source, ?_, h.replays, h.created⟩
    intro m hm source v hv
    rcases h.fresh m hm source v hv with hfresh | hwait
    · exact .inl hfresh
    · rcases hwait with hpending | hmem
      · exact .inr (.inr hpending)
      · rw [hready] at hmem
        cases hmem
  · exact h

end Steps

section Consistent

variable {compute : (d : Nat) → Compute α d} {g : Graph α}

theorem evalTable_eq (compute : (d : Nat) → Compute α d) (value : Nat → α) (n : Nat)
    (i : Fin n) : evalTable compute value n i = evalDerived compute value i.val := by
  induction n with
  | zero => exact i.elim0
  | succ n ih =>
      rw [evalTable]
      split
      · exact ih _
      · have hi : i.val = n := by omega
        rw [hi]
        rfl

theorem replay_eval {d : Nat} {value : Nat → α} {lower : Fin d → α} {v : α} :
    ∀ {body : Compute α d} {seen : List (Source × α)}, body.replay seen = some v →
      (∀ s w, (Source.signal s, w) ∈ seen → w = value s) →
      (∀ (i : Fin d) w, (Source.derived i.val, w) ∈ seen → w = lower i) →
      v = body.eval value lower
  | .done _, [], h, _, _ => by
      cases h
      rfl
  | .done _, _ :: _, h, _, _ | .signal _ _, [], h, _, _ | .derived _ _, [], h, _, _ => by cases h
  | .signal s next, (source, w) :: rest, h, hsignal, hderived => by
      rw [Compute.replay] at h
      split at h
      · rename_i hsource
        subst hsource
        have hw : w = value s := hsignal s w (by simp)
        subst hw
        show v = (next (value s)).eval value lower
        exact replay_eval h (fun t x hx => hsignal t x (List.mem_cons_of_mem _ hx))
          (fun i x hx => hderived i x (List.mem_cons_of_mem _ hx))
      · cases h
  | .derived i next, (source, w) :: rest, h, hsignal, hderived => by
      rw [Compute.replay] at h
      split at h
      · rename_i hsource
        subst hsource
        have hw : w = lower i := hderived i w (by simp)
        subst hw
        show v = (next (lower i)).eval value lower
        exact replay_eval h (fun t x hx => hsignal t x (List.mem_cons_of_mem _ hx))
          (fun j x hx => hderived j x (List.mem_cons_of_mem _ hx))
      · cases h

/-- A graph at rest: nothing is pending, every derived that is not stale holds the value
of its function, and every live effect saw what its sources hold. -/
structure Graph.Consistent (compute : (d : Nat) → Compute α d) (g : Graph α) : Prop where
  pending : g.pending = []
  cached : ∀ d v, g.cache d = some v → v = evalDerived compute g.value d
  saw : ∀ e, g.live e = true → ∀ source v, (source, v) ∈ g.saw (.effect e) →
    v = evalSource compute g.value source

theorem Graph.Inv.cached_eq (h : g.Inv compute) {d : Nat} {v : α} (hv : g.cache d = some v)
    (hwait : ¬ g.Waiting (.derived d))
    (hlower : ∀ i w, i < d → Source.derived i ∈ g.sources (.derived d) → g.cache i = some w →
      w = evalDerived compute g.value i) :
    v = evalDerived compute g.value d := by
  have hcurrent : ∀ source w, (source, w) ∈ g.saw (.derived d) → g.current source = some w :=
    fun source w hw => (h.fresh (.derived d) ⟨v, hv⟩ source w hw).resolve_right hwait
  refine replay_eval (h.replays d v hv) ?_ ?_
  · intro s w hw
    exact (Option.some.inj (hcurrent _ w hw)).symm
  · intro i w hw
    rw [evalTable_eq]
    exact hlower i.val w i.isLt (h.saw_source _ _ w hw) (hcurrent _ w hw)

theorem Graph.Inv.consistent (h : g.Inv compute) (hpending : g.pending = [])
    (hready : g.ready = []) : g.Consistent compute := by
  have hwait : ∀ n, ¬ g.Waiting n := by
    rintro n (hn | hn)
    · rw [hpending] at hn
      cases hn
    · rw [hready] at hn
      cases hn
  have hcached : ∀ d v, g.cache d = some v → v = evalDerived compute g.value d := by
    intro d
    induction d using Nat.strongRecOn with
    | ind d ih =>
        intro v hv
        exact h.cached_eq hv (hwait _) (fun i w hi _ hw => ih i hi w hw)
  refine ⟨hpending, hcached, ?_⟩
  intro e he source v hv
  have hcurrent := (h.fresh (.effect e) he source v hv).resolve_right (hwait _)
  cases source with
  | signal s => exact (Option.some.inj hcurrent).symm
  | derived d => exact hcached d v hcurrent

end Consistent

end Runtime
end Zdeceptron
