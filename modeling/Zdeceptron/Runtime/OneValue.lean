import Zdeceptron.Runtime.Remembered

/-!
# One value per browser

A tab applies its own writes at once and the others' later.  A write made while an older
event is on its way to the writing tab is undone there when the event comes, and a function
of the old value is applied to a value that is already replaced.

* `one_value_iff`: a run keeps one value per browser exactly when its writes are undisturbed.
-/

namespace Zdeceptron
namespace Remembered

open Library
open Wire (Value parse stringify settle units)

variable {program : Program} {s s' t : Browser} {e : Step}

section Invariant

/-- Once everything in flight is heard, every tab holds the stored values. -/
def Converges (program : Program) (s : Browser) : Prop :=
  ∀ tab ∈ s.tabs, ∀ name ∈ program.names,
    Stored program s.store name (tab.received program name (tab.cells name))

theorem converges_closed (store : Storage) : Converges program (closed store) := by
  intro tab htab
  cases htab

theorem Converges.oneValue (h : Converges program s) (hquiet : Quiet s) : OneValue program s := by
  intro tab htab name hname
  have hstored := h tab htab name hname
  rwa [received_idle (hquiet tab htab)] at hstored

theorem Converges.writes (h : Converges program s) {i : Nat} {name : Units} {next : Next}
    {tab : Tab} (htab : s.tabs[i]? = some tab) (hname : name ∈ program.names)
    (hlands : Lands program s (.writes i name next)) :
    Converges program
      { store := Function.update s.store (rememberedKey name)
          (some (stringify (next.resolve (tab.cells name))))
        tabs := written s.tabs i name (next.resolve (tab.cells name)) } := by
  obtain ⟨decoded, hdecoded, hsame⟩ := hlands tab htab hname
  intro tab' htab' other hother
  obtain ⟨j, hj⟩ := List.getElem?_of_mem htab'
  rw [getElem?_written, Option.map_eq_some_iff] at hj
  obtain ⟨old, hold, rfl⟩ := hj
  have hstored := h old (List.mem_of_getElem? hold) other hother
  have hsame' (value : Value) : Same value decoded → Stored program
      (Function.update s.store (rememberedKey name)
        (some (stringify (next.resolve (tab.cells name))))) name value :=
    fun hvalue => stored_update_some.mpr ⟨decoded, hdecoded, hvalue⟩
  by_cases hji : j = i
  · -- the tab that wrote: its cell is new, what is in flight to it is not
    subst hji
    obtain rfl := Option.some.inj (htab.symm.trans hold)
    rw [if_pos rfl]
    by_cases hne : other = name
    · subst hne
      refine hsame' _ ?_
      simpa [Tab.set, Tab.received] using hsame
    · rw [stored_update_other hne]
      simpa [Tab.set, Tab.received, hne] using hstored
  · rw [if_neg hji, received_post]
    by_cases hne : other = name
    · subst hne
      rw [listen_text hdecoded]
      exact hsame' _ rfl
    · rw [listen_other hne, stored_update_other hne]
      exact hstored

theorem step_converges (h : Converges program s) (hlands : Lands program s e)
    (hstep : step program s e = some s') : Converges program s' := by
  obtain ⟨rfl, tab, htab, rfl⟩ | ⟨i, rfl, rfl⟩ | ⟨i, name, next, tab, rfl, htab, hname, rfl⟩ |
    ⟨i, tab, event, rest, rfl, htab, hinbox, rfl⟩ | ⟨name, rfl, rfl⟩ := step_cases hstep
  · intro tab' htab' name hname
    rcases List.mem_append.mp htab' with hold | hnew
    · exact h tab' hold name hname
    · obtain rfl := List.mem_singleton.mp hnew
      obtain ⟨hidle, hstored⟩ := stored_start htab hname
      rwa [received_idle hidle]
  · intro tab' htab' name hname
    exact h tab' (List.mem_of_mem_eraseIdx htab') name hname
  · exact h.writes htab hname hlands
  · intro tab' htab' name hname
    rcases List.mem_or_eq_of_mem_set htab' with hold | rfl
    · exact h tab' hold name hname
    · rw [received_hear hinbox]
      exact h tab (List.mem_of_getElem? htab) name hname
  · intro tab' htab' other hother
    obtain ⟨old, hold, rfl⟩ := List.mem_map.mp htab'
    rw [received_post]
    by_cases hne : other = name
    · subst hne
      rw [listen_none]
      exact stored_update_none.mpr rfl
    · rw [listen_other hne, stored_update_other hne]
      exact h old hold other hother

theorem lands_of_converges (h : ∀ s', (machine program).step s e = some s' → Converges program s') :
    Lands program s e := by
  cases e with
  | writes i name next =>
      intro tab htab hname
      have hconverges := h _ (step_writes htab hname)
      have hnew : (tab.set name (next.resolve (tab.cells name))) ∈
          written s.tabs i name (next.resolve (tab.cells name)) := by
        refine List.mem_of_getElem? (i := i) ?_
        rw [getElem?_written, htab, Option.map_some, if_pos rfl]
      have hstored := stored_update_some.mp (hconverges _ hnew name hname)
      simpa [Tab.set, Tab.received] using hstored
  | _ => trivial

theorem reads_iff_applied (h : Converges program s) :
    Reads program s e ↔ Applied program s e := by
  cases e with
  | writes i name next =>
      cases next with
      | value _ => exact Iff.rfl
      | function f =>
          refine forall_congr' (fun tab => forall_congr' (fun htab => forall_congr' ?_))
          intro hname
          obtain ⟨decoded, hload, hsame⟩ := h tab (List.mem_of_getElem? htab) name hname
          constructor
          · intro hreads
            exact ⟨decoded, hload, hreads.symm.trans hsame⟩
          · rintro ⟨decoded', hload', hsame'⟩
            obtain rfl := Except.ok.inj (hload.symm.trans hload')
            exact hsame.trans hsame'.symm
  | _ => exact Iff.rfl

end Invariant

section Delivery

def Step.IsDelivery (e : Step) : Prop := ∃ i, e = .hears i

def inFlight (s : Browser) : Nat := (s.tabs.map (fun tab => tab.inbox.length)).sum

theorem quiet_of_inFlight (h : inFlight s = 0) : Quiet s := by
  intro tab htab
  have hzero := List.sum_eq_zero_iff.mp h _ (List.mem_map_of_mem htab)
  exact List.length_eq_zero_iff.mp hzero

theorem converges_of_hears {i : Nat} (hstep : step program s (.hears i) = some s')
    (h : Converges program s') : Converges program s := by
  obtain ⟨he, _⟩ | ⟨_, he, _⟩ | ⟨_, _, _, _, he, _⟩ |
    ⟨k, tab, event, rest, he, htab, hinbox, rfl⟩ | ⟨_, he, _⟩ := step_cases hstep
  · cases he
  · cases he
  · cases he
  · cases he
    intro tab' htab' name hname
    obtain ⟨j, hj⟩ := List.getElem?_of_mem htab'
    by_cases hji : i = j
    · subst hji
      obtain rfl := Option.some.inj (htab.symm.trans hj)
      have hlt : i < s.tabs.length := (List.getElem?_eq_some_iff.mp htab).1
      have hstored := h _ (List.mem_set hlt _) name hname
      rwa [received_hear hinbox] at hstored
    · refine h tab' (List.mem_of_getElem? (i := j) ?_) name hname
      rw [heard, List.getElem?_set_ne hji]
      exact hj
  · cases he

theorem hears_of_inFlight (h : inFlight s ≠ 0) :
    ∃ i s', step program s (.hears i) = some s' ∧ inFlight s' < inFlight s := by
  have hsome : ∃ tab ∈ s.tabs, tab.inbox ≠ [] := by
    by_contra hnone
    push Not at hnone
    refine h (List.sum_eq_zero_iff.mpr ?_)
    intro n hn
    obtain ⟨tab, htab, rfl⟩ := List.mem_map.mp hn
    simp [hnone tab htab]
  obtain ⟨tab, hmem, hne⟩ := hsome
  obtain ⟨i, hi⟩ := List.getElem?_of_mem hmem
  obtain ⟨event, rest, hinbox⟩ := List.exists_cons_of_ne_nil hne
  have hstep : step program s (.hears i) =
      some { s with tabs := heard program s.tabs i tab event rest } := by
    simp [step, hi, hinbox]
  refine ⟨i, _, hstep, ?_⟩
  obtain ⟨hlt, rfl⟩ := List.getElem?_eq_some_iff.mp hi
  obtain ⟨before, after, htabs, -, hset⟩ :=
    @List.exists_of_set _ i (Tab.hear program { s.tabs[i] with inbox := rest } event) s.tabs hlt
  have hbefore : inFlight s =
      (before.map (fun tab => tab.inbox.length)).sum + ((rest.length + 1) +
        (after.map (fun tab => tab.inbox.length)).sum) := by
    rw [inFlight, htabs, List.map_append, List.map_cons, List.sum_append, List.sum_cons, hinbox,
      List.length_cons]
  have hafter : inFlight { s with tabs := heard program s.tabs i s.tabs[i] event rest } =
      (before.map (fun tab => tab.inbox.length)).sum + (rest.length +
        (after.map (fun tab => tab.inbox.length)).sum) := by
    rw [inFlight, heard, hset, List.map_append, List.map_cons, List.sum_append, List.sum_cons]
    rfl
  omega

theorem drains (s : Browser) :
    ∃ ds t, (∀ d ∈ ds, Step.IsDelivery d) ∧ (machine program).run s ds = some t ∧ Quiet t := by
  induction hn : inFlight s using Nat.strong_induction_on generalizing s with
  | _ n ih =>
      by_cases hzero : inFlight s = 0
      · exact ⟨[], s, by simp, rfl, quiet_of_inFlight hzero⟩
      · obtain ⟨i, s', hstep, hlt⟩ := @hears_of_inFlight program s hzero
        obtain ⟨ds, t, hds, hrun, hquiet⟩ := ih _ (hn ▸ hlt) s' rfl
        refine ⟨.hears i :: ds, t, ?_, ?_, hquiet⟩
        · intro d hd
          rcases List.mem_cons.mp hd with rfl | hd
          · exact ⟨i, rfl⟩
          · exact hds d hd
        · exact (machine program).run_cons_eq_some.mpr ⟨s', hstep, hrun⟩

theorem converges_of_deliveries {ds : List Step} (hds : ∀ d ∈ ds, Step.IsDelivery d)
    (hrun : (machine program).run s ds = some t) : Converges program s ↔ Converges program t := by
  induction ds generalizing s with
  | nil =>
      obtain rfl := Option.some.inj hrun
      exact Iff.rfl
  | cons d ds ih =>
      obtain ⟨s', hstep, hrest⟩ := (machine program).run_cons_eq_some.mp hrun
      obtain ⟨i, rfl⟩ := hds d List.mem_cons_self
      rw [← ih (fun d hd => hds d (List.mem_cons_of_mem _ hd)) hrest]
      constructor
      · intro h
        exact step_converges (e := .hears i) h trivial hstep
      · exact converges_of_hears hstep

theorem converges_iff :
    Converges program s ↔ ∀ ds t, (∀ d ∈ ds, Step.IsDelivery d) →
      (machine program).run s ds = some t → Quiet t → OneValue program t := by
  constructor
  · intro h ds t hds hrun hquiet
    exact ((converges_of_deliveries hds hrun).mp h).oneValue hquiet
  · intro h
    obtain ⟨ds, t, hds, hrun, hquiet⟩ := @drains program s
    refine (converges_of_deliveries hds hrun).mpr ?_
    intro tab htab name hname
    rw [received_idle (hquiet tab htab)]
    exact h ds t hds hrun hquiet tab htab name hname

end Delivery

section Runs

/-- Every run of tabs, from any entries: in each state it comes to, delivering what is in
flight leaves one value per browser, and each function of an old value is applied to the
value it replaces, exactly when what is in flight to a tab that writes undoes neither what
the write reads nor what it leaves. -/
theorem one_value_iff (program : Program) (store : Storage) (es : List Step) :
    (machine program).Meets (Undisturbed program) (closed store) es ↔
      (∀ first rest ds t, es = first ++ rest → (∀ d ∈ ds, Step.IsDelivery d) →
        (machine program).run (closed store) (first ++ ds) = some t → Quiet t →
        OneValue program t) ∧
      (machine program).Meets (Applied program) (closed store) es := by
  have hstart : Converges program (closed store) := converges_closed store
  have hstates : (machine program).Meets (Lands program) (closed store) es ↔
      ∀ first rest t, es = first ++ rest → (machine program).run (closed store) first = some t →
        Converges program t :=
    (machine program).meets_iff_states (fun _ h => h)
      (fun _ _ _ h hlands hstep => step_converges h hlands hstep)
      (fun _ _ _ h => lands_of_converges h) hstart
  have hdelivered : (∀ first rest ds t, es = first ++ rest → (∀ d ∈ ds, Step.IsDelivery d) →
      (machine program).run (closed store) (first ++ ds) = some t → Quiet t →
      OneValue program t) ↔ (machine program).Meets (Lands program) (closed store) es := by
    rw [hstates]
    constructor
    · intro h first rest s hes hrun
      refine converges_iff.mpr (fun ds t hds hdrain hquiet => ?_)
      refine h first rest ds t hes hds ?_ hquiet
      exact ((machine program).run_append_eq_some).mpr ⟨s, hrun, hdrain⟩
    · intro h first rest ds t hes hds hrun hquiet
      obtain ⟨s, hfirst, hdrain⟩ := (machine program).run_append_eq_some.mp hrun
      exact converges_iff.mp (h first rest s hes hfirst) ds t hds hdrain hquiet
  have hreads : (machine program).Meets (Lands program) (closed store) es →
      ((machine program).Meets (Reads program) (closed store) es ↔
        (machine program).Meets (Applied program) (closed store) es) :=
    (machine program).meets_congr (I := Converges program)
      (fun _ _ _ h hlands _ hstep => step_converges h hlands hstep)
      (fun _ _ h => reads_iff_applied h) hstart
  rw [hdelivered]
  constructor
  · intro h
    have hlands := Machine.Meets.mono _ (fun _ _ h => h.1) h
    exact ⟨hlands, (hreads hlands).mp (Machine.Meets.mono _ (fun _ _ h => h.2) h)⟩
  · rintro ⟨hlands, happlied⟩
    exact Machine.Meets.and _ hlands ((hreads hlands).mpr happlied)

/-- A list that two tabs append to before either hears of the other's item. -/
def crossing : List Step :=
  let appends (i : Nat) (item : Value) : Step :=
    .writes i (units "seen") (.function (fun seen => .append seen item))
  [.opens, .opens, appends 0 (.str (units "a")), appends 1 (.str (units "b")), .hears 0, .hears 1]

def seen : Program := ⟨[units "seen"], fun _ => .list []⟩

theorem parse_appended (item : Units) :
    parse (stringify (.append (.list []) (.str item))) = .ok (.list [.str item]) := by
  have hzed : Wire.IsZed (.append (.list []) (.str item)) :=
    .append (.list (by simp)) rfl (.str item)
  exact (Wire.parse_stringify hzed).1

/-- With nothing in flight the two tabs hold different lists, and the second item was appended
to a list that was already replaced. -/
theorem crossing_diverges :
    ∃ t, (machine seen).run (closed (fun _ => none)) crossing = some t ∧ Quiet t ∧
      ¬ OneValue seen t ∧
      ¬ (machine seen).Meets (Applied seen) (closed (fun _ => none)) crossing := by
  have hname : units "seen" ∈ seen.names := List.mem_singleton_self _
  let appended (item : String) : Value := .append (.list []) (.str (units item))
  let hears (item : String) (cell : Value) : Value :=
    listen (rememberedKey (units "seen")) (.list [])
      ⟨some (rememberedKey (units "seen")), some (stringify (appended item))⟩ cell
  have hapart : ¬ Same (.list [.str (units "b")]) (.list [.str (units "a")]) := by
    simp [Same, settle, Wire.settleList, units]
  refine ⟨_, rfl, ?_, ?_, ?_⟩
  · intro tab htab
    obtain ⟨i, hi⟩ := List.getElem?_of_mem htab
    obtain _ | _ | i := i
    · exact (Option.some.inj hi) ▸ rfl
    · exact (Option.some.inj hi) ▸ rfl
    · exact absurd hi.symm (Option.some_ne_none tab)
  · intro h
    obtain ⟨first, hfirst, hsame⟩ := h _ (List.mem_of_getElem? (i := 0) rfl) _ hname
    obtain ⟨second, hsecond, hsame'⟩ := h _ (List.mem_of_getElem? (i := 1) rfl) _ hname
    obtain rfl := Except.ok.inj (hfirst.symm.trans hsecond)
    have hcells : Same (hears "b" (appended "a")) (hears "a" (appended "b")) :=
      hsame.trans hsame'.symm
    simp only [hears, appended] at hcells
    rw [listen_text (parse_appended _), listen_text (parse_appended _)] at hcells
    exact hapart hcells
  · rintro ⟨-, hrest⟩
    have happlied := ((((hrest _ rfl).2 _ rfl).2 _ rfl).1) _ rfl hname
    obtain ⟨decoded, hdecoded, hsame⟩ := stored_update_some.mp happlied
    obtain rfl := Except.ok.inj ((parse_appended _).symm.trans hdecoded)
    have hempty : Same (.list []) (.list [.str (units "a")]) := hsame
    simp [Same, settle, Wire.settleList] at hempty

end Runs

end Remembered
end Zdeceptron
