import Zdeceptron.Bodies.TailMeaning
import Zdeceptron.Startup.Module

/-!
# Whether a module loads

Evaluated in place, where a binding that is read early has its resting value, a module reads
what it reads.  As it is loaded it does the same until something is read early, and stops
there.  The declarations are written in the order of their places in the source, so nothing is
read early if and only if whatever is read while a declaration is evaluated has a place before
that of the declaration.
-/

namespace Zdeceptron
namespace Startup

open Bodies Step

variable {Op : Type}

section Order

variable (m : Module Op)

variable {id : Nat}

theorem Module.mem_membersOf {kind : Decl Op → Bool} (h : id ∈ m.membersOf kind) :
    ∃ decl, m.decls[id]? = some decl ∧ kind decl = true := by
  have hkind := (List.mem_filter.mp h).2
  rw [Bool.and_eq_true, Option.any_eq_true] at hkind
  exact hkind.2

theorem Module.pairwise_membersOf (kind : Decl Op → Bool) :
    (m.membersOf kind).Pairwise (· < ·) :=
  List.pairwise_lt_range.filter _

theorem Module.place_signal (h : id ∈ m.membersOf Decl.isSignal) :
    m.place id = toLex (0, id) := by
  obtain ⟨decl, hdecl, hkind⟩ := m.mem_membersOf h
  unfold Module.place
  rw [hdecl]
  cases decl <;> first | rfl | cases hkind

theorem Module.place_request (h : id ∈ m.membersOf Decl.isRequest) :
    m.place id = toLex (1, id) := by
  obtain ⟨decl, hdecl, hkind⟩ := m.mem_membersOf h
  unfold Module.place
  rw [hdecl]
  cases decl <;> first | rfl | cases hkind

theorem Module.place_remote (h : id ∈ m.remotes) :
    m.place id = toLex (2, m.endpoints.idxOf id) := by
  obtain ⟨decl, hdecl, hkind⟩ := (Option.any_eq_true _ _).mp (List.mem_filter.mp h).2
  unfold Module.place
  rw [hdecl]
  cases decl <;> first | rfl | cases hkind

theorem pairwise_idxOf {xs : List Nat} (h : xs.Nodup) :
    xs.Pairwise (fun a b => xs.idxOf a < xs.idxOf b) := by
  rw [List.pairwise_iff_getElem]
  intro i j hi hj hij
  rwa [h.idxOf_getElem i hi, h.idxOf_getElem j hj]

theorem Module.pairwise_bindings : m.bindings.Pairwise (fun a b => m.place a < m.place b) := by
  unfold Module.bindings
  rw [List.append_assoc, List.pairwise_append, List.pairwise_append]
  refine ⟨?_, ⟨?_, ?_, ?_⟩, ?_⟩
  · refine (m.pairwise_membersOf _).imp_of_mem (fun ha hb hab => ?_)
    rw [m.place_signal ha, m.place_signal hb]
    exact Prod.Lex.toLex_lt_toLex.mpr (.inr ⟨rfl, hab⟩)
  · refine (m.pairwise_membersOf _).imp_of_mem (fun ha hb hab => ?_)
    rw [m.place_request ha, m.place_request hb]
    exact Prod.Lex.toLex_lt_toLex.mpr (.inr ⟨rfl, hab⟩)
  · refine ((pairwise_idxOf m.distinct).filter _).imp_of_mem (fun ha hb hab => ?_)
    rw [m.place_remote ha, m.place_remote hb]
    exact Prod.Lex.toLex_lt_toLex.mpr (.inr ⟨rfl, hab⟩)
  · intro a ha b hb
    rw [m.place_request ha, m.place_remote hb]
    exact Prod.Lex.toLex_lt_toLex.mpr (.inl Nat.one_lt_two)
  · intro a ha b hb
    rw [m.place_signal ha]
    rcases List.mem_append.mp hb with hb | hb
    · rw [m.place_request hb]
      exact Prod.Lex.toLex_lt_toLex.mpr (.inl Nat.zero_lt_one)
    · rw [m.place_remote hb]
      exact Prod.Lex.toLex_lt_toLex.mpr (.inl Nat.zero_lt_two)

theorem Module.mem_declared_iff {ds rest : List Nat} {id b : Nat}
    (h : m.bindings = ds ++ id :: rest) (hb : b ∈ m.bindings) :
    b ∈ ds ↔ m.place b < m.place id := by
  have hsorted := m.pairwise_bindings
  rw [h, List.pairwise_append, List.pairwise_cons] at hsorted
  obtain ⟨-, ⟨hafter, -⟩, hbefore⟩ := hsorted
  refine ⟨fun hmem => hbefore b hmem id List.mem_cons_self, fun hlt => ?_⟩
  rw [h] at hb
  rcases List.mem_append.mp hb with hb | hb
  · exact hb
  · rcases List.mem_cons.mp hb with rfl | hb
    · exact absurd hlt (lt_irrefl _)
    · exact absurd hlt (lt_asymm (hafter b hb))

end Order

section Following

variable (m : Module Op)

def Module.AllOrderly (page : Page) : Prop := ∀ event ∈ page.log, m.Orderly event

structure Keeps {α : Type} (step : Step Page α) : Prop where
  declared : ∀ page, (step.run page).2.declared = page.declared
  early : ∀ page, (step.run page).2.early = page.early
  log : ∀ page, page.log <+: (step.run page).2.log

/-- The module does what happens in place, or stops at the first early read. -/
def Module.Follows {α : Type} (x y : Step Page α) (page : Page) : Prop :=
  (m.AllOrderly (y.run page).2 ∧ x.run page = y.run page) ∨
    (¬ m.AllOrderly (y.run page).2 ∧ (x.run page).2.early = true ∧
      ∃ fault, (x.run page).1 = .error fault)

variable {m} {α β : Type} {x y : Step Page α} {f g : α → Step Page β} {page page' : Page}

theorem Module.AllOrderly.of_log (h : m.AllOrderly page') (hlog : page.log <+: page'.log) :
    m.AllOrderly page :=
  fun event hmem => h event (hlog.subset hmem)

theorem Module.AllOrderly.concat {event : Event} (h : m.AllOrderly page)
    (hevent : m.Orderly event) (hlog : page'.log = page.log ++ [event]) :
    m.AllOrderly page' := by
  intro other hmem
  rw [hlog] at hmem
  rcases List.mem_append.mp hmem with hmem | hmem
  · exact h other hmem
  · rwa [List.mem_singleton.mp hmem]

theorem Keeps.pure (a : α) : Keeps (pure a) where
  declared _ := rfl
  early _ := rfl
  log _ := List.prefix_rfl

theorem Keeps.fail (fault : Fault) : Keeps (fail fault : Step Page α) where
  declared _ := rfl
  early _ := rfl
  log _ := List.prefix_rfl

theorem Keeps.bind (h : Keeps y) (h' : ∀ a, Keeps (g a)) : Keeps (y >>= g) := by
  have hrun : ∀ page, (∃ fault, y.run page = (.error fault, (y.run page).2) ∧
      ((y >>= g).run page).2 = (y.run page).2) ∨
      (∃ a, ((y >>= g).run page).2 = ((g a).run (y.run page).2).2) := by
    intro page
    rw [run_bind]
    rcases hy : y.run page with ⟨_ | a, after⟩
    · exact .inl ⟨_, rfl, rfl⟩
    · exact .inr ⟨a, rfl⟩
  refine ⟨fun page => ?_, fun page => ?_, fun page => ?_⟩
  · rcases hrun page with ⟨_, -, heq⟩ | ⟨a, heq⟩
    · rw [heq, h.declared]
    · rw [heq, (h' a).declared, h.declared]
  · rcases hrun page with ⟨_, -, heq⟩ | ⟨a, heq⟩
    · rw [heq, h.early]
    · rw [heq, (h' a).early, h.early]
  · rcases hrun page with ⟨_, -, heq⟩ | ⟨a, heq⟩
    · rw [heq]
      exact h.log page
    · rw [heq]
      exact (h.log page).trans ((h' a).log _)

theorem Module.Follows.bind (h : m.Follows x y page)
    (hlog : ∀ a page, page.log <+: ((g a).run page).2.log)
    (h' : ∀ a, y.run page = (.ok a, (y.run page).2) → m.AllOrderly (y.run page).2 →
      m.Follows (f a) (g a) (y.run page).2) :
    m.Follows (x >>= f) (y >>= g) page := by
  rcases h with ⟨horderly, heq⟩ | ⟨hnot, hearly, fault, hfault⟩
  · rcases hy : y.run page with ⟨fault | a, after⟩
    · refine .inl ?_
      rw [run_bind, run_bind, heq, hy]
      rw [hy] at horderly
      exact ⟨horderly, rfl⟩
    · have hfollows := h' a (by rw [hy]) horderly
      rw [hy] at hfollows
      unfold Module.Follows
      rw [run_bind, run_bind, heq, hy]
      exact hfollows
  · refine .inr ?_
    have hx : (x >>= f).run page = (.error fault, (x.run page).2) := by
      rw [run_bind]
      rcases hx : x.run page with ⟨_ | a, after⟩
      · rw [hx] at hfault
        cases hfault
        rfl
      · rw [hx] at hfault
        cases hfault
    rw [hx]
    refine ⟨fun horderly => hnot (horderly.of_log ?_), hearly, fault, rfl⟩
    rw [run_bind]
    rcases y.run page with ⟨_ | a, after⟩
    · exact List.prefix_rfl
    · exact hlog a after

variable (m) in
/-- Evaluations of a declaration, when `declared` has been evaluated. -/
def Module.following (declared : List Nat) : Comparison Page Page where
  Rel x y := Keeps y ∧ ∀ page, page.declared = declared → page.early = false →
    m.AllOrderly page → m.Follows x y page
  pure a := ⟨.pure a, fun _ _ _ horderly => .inl ⟨horderly, rfl⟩⟩
  fail fault := ⟨.fail fault, fun _ _ _ horderly => .inl ⟨horderly, rfl⟩⟩
  bind h h' := by
    refine ⟨h.1.bind (fun a => (h' a).1), fun page hdeclared hearly horderly => ?_⟩
    refine (h.2 page hdeclared hearly horderly).bind (fun a => (h' a).1.log) ?_
    intro a hy horderly'
    refine (h' a).2 _ ?_ ?_ horderly'
    · rw [h.1.declared, hdeclared]
    · rw [h.1.early, hearly]

end Following

section Parts

variable {m : Module Op} {O : Outside Op} {reader : Option Nat} {declared : List Nat}

namespace Comparison

variable (C : Comparison Page Page)

theorem each {steps steps' : List (Step Page Unit)} (h : List.Forall₂ C.Rel steps steps') :
    C.Rel (each steps) (Startup.each steps') := by
  induction h with
  | nil => exact C.pure ()
  | cons hstep _ ih => exact C.bind hstep (fun _ => ih)

theorem each_map {α : Type} {f g : α → Step Page Unit} (xs : List α)
    (h : ∀ x ∈ xs, C.Rel (f x) (g x)) :
    C.Rel (Startup.each (xs.map f)) (Startup.each (xs.map g)) := by
  refine each C ?_
  rw [List.forall₂_map_left_iff, List.forall₂_map_right_iff, List.forall₂_same]
  exact h

end Comparison

theorem following_self {α : Type} {step : Step Page α} (h : Keeps step)
    (horderly : ∀ page, m.AllOrderly page → m.AllOrderly (step.run page).2) :
    (m.following declared).Rel step step :=
  ⟨h, fun page _ _ hpage => .inl ⟨horderly page hpage, rfl⟩⟩

theorem following_look : (m.following declared).Rel look look :=
  following_self ⟨fun _ => rfl, fun _ => rfl, fun _ => List.prefix_rfl⟩ (fun _ h => h)

theorem following_event (event : Page → Event) (horderly : ∀ page, m.Orderly (event page))
    {f : Page → Page} (hf : ∀ page, (f page).declared = page.declared ∧
      (f page).early = page.early ∧ (f page).log = page.log ++ [event page]) :
    (m.following declared).Rel (change f) (change f) := by
  refine following_self ⟨fun page => (hf page).1, fun page => (hf page).2.1, ?_⟩ ?_
  · intro page
    rw [run_change, (hf page).2.2]
    exact List.prefix_append _ _
  · exact fun page h => h.concat (horderly page) (hf page).2.2

theorem Module.host_call_cell {id : Nat} {mode : Mode} {flush : Step Page Unit}
    (h : ¬ ∃ params, m.decls[id]? = some (.foreign params)) (vs : List Value) :
    (m.host O mode reader flush).call id vs = m.readCell mode reader id := by
  cases hdecl : m.decls[id]? with
  | none => simp only [host, hdecl]
  | some decl =>
      cases decl with
      | foreign params => exact absurd ⟨params, hdecl⟩ h
      | _ => simp only [host, hdecl]

section Reads

variable (hread : ∀ b ∈ m.bindings, b ∈ declared ↔ m.Orderly (.read reader b))
include hread

theorem readBinding_follows (id : Nat) :
    (m.following declared).Rel (m.readBinding .module reader id)
      (m.readBinding .inPlace reader id) := by
  by_cases hid : id ∈ m.bindings
  · have hplace : ∀ page, (m.readBinding .inPlace reader id).run page =
        (.ok (), page.record (.read reader id)) := fun page => if_pos hid
    refine ⟨⟨fun page => ?_, fun page => ?_, fun page => ?_⟩, fun page hdeclared _ horderly => ?_⟩
    · rw [hplace]
      rfl
    · rw [hplace]
      rfl
    · rw [hplace]
      exact List.prefix_append _ _
    · have hmodule : (m.readBinding .module reader id).run page =
          if id ∈ page.declared then (.ok (), page.record (.read reader id))
          else (.error .threw, { page with early := true }) := if_pos hid
      unfold Module.Follows
      rw [hplace, hmodule]
      by_cases hmem : id ∈ page.declared
      · rw [if_pos hmem]
        rw [hdeclared] at hmem
        exact .inl ⟨horderly.concat ((hread id hid).mp hmem) rfl, rfl⟩
      · rw [if_neg hmem]
        rw [hdeclared] at hmem
        refine .inr ⟨fun hall => hmem ((hread id hid).mpr ?_), rfl, _, rfl⟩
        exact hall _ (List.mem_append_right _ (List.mem_singleton_self _))
  · have hnot : ∀ mode, m.readBinding mode reader id = pure () := by
      intro mode
      refine Step.ext fun page => ?_
      cases mode <;> exact if_neg hid
    rw [hnot, hnot]
    exact (m.following declared).pure ()

theorem host_follows {flush flush' : Step Page Unit}
    (hflush : (m.following declared).Rel flush flush') :
    Host.Agrees (m.following declared) (m.host O .module reader flush)
      (m.host O .inPlace reader flush') where
  operator op vs := following_self ⟨fun _ => rfl, fun _ => rfl, fun _ => List.prefix_rfl⟩
    (fun _ h => h)
  mutate verb vs := by
    cases verb with
    | binding id => exact readBinding_follows hread id
    | write id name =>
        refine (m.following declared).bind (readBinding_follows hread id) (fun _ => ?_)
        refine (m.following declared).bind ?_ (fun _ => hflush)
        exact following_event (fun page => .wrote id (O.write name (page.cell id) vs))
          (fun _ => trivial) (fun _ => ⟨rfl, rfl, rfl⟩)
  call id vs := by
    by_cases hforeign : ∃ params, m.decls[id]? = some (.foreign params)
    · obtain ⟨params, hdecl⟩ := hforeign
      simp only [Module.host, hdecl]
      exact following_self ⟨fun _ => rfl, fun _ => rfl, fun _ => List.prefix_rfl⟩ (fun _ h => h)
    · rw [Module.host_call_cell hforeign, Module.host_call_cell hforeign]
      refine (m.following declared).bind (readBinding_follows hread id) (fun _ => ?_)
      exact (m.following declared).bind following_look
        (fun page => (m.following declared).pure _)
  truthy := rfl
  less := rfl
  undefined_ := rfl

variable {flush flush' : Step Page Unit} (hflush : (m.following declared).Rel flush flush')
  (fuel : Nat)
include hflush

theorem evaluate_follows (id : Nat) (args : List Value) :
    (m.following declared).Rel (m.program.evaluate (m.host O .module reader flush) fuel id args)
      (m.program.evaluate (m.host O .inPlace reader flush') fuel id args) :=
  Program.evaluateWith_agrees (host_follows hread hflush)
    (fun _ => (m.following declared).pure _) fuel id args

theorem eager_follows (e : HirExpr Op) :
    (m.following declared).Rel (m.eager O .module fuel reader flush e)
      (m.eager O .inPlace fuel reader flush' e) :=
  Comparison.inScope _ ((Host.engine_agrees m.program (host_follows hread hflush)
    (evaluate_follows hread hflush fuel)).value e rfl)

theorem effect_follows (id : Nat) :
    (m.following declared).Rel (m.effect O .module fuel reader flush id)
      (m.effect O .inPlace fuel reader flush' id) := by
  unfold Module.effect
  split
  · exact Comparison.each_map _ _ (fun e _ => (m.following declared).bind
      (eager_follows hread hflush fuel e) (fun _ => (m.following declared).pure ()))
  · exact Comparison.each_map _ _ (fun input _ => (m.following declared).bind
      (eager_follows hread hflush fuel _) (fun _ => (m.following declared).pure ()))
  · exact (m.following declared).pure ()

end Reads

theorem flush_follows (hread : ∀ b ∈ m.bindings, b ∈ declared ↔ m.Orderly (.read reader b))
    (fuel n : Nat) :
    (m.following declared).Rel (m.flush O .module fuel reader n)
      (m.flush O .inPlace fuel reader n) := by
  induction n with
  | zero => exact (m.following declared).fail _
  | succ n ih =>
      refine (m.following declared).bind following_look (fun page => ?_)
      split
      · exact (m.following declared).pure ()
      · next id _ =>
        refine (m.following declared).bind ?_ (fun _ => ?_)
        · exact following_event (fun _ => .woke id) (fun _ => trivial)
            (fun _ => ⟨rfl, rfl, rfl⟩)
        · exact (m.following declared).bind (effect_follows hread ih fuel _) (fun _ => ih)

theorem worth_follows {id : Nat}
    (hread : ∀ b ∈ m.bindings, b ∈ declared ↔ m.Orderly (.read (some id) b)) (fuel : Nat) :
    (m.following declared).Rel (m.worth O .module fuel id) (m.worth O .inPlace fuel id) := by
  have hflush := flush_follows (O := O) hread fuel fuel
  unfold Module.worth
  dsimp only
  split
  · exact (m.following declared).bind (eager_follows hread hflush fuel _)
      (fun _ => (m.following declared).pure _)
  · exact eager_follows hread hflush fuel _
  · exact (m.following declared).bind (effect_follows hread hflush fuel id)
      (fun _ => (m.following declared).pure _)
  · refine (m.following declared).bind ?_ (fun _ => ?_)
    · exact Comparison.each_map _ _ (fun input _ => readBinding_follows hread input)
    · exact (m.following declared).bind (effect_follows hread hflush fuel id)
        (fun _ => (m.following declared).pure _)
  · exact (m.following declared).pure _

theorem mount_follows (fuel : Nat) :
    (m.following m.bindings).Rel (m.mount O .module fuel) (m.mount O .inPlace fuel) := by
  have hread : ∀ b ∈ m.bindings, b ∈ m.bindings ↔ m.Orderly (.read none b) :=
    fun b hb => ⟨fun _ => trivial, fun _ => hb⟩
  have hflush := flush_follows (O := O) hread fuel fuel
  refine (m.following m.bindings).bind (Comparison.inScope _ ?_)
    (fun _ => (m.following m.bindings).pure ())
  exact Engine.block_agrees (Host.engine_agrees m.program (host_follows hread hflush)
    (evaluate_follows hread hflush fuel)) none m.main

end Parts

section Loads

variable (m : Module Op) (O : Outside Op) (fuel : Nat)

def Module.onwards (mode : Mode) (rest : List Nat) : Step Page Unit := do
  each (rest.map (m.initialise O mode fuel))
  m.mount O mode fuel

theorem Module.onwards_nil (mode : Mode) :
    m.onwards O fuel mode [] = m.mount O mode fuel := rfl

theorem Module.onwards_cons (mode : Mode) (id : Nat) (rest : List Nat) :
    m.onwards O fuel mode (id :: rest) = m.worth O mode fuel id >>= fun v =>
      change (Page.declare id v) >>= fun _ => m.onwards O fuel mode rest := by
  unfold Module.onwards
  rw [List.map_cons, each, initialise, bind_assoc, bind_assoc]

variable {m O fuel}

theorem onwards_keeps {ds rest : List Nat} (h : m.bindings = ds ++ rest) (page : Page) :
    page.log <+: ((m.onwards O fuel .inPlace rest).run page).2.log ∧
      ((m.onwards O fuel .inPlace rest).run page).2.early = page.early := by
  induction rest generalizing ds page with
  | nil =>
      rw [m.onwards_nil]
      exact ⟨(mount_follows fuel).1.log page, (mount_follows fuel).1.early page⟩
  | cons id rest ih =>
      have hread : ∀ b ∈ m.bindings, b ∈ ds ↔ m.Orderly (.read (some id) b) :=
        fun b hb => m.mem_declared_iff h hb
      have hkeeps := (worth_follows (O := O) hread fuel).1
      have hlog := hkeeps.log page
      have hearly := hkeeps.early page
      rw [m.onwards_cons, run_bind]
      rcases hworth : (m.worth O .inPlace fuel id).run page with ⟨_ | v, after⟩
      · rw [hworth] at hlog hearly
        exact ⟨hlog, hearly⟩
      · rw [hworth] at hlog hearly
        rw [List.append_cons] at h
        obtain ⟨hlog', hearly'⟩ := ih h (Page.declare id v after)
        exact ⟨hlog.trans hlog', hearly'.trans hearly⟩

theorem onwards_follows {ds rest : List Nat} (h : m.bindings = ds ++ rest) {page : Page}
    (hdeclared : page.declared = ds) (hearly : page.early = false) (horderly : m.AllOrderly page) :
    m.Follows (m.onwards O fuel .module rest) (m.onwards O fuel .inPlace rest) page := by
  induction rest generalizing ds page with
  | nil =>
      obtain rfl : m.bindings = ds := by rw [h, List.append_nil]
      exact (mount_follows fuel).2 page hdeclared hearly horderly
  | cons id rest ih =>
      have hread : ∀ b ∈ m.bindings, b ∈ ds ↔ m.Orderly (.read (some id) b) :=
        fun b hb => m.mem_declared_iff h hb
      obtain ⟨hkeeps, hworth⟩ := worth_follows (O := O) hread fuel
      have hnext : m.bindings = (ds ++ [id]) ++ rest := by rw [h, List.append_cons]
      rw [m.onwards_cons, m.onwards_cons]
      refine (hworth page hdeclared hearly horderly).bind ?_ ?_
      · exact fun v page => (onwards_keeps hnext (Page.declare id v page)).1
      · intro v _ horderly'
        have hafter : (Page.declare id v ((m.worth O .inPlace fuel id).run page).2).declared =
            ds ++ [id] := by
          rw [Page.declare, hkeeps.declared, hdeclared]
        exact ih hnext hafter ((hkeeps.early page).trans hearly) horderly'

end Loads

section Loading

variable (m : Module Op) (O : Outside Op) (fuel : Nat)

/-- Loading a module reads nothing early if and only if, evaluated in place, every declaration
reads only what has a place before its own. -/
theorem never_early_iff :
    (m.load O .module fuel).early = false ↔ m.AllOrderly (m.load O .inPlace fuel) := by
  have hfollows : m.Follows (m.onwards O fuel .module m.bindings)
      (m.onwards O fuel .inPlace m.bindings) (Page.blank O.undefined_) :=
    onwards_follows (List.nil_append _).symm rfl rfl (fun _ hmem => by cases hmem)
  obtain ⟨-, hinPlace⟩ : _ ∧ ((m.onwards O fuel .inPlace m.bindings).run
      (Page.blank O.undefined_)).2.early = false :=
    onwards_keeps (List.nil_append _).symm (Page.blank O.undefined_)
  rcases hfollows with ⟨horderly, heq⟩ | ⟨hnot, hearly, -⟩
  · refine ⟨fun _ => horderly, fun _ => ?_⟩
    exact (congrArg (fun run => run.2.early) heq).trans hinPlace
  · refine ⟨fun hfalse => ?_, fun horderly => absurd horderly hnot⟩
    exact absurd (hearly.symm.trans hfalse) (by decide)

/-- `state first is client Whole starting second` and `state second is client Whole starting 1`. -/
def second_below : Module Unit where
  decls := [.source false (.call 1 []), .source false (.operator () [])]
  members _ := true
  endpoints := []
  main := []
  distinct := List.nodup_nil

def alone : Outside Unit where
  operator _ _ := .ok (.whole 1)
  call _ _ := .error .threw
  write _ old _ := old
  stored _ := none
  resting _ := .whole 0
  wakes _ := none
  truthy _ := true
  less _ _ := false
  undefined_ := .whole 0

theorem second_below_early : (second_below.load alone .module 1).early = true := by
  decide +kernel

end Loading

end Startup
end Zdeceptron
