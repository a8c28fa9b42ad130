import Zdeceptron.Library.Machine
import Zdeceptron.Serve.Writes

/-!
# One program on two hosts

A browser sends requests one at a time to the host and to a deployment that hold the
same.

* `serves_alike`: a run of clear requests.
-/

namespace Zdeceptron
namespace Serve

open Library
open Library.EcmaJson (Data)
open Wire (Value units encode decode IsZed)

section Definitions

/-- Every key was only ever written as a whole, holds what a value of the language is
sent as and does not hold `null`. -/
def Same (store : Host.Store) (cells : Deployed.Cells) : Prop :=
  ∀ key, cells key = cellOf (store key) ∧ ∀ d, store key = some d → Carried d ∧ d ≠ .null

variable (environment : Units → Option Units)

/-- A handler reads cells the wire leaves as they are, or that have a starting value,
and what is set in the environment. -/
def Body.Clear (store : Host.Store) : Body → Prop
  | .done _ => True
  | .throw _ => True
  | .read key starting next =>
      match store key with
      | none => ∃ value, starting = some value ∧ (next value).Clear store
      | some d => decode d = .ok (raw d) ∧ (next (raw d)).Clear store
  | .environment key next =>
      ∃ value, environment key = some value ∧ (next (.str value)).Clear store

def transports : List Units := [units "live", units "poll"]

/-- A request that is no transaction, with the arguments its endpoint takes, and that
writes or reads what both hosts treat alike. -/
def Request.Clear (bundle : Bundle) (store : Host.Store) : Request → Prop
  | .atomic _ _ => False
  | .invoke call =>
      match bundle.endpoints call.name with
      | none => True
      | some (.command command) =>
          call.name ∉ transports ∧ ∃ names item leaf found,
            Written command (store command.key) call.sent names item leaf found
      | some (.value inputs body) =>
          call.name ∉ transports ∧ call.sent.length = inputs.length ∧
            (body (parameters inputs call.sent)).Clear environment store

structure Both where
  store : Host.Store
  cells : Deployed.Cells
  hostAnswers : List (Option Data)
  deployedAnswers : List (Option Data)

def served (number : Units → Float) (bundle : Bundle) : Machine Both Request where
  step both request :=
    some
      { store := (Host.serve number environment bundle both.store request).1
        cells := (Deployed.serve number environment bundle both.cells request).1
        hostAnswers := both.hostAnswers ++
          [(Host.serve number environment bundle both.store request).2]
        deployedAnswers := both.deployedAnswers ++
          [(Deployed.serve number environment bundle both.cells request).2] }

def start (store : Host.Store) (cells : Deployed.Cells) : Both := ⟨store, cells, [], []⟩

def Both.ReadsAlike (both : Both) (key : Units) : Prop :=
  (Host.get both.store .fresh key).map encode = .ok (encode (Deployed.get both.cells key))

end Definitions

section Reads

variable {environment : Units → Option Units} {store : Host.Store} {cells : Deployed.Cells}

theorem Same.get (h : Same store cells) (key : Units) :
    Deployed.get cells key = rawOr (store key) := by
  obtain ⟨hcells, hheld⟩ := h key
  unfold Deployed.get
  rw [hcells]
  cases hkey : store key with
  | none => rfl
  | some d =>
      have hnull := (hheld d hkey).2
      cases d with
      | null => exact absurd rfl hnull
      | _ => rfl

theorem Same.readsAlike {both : Both} (h : Same both.store both.cells) (key : Units) :
    both.ReadsAlike key := by
  have hheld := (h key).2
  have hpeek : Host.Pending.fresh.peek both.store key = both.store key := rfl
  unfold Both.ReadsAlike Host.get
  rw [h.get key, hpeek]
  cases hkey : both.store key with
  | none => rfl
  | some d =>
      obtain ⟨value, hdecode, hencode⟩ := (hheld d hkey).1.restored
      have hraw : encode (rawOr (some d)) = d := encode_raw d
      simp only [hdecode, hraw]
      exact congrArg Except.ok hencode

theorem Same.run (h : Same store cells) (body : Body) (hclear : body.Clear environment store) :
    body.run (Host.get store .fresh) (Host.env environment) =
      body.run (fun key => .ok (Deployed.get cells key)) (Deployed.env environment) := by
  have hpeek : ∀ key, Host.Pending.fresh.peek store key = store key := fun _ => rfl
  induction body with
  | done value => rfl
  | throw message => rfl
  | read key starting next ih =>
      rw [Body.Clear] at hclear
      rw [Body.run, Body.run, h.get key, Host.get, hpeek]
      cases hkey : store key with
      | none =>
          rw [hkey] at hclear
          obtain ⟨value, rfl, hnext⟩ := hclear
          exact ih value hnext
      | some d =>
          rw [hkey] at hclear
          obtain ⟨hdecode, hnext⟩ := hclear
          have hnull := ((h key).2 d hkey).2
          have hpresent : isNullish (raw d) = false := by
            cases d with
            | null => exact absurd rfl hnull
            | _ => rfl
          have hraw : rawOr (some d) = raw d := rfl
          simp only [hdecode, hraw, hpresent, Bool.false_eq_true, if_false]
          exact ih _ hnext
  | environment key next ih =>
      obtain ⟨value, hvalue, hnext⟩ := hclear
      rw [Body.run, Body.run, Host.env, Deployed.env, hvalue]
      exact ih _ hnext

end Reads

section Serve

/-- Both hosts answer a request alike and are left with the same. -/
def SameAnswer (number : Units → Float) (environment : Units → Option Units) (bundle : Bundle)
    (store : Host.Store) (cells : Deployed.Cells) (request : Request) : Prop :=
  let onHost := Host.serve number environment bundle store request
  let deployed := Deployed.serve number environment bundle cells request
  onHost.2 = deployed.2 ∧ Same onHost.1 deployed.1

variable {number : Units → Float} {environment : Units → Option Units} {bundle : Bundle}
  {store : Host.Store} {cells : Deployed.Cells}

theorem carried_sent_of_mem (call : Call) : ∀ d ∈ call.sent, Carried d := by
  intro d hd
  obtain ⟨value, hvalue, rfl⟩ := List.mem_map.mp hd
  exact carried_sent (call.zed value hvalue)

theorem route_handles {name : Units} {args : List Data} {endpoint : Endpoint}
    (hname : name ∉ transports) (hendpoint : bundle.endpoints name = some endpoint) :
    Deployed.route number environment bundle cells
        ⟨name, true, some Deployed.wireVersion, some (.arr args)⟩ =
      Deployed.handle number environment cells args endpoint := by
  rw [transports, List.mem_cons, List.mem_singleton, not_or] at hname
  unfold Deployed.route
  rw [if_neg hname.1, if_neg hname.2, hendpoint]
  rfl

theorem route_unknown (number : Units → Float) (environment : Units → Option Units)
    (cells : Deployed.Cells) (request : Deployed.Posted)
    (hendpoint : bundle.endpoints request.name = none) :
    (Deployed.route number environment bundle cells request).1 = cells ∧
      (Deployed.route number environment bundle cells request).2.status ≠ 200 := by
  have hrefused : ∀ what, (Deployed.refuseVersion none what).getD ⟨200, .null⟩ =
      Deployed.refusal 400 (what ++ units " was called in wire format " ++ units "none" ++
        units " and this server reads " ++ Deployed.wireVersion ++
        units ". The page was built by a different compiler; reload it.") := by
    intro what
    rw [Deployed.refuseVersion, if_neg (by rintro ⟨⟩)]
    rfl
  unfold Deployed.route
  split
  · rw [hrefused]
    exact ⟨rfl, show (400 : Nat) ≠ 200 by decide⟩
  · split
    · rw [hrefused]
      exact ⟨rfl, show (400 : Nat) ≠ 200 by decide⟩
    · rw [hendpoint]
      exact ⟨rfl, show (404 : Nat) ≠ 200 by decide⟩

theorem Same.update (h : Same store cells) (key : Units) {d : Data} (hd : Carried d)
    (hnull : d ≠ .null) :
    Same (Function.update store key (some d)) (Function.update cells key (cellOf (some d))) := by
  intro other
  by_cases hother : other = key
  · subst hother
    rw [Function.update_self, Function.update_self]
    refine ⟨rfl, ?_⟩
    rintro e ⟨⟩
    exact ⟨hd, hnull⟩
  · rw [Function.update_of_ne hother, Function.update_of_ne hother]
    exact h other

section Command

variable {command : Command} {args : List Data} {names : List Units} {item leaf : Data}
  {found : Option Data}

theorem Written.kept_carried (h : Written command (store command.key) args names item leaf found)
    (hheld : ∀ d, store command.key = some d → Carried d) (hitem : Carried item) :
    Carried (place (store command.key) names leaf) ∧
      place (store command.key) names leaf ≠ .null := by
  refine ⟨?_, ?_⟩
  · refine carried_place hheld h.reaches ?_
      (carried_means h.means (carried_found hheld h.reaches) hitem)
    intro name hname
    refine command.fields name ?_
    rw [h.segments]
    exact List.mem_map_of_mem hname
  · have hreaches := h.reaches
    have hkept := h.kept
    cases names with
    | nil => exact hkept rfl
    | cons name names =>
        obtain ⟨fields, hfields⟩ := obj_of_leafAt hreaches
        rw [hfields, place]
        rintro ⟨⟩

theorem host_invoke {name : Units} (hendpoint : bundle.endpoints name = some (.command command))
    (h : Written command (store command.key) args names item leaf found)
    (hheld : ∀ d, store command.key = some d → Carried d ∧ d ≠ .null) (hitem : Carried item) :
    Host.invoke number environment bundle store name args = .ok (Function.update store command.key
        (some (place (store command.key) names leaf)), place (store command.key) names leaf) := by
  obtain ⟨pending, hpending, happly⟩ := host_writes number h hheld hitem
  unfold Host.invoke
  rw [hendpoint]
  simp only [Host.runAll, Host.record, hpending, Host.commit, happly]
  rfl

end Command

section Endpoints

variable {call : Call}

variable {found : Option Data}

theorem host_command {command : Command} {names : List Units} {item leaf : Data}
    (hendpoint : bundle.endpoints call.name = some (.command command))
    (h : Written command (store command.key) call.sent names item leaf found)
    (hheld : ∀ d, store command.key = some d → Carried d ∧ d ≠ .null) :
    Host.serve number environment bundle store (.invoke call) =
      (Function.update store command.key (some (place (store command.key) names leaf)),
        some (place (store command.key) names leaf)) := by
  have hitem := carried_sent_of_mem call item (List.mem_of_mem_head? h.sent)
  unfold Host.serve
  simp only [host_invoke hendpoint h hheld hitem]

variable {body : (Units → Value) → Body} {inputs : List Units}

theorem host_value (hendpoint : bundle.endpoints call.name = some (.value inputs body))
    (hlength : call.sent.length = inputs.length) :
    Host.serve number environment bundle store (.invoke call) =
      (store, ((body (parameters inputs call.sent)).run (Host.get store .fresh)
        (Host.env environment)).toOption.map (fun value => (encode value).reread)) := by
  unfold Host.serve Host.invoke
  simp only [hendpoint]
  rw [if_neg (not_not.mpr hlength)]
  cases (body (parameters inputs call.sent)).run (Host.get store .fresh)
    (Host.env environment) with
  | error message => rfl
  | ok value => rfl

theorem Same.serve_unknown (h : Same store cells)
    (hendpoint : bundle.endpoints call.name = none) :
    SameAnswer number environment bundle store cells (.invoke call) := by
  have hunknown : Host.invoke number environment bundle store call.name call.sent =
      .error (.unknown call.name) := by
    unfold Host.invoke
    rw [hendpoint]
  obtain ⟨hcells, hstatus⟩ := route_unknown number environment cells
    (Deployed.posted (.invoke call)) hendpoint
  unfold SameAnswer Host.serve Deployed.serve
  simp only [hunknown, hcells, if_neg hstatus]
  exact ⟨trivial, h⟩

theorem Same.serve_command {command : Command} (h : Same store cells)
    (hendpoint : bundle.endpoints call.name = some (.command command))
    (hname : call.name ∉ transports) {names : List Units} {item leaf : Data}
    (hwritten : Written command (store command.key) call.sent names item leaf found) :
    SameAnswer number environment bundle store cells (.invoke call) := by
  obtain ⟨hcells, hheld⟩ := h command.key
  have hitem := carried_sent_of_mem call item (List.mem_of_mem_head? hwritten.sent)
  have hcarried : ∀ d, store command.key = some d → Carried d := fun d hd => (hheld d hd).1
  obtain ⟨hresult, hnull⟩ := hwritten.kept_carried hcarried hitem
  rw [SameAnswer, host_command hendpoint hwritten hheld]
  unfold Deployed.serve Deployed.posted
  simp only [route_handles hname hendpoint, Deployed.handle,
    deployed_writes hwritten hcarried hitem hcells, if_true, encode_raw, hresult.reread]
  exact ⟨trivial, h.update command.key hresult hnull⟩

theorem Same.serve_value (h : Same store cells)
    (hendpoint : bundle.endpoints call.name = some (.value inputs body))
    (hname : call.name ∉ transports) (hlength : call.sent.length = inputs.length)
    (hbody : (body (parameters inputs call.sent)).Clear environment store) :
    SameAnswer number environment bundle store cells (.invoke call) := by
  rw [SameAnswer, host_value hendpoint hlength, h.run _ hbody]
  unfold Deployed.serve Deployed.posted
  simp only [route_handles hname hendpoint, Deployed.handle]
  cases (body (parameters inputs call.sent)).run (fun key => .ok (Deployed.get cells key))
    (Deployed.env environment) with
  | error message => exact ⟨rfl, h⟩
  | ok value => exact ⟨rfl, h⟩

end Endpoints

theorem Same.serve (h : Same store cells) (number : Units → Float) (request : Request)
    (hclear : request.Clear environment bundle store) :
    SameAnswer number environment bundle store cells request := by
  cases request with
  | atomic first rest => exact hclear.elim
  | invoke call =>
      rw [Request.Clear] at hclear
      cases hendpoint : bundle.endpoints call.name with
      | none => exact h.serve_unknown hendpoint
      | some endpoint =>
          rw [hendpoint] at hclear
          cases endpoint with
          | command command =>
              obtain ⟨hname, names, item, leaf, found, hwritten⟩ := hclear
              exact h.serve_command hendpoint hname hwritten
          | value inputs body =>
              obtain ⟨hname, hlength, hbody⟩ := hclear
              exact h.serve_value hendpoint hname hlength hbody

end Serve

section Runs

variable {number : Units → Float} {environment : Units → Option Units} {bundle : Bundle}

structure Both.Agree (both : Both) : Prop where
  same : Same both.store both.cells
  answers : both.hostAnswers = both.deployedAnswers

theorem Both.Agree.step {both next : Both} {request : Request} (h : both.Agree)
    (hclear : request.Clear environment bundle both.store)
    (hstep : (served environment number bundle).step both request = some next) :
    next.Agree := by
  obtain ⟨hanswer, hsame⟩ := h.same.serve number request hclear
  cases hstep
  constructor
  · exact hsame
  · exact congrArg₂ _ h.answers (congrArg (fun answer => [answer]) hanswer)

/-- Clear requests, one at a time, are answered alike and leave every key reading the
same. -/
theorem serves_alike (number : Units → Float) (environment : Units → Option Units)
    (bundle : Bundle) {store : Host.Store} {cells : Deployed.Cells} (hsame : Same store cells)
    {requests : List Request} {both : Both}
    (hrun : (served environment number bundle).run (start store cells) requests = some both)
    (hclear : (served environment number bundle).Meets
      (fun both request => request.Clear environment bundle both.store) (start store cells)
      requests) :
    both.hostAnswers = both.deployedAnswers ∧ ∀ key, both.ReadsAlike key := by
  have hagree : both.Agree :=
    Machine.run_invariant_of_meets _ (fun _ _ _ hagree hclear hstep => hagree.step hclear hstep)
      (⟨hsame, rfl⟩ : (start store cells).Agree) hclear hrun
  exact ⟨hagree.answers, hagree.same.readsAlike⟩

end Runs

section Checks

/-- The addition to a counter that starts at `0`. -/
def visit : Command := ⟨units "visits", .incr, [], some (.num (Float.ofNat 0)), by simp⟩

def visitsHandler : Body := .read (units "visits") (some (.num (Float.ofNat 0))) .done

def counter : Bundle where
  endpoints name :=
    if name = units "visits" then some (.value [] (fun _ => visitsHandler))
    else if name = units "visits.incr" then some (.command visit)
    else none
  named := by
    intro name endpoint h
    split at h
    · rename_i hname
      subst hname
      decide
    · split at h
      · rename_i hname
        subst hname
        decide
      · cases h

def readVisits : Call := ⟨units "visits", [], by simp⟩

theorem isZed_one : ∀ value ∈ [Value.num (Float.ofNat 1)], IsZed value := by
  simpa using IsZed.num (by decide +kernel : (Float.ofNat 1).isFinite = true)

def addVisit : Call := ⟨units "visits.incr", [.num (Float.ofNat 1)], isZed_one⟩

/-- The transaction of one addition is answered by the host only. -/
theorem transaction_refused :
    ¬ ∀ (number : Units → Float) (environment : Units → Option Units) (bundle : Bundle)
      (store : Host.Store) (cells : Deployed.Cells) (requests : List Request) (both : Both),
      Same store cells →
      (served environment number bundle).run (start store cells) requests = some both →
        both.hostAnswers = both.deployedAnswers ∧ ∀ key, both.ReadsAlike key := by
  intro h
  have hsame : Same (fun _ => none) (fun _ => []) := fun _ => ⟨rfl, by simp⟩
  have hanswers := (h (fun _ => Float.ofNat 0) (fun _ => none) counter _ _
    [.atomic addVisit []] _ hsame rfl).1
  have hhost := congrArg (List.map Option.isSome) hanswers
  revert hhost
  decide +kernel

theorem counter_read : counter.endpoints readVisits.name =
    some (.value [] (fun _ => visitsHandler)) := by
  simp [counter, readVisits]

theorem counter_add : counter.endpoints addVisit.name = some (.command visit) := by
  have hother : units "visits.incr" ≠ units "visits" := by decide
  simp [counter, addVisit, hother]

theorem visit_written : Written visit none addVisit.sent [] (.num (Float.ofNat 1))
    (.num (Float.ofNat 0 + Float.ofNat 1)) none where
  segments := rfl
  sent := by
    show some (Data.reread (.num _)) = _
    rw [Data.reread, if_pos (by decide +kernel)]
    exact congrArg (fun x => some (Data.num x)) (by decide +kernel)
  own := by simp
  reaches := rfl
  means := by
    refine .incr rfl rfl ?_
    rw [Data.reread, if_pos (by decide +kernel)]
    exact congrArg Data.num (by decide +kernel)
  kept := by simp

def counterRequests : List Request :=
  [.invoke readVisits, .invoke addVisit, .invoke readVisits]

theorem counterRequests_clear :
    (served (fun _ => none) (fun _ => Float.ofNat 0) counter).Meets
      (fun both request => request.Clear (fun _ => none) counter both.store)
      (start (fun _ => none) (fun _ => [])) counterRequests := by
  refine ⟨?_, ?_⟩
  · show Request.Clear _ _ _ (.invoke readVisits)
    rw [Request.Clear, counter_read]
    exact ⟨by decide, rfl, _, rfl, trivial⟩
  rintro _ ⟨⟩
  refine ⟨?_, ?_⟩
  · show Request.Clear _ _ (Host.serve _ _ _ _ _).1 _
    rw [host_value counter_read rfl, Request.Clear, counter_add]
    exact ⟨by decide, _, _, _, _, visit_written⟩
  rintro _ ⟨⟩
  refine ⟨?_, ?_⟩
  · show Request.Clear _ _ (Host.serve _ _ _ (Host.serve _ _ _ _ _).1 _).1 _
    rw [host_value counter_read rfl, host_command counter_add visit_written (by simp [start]),
      Request.Clear, counter_read]
    exact ⟨by decide, rfl, rfl, trivial⟩
  · rintro _ ⟨⟩
    trivial

theorem serves_alike_counter :
    ∃ both, (served (fun _ => none) (fun _ => Float.ofNat 0) counter).run
        (start (fun _ => none) (fun _ => [])) counterRequests = some both ∧
      both.hostAnswers = both.deployedAnswers ∧ ∀ key, both.ReadsAlike key := by
  obtain ⟨both, hrun⟩ : ∃ both, (served (fun _ => none) (fun _ => Float.ofNat 0) counter).run
      (start (fun _ => none) (fun _ => [])) counterRequests = some both := ⟨_, rfl⟩
  have hsame : Same (fun _ => none) (fun _ => []) := fun _ => ⟨rfl, by simp⟩
  exact ⟨both, hrun, serves_alike _ _ _ hsame hrun counterRequests_clear⟩

end Checks

end Serve
end Zdeceptron
