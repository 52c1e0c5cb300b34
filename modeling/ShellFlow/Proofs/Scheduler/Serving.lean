import ShellFlow.Proofs.Outcome
import ShellFlow.Scheduler.Serve

/-!
# What a request does

The parts of serving a request, each with all that it can have done if it has given a result.
-/

namespace ShellFlow

variable {s s' : Server} {graph : Option Graph} {id : Int} {r : CompileRequest} {text : String}
  {u : Unit}

/-- Two servers with the same options and the same requests to come. -/
structure Server.Keeps (s s' : Server) : Prop where
  options : s'.options = s.options
  queue : s'.queue = s.queue

/-! ### Steps -/

theorem Run.yields_lift {α : Type} {x : Except Fault α} {w w' : World} {a : α} :
    Yields (Run.lift x) w a w' ↔ x = .ok a ∧ w = w' := by
  cases x with
  | error => simp [Run.lift, yields_throw]
  | ok => simp [Run.lift, yields_pure]

namespace Serve

variable {α : Type}

theorem yields_lift {x : Except Fault α} {a : α} : Yields (lift x) s a s' ↔ x = .ok a ∧ s = s' := by
  cases x with
  | error => simp [lift, yields_throw]
  | ok => simp [lift, yields_pure]

theorem yields_scheduler {c : Scheduler} : Yields scheduler s c s' ↔ s.scheduler = c ∧ s = s' := by
  simp only [scheduler, yields_bind, yields_get, yields_pure]
  constructor
  · rintro ⟨_, _, ⟨rfl, rfl⟩, rfl, rfl⟩
    exact ⟨rfl, rfl⟩
  · rintro ⟨rfl, rfl⟩
    exact ⟨s, s, ⟨rfl, rfl⟩, rfl, rfl⟩

theorem yields_change {f : Scheduler → Except Fault Scheduler} :
    Yields (change f) s u s' ↔ ∃ c, f s.scheduler = .ok c ∧ { s with scheduler := c } = s' := by
  simp only [change, yields_bind, yields_get, yields_lift, yields_set]
  constructor
  · rintro ⟨_, _, ⟨rfl, rfl⟩, c, _, ⟨hc, rfl⟩, rfl⟩
    exact ⟨c, hc, rfl⟩
  · rintro ⟨c, hc, rfl⟩
    exact ⟨s, s, ⟨rfl, rfl⟩, c, s, ⟨hc, rfl⟩, rfl⟩

theorem yields_inWorld {x : Run α} {a : α} :
    Yields (inWorld x) s a s' ↔ ∃ world, Yields x s.world a world ∧ { s with world } = s' := by
  simp only [inWorld, yields_bind, yields_get]
  constructor
  · rintro ⟨_, _, ⟨rfl, rfl⟩, h⟩
    simp only [yields_set, yields_lift] at h
    obtain ⟨_, _, rfl, hresult, rfl⟩ := h
    exact ⟨_, Prod.ext hresult rfl, rfl⟩
  · rintro ⟨world, hx, rfl⟩
    refine ⟨s, s, ⟨rfl, rfl⟩, ?_⟩
    simp only [yields_set, yields_lift]
    have hx : x.outcome s.world = (.ok a, world) := hx
    rw [hx]
    exact ⟨(), _, rfl, rfl, rfl⟩

theorem yields_accept (h : Yields accept s u s') : s'.scheduler = s.scheduler ∧ s.Keeps s' := by
  rw [accept, yields_modify] at h
  subst h
  exact ⟨rfl, rfl, rfl⟩

theorem yields_closeWith {event : Nat → Event} (h : Yields (closeWith event) s u s') :
    s'.scheduler = s.scheduler ∧ s.Keeps s' := by
  simp only [closeWith, yields_bind, yields_get] at h
  obtain ⟨_, _, ⟨rfl, rfl⟩, h⟩ := h
  cases hc : s.connections with
  | nil =>
    rw [hc] at h
    exact absurd h yields_throw.1
  | cons =>
    rw [hc] at h
    obtain rfl := yields_set.1 h
    exact ⟨rfl, rfl, rfl⟩

end Serve

open Serve

/-! ### What is recorded of a process -/

namespace Scheduler

variable {c c' : Scheduler}

theorem process_eq_ok {p : Job} : c.process id = .ok p ↔ c.processes.get? id = some p := by
  rw [process]
  split <;> simp_all

theorem recordTime_eq_ok {time : Duration} :
    c.recordTime id (some time) = .ok c' ↔ ∃ p, c.processes.get? id = some p ∧ p.time = none ∧
      { c with processes := c.processes.insert id { p with time := some time } } = c' := by
  simp only [recordTime, bind_eq_ok, process_eq_ok, require_eq_ok, pure_eq_ok,
    Option.isNone_iff_eq_none, exists_const]

theorem recordStart_eq_ok {clock : Int} : c.recordStart id clock = .ok c' ↔
    ∃ p, c.processes.get? id = some p ∧
      { c with processes := c.processes.insert id { p with started := some clock } } = c' := by
  simp only [recordStart, bind_eq_ok, process_eq_ok, pure_eq_ok]

end Scheduler

/-! ### Reports -/

/-- A report is of a process that has started and was not measured.  It is measured and removed. -/
theorem handleExit_cases (h : Yields (handleExit text) s u s') :
    ∃ id p start time, Request.parseExit text = .ok id ∧ s.scheduler.processes.get? id = some p ∧
      p.started = some start ∧ p.time = none ∧
      s'.scheduler = Scheduler.remove { s.scheduler with
        processes := s.scheduler.processes.insert id { p with time := some time } } id ∧
      s.Keeps s' := by
  simp only [handleExit, yields_bind, Serve.yields_lift, yields_get, Scheduler.process_eq_ok] at h
  obtain ⟨id, _, ⟨hid, rfl⟩, _, _, ⟨rfl, rfl⟩, p, _, ⟨hp, rfl⟩, h⟩ := h
  cases hstart : p.started with
  | none =>
    rw [hstart] at h
    exact absurd h yields_throw.1
  | some start =>
    rw [hstart] at h
    simp only [yields_bind, yields_change, bind_eq_ok, Scheduler.recordTime_eq_ok, pure_eq_ok] at h
    obtain ⟨_, _, ⟨_, ⟨_, ⟨p', hp', htime, rfl⟩, rfl⟩, rfl⟩, hclose⟩ := h
    obtain rfl : p = p' := by simpa [hp] using hp'
    obtain ⟨hscheduler, hkeeps⟩ := yields_closeWith hclose
    exact ⟨id, p, start, _, hid, hp, hstart, htime, hscheduler, hkeeps.options, hkeeps.queue⟩

/-! ### Waiting -/

/-- A wait without further requests is over at once. -/
theorem waitOn_nil_cases (h : Yields (waitOn []) s u s') :
    s.scheduler.running ≤ 0 ∧
    { s with scheduler := { s.scheduler with exclusive := false } } = s' := by
  simp only [waitOn, yields_bind, yields_scheduler] at h
  obtain ⟨_, _, ⟨rfl, rfl⟩, h⟩ := h
  split at h
  · obtain ⟨_, _, hthrow, -⟩ := h.bind
    exact absurd hthrow yields_throw.1
  · rename_i hdone
    obtain ⟨_, hc, rfl⟩ := yields_change.1 h
    cases hc
    exact ⟨Int.not_lt.1 hdone, rfl⟩

/-- A wait is over, or it takes a report and goes on. -/
theorem waitOn_cons_cases {rest : List String} (h : Yields (waitOn (text :: rest)) s u s') :
    s.scheduler.running ≤ 0 ∧ { s with scheduler := { s.scheduler with exclusive := false } } = s' ∨
    0 < s.scheduler.running ∧ Request.isExit text ∧ ∃ t t', t.scheduler = s.scheduler ∧
      t.options = s.options ∧ t.queue = rest ∧ Yields (handleExit text) t () t' ∧
      Yields (waitOn rest) t' () s' := by
  simp only [waitOn, yields_bind, yields_scheduler] at h
  obtain ⟨_, _, ⟨rfl, rfl⟩, h⟩ := h
  split at h
  · rename_i hmore
    simp only [yields_bind, yields_modify] at h
    obtain ⟨_, _, rfl, _, t, haccept, h⟩ := h
    obtain ⟨hscheduler, hkeeps⟩ := yields_accept haccept
    split at h
    · rename_i hexit
      obtain ⟨_, t', hreport, hrest⟩ := h.bind
      exact .inr ⟨hmore, hexit, t, t', hscheduler, hkeeps.options, hkeeps.queue, hreport, hrest⟩
    · obtain ⟨_, _, hthrow, -⟩ := h.bind
      exact absurd hthrow yields_throw.1
  · rename_i hdone
    obtain ⟨_, hc, rfl⟩ := yields_change.1 h
    cases hc
    exact .inl ⟨Int.not_lt.1 hdone, rfl⟩

theorem waitForAll_cases (h : Yields waitForAll s u s') : Yields (waitOn s.queue) s u s' := by
  simp only [waitForAll, yields_bind, yields_get] at h
  obtain ⟨_, _, ⟨rfl, rfl⟩, h⟩ := h
  exact h

/-- A process that must run alone is waited for. -/
theorem waitExclusive_cases (h : Yields waitExclusive s u s') :
    s.scheduler.exclusive = false ∧ s = s' ∨ s.scheduler.exclusive ∧ Yields waitForAll s u s' := by
  simp only [waitExclusive, yields_bind, yields_scheduler] at h
  obtain ⟨_, _, ⟨rfl, rfl⟩, h⟩ := h
  split at h
  · rename_i hexclusive
    obtain ⟨_, _, hlift, hwait⟩ := h.bind
    obtain ⟨-, rfl⟩ := Serve.yields_lift.1 hlift
    exact .inr ⟨hexclusive, hwait⟩
  · rename_i hshared
    obtain ⟨_, rfl⟩ := h.pure
    exact .inl ⟨by simpa using hshared, rfl⟩

/-! ### Requests to compile -/

/-- Compiling a region numbers a process and records it with the width chosen for the region, and
changes nothing that is known of the others. -/
theorem prepare_cases (h : Yields (prepare r) s (id, graph) s') :
    ∃ width, s.scheduler.chooseWidth s.options r.region = .ok width ∧
      (id = s.scheduler.lastId + 1 ∧ s.scheduler.processes.get? id = none) ∧
      s'.scheduler = { s.scheduler with
        lastId := id
        processes := s.scheduler.processes.insert id { region := r.region, width }
        byRegion := s.scheduler.byRegion.insert r.region
          ((s.scheduler.byRegion.get? r.region).getD [] ++ [id]) } ∧
      s.Keeps s' := by
  simp only [prepare, yields_bind, yields_scheduler, yields_change, yields_get, Serve.yields_lift,
    yields_pure, Scheduler.addProcess, bind_eq_ok, pure_eq_ok, require_eq_ok] at h
  obtain ⟨_, _, ⟨rfl, rfl⟩, h⟩ := h
  simp only [Scheduler.nextId] at h
  obtain ⟨_, _, ⟨_, hc, rfl⟩, _, _, hread, _, _, ⟨rfl, rfl⟩, _, _, ⟨rfl, rfl⟩, width, _,
    ⟨hwidth, rfl⟩, _, _,
    ⟨_, ⟨_, hnew, rfl⟩, rfl⟩, _, _, hcompile, hresult, rfl⟩ := h
  cases hc
  obtain ⟨_, -, rfl⟩ := yields_inWorld.1 hread
  obtain ⟨_, -, rfl⟩ := yields_inWorld.1 hcompile
  cases hresult
  exact ⟨width, hwidth, ⟨rfl, by simpa [Table.contains] using hnew⟩, rfl, rfl, rfl⟩

/-- The claims of a graph are recorded, and they are added to those of the running processes exactly
if the process can run beside them. -/
theorem claimGraph_cases {g : Graph} {safe : Bool} (h : Yields (claimGraph id g) s safe s') :
    ∃ cl, Claims.ofGraph g = .ok cl ∧ safe = s.scheduler.claimed.compatible cl ∧
      s'.scheduler = { s.scheduler with
        claims := s.scheduler.claims.insert id cl
        claimed := if safe then s.scheduler.claimed.add cl else s.scheduler.claimed } ∧
      s.Keeps s' := by
  simp only [claimGraph, yields_bind, Serve.yields_lift, yields_change, yields_scheduler,
    Except.ok.injEq] at h
  obtain ⟨cl, _, ⟨hcl, rfl⟩, _, _, ⟨_, rfl, rfl⟩, _, _, ⟨rfl, rfl⟩, safe', _, ⟨hsafe, rfl⟩, h⟩ := h
  have hcompatible : s.scheduler.claimed.compatible cl = safe' := by
    simpa [Scheduler.safe, Scheduler.setClaims] using hsafe
  cases safe' with
  | false =>
    obtain ⟨rfl, rfl⟩ := h.pure
    exact ⟨cl, hcl, hcompatible.symm, rfl, rfl, rfl⟩
  | true =>
    obtain ⟨_, _, hclaim, hresult⟩ := h.bind
    obtain ⟨_, hc, rfl⟩ := yields_change.1 hclaim
    cases hc
    obtain ⟨rfl, rfl⟩ := hresult.pure
    exact ⟨cl, hcl, hcompatible.symm, rfl, rfl, rfl⟩

/-- A process that starts is counted, and runs alone if its region was not compiled. -/
theorem launch_cases {compiled : Bool} (h : Yields (launch id compiled) s u s') :
    ∃ p, s.scheduler.processes.get? id = some p ∧
      s'.scheduler = { s.scheduler with
        exclusive := s.scheduler.exclusive || !compiled
        running := s.scheduler.running + if compiled || !s.options.assertSuccess then 1 else 0
        processes := s.scheduler.processes.insert id { p with started := some s.clock } } ∧
      s.Keeps s' := by
  simp only [launch, yields_bind, yields_get, yields_change] at h
  obtain ⟨_, _, ⟨rfl, rfl⟩, _, hc, rfl⟩ := h
  generalize s.options.assertSuccess = required at hc
  obtain ⟨p, hp, rfl⟩ := Scheduler.recordStart_eq_ok.1 hc
  cases compiled <;> cases required <;> exact ⟨p, hp, by simp, rfl, rfl⟩

theorem makeRoom_cases (h : Yields (makeRoom id graph) s u s') : ∃ t, Yields waitExclusive s () t ∧
      (graph = none ∧ Yields waitForAll t () s' ∨ ∃ g safe t', graph = some g ∧
        Yields (claimGraph id g) t safe t' ∧
          (safe ∧ t' = s' ∨ safe = false ∧ Yields waitForAll t' () s')) := by
  simp only [makeRoom, yields_bind] at h
  obtain ⟨_, t, hexclusive, h⟩ := h
  refine ⟨t, hexclusive, ?_⟩
  cases graph with
  | none => exact .inl ⟨rfl, h⟩
  | some g =>
    simp only [yields_bind, yields_get, Serve.yields_lift] at h
    obtain ⟨_, _, ⟨rfl, rfl⟩, _, _, ⟨-, rfl⟩, safe, t', hclaim, h⟩ := h
    refine .inr ⟨g, safe, t', rfl, hclaim, ?_⟩
    cases safe with
    | true =>
      obtain ⟨_, rfl⟩ := h.pure
      exact .inl ⟨rfl, rfl⟩
    | false => exact .inr ⟨rfl, h⟩

/-- A request to compile goes through its three parts. -/
theorem compileRequest_cases (h : Yields (compileRequest r) s text s') :
    ∃ id graph t t', Yields (prepare r) s (id, graph) t ∧ Yields (makeRoom id graph) t () t' ∧
      Yields (launch id graph.isSome) t' () s' := by
  simp only [compileRequest, yields_bind] at h
  obtain ⟨⟨id, graph⟩, t, hprepare, _, t', hroom, _, t'', hlaunch, h⟩ := h
  have hend : t'' = s' := by
    split at h <;> exact (h.pure).2
  subst hend
  exact ⟨id, graph, t, t', hprepare, hroom, hlaunch⟩

/-- A request is accepted and read, and then served by its kind. -/
theorem serve_cases (h : Yields (serve text) s u s') :
    ∃ t request, Yields accept s () t ∧ Request.parse text = .ok request ∧
      match request with
      | .compile r =>
          ∃ answer t', Yields (compileRequest r) t answer t' ∧ Yields (respond answer) t' u s'
      | .exit _ => Yields (handleExit text) t u s'
      | .done => ∃ t' t'', Yields waitForAll t () t' ∧ Yields (respond "All finished") t' () t'' ∧
          { t'' with scheduler := { t''.scheduler with done := true } } = s'
      | .hello => Yields close t u s' := by
  simp only [serve, handle, yields_bind, Serve.yields_lift] at h
  obtain ⟨_, t, haccept, request, _, ⟨hparse, rfl⟩, h⟩ := h
  refine ⟨t, request, haccept, hparse, ?_⟩
  cases request with
  | compile =>
    obtain ⟨answer, t', hcompile, hrespond⟩ := h.bind
    exact ⟨answer, t', hcompile, hrespond⟩
  | exit => exact h
  | done =>
    simp only [yields_bind, yields_change] at h
    obtain ⟨_, t', hwait, _, t'', hrespond, _, hc, rfl⟩ := h
    cases hc
    exact ⟨t', t'', hwait, hrespond, rfl⟩
  | hello => exact h

end ShellFlow
