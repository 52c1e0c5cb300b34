import ShellFlow.Proofs.Scheduler.Serving
import ShellFlow.Proofs.Scheduler.Tracking

/-!
# Processes that run together

No two processes that run together disturb each other, and a process whose region was not compiled
runs alone.

The running processes are those that were answered and have not been reported to have ended.  They
are followed here along the requests that are served, and the state of the scheduler is compared
with them between two requests.
-/

namespace ShellFlow

open List Serve Scheduler

variable {c : Scheduler} {cl : Claims} {claims : Option Claims} {graph : Option Graph} {id : Int}
  {ps : List Live}
  {text : String} (texts more : List String)

/-! ### Reports -/

/-- The processes that are reported to have ended. -/
def reported : List Int :=
  texts.filterMap fun text =>
    if Request.isExit text then (Request.parseExit text).toOption else none

/-- The processes that are left when some are reported to have ended. -/
def remaining (live : List Live) : List Live :=
  live.filter fun p => p.id ∉ reported texts

@[simp] theorem remaining_nil (live : List Live) : remaining [] live = live := by
  simp [remaining, reported]

theorem remaining_append (live : List Live) :
    remaining (texts ++ more) live = remaining more (remaining texts live) := by
  simp [remaining, reported, filter_filter, Bool.and_comm]

theorem remaining_exit (hexit : Request.isExit text) (hid : Request.parseExit text = .ok id)
    (live : List Live) : remaining [text] live = without id live := by
  simp [remaining, reported, hexit, hid, Except.toOption, without]

theorem remaining_of_not_isExit (h : ¬ Request.isExit text) (live : List Live) :
    remaining [text] live = live := by
  simp [remaining, reported, h]

/-! ### Waiting -/

variable {s s' : Server} {live waiting : List Live} {u : Unit}

theorem Scheduler.Tracks.setExclusive (h : c.Tracks live waiting) (exclusive : Bool) :
    Tracks { c with exclusive } live waiting :=
  ⟨h.running, h.nodup, h.id_le, h.registered, h.active, h.claimed⟩

/-- A report leaves the scheduler with the processes that remain. -/
theorem handleExit_tracks (hexit : Request.isExit text) (h : Yields (handleExit text) s u s')
    (ht : s.scheduler.Tracks live waiting) : s'.scheduler.Tracks (remaining [text] live) waiting ∧
    s.Keeps s' := by
  obtain ⟨id, p, start, time, hid, hp, hstart, htime, hscheduler, hkeeps⟩ := handleExit_cases h
  refine ⟨?_, hkeeps⟩
  rw [remaining_exit hexit hid, hscheduler]
  exact ht.remove hp (by rw [hstart]; rfl) htime time

/-- **A wait takes reports of all running processes.**  The induction is on the requests to come. -/
theorem waitOn_empties {queue : List String} (h : Yields (waitOn queue) s u s')
    (hqueue : s.queue = queue) (ht : s.scheduler.Tracks live waiting) :
    ∃ waited, s.queue = waited ++ s'.queue ∧ remaining waited live = [] ∧ s'.options = s.options ∧
      s'.scheduler.Tracks [] waiting ∧ s'.scheduler.exclusive = false := by
  have hover : s.scheduler.running ≤ 0 → live = [] := by
    intro hle
    rw [ht.running] at hle
    exact eq_nil_of_length_eq_zero (by omega)
  induction queue generalizing s live with
  | nil =>
    obtain ⟨hle, rfl⟩ := waitOn_nil_cases h
    obtain rfl := hover hle
    exact ⟨[], rfl, rfl, rfl, ht.setExclusive false, rfl⟩
  | cons text rest ih =>
    rcases waitOn_cons_cases h with ⟨hle, rfl⟩ | ⟨-, hexit, t, t', hscheduler, hoptions, hrest,
      hreport, hwait⟩
    · obtain rfl := hover hle
      exact ⟨[], rfl, rfl, rfl, ht.setExclusive false, rfl⟩
    -- a report takes one process off; the others are waited for in the same way
    · rw [← hscheduler] at ht
      obtain ⟨ht', hkeeps⟩ := handleExit_tracks hexit hreport ht
      obtain ⟨waited, hwaited, hleft, hoptions', hempty, hexclusive⟩ :=
        ih hwait (hkeeps.queue.trans hrest) ht' (by
          intro hle
          rw [ht'.running] at hle
          exact eq_nil_of_length_eq_zero (by omega))
      refine ⟨text :: waited, ?_, ?_, ?_, hempty, hexclusive⟩
      · rw [hqueue, ← hrest, ← hkeeps.queue, hwaited, cons_append]
      · rw [← singleton_append, remaining_append]
        exact hleft
      · rw [hoptions', hkeeps.options, hoptions]

/-! ### A process that waits -/

/-- No process writes what another reads or writes. -/
def Apart (ps : List Live) : Prop :=
  ∀ p ∈ ps, ∀ q ∈ ps, p.id ≠ q.id → ∀ x ∈ p.outputs, x ∉ q.inputs ∧ x ∉ q.outputs

theorem apart_nil : Apart [] := by
  intro p hp
  simp at hp

theorem apart_singleton (new : Live) : Apart [new] := by
  intro p hp q hq hne
  rw [mem_singleton.1 hp, mem_singleton.1 hq] at hne
  exact absurd rfl hne

/-- A process that can run beside others keeps them apart. -/
theorem Apart.append (h : Apart ps) {new : Claims} (hg : cl.Gathers ps) (hsafe : cl.compatible new)
    (id : Int) : Apart (ps ++ [⟨id, some new⟩]) := by
  obtain ⟨houtputs, hinputs⟩ := Claims.compatible_iff.1 hsafe
  intro p hp q hq hne x hx
  rcases mem_append.1 hp with hp | hp <;> rcases mem_append.1 hq with hq | hq
  · exact h p hp q hq hne x hx
  · obtain rfl := mem_singleton.1 hq
    exact houtputs x ((hg.outputs x).2 ⟨p, hp, hx⟩)
  · obtain rfl := mem_singleton.1 hp
    refine ⟨fun hxq => ?_, fun hxq => ?_⟩
    · exact hinputs x ((hg.inputs x).2 ⟨q, hq, hxq⟩) hx
    · exact (houtputs x ((hg.outputs x).2 ⟨q, hq, hxq⟩)).2 hx
  · rw [mem_singleton.1 hp, mem_singleton.1 hq] at hne
    exact absurd rfl hne

/-- The state of the scheduler before a process starts: it does not disturb the processes that run,
and all of these are known. -/
structure Scheduler.Ready (c : Scheduler) (live : List Live) (new : Live) : Prop where
  tracks : c.Tracks live [new]
  gathers : c.claimed.Gathers (live ++ [new])
  apart : Apart (live ++ [new])
  known : ∀ p ∈ live, p.claims ≠ none
  room : new.claims = none → live = []
  exclusive : c.exclusive = false

/-- A process is ready if no other runs. -/
theorem Scheduler.Tracks.ready {new : Live} (h : c.Tracks [] [new])
    (hexclusive : c.exclusive = false) : c.Ready [] new where
  tracks := h
  gathers := h.gathers_of_nil
  apart := apart_singleton new
  known := by simp
  room := fun _ => rfl
  exclusive := hexclusive

/-- The state of the scheduler between two requests: the processes that run do not disturb each
other, and a process of which nothing is known runs alone. -/
structure Scheduler.Settled (c : Scheduler) (live : List Live) : Prop where
  tracks : c.Tracks live []
  apart : Apart live
  alone : ∀ p ∈ live, p.claims = none → live = [p]
  exclusive : c.exclusive ↔ ∃ p ∈ live, p.claims = none

/-- A process of which nothing is known adds nothing. -/
theorem gathers_append_unknown : cl.Gathers (ps ++ [⟨id, none⟩]) ↔ cl.Gathers ps := by
  refine Claims.gathers_iff_of_known fun p hp => ?_
  rw [mem_append, mem_singleton, or_iff_left]
  rintro rfl
  simp at hp

section

variable (ht : s.scheduler.Tracks live [⟨id, none⟩]) (hg : s.scheduler.claimed.Gathers live)
  (happart : Apart live) (hexclusive : s.scheduler.exclusive ↔ ∃ p ∈ live, p.claims = none)
include ht hg happart hexclusive

/-- Behind a wait for the process that must run alone, no such process runs. -/
theorem waitExclusive_known (h : Yields waitExclusive s u s') :
    ∃ waited, s.queue = waited ++ s'.queue ∧ s'.options = s.options ∧
      s'.scheduler.Tracks (remaining waited live) [⟨id, none⟩] ∧
      s'.scheduler.claimed.Gathers (remaining waited live) ∧ Apart (remaining waited live) ∧
      (∀ p ∈ remaining waited live, p.claims ≠ none) ∧ s'.scheduler.exclusive = false := by
  rcases waitExclusive_cases h with ⟨hshared, rfl⟩ | ⟨-, hwait⟩
  · refine ⟨[], rfl, rfl, ?_⟩
    rw [remaining_nil]
    refine ⟨ht, hg, happart, fun p hp hnone => ?_, hshared⟩
    rw [hexclusive.2 ⟨p, hp, hnone⟩] at hshared
    cases hshared
  · obtain ⟨waited, hwaited, hleft, hoptions, hempty, hdone⟩ :=
      waitOn_empties (waitForAll_cases hwait) rfl ht
    refine ⟨waited, hwaited, hoptions, ?_⟩
    rw [hleft]
    exact ⟨hempty, gathers_append_unknown.1 hempty.gathers_of_nil, apart_nil, by simp, hdone⟩

/-- **A process starts only beside processes that it does not disturb.** -/
theorem makeRoom_ready (h : Yields (makeRoom id graph) s u s')
    (hclaims : graph.mapM Claims.ofGraph = .ok claims) :
    ∃ waited, s.queue = waited ++ s'.queue ∧ s'.options = s.options ∧
      s'.scheduler.Ready (remaining waited live) ⟨id, claims⟩ := by
  obtain ⟨t, hwait, hrest⟩ := makeRoom_cases h
  obtain ⟨waited, hwaited, hoptions, ht, hg, happart, hknown, hshared⟩ :=
    waitExclusive_known ht hg happart hexclusive hwait
  rcases hrest with ⟨rfl, hall⟩ | ⟨g, safe, t', rfl, hclaim, hend⟩
  · obtain rfl : none = claims := pure_eq_ok.1 hclaims
    obtain ⟨more, hmore, hleft, hoptions', hempty, hdone⟩ :=
      waitOn_empties (waitForAll_cases hall) rfl ht
    refine ⟨waited ++ more, ?_, hoptions'.trans hoptions, ?_⟩
    · rw [hwaited, hmore, List.append_assoc]
    · rw [remaining_append, hleft]
      exact hempty.ready hdone
  · obtain ⟨cl, hcl, hsafe, hscheduler, hkeeps⟩ := claimGraph_cases hclaim
    obtain rfl : some cl = claims := by
      obtain ⟨cl', hcl', hresult⟩ := bind_eq_ok.1 hclaims
      rw [hcl, Except.ok.injEq] at hcl'
      rw [hcl']
      exact pure_eq_ok.1 hresult
    -- the claims are recorded whether or not the process must wait
    have ht' : t'.scheduler.Tracks (remaining waited live) [⟨id, some cl⟩] := by
      rw [hscheduler]
      exact ht.setClaims hg cl hsafe
    rcases hend with ⟨rfl, rfl⟩ | ⟨rfl, hall⟩
    · refine ⟨waited, by rw [hwaited, hkeeps.queue], hkeeps.options.trans hoptions, ht', ?_, ?_,
        hknown, by simp, ?_⟩
      · rw [hscheduler]
        exact hg.add id cl
      · exact happart.append hg hsafe.symm id
      · rw [hscheduler]
        exact hshared
    · obtain ⟨more, hmore, hleft, hoptions', hempty, hdone⟩ :=
        waitOn_empties (waitForAll_cases hall) rfl ht'
      refine ⟨waited ++ more, ?_, by rw [hoptions', hkeeps.options, hoptions], ?_⟩
      · rw [hwaited, ← hkeeps.queue, hmore, List.append_assoc]
      · rw [remaining_append, hleft]
        exact hempty.ready hdone

end

theorem Scheduler.Ready.launch {new : Live} (h : c.Ready live new) (job : Job) :
    Settled { c with
      exclusive := c.exclusive || !new.claims.isSome
      running := c.running + 1
      processes := c.processes.insert new.id job } (live ++ [new]) := by
  refine ⟨h.tracks.launch h.gathers _ job, h.apart, ?_, ?_⟩
  · intro p hp hnone
    rcases mem_append.1 hp with hp | hp
    · exact absurd hnone (h.known p hp)
    · obtain rfl := mem_singleton.1 hp
      rw [h.room hnone, nil_append]
  · show (c.exclusive || !new.claims.isSome) = true ↔ _
    rw [h.exclusive, Bool.false_or]
    constructor
    · intro hnone
      exact ⟨new, by simp, by simpa using hnone⟩
    · rintro ⟨p, hp, hnone⟩
      rcases mem_append.1 hp with hp | hp
      · exact absurd hnone (h.known p hp)
      · obtain rfl := mem_singleton.1 hp
        simp [hnone]

/-! ### Requests one after the other -/

/-- The states between two requests, with the processes that were answered and have not ended.
Between two requests, time goes on, and the surroundings change.  A request may take further
requests while it waits. -/
inductive Reached : Server → List Live → Prop
  | start {s : Server} (fresh : s.scheduler = {}) (carryOn : s.options.assertSuccess = false) :
      Reached s []
  | elsewhere {s : Server} {live : List Live} (queue : List String) (clock : Int) (world : World)
      (before : Reached s live) : Reached { s with queue, clock, world } live
  | compiled {s s' t : Server} {live : List Live} {text : String} {waited : List String}
      {r : CompileRequest} {id : Int} {graph : Option Graph} {claims : Option Claims}
      (before : Reached s live) (asked : Request.parse text = .ok (.compile r))
      (prepared : Yields (do accept; prepare r) s (id, graph) t)
      (reads : graph.mapM Claims.ofGraph = .ok claims) (served : Yields (serve text) s () s')
      (waits : s.queue = waited ++ s'.queue) : Reached s' (remaining waited live ++ [⟨id, claims⟩])
  | other {s s' : Server} {live : List Live} {text : String} {waited : List String}
      {request : Request} (before : Reached s live) (asked : Request.parse text = .ok request)
      (notCompile : ∀ r, request ≠ .compile r) (served : Yields (serve text) s () s')
      (waits : s.queue = waited ++ s'.queue) : Reached s' (remaining (text :: waited) live)

theorem Scheduler.settled_nil (h : c.Tracks [] []) (hexclusive : c.exclusive = false) :
    c.Settled [] where
  tracks := h
  apart := apart_nil
  alone := by simp
  exclusive := by simp [hexclusive]

/-- A request is a report exactly if it is read as one. -/
theorem isExit_iff_of_parse {request : Request} (h : Request.parse text = .ok request)
    (hother : ∀ r, request ≠ .compile r) : Request.isExit text ↔ ∃ id, request = .exit id := by
  rw [Request.parse] at h
  split at h
  · obtain ⟨r, -, hr⟩ := bind_eq_ok.1 h
    exact absurd (pure_eq_ok.1 hr).symm (hother r)
  · split at h
    · rename_i hexit
      obtain ⟨id, -, hid⟩ := bind_eq_ok.1 h
      exact iff_of_true hexit ⟨id, (pure_eq_ok.1 hid).symm⟩
    · rename_i hexit
      refine iff_of_false hexit ?_
      rintro ⟨id, rfl⟩
      split at h
      · cases h
      · split at h <;> cases h

theorem Scheduler.Settled.report (hs : s.scheduler.Settled live) (hexit : Request.isExit text)
    (h : Yields (handleExit text) s u s') : s'.scheduler.Settled (remaining [text] live) ∧
    s.Keeps s' := by
  obtain ⟨ht, hkeeps⟩ := handleExit_tracks hexit h hs.tracks
  have hsub : ∀ p ∈ remaining [text] live, p ∈ live := fun p hp => mem_of_mem_filter hp
  have halone : ∀ p ∈ remaining [text] live, p.claims = none → remaining [text] live = [p] := by
    intro p hp hnone
    have hlive := hs.alone p (hsub p hp) hnone
    have hleft : p.id ∉ reported [text] := by simpa using (mem_filter.1 hp).2
    rw [hlive, remaining, filter_cons_of_pos (by simpa using hleft), filter_nil]
  refine ⟨⟨ht, fun p hp q hq => hs.apart p (hsub p hp) q (hsub q hq), halone, ?_⟩, hkeeps⟩
  obtain ⟨id, p, _, _, _, _, _, _, hscheduler, -⟩ := handleExit_cases h
  have hexclusive : s'.scheduler.exclusive =
      (s.scheduler.exclusive && s'.scheduler.running != 0) := by
    rw [hscheduler, Scheduler.remove]
    split <;> rfl
  rw [hexclusive, Bool.and_eq_true, hs.exclusive, ht.running]
  constructor
  · rintro ⟨⟨p, hp, hnone⟩, hne⟩
    obtain ⟨q, hq⟩ : ∃ q, q ∈ remaining [text] live :=
      exists_mem_of_ne_nil _ (by rintro hnil; simp [hnil] at hne)
    have hqp := hsub q hq
    rw [hs.alone p hp hnone, mem_singleton] at hqp
    exact ⟨q, hq, by rw [hqp, hnone]⟩
  · rintro ⟨p, hp, hnone⟩
    refine ⟨⟨p, hsub p hp, hnone⟩, ?_⟩
    rw [halone p hp hnone]
    rfl

/-- A request to compile leaves the scheduler settled, with a new process. -/
theorem Scheduler.Settled.compile {r : CompileRequest} {answer : String} {t : Server}
    (hs : s.scheduler.Settled live) (hoptions : s.options.assertSuccess = false)
    (hprepare : Yields (prepare r) s (id, graph) t)
    (hclaims : graph.mapM Claims.ofGraph = .ok claims) (h : Yields (compileRequest r) s answer s') :
    ∃ waited, s.queue = waited ++ s'.queue ∧ s'.options = s.options ∧
      s'.scheduler.Settled (remaining waited live ++ [⟨id, claims⟩]) := by
  obtain ⟨id', graph', t', t'', hprepare', hroom, hlaunch⟩ := compileRequest_cases h
  -- preparing gives one result, so the region in the hypothesis is the one that is served
  obtain ⟨hresult, rfl⟩ := hprepare.unique hprepare'
  cases hresult
  obtain ⟨width, -, ⟨rfl, -⟩, hscheduler, hkeeps⟩ := prepare_cases hprepare
  have ht : t.scheduler.Tracks live [⟨s.scheduler.lastId + 1, none⟩] := by
    rw [hscheduler]
    exact hs.tracks.number r.region width _
  have hg : t.scheduler.claimed.Gathers live := by
    rw [hscheduler]
    exact hs.tracks.gathers
  have hexclusive : t.scheduler.exclusive = true ↔ ∃ p ∈ live, p.claims = none := by
    rw [hscheduler]
    exact hs.exclusive
  obtain ⟨waited, hwaited, hoptions', hready⟩ :=
    makeRoom_ready ht hg hs.apart hexclusive hroom hclaims
  obtain ⟨job, -, hlaunched, hkeeps'⟩ := launch_cases hlaunch
  rw [hoptions', hkeeps.options, hoptions, Bool.not_false, Bool.or_true, if_pos rfl] at hlaunched
  refine ⟨waited, ?_, ?_, ?_⟩
  · rw [← hkeeps.queue, hwaited, hkeeps'.queue]
  · rw [hkeeps'.options, hoptions', hkeeps.options]
  · have hsome : graph.isSome = claims.isSome := by
      cases graph with
      | none =>
        obtain rfl : none = claims := pure_eq_ok.1 hclaims
        rfl
      | some =>
        obtain ⟨cl, -, hpure⟩ := bind_eq_ok.1 hclaims
        obtain rfl : some cl = claims := pure_eq_ok.1 hpure
        rfl
    rw [hlaunched, hsome]
    exact hready.launch _

/-- **Between two requests the scheduler is settled.**  The induction is on the requests that were
served. -/
theorem Reached.settled (h : Reached s live) :
    s.scheduler.Settled live ∧ s.options.assertSuccess = false := by
  induction h with
  | start fresh carryOn =>
    rw [fresh]
    exact ⟨settled_nil tracks_fresh rfl, carryOn⟩
  | elsewhere _ _ _ _ ih => exact ih
  | @compiled s s' t live text waited r id graph claims before asked prepared reads served
      waits ih =>
    obtain ⟨hs, hoptions⟩ := ih
    obtain ⟨s₁, request, haccept, hparse, hserved⟩ := serve_cases served
    rw [asked, Except.ok.injEq] at hparse
    subst hparse
    obtain ⟨answer, s₂, hcompile, hrespond⟩ := hserved
    obtain ⟨_, s₁', haccept', hprepare⟩ := prepared.bind
    obtain ⟨-, rfl⟩ := haccept.unique haccept'
    obtain ⟨hscheduler, hkeeps⟩ := yields_accept haccept
    obtain ⟨hscheduler', hkeeps'⟩ := yields_closeWith hrespond
    rw [← hscheduler] at hs
    rw [← hkeeps.options] at hoptions
    obtain ⟨waited', hwaited, hoptions', hsettled⟩ := hs.compile hoptions hprepare reads hcompile
    -- the reports that were waited for are those that are gone from the queue
    rw [hkeeps.queue, waits, hkeeps'.queue, append_cancel_right_eq] at hwaited
    rw [hscheduler', hkeeps'.options, hwaited]
    exact ⟨hsettled, by rw [hoptions', hoptions]⟩
  | @other s s' live text waited request before asked notCompile served waits ih =>
    obtain ⟨hs, hoptions⟩ := ih
    obtain ⟨s₁, request', haccept, hparse, hserved⟩ := serve_cases served
    rw [asked, Except.ok.injEq] at hparse
    subst hparse
    obtain ⟨hscheduler, hkeeps⟩ := yields_accept haccept
    have hexit := isExit_iff_of_parse asked notCompile
    rw [← hscheduler] at hs
    rw [← hkeeps.options] at hoptions
    rw [← hkeeps.queue] at waits
    rw [← singleton_append, remaining_append]
    cases request with
    | compile r => exact absurd rfl (notCompile r)
    | exit id =>
      obtain ⟨hsettled, hkeeps'⟩ := hs.report (hexit.2 ⟨id, rfl⟩) hserved
      obtain rfl : waited = [] := by simpa [hkeeps'.queue] using waits
      rw [remaining_nil]
      exact ⟨hsettled, by rw [hkeeps'.options, hoptions]⟩
    | done =>
      obtain ⟨s₂, s₃, hwait, hrespond, rfl⟩ := hserved
      obtain ⟨waited', hwaited, hleft, hoptions', hempty, hexclusive⟩ :=
        waitOn_empties (waitForAll_cases hwait) rfl hs.tracks
      obtain ⟨hscheduler', hkeeps'⟩ := yields_closeWith hrespond
      rw [waits, hkeeps'.queue, append_cancel_right_eq] at hwaited
      rw [remaining_of_not_isExit (by simp [hexit]), hwaited, hleft]
      refine ⟨settled_nil ?_ ?_, by rw [hkeeps'.options, hoptions', hoptions]⟩
      · rw [hscheduler']
        exact ⟨hempty.running, hempty.nodup, hempty.id_le, hempty.registered, hempty.active,
          hempty.claimed⟩
      · rw [hscheduler']
        exact hexclusive
    | hello =>
      obtain ⟨hscheduler', hkeeps'⟩ := yields_closeWith hserved
      obtain rfl : waited = [] := by simpa [hkeeps'.queue] using waits
      rw [remaining_of_not_isExit (by simp [hexit]), remaining_nil, hscheduler', hkeeps'.options]
      exact ⟨hs, hoptions⟩

/-- **No two processes that run together disturb each other.**  The scheduler counts the running
processes and knows what they read and write together.  None of them writes what another reads or
writes, and a process whose region was not compiled runs alone.  So when a process must be waited
for alone, it is the only one. -/
theorem reached_conflict_free (h : Reached s live) :
    s.scheduler.running = live.length ∧ (live.map Live.id).Nodup ∧
    (∀ x, x ∈ s.scheduler.claimed.inputs ↔ ∃ p ∈ live, x ∈ p.inputs) ∧
    (∀ x, x ∈ s.scheduler.claimed.outputs ↔ ∃ p ∈ live, x ∈ p.outputs) ∧
    (∀ p ∈ live, ∀ q ∈ live, p.id ≠ q.id → ∀ x ∈ p.outputs, x ∉ q.inputs ∧ x ∉ q.outputs) ∧
    (∀ p ∈ live, p.claims = none → live = [p]) ∧
    (∀ r id graph t, Yields (do accept; prepare r) s (id, graph) t → t.scheduler.exclusive = true →
      t.scheduler.running = 1) := by
  obtain ⟨hs, -⟩ := h.settled
  have hg := hs.tracks.gathers
  have hnodup := hs.tracks.nodup
  rw [List.append_nil] at hnodup
  refine ⟨hs.tracks.running, hnodup, hg.inputs, hg.outputs, hs.apart, hs.alone, ?_⟩
  intro r id graph t hprepared hexclusive
  obtain ⟨_, t', haccept, hprepare⟩ := yields_bind.1 hprepared
  obtain ⟨haccepted, -⟩ := yields_accept haccept
  obtain ⟨_, _, -, hscheduler, -⟩ := prepare_cases hprepare
  have hrunning : t.scheduler.running = s.scheduler.running := by rw [hscheduler, haccepted]
  have hsame : t.scheduler.exclusive = s.scheduler.exclusive := by rw [hscheduler, haccepted]
  obtain ⟨p, hp, hnone⟩ := hs.exclusive.1 (hsame.symm.trans hexclusive)
  rw [hrunning, hs.tracks.running, hs.alone p hp hnone]
  rfl

/-- The server behind a request. -/
def Server.after (s : Server) (text : String) : Server := ((serve text).outcome s).2

/-- What a request to compile adds can be read off what preparing it and serving it come to. -/
theorem Reached.compiled_of_outcome (h : Reached s live) (text : String) (waited : List String)
    (r : CompileRequest) (id : Int) (new : Claims) (asked : Request.parse text = .ok (.compile r))
    (prepared : (Serve.outcome (do accept; prepare r) s).1.toOption.any fun x =>
      x.1 == id && x.2.any fun g => decide ((Claims.ofGraph g).toOption = some new))
    (served : ((serve text).outcome s).1.isOk) (waits : s.queue = waited ++ (s.after text).queue) :
    Yields (serve text) s () (s.after text) ∧
      Reached (s.after text) (remaining waited live ++ [⟨id, some new⟩]) := by
  have hserved : Yields (serve text) s () (s.after text) := by
    cases hx : ((serve text).outcome s).1 with
    | error => cases hx ▸ served
    | ok => exact Prod.ext hx rfl
  obtain ⟨⟨id', graph⟩, t, hprepared, htest⟩ : ∃ x t, Yields (do accept; prepare r) s x t ∧
      (x.1 == id && x.2.any fun g => decide ((Claims.ofGraph g).toOption = some new)) := by
    rcases hx : Serve.outcome (do accept; prepare r) s with ⟨x | x, t⟩
    · cases hx ▸ prepared
    · exact ⟨x, t, hx, by simpa [hx, Except.toOption] using prepared⟩
  rw [Bool.and_eq_true, beq_iff_eq, Option.any_eq_true] at htest
  obtain ⟨rfl, g, rfl, hclaims⟩ := htest
  refine ⟨hserved, .compiled h asked hprepared ?_ hserved waits⟩
  cases hg : Claims.ofGraph g with
  | error => simp [hg, Except.toOption] at hclaims
  | ok cl =>
    obtain rfl : cl = new := by simpa [hg, Except.toOption] using hclaims
    exact bind_eq_ok.2 ⟨cl, hg, rfl⟩

/-- A command that reads one file and writes another. -/
def Tree.between (words : List String) (source target : String) : Tree :=
  .command 0 [] (words.map Word.ofString)
    [.mk .file (.text "From") (.int 0) (Word.ofString source),
      .mk .file (.text "To") (.int 1) (Word.ofString target)]

/-- Three regions: two commands read one file, and the third reads what the first writes. -/
def sharingServer : Server where
  options := { noOptimize := true }
  world :=
    { store :=
        { files := ⟨[("v", .text "declare -a pash_input_args=()"),
          ("p", .region [.between ["cat"] "a" "b"]),
            ("q", .region [.between ["sort"] "a" "c"]),
              ("r", .region [.between ["grep", "x"] "b" "d"])]⟩ } }

/-- Two processes that read one file run together.  One that reads what the first writes waits until
both have ended. -/
theorem reached_conflict_free_sharing :
    ∃ s s', Reached s [⟨1, some ⟨[.resource "a"], [.resource "b"]⟩⟩,
      ⟨2, some ⟨[.resource "a"], [.resource "c"]⟩⟩] ∧
      s.scheduler.running = 2 ∧ (∀ x, x ∈ s.scheduler.claimed.inputs ↔ x = .resource "a") ∧
      (∀ x, x ∈ s.scheduler.claimed.outputs ↔ x = .resource "b" ∨ x = .resource "c") ∧
      Yields (serve "Compile:u|v:v|r:r\n") { s with queue := ["Exit:2\n", "Exit:1\n"] } () s' ∧
      s'.queue = [] ∧ Reached s' [⟨3, some ⟨[.resource "b"], [.resource "d"]⟩⟩] ∧
        s'.scheduler.running = 1 ∧
      (∀ x, x ∈ s'.scheduler.claimed.outputs ↔ x = .resource "d") := by
  have hstart : Reached sharingServer [] := .start rfl rfl
  obtain ⟨-, hone⟩ := hstart.compiled_of_outcome "Compile:s|v:v|r:p\n" [] ⟨"s", "v", "p"⟩ 1
    ⟨[.resource "a"], [.resource "b"]⟩ (by decide +kernel) (by decide +kernel) (by decide +kernel)
      (by decide +kernel)
  obtain ⟨-, htwo⟩ := hone.compiled_of_outcome "Compile:t|v:v|r:q\n" [] ⟨"t", "v", "q"⟩ 2
    ⟨[.resource "a"], [.resource "c"]⟩ (by decide +kernel) (by decide +kernel) (by decide +kernel)
      (by decide +kernel)
  rw [remaining_nil, remaining_nil, nil_append, singleton_append] at htwo
  let both := (sharingServer.after "Compile:s|v:v|r:p\n").after "Compile:t|v:v|r:q\n"
  obtain ⟨hserved, hthree⟩ :=
    (htwo.elsewhere ["Exit:2\n", "Exit:1\n"] both.clock both.world).compiled_of_outcome
      "Compile:u|v:v|r:r\n"
    ["Exit:2\n", "Exit:1\n"] ⟨"u", "v", "r"⟩ 3 ⟨[.resource "b"], [.resource "d"]⟩
      (by decide +kernel) (by decide +kernel)
    (by decide +kernel) (by decide +kernel)
  -- the reports that the third request takes are those of the two that run
  have hleft : remaining ["Exit:2\n", "Exit:1\n"] [⟨1, some ⟨[.resource "a"], [.resource "b"]⟩⟩,
      ⟨2, some ⟨[.resource "a"], [.resource "c"]⟩⟩] = [] := isEmpty_iff.1 (by decide +kernel)
  rw [hleft, nil_append] at hthree
  obtain ⟨hrunning, -, hinputs, houtputs, -⟩ := reached_conflict_free htwo
  obtain ⟨hrunning', -, -, houtputs', -⟩ := reached_conflict_free hthree
  refine ⟨_, _, htwo, hrunning, fun x => (hinputs x).trans ?_, fun x => (houtputs x).trans ?_,
    hserved, ?_, hthree,
    hrunning', fun x => (houtputs' x).trans ?_⟩
  · simp [Live.inputs]
  · simp [Live.outputs]
  · exact isEmpty_iff.1 (by decide +kernel)
  · simp [Live.outputs]

/-- A file with the variables of a run, and no region. -/
def bareStore : Store := { files := ⟨[("v", .text "declare -a pash_input_args=()")]⟩ }

theorem bareStore_read : bareStore.read "v" = .ok (.text "declare -a pash_input_args=()") := by
  have hbelow : Path.below "" "v" = "v" := by decide +kernel
  have hlong : Store.isLong "v" = false := by decide +kernel
  have hdirectory : bareStore.isDirectory "v" = false := by decide +kernel
  have hfile : bareStore.isFile "v" = true := by decide +kernel
  have hcheck : Store.checkPath "v" = .ok () := by decide +kernel
  have hsplit : Text.splitAt '/' "v" = ["v"] := by decide +kernel
  have hroot : "v".startsWith "/" = false := by decide +kernel
  have hfollow : bareStore.follow "" ["v"] = .ok (.file "v" false) := by
    simp [Store.follow, hbelow, hlong, hdirectory, hfile]
  have hlocate : bareStore.locate "v" = .ok (.file "v" false) := by
    rw [Store.locate, hcheck, hsplit, hroot]
    exact hfollow
  rw [Store.read, hlocate]
  rfl

/-- A server with these files, over one open connection. -/
def bareServer (scheduler : Scheduler) (options : Options := {}) : Server :=
  { options, scheduler, world := { store := bareStore }, connections := [0], accepted := 1 }

/-- A scheduler that has compiled one region. -/
def onceAsked (width : Option Int := ({} : Options).width) : Scheduler where
  lastId := 1
  processes := ⟨[(1, { region := "v", width })]⟩
  byRegion := ⟨[("v", [1])]⟩

/-- A file that holds no region cannot be compiled. -/
theorem prepare_bareServer (o : Options := {}) :
    Yields (prepare ⟨"s", "v", "v"⟩) (bareServer {} o) (1, none)
      (bareServer (onceAsked o.width) o) := by
  have htext : bareStore.readText "v" = .ok "declare -a pash_input_args=()" := by
    rw [Store.readText, bareStore_read]
    rfl
  obtain ⟨env, henv⟩ : ∃ env, Environment.read {} "declare -a pash_input_args=()" = .ok env := by
    have hok : (Environment.read {} "declare -a pash_input_args=()").toOption.isSome := by
      decide +kernel
    cases h : Environment.read {} "declare -a pash_input_args=()" with
    | ok env => exact ⟨env, rfl⟩
    | error => simp [h, Except.toOption] at hok
  have hread : Yields (readVariables "v") { store := bareStore } env { store := bareStore } := by
    simp only [readVariables, Run.readText, yields_bind, yields_get, Run.yields_lift]
    exact ⟨_, _, ⟨_, _, ⟨rfl, rfl⟩, htext, rfl⟩, _, _, ⟨rfl, rfl⟩, henv, rfl⟩
  have hcompile : Yields (Run.attempt (compileStored o o.width "v" "s" (some env.size)))
      { store := bareStore } none { store := bareStore } := by
    have houtcome :
      (compileStored o o.width "v" "s" (some env.size)).outcome { store := bareStore } =
        (.error .malformed, { store := bareStore }) := by
      show (Run.lift (bareStore.read "v") >>= _ : Run Graph).outcome { store := bareStore } = _
      rw [bareStore_read]
      rfl
    simp only [Run.attempt, yields_bind, yields_get]
    refine ⟨_, _, ⟨rfl, rfl⟩, ?_⟩
    rw [houtcome]
    exact ⟨_, _, rfl, rfl⟩
  have hwidth : Scheduler.chooseWidth { lastId := 1 } o "v" = .ok o.width := by
    rw [chooseWidth]
    split <;> rfl
  simp only [prepare, yields_bind, yields_scheduler, yields_change, yields_get, Serve.yields_lift,
    yields_pure, yields_inWorld]
  refine ⟨_, _, ⟨rfl, rfl⟩, (), _, ⟨_, rfl, rfl⟩, _, _, ⟨_, hread, rfl⟩, _, _, ⟨rfl, rfl⟩, _, _,
    ⟨rfl, rfl⟩, _, _,
    ⟨hwidth, rfl⟩, (), _, ⟨_, rfl, rfl⟩, _, _, ⟨_, hcompile, rfl⟩, rfl, rfl⟩

end ShellFlow
