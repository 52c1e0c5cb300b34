import Mathlib.Algebra.Order.Ring.Int
import Mathlib.Tactic.Positivity
import ShellFlow.Proofs.Lists
import ShellFlow.Proofs.Scheduler.Answering

/-!
# Widths only halve

A width is chosen for a region from how long the region ran before.  It is one that was chosen for
the region already, or half of the smallest of these, so whatever was measured it comes from the
width in the options by halving.

What a process was compiled for is recorded when its width was chosen, and does not change: later
requests only add when the process started and how long it ran.
-/

namespace ShellFlow

open List Serve

variable {c : Scheduler} {id : Int} {graph : Option Graph} {o : Options} {s s' t : Server}
  {text region : String}
  {texts : List String} {u : Unit} {v w : Int} {P : String → Int → Prop}

/-- A positive width that comes from another one by halving, some times over. -/
def IsHalving (w v : Int) : Prop := 1 ≤ v ∧ ∃ k : Nat, v = w / 2 ^ k

theorem IsHalving.half (h : IsHalving w v) (hv : 1 < v) : IsHalving w (v / 2) := by
  obtain ⟨-, k, rfl⟩ := h
  refine ⟨by omega, k + 1, ?_⟩
  rw [pow_succ, Int.ediv_ediv_of_nonneg (by positivity)]

/-! ### The next width -/

/-- **The next width is one of those tried, or half of one**, or the first. -/
theorem nextWidth_halves {averages : Table Int Decimal} (hw : 1 ≤ w)
    (h : ∀ v ∈ averages.keys, IsHalving w v) : ∃ v, nextWidth averages (some w) = some v ∧
    IsHalving w v := by
  rw [nextWidth]
  cases hkeys : averages.keys with
  | nil => exact ⟨w, rfl, hw, 0, by simp⟩
  | cons a as =>
    have hleast : IsHalving w (as.foldl min a) := h _ (hkeys ▸ foldl_mem_cons min_choice a as)
    refine ⟨_, rfl, ?_⟩
    split
    · next hbest => exact hleast.half hbest.2
    · have hbest := foldl_mem_cons
        (f := fun best e : Int × Decimal => if e.2.less best.2 then e else best)
        (fun best e => (ite_eq_or_eq _ e best).symm)
          (as.foldl min a, (averages.get? (as.foldl min a)).getD default)
        averages.entries
      rcases mem_cons.1 hbest with heq | hmem
      · exact congrArg Prod.fst heq ▸ hleast
      · exact h _ (mem_map_of_mem hmem)

/-- Times are known for widths of processes that were measured. -/
theorem timesByWidth_keys {ps : List Job} (h : ∀ p ∈ ps, ∃ v, p.width = some v)
    (t : Table Int (List Duration)) : ∃ t', timesByWidth t ps = .ok t' ∧ ∀ v ∈ t'.keys, v ∈ t.keys ∨
    ∃ p ∈ ps, p.width = some v := by
  induction ps generalizing t with
  | nil => exact ⟨t, rfl, fun v hv => .inl hv⟩
  | cons p _ ih =>
    obtain ⟨⟨width, hwidth⟩, hrest⟩ := forall_mem_cons.1 h
    rw [timesByWidth, hwidth]
    cases p.time with
    | none =>
      obtain ⟨t', ht', hkeys⟩ := ih hrest t
      exact ⟨t', ht', fun v hv => (hkeys v hv).imp_right fun ⟨q, hq⟩ =>
        ⟨q, mem_cons_of_mem _ hq.1, hq.2⟩⟩
    | some d =>
      obtain ⟨t', ht', hkeys⟩ := ih hrest (t.insert width ((t.get? width).getD [] ++ [d]))
      refine ⟨t', ht', fun v hv => ?_⟩
      rcases hkeys v hv with hv | ⟨q, hq, hv⟩
      · rcases Table.mem_keys_insert.1 hv with rfl | hv
        · exact .inr ⟨p, mem_cons_self, hwidth⟩
        · exact .inl hv
      · exact .inr ⟨q, mem_cons_of_mem p hq, hv⟩

/-! ### What was recorded -/

namespace Scheduler

/-- The width of each process, and the processes of each region. -/
def plan (c : Scheduler) : (Int → Option (Option Int)) × Table String (List Int) :=
  (fun id => (c.processes.get? id).map Job.width, c.byRegion)

theorem plan_insert {p q : Job} (hp : c.processes.get? id = some p) (hq : q.width = p.width) :
    plan { c with processes := c.processes.insert id q } = c.plan := by
  refine Prod.ext (funext fun j => ?_) rfl
  show Option.map Job.width ((c.processes.insert id q).get? j) = _
  by_cases hj : j = id
  · rw [hj, Table.get?_insert_self]
    simp [plan, hp, hq]
  · rw [Table.get?_insert_of_ne _ hj]
    rfl

theorem plan_remove (c : Scheduler) (id : Int) : (c.remove id).plan = c.plan := by
  rw [Scheduler.remove]
  split <;> rfl

/-- The processes of a region have widths with a property that may depend on the region. -/
def Planned (P : String → Int → Prop) (c : Scheduler) : Prop :=
  ∀ region, ∀ id ∈ (c.plan.2.get? region).getD [], ∃ v, c.plan.1 id = some (some v) ∧ P region v

theorem Planned.averages (h : c.Planned P) (region : String) :
    ∃ averages, c.averages region = .ok averages ∧ ∀ v ∈ averages.keys, P region v := by
  have hplanned : ∀ p ∈ ((c.byRegion.get? region).getD []).filterMap c.processes.get?,
      ∃ v, p.width = some v ∧ P region v := by
    intro p hp
    obtain ⟨id, hid, hget⟩ := mem_filterMap.1 hp
    obtain ⟨v, hv, hP⟩ := h region id hid
    exact ⟨v, by simpa [plan, hget] using hv, hP⟩
  obtain ⟨times, htimes, hkeys⟩ :=
    timesByWidth_keys (fun p hp => (hplanned p hp).imp fun _ => And.left) .empty
  refine ⟨_, by rw [Scheduler.averages, htimes]; rfl, fun v hv => ?_⟩
  have hv : v ∈ times.keys := by simpa [Table.keys, Function.comp_def] using hv
  obtain ⟨p, hp, hwidth⟩ := (hkeys v hv).resolve_left (by simp [Table.keys, Table.empty])
  obtain ⟨v', hv', hP⟩ := hplanned p hp
  obtain rfl : v = v' := by simpa [hwidth] using hv'
  exact hP

/-- **The chosen width comes from the width in the options by halving.** -/
theorem Planned.chooseWidth (h : c.Planned P) (hP : ∀ region v, P region v → IsHalving w v)
    (hw : 1 ≤ w) (hprofile : o.profileDriven) (hwidth : o.width = some w) (region : String) :
    ∃ v, c.chooseWidth o region = .ok (some v) ∧ IsHalving w v := by
  obtain ⟨averages, haverages, hkeys⟩ := h.averages region
  obtain ⟨v, hv, hhalving⟩ := nextWidth_halves hw fun v hv => hP region v (hkeys v hv)
  refine ⟨v, ?_, hhalving⟩
  rw [Scheduler.chooseWidth, if_pos hprofile, haverages, hwidth, ← hv]
  rfl

theorem Planned.record (h : c.Planned P) (hnew : c.processes.get? id = none) (hv : P region v) :
    Planned P { c with
      processes := c.processes.insert id { region, width := some v }
      byRegion := c.byRegion.insert region ((c.byRegion.get? region).getD [] ++ [id]) } := by
  have hold : ∀ r, ∀ j ∈ (c.byRegion.get? r).getD [],
      ∃ v', ((c.processes.insert id { region, width := some v }).get? j).map Job.width =
        some (some v') ∧ P r v' := by
    intro r j hj
    obtain ⟨v', hv', hP⟩ := h r j hj
    refine ⟨v', ?_, hP⟩
    rw [Table.get?_insert_of_ne _ (by rintro rfl; simp [plan, hnew] at hv')]
    exact hv'
  intro r j hj
  simp only [plan, Table.get?_insert] at hj
  split at hj
  · next hr =>
    subst hr
    rcases mem_append.1 hj with hj | hj
    · exact hold _ j hj
    · obtain rfl := mem_singleton.1 hj
      exact ⟨v, by simp [plan], hv⟩
  · exact hold r j hj

end Scheduler

open Scheduler

/-- What the choice of widths depends on. -/
def Server.outlook (s : Server) := (s.scheduler.plan, s.options)

theorem handleExit_outlook (h : Yields (handleExit text) s u s') : s'.outlook = s.outlook := by
  obtain ⟨id, p, _, time, -, hp, -, -, hscheduler, hkeeps⟩ := handleExit_cases h
  rw [Server.outlook, hscheduler, hkeeps.options, plan_remove]
  exact congrArg (·, s.options) (plan_insert hp rfl)

/-- A wait changes nothing of it.  The induction is on the requests to come. -/
theorem waitOn_outlook {queue : List String} (h : Yields (waitOn queue) s u s') :
    s'.outlook = s.outlook := by
  induction queue generalizing s with
  | nil =>
    obtain ⟨-, rfl⟩ := waitOn_nil_cases h
    rfl
  | cons _ _ ih =>
    rcases waitOn_cons_cases h with ⟨-, rfl⟩ | ⟨-, -, t, t', hscheduler, hoptions, -,
      hreport, hwait⟩
    · rfl
    · rw [ih hwait, handleExit_outlook hreport, Server.outlook, hscheduler, hoptions]
      rfl

theorem makeRoom_outlook (h : Yields (makeRoom id graph) s u s') : s'.outlook = s.outlook := by
  obtain ⟨t, hexclusive, hrest⟩ := makeRoom_cases h
  have ht : t.outlook = s.outlook := by
    rcases waitExclusive_cases hexclusive with ⟨-, rfl⟩ | ⟨-, hwait⟩
    · rfl
    · exact waitOn_outlook (waitForAll_cases hwait)
  rw [← ht]
  rcases hrest with ⟨-, hwait⟩ | ⟨g, safe, t', -, hclaim, hend⟩
  · exact waitOn_outlook (waitForAll_cases hwait)
  · obtain ⟨cl, -, -, hscheduler, hkeeps⟩ := claimGraph_cases hclaim
    have ht' : t'.outlook = t.outlook := by
      rw [Server.outlook, hscheduler, hkeeps.options]
      rfl
    rcases hend with ⟨-, rfl⟩ | ⟨-, hwait⟩
    · exact ht'
    · rw [waitOn_outlook (waitForAll_cases hwait), ht']

theorem launch_outlook {compiled : Bool} (h : Yields (launch id compiled) s u s') :
    s'.outlook = s.outlook := by
  obtain ⟨p, hp, hscheduler, hkeeps⟩ := launch_cases h
  rw [Server.outlook, hscheduler, hkeeps.options]
  exact congrArg (·, s.options) (plan_insert hp rfl)

/-- **A request changes nothing of it**, but that one to compile records a process with the width
that was chosen. -/
theorem serve_outlook (h : Yields (serve text) s u s') : s'.outlook = s.outlook ∨
    ∃ r width id, Request.parse text = .ok (.compile r) ∧
      s.scheduler.chooseWidth s.options r.region = .ok width ∧
      s.scheduler.processes.get? id = none ∧ s'.outlook = (plan { s.scheduler with
        processes := s.scheduler.processes.insert id { region := r.region, width }
        byRegion := s.scheduler.byRegion.insert r.region
          ((s.scheduler.byRegion.get? r.region).getD [] ++ [id]) },
        s.options) := by
  obtain ⟨t, request, haccept, hparse, hserved⟩ := serve_cases h
  obtain rfl : s.accepting = t := yields_modify.1 haccept
  cases request with
  | compile r =>
    obtain ⟨answer, t, hcompile, hrespond⟩ := hserved
    obtain ⟨id, graph, t₁, t₂, hprepare, hroom, hlaunch⟩ := compileRequest_cases hcompile
    obtain ⟨width, hwidth, ⟨-, hnew⟩, hscheduler, hkeeps⟩ := prepare_cases hprepare
    obtain ⟨hresponded, hkeeps'⟩ := yields_closeWith hrespond
    refine .inr ⟨r, width, id, hparse, hwidth, hnew, ?_⟩
    rw [Server.outlook, hresponded, hkeeps'.options]
    refine (launch_outlook hlaunch).trans ((makeRoom_outlook hroom).trans ?_)
    rw [Server.outlook, hscheduler, hkeeps.options]
    rfl
  | exit =>
    have hreported := handleExit_outlook hserved
    exact .inl hreported
  | done =>
    obtain ⟨t, t', hwait, hrespond, rfl⟩ := hserved
    obtain ⟨hresponded, hkeeps⟩ := yields_closeWith hrespond
    have hwaited := waitOn_outlook (waitForAll_cases hwait)
    rw [Server.outlook, ← hresponded, ← hkeeps.options] at hwaited
    exact .inl hwaited
  | hello =>
    obtain ⟨hclosed, hkeeps⟩ := yields_closeWith hserved
    rw [Server.outlook, hclosed, hkeeps.options]
    exact .inl rfl

/-! ### Runs -/

/-- A width that was chosen for a region when one of the requests was served. -/
def Chosen (start : Server) (texts : List String) (t : Server) (region : String) (v : Int) : Prop :=
  ∃ earlier text later asked script declarations, texts = earlier ++ text :: later ∧
    Attends start earlier asked ∧
    Attends asked (text :: later) t ∧
      Request.parse text = .ok (.compile ⟨script, declarations, region⟩) ∧
    asked.scheduler.chooseWidth asked.options region = .ok (some v)

variable {start : Server}

theorem Chosen.trans {more : List String} (h : Chosen start texts s region v)
    (h' : Attends s more t) : Chosen start (texts ++ more) t region v := by
  obtain ⟨earlier, text, later, asked, script, declarations, rfl, hbefore, hafter, hchosen⟩ := h
  exact ⟨earlier, text, later ++ more, asked, script,
    declarations, by simp, hbefore, hafter.trans h', hchosen⟩

theorem Scheduler.Planned.mono {Q : String → Int → Prop} (h : c.Planned P)
    (hPQ : ∀ region v, P region v → Q region v) {c' : Scheduler} (hplan : c'.plan = c.plan) :
    c'.Planned Q := by
  rw [Planned, hplan]
  intro region id hid
  obtain ⟨v, hv, hP⟩ := h region id hid
  exact ⟨v, hv, hPQ region v hP⟩

/-- **All that was recorded was chosen, and came from halving.**  The induction is on the requests
that were served. -/
theorem Attends.planned (h : Attends start texts t) (hfresh : start.scheduler = {}) (hw : 1 ≤ w)
    (hprofile : start.options.profileDriven) (hwidth : start.options.width = some w) :
    t.options = start.options ∧
      t.scheduler.Planned fun region v => Chosen start texts t region v ∧ IsHalving w v := by
  induction h with
  | start =>
    refine ⟨rfl, ?_⟩
    rw [hfresh]
    intro region id hid
    cases hid
  | @elsewhere texts t queue clock world before ih =>
    refine ⟨ih.1, ih.2.mono (fun region v hv => ⟨?_, hv.2⟩) rfl⟩
    exact append_nil texts ▸ hv.1.trans (.elsewhere queue clock world .start)
  | @served texts waited text t t' before serves waits ih =>
    obtain ⟨hoptions, hplanned⟩ := ih
    have hserved : Attends t (text :: waited) t' := .served .start serves waits
    have hlater : t.scheduler.Planned fun region v =>
        Chosen start (texts ++ text :: waited) t' region v ∧ IsHalving w v :=
      hplanned.mono (fun region v hv => ⟨hv.1.trans hserved, hv.2⟩) rfl
    rcases serve_outlook serves with houtlook | ⟨r, width, id, hparse, hchosen, hnew, houtlook⟩
    · obtain ⟨hplan, hkept⟩ := Prod.mk.inj houtlook
      exact ⟨hkept.trans hoptions, hlater.mono (fun _ _ h => h) hplan⟩
    · obtain ⟨hplan, hkept⟩ := Prod.mk.inj houtlook
      obtain ⟨v, hv, hhalving⟩ := hplanned.chooseWidth (fun _ _ => And.right) hw
        (hoptions ▸ hprofile) (hoptions ▸ hwidth) r.region
      obtain rfl : some v = width := Except.ok.inj (hv.symm.trans hchosen)
      have hnow : Chosen start (texts ++ text :: waited) t' r.region v :=
        ⟨texts, text, waited, t, r.script, r.declarations, rfl, before, hserved, hparse, hchosen⟩
      exact ⟨hkept.trans hoptions,
        (hlater.record hnew ⟨hnow, hhalving⟩).mono (fun _ _ h => h) hplan⟩

/-- **Widths only halve.**  Whatever was measured along a run, the width that is chosen next for a
region is at least one and comes from the width in the options by halving, and every width with a
mean time was chosen for the region when an earlier request was served. -/
theorem attends_widths_halve (hfresh : start.scheduler = {})
    (hprofile : start.options.profileDriven = true)
    (hwidth : start.options.width = some w) (hw : 1 ≤ w) (h : Attends start texts t)
    (region : String) :
    (∃ v, t.scheduler.chooseWidth t.options region = .ok (some v) ∧ 1 ≤ v ∧
      ∃ k : Nat, v = w / 2 ^ k) ∧
    ∃ averages, t.scheduler.averages region = .ok averages ∧
    ∀ v ∈ averages.keys, Chosen start texts t region v := by
  obtain ⟨hoptions, hplanned⟩ := h.planned hfresh hw hprofile hwidth
  constructor
  · exact hplanned.chooseWidth (fun _ _ => And.right) hw (hoptions ▸ hprofile)
      (hoptions ▸ hwidth) region
  · obtain ⟨averages, haverages, hkeys⟩ := hplanned.averages region
    exact ⟨averages, haverages, fun v hv => (hkeys v hv).1⟩

/-- A region has run at the width in the options, and half of it is tried next. -/
theorem attends_widths_halve_once :
    ∃ o t, Attends { options := o, world := { store := bareStore } } ["Compile:s|v:v|r:v\n",
      "Exit:1\n"] t ∧ o.profileDriven = true ∧ o.width = some 2 ∧
        t.scheduler.chooseWidth t.options "v" = .ok (some 1) ∧
      Chosen { options := o, world := { store := bareStore } } ["Compile:s|v:v|r:v\n", "Exit:1\n"] t
        "v" 2 := by
  let o : Options := { profileDriven := true, width := some 2 }
  let start : Server := { options := o, world := { store := bareStore } }
  let ended : Server :=
    { startedServer false [] o with
      accepted := 2
      events := [.responded 0 (failureText "1 failed to compile"), .closed 1] }
  have hparse : Request.parse "Exit:1\n" = .ok (.exit 1) := by decide +kernel
  have hid : Request.parseExit "Exit:1\n" = .ok 1 := by decide +kernel
  have hexit : Yields (serve "Exit:1\n") (startedServer true [] o) () ended :=
    yields_bind.2 ⟨(), _, rfl, yields_bind.2 ⟨_, _, Serve.yields_lift.2 ⟨hparse, rfl⟩,
      yields_bind.2 ⟨1, _, Serve.yields_lift.2 ⟨hid, rfl⟩, rfl⟩⟩⟩
  have hasked : Attends start ([] ++ "Compile:s|v:v|r:v\n" :: []) (startedServer true [] o) :=
    .served .start serve_compile_bare rfl
  have hended : Attends start ["Compile:s|v:v|r:v\n", "Exit:1\n"] ended := .served hasked hexit rfl
  obtain ⟨-, _, haverages, hchosen⟩ := attends_widths_halve rfl rfl rfl (by decide) hended "v"
  cases haverages
  exact ⟨o, ended, hended, rfl, rfl, by decide +kernel, hchosen 2 (by decide)⟩

end ShellFlow
