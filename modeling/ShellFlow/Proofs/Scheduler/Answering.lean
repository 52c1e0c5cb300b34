import ShellFlow.Proofs.Scheduler.Running

/-!
# Answers go to those who asked

Every request comes over a connection of its own, which is put on a stack, and answers and closings
go to the connection on top.  While a request waits, reports are taken over further connections, and
each is closed before the next is accepted; so the connection of the request that waits is on top
again when it is answered.
-/

namespace ShellFlow

open List Serve

variable {c count n : Nat} {e : Fault} {event : Event} {r : Except Fault Unit} {request : Request}
  {rest : List Nat}
  {text : String} {α β : Type} {s s' t : Server} {x : Serve α} {f : α → Serve β} (id : Int)

/-- What a server has to do with connections. -/
structure Traffic where
  queue : List String
  connections : List Nat
  accepted : Nat
  events : List Event

def Server.traffic (s : Server) : Traffic := ⟨s.queue, s.connections, s.accepted, s.events⟩

/-- The next connection is accepted. -/
def Server.accepting (s : Server) : Server :=
  { s with connections := s.accepted :: s.connections, accepted := s.accepted + 1 }

def Event.connection : Event → Nat
  | responded c _ => c
  | closed c => c

/-- So many connections are closed one after the other, from the one with a number on. -/
def closings (first count : Nat) : List Event := (List.range count).map fun i => .closed (first + i)

theorem closings_add (first m n : Nat) :
    closings first (m + n) = closings first m ++ closings (first + m) n := by
  simp [closings, range_add, Function.comp_def, Nat.add_assoc]

theorem map_connection_closings (first count : Nat) :
    (closings first count).map Event.connection = (List.range count).map (first + ·) := by
  rw [closings, map_map]
  rfl

/-- A connection that is closed behind the ones that were accepted after it. -/
theorem perm_range_closings {events : List Event}
    (h : (events.map Event.connection).Perm (List.range n)) (count : Nat) :
    ((events ++ closings (n + 1) count).map Event.connection ++ [n]).Perm
    (List.range (n + 1 + count)) := by
  rw [map_append, map_connection_closings, List.append_assoc, range_add, range_succ,
    List.append_assoc]
  exact h.append perm_append_comm

namespace Traffic

variable (a : Traffic)

/-- So many reports are taken from the queue, and the connection of each is closed. -/
def reported (count : Nat) : Traffic :=
  { a with
    queue := a.queue.drop count
    accepted := a.accepted + count
    events := a.events ++ closings a.accepted count }

def opened : Traffic :=
  { a with connections := a.accepted :: a.connections, accepted := a.accepted + 1 }

/-- A request is taken from the queue, and its connection is accepted. -/
def taken : Traffic := { a.opened with queue := a.queue.drop 1 }

theorem reported_zero : a.reported 0 = a := by
  simp [reported, closings]

theorem reported_reported (m n : Nat) : (a.reported m).reported n = a.reported (m + n) := by
  simp [reported, closings_add, Nat.add_assoc, drop_drop]

end Traffic

/-! ### Outcomes -/

/-- **A computation goes step by step**, until a step fails. -/
theorem outcome_bind_cases {r : Except Fault β} (h : (x >>= f).outcome s = (r, s')) :
    (∃ a t, Yields x s a t ∧ (f a).outcome t = (r, s')) ∨ ∃ e, x.outcome s = (.error e, s') ∧
    r = .error e := by
  have hrun : (x >>= f).outcome s =
    Id.run (StateT.run (ExceptT.bindCont f (x.outcome s).1) (x.outcome s).2) := rfl
  rw [hrun] at h
  rcases hx : x.outcome s with ⟨r', t⟩
  rw [hx] at h
  cases r' with
  | error e =>
    cases h
    exact .inr ⟨e, rfl, rfl⟩
  | ok a => exact .inl ⟨a, t, hx, h⟩

theorem outcome_get_bind (f : Server → Serve β) (s : Server) :
    (get >>= f).outcome s = (f s).outcome s := rfl

theorem outcome_modify_bind (g : Server → Server) (f : PUnit → Serve β) (s : Server) :
    (modify g >>= f).outcome s = (f ⟨⟩).outcome (g s) :=
  rfl

theorem outcome_accept_bind (f : Unit → Serve β) (s : Server) :
    (accept >>= f).outcome s = (f ()).outcome s.accepting :=
  rfl

theorem outcome_scheduler_bind (f : Scheduler → Serve β) (s : Server) :
    (scheduler >>= f).outcome s = (f s.scheduler).outcome s :=
  rfl

/-- A computation leaves the connections alone, whether it gives a result or not. -/
def Still (x : Serve α) : Prop := ∀ s r s', x.outcome s = (r, s') → s'.traffic = s.traffic

theorem still_pure (a : α) : Still (pure a : Serve α) := by
  rintro s r s' ⟨⟩
  rfl

theorem still_throw (e : Fault) : Still (throw e : Serve α) := by
  rintro s r s' ⟨⟩
  rfl

theorem still_get : Still (get : Serve Server) := by
  rintro s r s' ⟨⟩
  rfl

theorem still_lift (x : Except Fault α) : Still (lift x) := by
  cases x with
  | error e => exact still_throw e
  | ok a => exact still_pure a

theorem Still.bind (hx : Still x) (hf : ∀ a, Still (f a)) : Still (x >>= f) := by
  intro s r s' h
  rcases outcome_bind_cases h with ⟨a, t, hyields, hrest⟩ | ⟨e, hfails, -⟩
  · exact (hf a t r s' hrest).trans (hx s _ t hyields)
  · exact hx s _ s' hfails

theorem still_scheduler : Still scheduler := still_get.bind fun _ => still_pure _

theorem still_change (f : Scheduler → Except Fault Scheduler) : Still (change f) := by
  intro s r s' h
  rw [change, outcome_get_bind] at h
  rcases outcome_bind_cases h with ⟨c, t, hlift, hset⟩ | ⟨e, hfails, -⟩
  · obtain ⟨-, rfl⟩ := Serve.yields_lift.1 hlift
    cases hset
    rfl
  · exact still_lift _ s _ s' hfails

theorem still_inWorld (x : Run α) : Still (inWorld x) := by
  intro s r s' h
  rw [inWorld, outcome_get_bind] at h
  rcases outcome_bind_cases h with ⟨_, t, hset, hlift⟩ | ⟨e, hfails, -⟩
  · obtain rfl := yields_set.1 hset
    have hstill := still_lift _ _ _ _ hlift
    exact hstill
  · cases hfails

theorem still_claimGraph (g : Graph) : Still (claimGraph id g) := by
  refine (still_lift _).bind fun claims => (still_change _).bind fun _ =>
    still_scheduler.bind fun c =>
    (still_lift _).bind fun safe => ?_
  cases safe with
  | true => exact (still_change _).bind fun _ => still_pure _
  | false => exact still_pure _

theorem still_prepare (r : CompileRequest) : Still (prepare r) := by
  refine still_scheduler.bind fun c => (still_change _).bind fun _ =>
    (still_inWorld _).bind fun declared =>
    still_get.bind fun s => still_scheduler.bind fun c' => (still_lift _).bind fun width =>
    (still_change _).bind fun _ => (still_inWorld _).bind fun graph => still_pure _

/-! ### Computations that wait -/

/-- A computation takes some reports from the queue and closes their connections, and does no more
with connections.  If it fails, it may be at a request that was just taken. -/
def Waits (x : Serve α) : Prop :=
  ∀ s r s', x.outcome s = (r, s') → ∃ count, count ≤ s.queue.length ∧
    (∀ text ∈ s.queue.take count, Request.isExit text) ∧
    (s'.traffic = s.traffic.reported count ∨ (∃ e, r = .error e) ∧
      s'.traffic = (s.traffic.reported count).taken)

theorem Still.waits (h : Still x) : Waits x := by
  intro s r s' hx
  refine ⟨0, Nat.zero_le _, by simp, .inl ?_⟩
  rw [Traffic.reported_zero]
  exact h s r s' hx

theorem Waits.yields (h : Waits x) {a : α} (hx : Yields x s a s') :
    ∃ count, count ≤ s.queue.length ∧ (∀ text ∈ s.queue.take count, Request.isExit text) ∧
      s'.traffic = s.traffic.reported count := by
  obtain ⟨count, hle, hexits, heq | ⟨⟨e, he⟩, -⟩⟩ := h s _ s' hx
  · exact ⟨count, hle, hexits, heq⟩
  · cases he

theorem Waits.fails (h : Waits x) (hx : x.outcome s = (.error e, s')) :
    ∃ count, s'.traffic = s.traffic.reported count ∨
    s'.traffic = (s.traffic.reported count).taken := by
  obtain ⟨count, -, -, htraffic⟩ := h s _ s' hx
  exact ⟨count, htraffic.imp id And.right⟩

/-- The reports of two computations are taken one after the other. -/
theorem Waits.bind (hx : Waits x) (hf : ∀ a, Waits (f a)) : Waits (x >>= f) := by
  intro s r s' h
  rcases outcome_bind_cases h with ⟨a, t, hyields, hrest⟩ | ⟨e, hfails, rfl⟩
  · obtain ⟨m, hm, hexits, ht⟩ := hx.yields hyields
    obtain ⟨n, hn, hmore, htraffic⟩ := hf a t r s' hrest
    have hqueue : t.queue = s.queue.drop m := congrArg Traffic.queue ht
    rw [hqueue] at hn hmore
    rw [length_drop] at hn
    rw [ht, Traffic.reported_reported] at htraffic
    refine ⟨m + n, by omega, ?_, htraffic⟩
    intro text htext
    rw [take_add, mem_append] at htext
    rcases htext with htext | htext
    · exact hexits text htext
    · exact hmore text htext
  · obtain ⟨count, hle, hexits, htraffic⟩ := hx s _ s' hfails
    exact ⟨count, hle, hexits, htraffic.imp id fun h => ⟨⟨e, rfl⟩, h.2⟩⟩

theorem closeWith_traffic (event : Nat → Event) (hopen : s.traffic.connections = c :: rest)
    (h : (closeWith event).outcome s = (r, s')) :
    r = .ok () ∧
      s'.traffic =
        { s.traffic with connections := rest, events := s.traffic.events ++ [event c] } := by
  cases s
  subst hopen
  cases h
  exact ⟨rfl, rfl⟩

/-- A report closes its connection, or fails and leaves all connections as they were. -/
theorem handleExit_traffic (hopen : s.traffic.connections = c :: rest)
    (h : (handleExit text).outcome s = (r, s')) :
    (r = .ok () ∧ s'.traffic =
      { s.traffic with connections := rest, events := s.traffic.events ++ [.closed c] }) ∨
    ((∃ e, r = .error e) ∧ s'.traffic = s.traffic) := by
  unfold handleExit at h
  rcases outcome_bind_cases h with ⟨id, t, hparse, h⟩ | ⟨e, hfails, rfl⟩
  · obtain ⟨-, rfl⟩ := Serve.yields_lift.1 hparse
    rw [outcome_get_bind] at h
    rcases outcome_bind_cases h with ⟨p, t, hprocess, h⟩ | ⟨e, hfails, rfl⟩
    · obtain ⟨-, rfl⟩ := Serve.yields_lift.1 hprocess
      cases hstart : p.started with
      | none =>
        rw [hstart] at h
        cases h
        exact .inr ⟨⟨_, rfl⟩, rfl⟩
      | some =>
        rw [hstart] at h
        rcases outcome_bind_cases h with ⟨_, t, hchange, h⟩ | ⟨e, hfails, rfl⟩
        · have ht := still_change _ s _ t hchange
          rw [← ht] at hopen ⊢
          exact .inl (closeWith_traffic .closed hopen h)
        · exact .inr ⟨⟨e, rfl⟩, still_change _ s _ s' hfails⟩
    · exact .inr ⟨⟨e, rfl⟩, still_lift _ s _ s' hfails⟩
  · exact .inr ⟨⟨e, rfl⟩, still_lift _ s _ s' hfails⟩

/-- **A wait takes reports from the front of the queue.**  The induction is on the queue. -/
theorem waitOn_traffic {texts : List String} (hqueue : s.queue = texts)
    (h : (waitOn texts).outcome s = (r, s')) :
      ∃ count, count ≤ texts.length ∧ (∀ text ∈ texts.take count, Request.isExit text) ∧
      (s'.traffic = s.traffic.reported count ∨
        (∃ e, r = .error e) ∧ s'.traffic = (s.traffic.reported count).taken) := by
  induction texts generalizing s r s' with
  | nil =>
    have hstill : Still (waitOn []) := by
      rw [waitOn]
      refine still_scheduler.bind fun c => ?_
      dsimp only
      split
      · exact (still_throw _).bind fun _ => still_change _
      · exact still_change _
    rw [← hqueue]
    exact hstill.waits s r s' h
  | cons _ rest ih =>
    rw [waitOn, outcome_scheduler_bind] at h
    split at h
    · rw [outcome_modify_bind, outcome_accept_bind] at h
      -- the request is taken from the queue, and its connection is on top of the stack
      generalize htaken : Server.accepting { s with queue := rest } = t at h
      have ht : t.traffic = s.traffic.taken := by
        rw [← htaken, Traffic.taken, Traffic.opened, Server.traffic, Server.traffic, hqueue]
        rfl
      have hfirst : t.traffic = (s.traffic.reported 0).taken := by rw [Traffic.reported_zero, ht]
      dsimp only at h
      split at h
      · next hexit =>
        rcases outcome_bind_cases h with ⟨_, u, hreport, h⟩ | ⟨e, hfails, rfl⟩
        · rcases handleExit_traffic (congrArg Traffic.connections ht) hreport with
            ⟨-, hu⟩ | ⟨⟨e, he⟩, -⟩
          · have hone : u.traffic = s.traffic.reported 1 := by
              rw [hu, ht]
              rfl
            have hrest : u.queue = rest := by
              have := congrArg Traffic.queue hone
              simpa [Traffic.reported, Server.traffic, hqueue] using this
            obtain ⟨count, hle, hexits, htraffic⟩ := ih hrest h
            rw [hone, Traffic.reported_reported, Nat.add_comm 1] at htraffic
            refine ⟨count + 1, Nat.succ_le_succ hle, ?_, htraffic⟩
            rw [take_succ_cons]
            exact forall_mem_cons.2 ⟨hexit, hexits⟩
          · cases he
        · rcases handleExit_traffic (congrArg Traffic.connections ht) hfails with ⟨he, -⟩ | ⟨-, hu⟩
          · cases he
          · exact ⟨0, Nat.zero_le _, by simp, .inr ⟨⟨e, rfl⟩, hu.trans hfirst⟩⟩
      · rcases outcome_bind_cases h with ⟨_, u, hthrow, -⟩ | ⟨e, hfails, rfl⟩
        · exact absurd hthrow yields_throw.1
        · have hu := still_throw _ t _ s' hfails
          exact ⟨0, Nat.zero_le _, by simp, .inr ⟨⟨e, rfl⟩, hu.trans hfirst⟩⟩
    · refine ⟨0, Nat.zero_le _, by simp, .inl ?_⟩
      rw [Traffic.reported_zero]
      exact still_change _ s r s' h

theorem waits_waitForAll : Waits waitForAll := by
  intro s r s' h
  rw [waitForAll, outcome_get_bind] at h
  exact waitOn_traffic rfl h

theorem waits_waitExclusive : Waits waitExclusive := by
  refine still_scheduler.waits.bind fun c => ?_
  split
  · exact (still_lift _).waits.bind fun _ => waits_waitForAll
  · exact (still_pure _).waits

theorem waits_makeRoom (graph : Option Graph) : Waits (makeRoom id graph) := by
  refine waits_waitExclusive.bind fun _ => ?_
  cases graph with
  | none => exact waits_waitForAll
  | some g =>
    refine still_get.waits.bind fun s => (still_lift _).waits.bind fun _ =>
      (still_claimGraph id g).waits.bind fun together => ?_
    cases together with
    | true => exact (still_pure _).waits
    | false => exact waits_waitForAll

/-- **A request to compile waits**, and does no more with connections. -/
theorem waits_compileRequest (r : CompileRequest) : Waits (compileRequest r) := by
  refine (still_prepare r).waits.bind fun prepared => (waits_makeRoom _ _).bind fun _ =>
    (still_get.bind fun _ => still_change _).waits.bind fun _ => ?_
  split
  · exact (still_pure _).waits
  · exact (still_pure _).waits

/-! ### Requests -/

/-- A report is read as one. -/
theorem Request.exit_of_isExit (hexit : Request.isExit text)
    (h : Request.parse text = .ok request) : ∃ id, request = .exit id := by
  have hcompile : ¬ text.startsWith "Compile" = true := by
    intro hcompile
    obtain ⟨rest, hrest⟩ := String.startsWith_string_iff.1 hexit
    obtain ⟨other, hother⟩ := String.startsWith_string_iff.1 hcompile
    rw [← hother] at hrest
    exact absurd (List.cons.inj hrest).1 (by decide)
  rw [Request.parse, if_neg hcompile, if_pos hexit] at h
  obtain ⟨id, -, hpure⟩ := bind_eq_ok.1 h
  exact ⟨id, (pure_eq_ok.1 hpure).symm⟩

/-- The event with which a request ends that is served next: its answer, or else that it is closed,
on the connection that is accepted next. -/
def Answered (s : Server) : Request → Event → Prop
  | .compile r, event =>
    ∃ answer t, Yields (compileRequest r) s.accepting answer t ∧
    event = .responded s.accepted answer
  | .done, event => event = .responded s.accepted "All finished"
  | .exit _, event => event = .closed s.accepted
  | .hello, event => event = .closed s.accepted

theorem Answered.connection_eq (h : Answered s request event) : event.connection = s.accepted := by
  cases request with
  | compile =>
    obtain ⟨answer, t, -, rfl⟩ := h
    rfl
  | done | exit | hello => exact h ▸ rfl

/-- What a request leaves that has taken so many reports and ends with an event. -/
def Traffic.answered (a : Traffic) (count : Nat) (event : Event) : Traffic :=
  { a with
    queue := a.queue.drop count
    accepted := a.accepted + 1 + count
    events := a.events ++ (closings (a.accepted + 1) count ++ [event]) }

/-- The reports taken by a request are those at the front of the queue. -/
theorem waited_eq {waited : List String} (hwaits : s.queue = waited ++ s'.queue)
    (htraffic : s'.traffic = s.traffic.answered count event) : waited = s.queue.take count := by
  have hqueue : s'.queue = s.queue.drop count := congrArg Traffic.queue htraffic
  rw [hqueue] at hwaits
  exact (append_cancel_right (hwaits.symm.trans (take_append_drop count s.queue).symm))

/-- A request that waited is answered, or closed, on its own connection. -/
theorem closeWith_reported {event : Nat → Event} (ht : t.traffic = s.traffic.opened.reported count)
    (h : (closeWith event).outcome t = (r, s')) :
    r = .ok () ∧ s'.traffic = s.traffic.answered count (event s.accepted) := by
  have hopen : t.traffic.connections = s.accepted :: s.connections := by
    rw [ht]
    rfl
  obtain ⟨hr, hclosed⟩ := closeWith_traffic event hopen h
  refine ⟨hr, ?_⟩
  rw [hclosed, ht]
  simp [Traffic.answered, Traffic.reported, Traffic.opened, Server.traffic]

/-- **A request is answered on its own connection**, whatever reports it took. -/
theorem serve_answers {u : Unit} (h : Yields (serve text) s u s') :
    ∃ request count event, Request.parse text = .ok request ∧ count ≤ s.queue.length ∧
      (∀ report ∈ s.queue.take count, Request.isExit report) ∧ Answered s request event ∧
      s'.traffic = s.traffic.answered count event := by
  obtain ⟨t, request, haccept, hparse, hserved⟩ := serve_cases h
  obtain rfl : s.accepting = t := yields_modify.1 haccept
  have hstill : s.accepting.traffic = s.traffic.opened.reported 0 := (Traffic.reported_zero _).symm
  cases request with
  | compile r =>
    obtain ⟨answer, t, hcompile, hrespond⟩ := hserved
    obtain ⟨count, hle, hexits, ht⟩ := (waits_compileRequest r).yields hcompile
    exact ⟨.compile r, count, _, hparse, hle, hexits, ⟨answer, t, hcompile, rfl⟩,
      (closeWith_reported ht hrespond).2⟩
  | exit id =>
    refine ⟨.exit id, 0, _, hparse, Nat.zero_le _, by simp, rfl, ?_⟩
    rcases handleExit_traffic (rfl : s.accepting.traffic.connections = s.accepted :: s.connections)
      hserved with
      ⟨-, htraffic⟩ | ⟨⟨e, he⟩, -⟩
    · rw [htraffic]
      simp [Traffic.answered, Server.accepting, Server.traffic, closings]
    · cases he
  | done =>
    obtain ⟨t, t', hwait, hrespond, rfl⟩ := hserved
    obtain ⟨count, hle, hexits, ht⟩ := waits_waitForAll.yields hwait
    exact ⟨.done, count, _, hparse, hle, hexits, rfl, (closeWith_reported ht hrespond).2⟩
  | hello =>
    exact ⟨.hello, 0, _, hparse, Nat.zero_le _, by simp, rfl, (closeWith_reported hstill hserved).2⟩

/-- **A request that fails answers nobody.**  Its connection stays open, and maybe that of a request
that it took while it waited. -/
theorem serve_fails (h : (serve text).outcome s = (.error e, s')) :
    ∃ count, s'.traffic = s.traffic.opened.reported count ∨
      s'.traffic = (s.traffic.opened.reported count).taken := by
  rw [serve, outcome_accept_bind, handle] at h
  rcases outcome_bind_cases h with ⟨request, t, hparse, hserved⟩ | ⟨e', hfails, -⟩
  · obtain ⟨-, rfl⟩ := Serve.yields_lift.1 hparse
    have hstill : s.accepting.traffic = s.traffic.opened.reported 0 :=
      (Traffic.reported_zero _).symm
    cases request with
    | compile r =>
      rcases outcome_bind_cases hserved with ⟨answer, t, hcompile, hrespond⟩ | ⟨e', hfails, -⟩
      · obtain ⟨count, -, -, ht⟩ := (waits_compileRequest r).yields hcompile
        cases (closeWith_reported ht hrespond).1
      · exact (waits_compileRequest r).fails hfails
    | exit =>
      rcases handleExit_traffic
        (rfl : s.accepting.traffic.connections = s.accepted :: s.connections) hserved with
        ⟨he, -⟩ | ⟨-, htraffic⟩
      · cases he
      · exact ⟨0, .inl (htraffic.trans hstill)⟩
    | done =>
      rcases outcome_bind_cases hserved with ⟨_, t, hwait, hrest⟩ | ⟨e', hfails, -⟩
      · obtain ⟨count, -, -, ht⟩ := waits_waitForAll.yields hwait
        rcases outcome_bind_cases hrest with ⟨_, t', -, hchange⟩ | ⟨e', hrespond, -⟩
        · cases hchange
        · cases (closeWith_reported ht hrespond).1
      · exact waits_waitForAll.fails hfails
    | hello => cases (closeWith_reported hstill hserved).1
  · exact (still_lift _).waits.fails hfails

/-! ### Runs -/

/-- The states in which the next request is asked for, with the requests taken since a start.
Elsewhere further requests come in, and time goes by. -/
inductive Attends (start : Server) : List String → Server → Prop
  | start : Attends start [] start
  | elsewhere {texts : List String} {t : Server} (queue : List String) (clock : Int) (world : World)
      (before : Attends start texts t) : Attends start texts { t with queue, clock, world }
  | served {texts waited : List String} {text : String} {t t' : Server}
      (before : Attends start texts t) (serves : Yields (serve text) t () t')
      (waits : t.queue = waited ++ t'.queue) : Attends start (texts ++ text :: waited) t'

namespace Attends

variable {start : Server} {texts : List String}

theorem trans {more : List String} (h : Attends start texts s) (h' : Attends s more t) :
    Attends start (texts ++ more) t := by
  induction h' with
  | start => rwa [append_nil]
  | elsewhere queue clock world _ ih => exact .elsewhere queue clock world ih
  | served _ serves waits ih =>
    rw [← List.append_assoc]
    exact .served ih serves waits

section

variable (h : Attends start texts t)
  (hstart : start.connections = [] ∧ start.accepted = 0 ∧ start.events = [])
include h hstart

/-- **Between two requests no connection is open**, and each that was accepted was closed once. -/
theorem idle : t.connections = [] ∧ t.accepted = texts.length ∧
      (t.events.map Event.connection).Perm (List.range texts.length) := by
  induction h with
  | start =>
    obtain ⟨hconnections, haccepted, hevents⟩ := hstart
    exact ⟨hconnections, haccepted, by rw [hevents]; rfl⟩
  | elsewhere _ _ _ _ ih => exact ih
  | @served texts waited text t t' _ serves waits ih =>
    obtain ⟨hconnections, haccepted, hevents⟩ := ih
    obtain ⟨request, count, event, -, hle, -, hanswered, htraffic⟩ := serve_answers serves
    have hwaited : waited.length = count := by
      rw [waited_eq waits htraffic, length_take_of_le hle]
    have hlength : (texts ++ text :: waited).length = texts.length + 1 + count := by
      rw [length_append, length_cons, hwaited]
      omega
    have hnew : t'.events = t.events ++ (closings (t.accepted + 1) count ++ [event]) :=
      congrArg Traffic.events htraffic
    refine ⟨(congrArg Traffic.connections htraffic).trans hconnections, ?_, ?_⟩
    · rw [hlength, ← haccepted]
      exact congrArg Traffic.accepted htraffic
    · rw [hlength, hnew, ← List.append_assoc, map_append, map_singleton, hanswered.connection_eq,
        haccepted]
      exact perm_range_closings hevents count

/-- **What happened on each connection.**  A request over it was answered as it was asked for next,
or it brought a report for which another request waited. -/
theorem event_of_request (htext : texts[c]? = some text) :
    (Request.isExit text ∧ .closed c ∈ t.events) ∨
    ∃ asked request event, Attends start (texts.take c) asked ∧ Attends asked (texts.drop c) t ∧
      asked.accepted = c ∧ Request.parse text = .ok request ∧ Answered asked request event ∧
      event ∈ t.events := by
  induction h with
  | start => cases htext
  | elsewhere queue clock world _ ih =>
    rcases ih htext with hclosed | ⟨asked, request, event, hbefore, hafter, hrest⟩
    · exact .inl hclosed
    · exact .inr ⟨asked, request, event, hbefore, .elsewhere queue clock world hafter, hrest⟩
  | @served texts waited other t t' before serves waits ih =>
    obtain ⟨-, haccepted, -⟩ := before.idle hstart
    obtain ⟨request, count, event, hparse, hle, hexits, hanswered, htraffic⟩ := serve_answers serves
    have hnew : t'.events = t.events ++ (closings (t.accepted + 1) count ++ [event]) :=
      congrArg Traffic.events htraffic
    rcases Nat.lt_trichotomy c texts.length with hlt | rfl | hgt
    · rw [getElem?_append_left hlt] at htext
      rw [hnew]
      rcases ih htext with ⟨hexit, hclosed⟩ | ⟨earlier, asked, answer, hbefore, hafter, hc, hasked,
        hanswer, hmem⟩
      · exact .inl ⟨hexit, mem_append_left _ hclosed⟩
      · refine .inr ⟨earlier, asked, answer, ?_, ?_, hc, hasked, hanswer, mem_append_left _ hmem⟩
        · rwa [take_append_of_le_length (Nat.le_of_lt hlt)]
        · rw [drop_append_of_le_length (Nat.le_of_lt hlt)]
          exact .served hafter serves waits
    · obtain rfl : other = text := by simpa using htext
      refine .inr ⟨t, request, event, ?_, ?_, haccepted, hparse, hanswered, by rw [hnew]; simp⟩
      · rwa [take_left]
      · rw [drop_left]
        exact .served .start serves waits
    · obtain ⟨i, rfl⟩ : ∃ i, c = texts.length + 1 + i := ⟨c - texts.length - 1, by omega⟩
      have hreport : waited[i]? = some text := by
        rw [getElem?_append_right (by omega)] at htext
        rwa [show texts.length + 1 + i - texts.length = i + 1 by omega, getElem?_cons_succ] at htext
      have hmem := mem_of_getElem? hreport
      rw [waited_eq waits htraffic] at hmem hreport
      have hi : i < count := by
        obtain ⟨hi, -⟩ := List.getElem?_eq_some_iff.1 hreport
        rw [length_take_of_le hle] at hi
        exact hi
      refine .inl ⟨hexits text hmem, ?_⟩
      rw [hnew, haccepted]
      refine mem_append_right _ (mem_append_left _ ?_)
      exact mem_map.2 ⟨i, mem_range.2 hi, rfl⟩

/-- A request that is no report was answered as it was asked for. -/
theorem answered_of_parse
    (htext : texts[c]? = some text) (hparse : Request.parse text = .ok request)
    (hother : ∀ id, request ≠ .exit id) : ∃ asked event, Attends start (texts.take c) asked ∧
      Attends asked (texts.drop c) t ∧ asked.accepted = c ∧
      Answered asked request event ∧ event ∈ t.events := by
  rcases h.event_of_request hstart htext with ⟨hexit, -⟩ | ⟨asked, _, event, hbefore, hafter, hc,
    hasked, hrest⟩
  · obtain ⟨id, hid⟩ := Request.exit_of_isExit hexit hparse
    exact absurd hid (hother id)
  · obtain rfl := Except.ok.inj (hasked.symm.trans hparse)
    exact ⟨asked, event, hbefore, hafter, hc, hrest⟩

end

/-- A request that fails sends no answer and closes nothing twice; its connection stays open. -/
theorem fails (h : Attends start texts t)
    (hstart : start.connections = [] ∧ start.accepted = 0 ∧ start.events = [])
    (hfails : (serve text).outcome t = (.error e, s')) :
    ∃ count, s'.events = t.events ++ closings (t.accepted + 1) count ∧ t.accepted ∈ s'.connections ∧
      (s'.events.map Event.connection ++ s'.connections).Perm (List.range s'.accepted) := by
  obtain ⟨hconnections, haccepted, hevents⟩ := h.idle hstart
  rw [← haccepted] at hevents
  obtain ⟨count, htraffic | htraffic⟩ := serve_fails hfails
  · have hnew : s'.events = t.events ++ closings (t.accepted + 1) count :=
      congrArg Traffic.events htraffic
    have hopen : s'.connections = t.accepted :: t.connections :=
      congrArg Traffic.connections htraffic
    have hcount : s'.accepted = t.accepted + 1 + count := congrArg Traffic.accepted htraffic
    rw [hconnections] at hopen
    refine ⟨count, hnew, by rw [hopen]; exact mem_singleton_self _, ?_⟩
    rw [hnew, hopen, hcount]
    exact perm_range_closings hevents count
  · have hnew : s'.events = t.events ++ closings (t.accepted + 1) count :=
      congrArg Traffic.events htraffic
    have hopen : s'.connections = (t.accepted + 1 + count) :: t.accepted :: t.connections :=
      congrArg Traffic.connections htraffic
    have hcount : s'.accepted = t.accepted + 1 + count + 1 := congrArg Traffic.accepted htraffic
    rw [hconnections] at hopen
    refine ⟨count, hnew, by rw [hopen]; exact mem_cons_of_mem _ (mem_singleton_self _), ?_⟩
    rw [hnew, hopen, hcount, range_succ]
    refine .trans ?_ ((perm_range_closings hevents count).append_right _)
    rw [List.append_assoc]
    exact (List.Perm.swap _ _ _).append_left _

end Attends

/-- **The loop that serves requests** asks for the next one in such states only, until it is done or
a request fails. -/
theorem serveFor_attends (h : (serveFor n).outcome s = (r, s')) : ∃ texts t, Attends s texts t ∧
      ((r = .ok () ∧ t = s') ∨ (t.queue = [] ∧ t = s') ∨ ∃ text rest e, t.queue = text :: rest ∧
        r = .error e ∧
          (serve text).outcome { t with queue := rest } = (.error e, s')) := by
  induction n generalizing s with
  | zero =>
    obtain ⟨rfl, rfl⟩ := Prod.mk.inj h
    exact ⟨[], s, .start, .inl ⟨rfl, rfl⟩⟩
  | succ n ih =>
    rw [serveFor, outcome_scheduler_bind] at h
    split at h
    · obtain ⟨rfl, rfl⟩ := Prod.mk.inj h
      exact ⟨[], s, .start, .inl ⟨rfl, rfl⟩⟩
    · rw [outcome_get_bind] at h
      cases hqueue : s.queue with
      | nil =>
        rw [hqueue] at h
        obtain ⟨-, rfl⟩ := Prod.mk.inj h
        exact ⟨[], s, .start, .inr (.inl ⟨hqueue, rfl⟩)⟩
      | cons text rest =>
        rw [hqueue] at h
        rw [outcome_modify_bind] at h
        have htaken : Attends s [] { s with queue := rest } :=
          .elsewhere rest s.clock s.world .start
        rcases outcome_bind_cases h with ⟨_, u, hserve, h⟩ | ⟨e, hfails, rfl⟩
        · obtain ⟨request, count, event, -, -, -, -, htraffic⟩ := serve_answers hserve
          have hwaits : rest = rest.take count ++ u.queue := by
            have hleft : u.queue = rest.drop count := congrArg Traffic.queue htraffic
            rw [hleft, take_append_drop]
          obtain ⟨texts, t, hlater, hend⟩ := ih h
          exact ⟨_, t, (htaken.served hserve hwaits).trans hlater, hend⟩
        · exact ⟨[], s, .start, .inr (.inr ⟨text, rest, e, hqueue, rfl, hfails⟩)⟩

/-- **Every answer goes to the one who asked.**  Whenever the next request is asked for, no
connection is open and each that was accepted was closed once; a request to compile was answered
over its own connection with what became of it, the last request over its own too, whatever reports
were taken in between, and the other connections were closed without an answer.  The loop asks in
such states only; a request that fails ends it without an answer. -/
theorem attends_answers {start : Server}
    (hstart : start.connections = [] ∧ start.accepted = 0 ∧ start.events = []) :
    (∀ texts t, Attends start texts t →
      (t.connections = [] ∧ t.accepted = texts.length ∧
        (t.events.map Event.connection).Perm (List.range texts.length)) ∧
      (∀ c text r, texts[c]? = some text → Request.parse text = .ok (.compile r) →
        ∃ asked answer t', Attends start (texts.take c) asked ∧ Attends asked (texts.drop c) t ∧
          asked.accepted = c ∧ Yields (compileRequest r) asked.accepting answer t' ∧
          .responded c answer ∈ t.events) ∧
      (∀ c text, texts[c]? = some text → Request.parse text = .ok .done →
        .responded c "All finished" ∈ t.events) ∧
      (∀ c text, texts[c]? = some text → Request.isExit text = true ∨
        Request.parse text = .ok .hello → .closed c ∈ t.events) ∧
      (∀ text e t', (serve text).outcome t = (.error e, t') →
        ∃ count, t'.events = t.events ++ closings (t.accepted + 1) count ∧
          t.accepted ∈ t'.connections ∧
          (t'.events.map Event.connection ++ t'.connections).Perm (List.range t'.accepted))) ∧
    (∀ r s', serveAll.outcome start = (r, s') →
      ∃ texts t, Attends start texts t ∧
        ((r = .ok () ∧ t = s') ∨ (t.queue = [] ∧ t = s') ∨
          ∃ text rest e, t.queue = text :: rest ∧ r = .error e ∧
            (serve text).outcome { t with queue := rest } = (.error e, s'))) := by
  refine ⟨fun texts t h => ⟨h.idle hstart, ?_, ?_, ?_, fun text e t' => h.fails hstart⟩,
    fun r s' => serveFor_attends⟩
  · intro c text r htext hparse
    obtain ⟨asked, event, hbefore, hafter, hc, ⟨answer, t', hcompile, rfl⟩, hmem⟩ :=
      h.answered_of_parse hstart htext hparse fun id => Request.noConfusion
    rw [hc] at hmem
    exact ⟨asked, answer, t', hbefore, hafter, hc, hcompile, hmem⟩
  · intro c text htext hparse
    obtain ⟨asked, _, -, -, rfl, rfl, hmem⟩ :=
      h.answered_of_parse hstart htext hparse fun id => Request.noConfusion
    exact hmem
  · rintro c text htext (hexit | hparse)
    · rcases h.event_of_request hstart htext with ⟨-, hclosed⟩ | ⟨asked, _, event, -, -, rfl,
        hparse, hanswered, hmem⟩
      · exact hclosed
      · obtain ⟨id, rfl⟩ := Request.exit_of_isExit hexit hparse
        obtain rfl := hanswered
        exact hmem
    · obtain ⟨asked, _, -, -, rfl, rfl, hmem⟩ :=
        h.answered_of_parse hstart htext hparse fun id => Request.noConfusion
      exact hmem

/-- A scheduler whose first process runs alone, or has ended. -/
def onceStarted (running : Bool) (width : Option Int) : Scheduler where
  lastId := 1
  running := if running then 1 else 0
  exclusive := running
  processes := ⟨[(1, {
    region := "v"
    width
    started := some 0
    time := if running then none else some (.ofMicroseconds 0) })]⟩
  byRegion := ⟨[("v", [1])]⟩

/-- The server of such a scheduler, once the process was answered for. -/
def startedServer (running : Bool) (queue : List String) (options : Options := {}) : Server where
  options
  scheduler := onceStarted running options.width
  queue
  accepted := 1
  events := [.responded 0 (failureText "1 failed to compile")]
  world := { store := bareStore }

theorem serve_compile_bare {o : Options} (h : o.assertSuccess = false := by rfl) :
    Yields (serve "Compile:s|v:v|r:v\n") { options := o, world := { store := bareStore } } ()
      (startedServer true [] o) := by
  have hparse : Request.parse "Compile:s|v:v|r:v\n" = .ok (.compile ⟨"s", "v", "v"⟩) := by
    decide +kernel
  have hlaunch : Yields (launch 1 false) (bareServer (onceAsked o.width) o) ()
      (bareServer (onceStarted true o.width) o) := by
    refine yields_bind.2 ⟨_, _, rfl, yields_change.2 ⟨_, ?_, rfl⟩⟩
    rw [bareServer, h]
    rfl
  have hcompile :
      Yields (compileRequest ⟨"s", "v", "v"⟩) (bareServer {} o) (failureText "1 failed to compile")
      (bareServer (onceStarted true o.width) o) :=
    yields_bind.2 ⟨_, _, prepare_bareServer o,
      yields_bind.2 ⟨(), _, rfl, yields_bind.2 ⟨(), _, hlaunch, rfl⟩⟩⟩
  exact yields_bind.2 ⟨(), bareServer {} o, rfl,
    yields_bind.2 ⟨_, _, Serve.yields_lift.2 ⟨hparse, rfl⟩, yields_bind.2 ⟨_, _, hcompile, rfl⟩⟩⟩

/-- The server after a report of the process, which came over another connection than the request
that waits. -/
def endedServer : Server :=
  { startedServer false [] with
    connections := [1]
    accepted := 3
    events := [.responded 0 (failureText "1 failed to compile"), .closed 2] }

theorem waitForAll_started :
    Yields waitForAll (startedServer true ["Exit:1\n"]).accepting () endedServer := by
  have hexit : Request.isExit "Exit:1\n" = true := by decide +kernel
  have hid : Request.parseExit "Exit:1\n" = .ok 1 := by decide +kernel
  have hreport : Yields (handleExit "Exit:1\n") (startedServer true []).accepting.accepting
    () endedServer :=
    yields_bind.2 ⟨1, _, Serve.yields_lift.2 ⟨hid, rfl⟩, rfl⟩
  have hwait : Yields (waitOn ["Exit:1\n"]) (startedServer true ["Exit:1\n"]).accepting
      () endedServer := by
    rw [waitOn, yields_bind]
    refine ⟨_, _, rfl, ?_⟩
    rw [if_pos (by decide), if_pos hexit]
    exact yields_bind.2
      ⟨(), _, rfl, yields_bind.2 ⟨(), _, rfl, yields_bind.2 ⟨(), _, hreport, rfl⟩⟩⟩
  exact yields_bind.2 ⟨_, _, rfl, hwait⟩

/-- The last request waits for a process that was started before, and is answered over its own
connection and not over that of the report. -/
theorem attends_answers_waited :
    ∃ t, Attends { world := { store := bareStore } } ["Compile:s|v:v|r:v\n", "Done\n",
      "Exit:1\n"] t ∧
        (t.connections = [] ∧ t.accepted = 3 ∧
          (t.events.map Event.connection).Perm (List.range 3)) ∧
      (∃ answer, .responded 0 answer ∈ t.events) ∧ .responded 1 "All finished" ∈ t.events ∧
        .closed 2 ∈ t.events := by
  have hparse : Request.parse "Compile:s|v:v|r:v\n" = .ok (.compile ⟨"s", "v", "v"⟩) := by
    decide +kernel
  have hlast : Request.parse "Done\n" = .ok .done := by decide +kernel
  have hexit : Request.isExit "Exit:1\n" = true := by decide +kernel
  have hdone : Yields (serve "Done\n") (startedServer true ["Exit:1\n"]) () _ :=
    yields_bind.2 ⟨(), _, rfl, yields_bind.2 ⟨_, _, Serve.yields_lift.2 ⟨hlast, rfl⟩,
      yields_bind.2 ⟨(), _, waitForAll_started, rfl⟩⟩⟩
  have hcompiled :
      Attends { world := { store := bareStore } } ([] ++ "Compile:s|v:v|r:v\n" :: [])
        (startedServer true []) :=
    .served .start serve_compile_bare rfl
  have hwaited :
    Attends { world := { store := bareStore } } ["Compile:s|v:v|r:v\n", "Done\n", "Exit:1\n"] _ :=
    .served (hcompiled.elsewhere ["Exit:1\n"] 0 { store := bareStore }) hdone rfl
  obtain ⟨hidle, hanswer, hfinished, hclosed, -⟩ := (attends_answers ⟨rfl, rfl, rfl⟩).1 _ _ hwaited
  obtain ⟨_, answer, _, -, -, -, -, hmem⟩ := hanswer 0 _ _ rfl hparse
  exact ⟨_, hwaited, hidle, ⟨answer, hmem⟩, hfinished 1 _ rfl hlast, hclosed 2 _ rfl (Or.inl hexit)⟩

end ShellFlow
