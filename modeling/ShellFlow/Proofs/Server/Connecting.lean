import ShellFlow.Proofs.Lists
import ShellFlow.Proofs.Scheduler.Answering
import ShellFlow.Server.Connections

/-!
# Connections carry requests

The loop that serves requests knows connections by number only: it takes the next text from its
queue, and notes what it answers and what it closes.  Behind it, clients connect and send octets, of
which a command is read, and an answer is written to the client that was accepted last.  This module
shows that the clients see just what the loop has noted.

## Contents

* **Clients and loop belong together** (`Connections.Carries`): the same connections are open, the
  clients that wait have sent the texts in the queue and have the numbers that come next, and what
  the clients were sent is what the loop has answered.  So it is when commands have been sent to a
  server that has served nothing (`Connections.carries_sent`).
* **One step on both sides** (`Carries.accept`, `Carries.respond`, `Carries.close`).
* **One request** (`Carries.served`): it is accepted, the reports that it waits for are accepted and
  closed one after the other, and it is answered or closed at the end.
* **Any number of requests** (`Connections.carries_serveFor`).

## Design Notes

A command that does not end a line is refused when it is accepted, so there is no such text in a
queue that is carried by connections (`Carries.endsWith`).  An answer must be one that can be
written; what a server answers repeats what it was sent, and the condition is put on the answers of
a run.
-/

namespace ShellFlow

open List
open Relation (ReflTransGen)

/-- What a client is sent by an event. -/
def Event.deliver (received : Table Nat String) : Event → Table Nat String
  | responded client answer => received.insert client answer
  | closed _ => received

/-- The answer that an event sends can be written. -/
def Event.IsWritable : Event → Prop
  | responded _ answer => ∃ octets, Text.octets answer = .ok octets
  | closed _ => True

namespace Connections

variable {a : Traffic} {c c' : Connections} {client n : Nat} {rest : List Nat} {s s' : Server}
  {text : String}

/-- One thing is done with the connections. -/
inductive Step : Connections → Connections → Prop
  | accept {c c' : Connections} {text : String} (h : c.accept = .ok (text, c')) : Step c c'
  | respond {c c' : Connections} {answer : String} (h : c.respond answer = .ok c') : Step c c'
  | close {c c' : Connections} (h : c.closeLast = .ok c') : Step c c'

/-- The clients have sent what a server is to serve, and have got what it has answered. -/
structure Carries (c : Connections) (a : Traffic) : Prop where
  opened : c.opened = a.connections
  texts : List.Forall₂ (fun w text => commandText w.2 = .ok text) c.waiting a.queue
  numbers : c.waiting.map Prod.fst = List.range' a.accepted c.waiting.length
  received : c.received = a.events.foldl Event.deliver .empty

/-- A text that was read as a command is empty, or ends a line. -/
theorem endsWith_of_commandText {data : Octets} (h : commandText data = .ok text) :
    text = "" ∨ text.endsWith "\n" := by
  rw [commandText] at h
  split at h
  · cases h
  · split at h
    · next hends =>
      cases h
      simpa using hends
    · cases h

namespace Carries

/-- All requests to come end a line. -/
theorem endsWith (h : c.Carries a) : ∀ text ∈ a.queue, text = "" ∨ text.endsWith "\n" := by
  intro text htext
  obtain ⟨w, -, hw⟩ := exists_of_forall₂ h.texts.flip htext
  exact endsWith_of_commandText hw

/-- The next client is accepted as the next request is taken. -/
theorem accept {texts : List String} (h : c.Carries a) (hqueue : a.queue = text :: texts) :
    ∃ c', c.accept = .ok (text, c') ∧ c'.Carries a.taken := by
  have htexts := h.texts
  rw [hqueue] at htexts
  cases hwaiting : c.waiting with
  | nil =>
    rw [hwaiting] at htexts
    cases htexts
  | cons w waiting =>
    rw [hwaiting] at htexts
    obtain ⟨htext, hrest⟩ := forall₂_cons.1 htexts
    have hnumbers := h.numbers
    rw [hwaiting, map_cons, length_cons, range'_succ, cons.injEq] at hnumbers
    refine ⟨{ c with waiting, opened := w.1 :: c.opened }, ?_, ?_, ?_, hnumbers.2, h.received⟩
    · simp [Connections.accept, hwaiting, htext, bind, Except.bind, pure, Except.pure]
    · rw [hnumbers.1, h.opened]
      rfl
    · simpa [Traffic.taken, hqueue] using hrest

/-- The client that was accepted last is sent off as its connection is closed. -/
theorem close (h : c.Carries a) (hopen : a.connections = client :: rest) :
    ∃ c', c.closeLast = .ok c' ∧
      c'.Carries { a with connections := rest, events := a.events ++ [.closed client] } := by
  have hopened : c.opened = client :: rest := h.opened.trans hopen
  refine ⟨{ c with opened := rest }, ?_, rfl, h.texts, h.numbers, ?_⟩
  · rw [closeLast, hopened]
  · rw [foldl_append, ← h.received]
    rfl

/-- The client that was accepted last gets its answer. -/
theorem respond {answer : String} (h : c.Carries a) (hopen : a.connections = client :: rest)
    (hwritable : ∃ octets, Text.octets answer = .ok octets) :
    ∃ c', c.respond answer = .ok c' ∧
      c'.Carries
        { a with connections := rest, events := a.events ++ [.responded client answer] } := by
  have hopened : c.opened = client :: rest := h.opened.trans hopen
  obtain ⟨octets, hoctets⟩ := hwritable
  refine ⟨{ c with opened := rest, received := c.received.insert client answer }, ?_, rfl, h.texts,
    h.numbers, ?_⟩
  · rw [Connections.respond, hoctets, hopened]
    rfl
  · rw [foldl_append, ← h.received]
    rfl

/-- **Reports are accepted and closed one after the other.**  The induction is on their number. -/
theorem reports (h : c.Carries a) (count : Nat) (hcount : count ≤ a.queue.length) :
    ∃ c', ReflTransGen Step c c' ∧ c'.Carries (a.reported count) := by
  induction count with
  | zero => exact ⟨c, .refl, by rwa [Traffic.reported_zero]⟩
  | succ count ih =>
    obtain ⟨c₁, hsteps, h₁⟩ := ih (by omega)
    obtain ⟨text, texts, hqueue⟩ : ∃ text texts, (a.reported count).queue = text :: texts :=
      exists_cons_of_ne_nil (by simpa [Traffic.reported] using Nat.lt_of_succ_le hcount)
    obtain ⟨c₂, haccept, h₂⟩ := h₁.accept hqueue
    obtain ⟨c₃, hclose, h₃⟩ := h₂.close rfl
    refine ⟨c₃, (hsteps.tail (.accept haccept)).tail (.close hclose), ?_⟩
    rw [← Traffic.reported_reported]
    exact h₃

/-- **A request is carried from its beginning to its end**, with the reports that it takes. -/
theorem served {event : Event} (h : c.Carries { a with queue := text :: a.queue }) {count : Nat}
    (hcount : count ≤ a.queue.length) (hclient : event.connection = a.accepted)
    (hwritable : event.IsWritable) :
    ∃ c', ReflTransGen Step c c' ∧ c'.Carries (a.answered count event) := by
  obtain ⟨c₁, haccept, h₁⟩ := h.accept rfl
  obtain ⟨c₂, hsteps, h₂⟩ := h₁.reports count hcount
  have hopen : (({ a with queue := text :: a.queue } : Traffic).taken.reported count).connections =
      event.connection :: a.connections := by
    rw [hclient]
    rfl
  obtain ⟨c₃, hstep, h₃⟩ : ∃ c₃, Step c₂ c₃ ∧ c₃.Carries (a.answered count event) := by
    cases event with
    | responded client answer =>
      obtain ⟨c₃, hrespond, h₃⟩ := h₂.respond hopen hwritable
      refine ⟨c₃, .respond hrespond, ?_⟩
      simpa [Traffic.answered, Traffic.reported, Traffic.taken, Traffic.opened,
        Event.connection] using h₃
    | closed client =>
      obtain ⟨c₃, hclose, h₃⟩ := h₂.close hopen
      refine ⟨c₃, .close hclose, ?_⟩
      simpa [Traffic.answered, Traffic.reported, Traffic.taken, Traffic.opened,
        Event.connection] using h₃
  exact ⟨c₃, .head (.accept haccept) (hsteps.tail hstep), h₃⟩

end Carries

/-- Clients that have sent commands wait with numbers from nought on. -/
theorem carries_sent {commands : List Octets} {texts : List String}
    (h : List.Forall₂ (fun data text => commandText data = .ok text) commands texts) :
    (commands.foldl send {}).Carries ⟨texts, [], 0, []⟩ := by
  have hsent : ∀ c : Connections, commands.foldl send c =
      { c with
        waiting := c.waiting ++ (commands.zipIdx c.clients).map Prod.swap
        clients := c.clients + commands.length } := by
    induction h with
    | nil => simp
    | cons _ _ ih =>
      intro c
      rw [foldl_cons, ih]
      simp [send, Nat.add_comm, Nat.add_left_comm]
  rw [hsent]
  refine ⟨rfl, ?_, ?_, rfl⟩
  · show List.Forall₂ _ ((commands.zipIdx 0).map Prod.swap) texts
    rw [← zipIdx_map_fst 0 commands, forall₂_map_left_iff] at h
    rwa [forall₂_map_left_iff]
  · show ((commands.zipIdx 0).map Prod.swap).map Prod.fst = _
    rw [map_map, length_append, length_map, length_zipIdx]
    exact zipIdx_map_snd 0 commands |>.trans (by simp)

/-- **The clients see what the server has noted.**  Whatever number of requests is served, the
connections go through the steps that the server takes, if its answers can be written. -/
theorem carries_serveFor (h : Yields (serveFor n) s () s') :
    ∃ events, s'.events = s.events ++ events ∧ ∀ c : Connections, c.Carries s.traffic →
      (∀ event ∈ events, event.IsWritable) →
      ∃ c', ReflTransGen Step c c' ∧ c'.Carries s'.traffic := by
  induction n generalizing s with
  | zero =>
    cases h
    exact ⟨[], (append_nil _).symm, fun c hc _ => ⟨c, .refl, hc⟩⟩
  | succ n ih =>
    have h : (serveFor (n + 1)).outcome s = (.ok (), s') := h
    rw [serveFor, outcome_scheduler_bind] at h
    split at h
    · obtain ⟨-, rfl⟩ := Prod.mk.inj h
      exact ⟨[], (append_nil _).symm, fun c hc _ => ⟨c, .refl, hc⟩⟩
    · rw [outcome_get_bind] at h
      cases hqueue : s.queue with
      | nil =>
        rw [hqueue] at h
        cases h
      | cons text rest =>
        rw [hqueue] at h
        rw [outcome_modify_bind] at h
        rcases outcome_bind_cases h with ⟨_, t, hserve, h⟩ | ⟨e, -, he⟩
        · obtain ⟨request, count, event, -, hle, -, hanswered, htraffic⟩ := serve_answers hserve
          have hnew : t.events = s.events ++ (closings (s.accepted + 1) count ++ [event]) :=
            congrArg Traffic.events htraffic
          obtain ⟨later, hlater, hrest⟩ := ih h
          refine ⟨_, hlater.trans (by rw [hnew, List.append_assoc]), fun c hc hwritable => ?_⟩
          set a := ({ s with queue := rest } : Server).traffic
          have hc : c.Carries { a with queue := text :: a.queue } := by
            show c.Carries { a with queue := text :: rest }
            rw [← hqueue]
            exact hc
          -- the clients follow this request, and the others by the hypothesis
          have hclient : event.connection = a.accepted := hanswered.connection_eq
          obtain ⟨c₁, hsteps, h₁⟩ := hc.served hle hclient (hwritable event (by simp))
          obtain ⟨c₂, hmore, h₂⟩ := hrest c₁ (htraffic ▸ h₁) fun event hevent =>
            hwritable event (mem_append_right _ hevent)
          exact ⟨c₂, hsteps.trans hmore, h₂⟩
        · cases he

end Connections

end ShellFlow
