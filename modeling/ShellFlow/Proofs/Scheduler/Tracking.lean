import Mathlib.Data.List.Nodup
import ShellFlow.Proofs.Table
import ShellFlow.Scheduler.Basic

/-!
# What the scheduler knows of the running processes

The scheduler counts the running processes and keeps what each of them reads and writes.  Here the
running processes themselves are at hand, and the state of the scheduler is compared with them.

A process that has to wait is recorded before it runs: its number first, then its claims.  Only the
removal of a process brings the claims of all processes together up to date, so while processes wait
the claims together may be those of the running processes alone.  Then one of these has claims, and
its removal is still to come.
-/

namespace ShellFlow

open List

/-- A process that was answered and has not ended: its number, and what it reads and writes, unless
its region was not compiled. -/
structure Live where
  id : Int
  claims : Option Claims

namespace Live

variable {p : Live} {x : Claim}

/-- What a process reads, as far as it is known. -/
def inputs (p : Live) : List Claim := p.claims.elim [] Claims.inputs

/-- What a process writes, as far as it is known. -/
def outputs (p : Live) : List Claim := p.claims.elim [] Claims.outputs

theorem claims_isSome_of_mem_inputs (h : x ∈ p.inputs) : p.claims.isSome := by
  cases hp : p.claims with
  | none => simp [inputs, hp] at h
  | some => rfl

theorem claims_isSome_of_mem_outputs (h : x ∈ p.outputs) : p.claims.isSome := by
  cases hp : p.claims with
  | none => simp [outputs, hp] at h
  | some => rfl

end Live

/-! ### Claims together -/

theorem Claim.mem_union {a b : List Claim} {x : Claim} : x ∈ Claim.union a b ↔ x ∈ a ∨ x ∈ b := by
  induction b generalizing a with
  | nil => simp [Claim.union]
  | cons c b ih =>
    rw [Claim.union, foldl_cons, ← Claim.union, ih]
    by_cases hc : c ∈ a
    · rw [if_pos (contains_iff_mem.2 hc), mem_cons]
      constructor
      · rintro (h | h)
        · exact .inl h
        · exact .inr (.inr h)
      · rintro (h | rfl | h)
        · exact .inl h
        · exact .inl hc
        · exact .inr h
    · rw [if_neg (by simpa using hc), mem_append, mem_singleton, mem_cons, or_assoc]

/-- Claims that are those of some processes together. -/
structure Claims.Gathers (cl : Claims) (ps : List Live) : Prop where
  inputs : ∀ x, x ∈ cl.inputs ↔ ∃ p ∈ ps, x ∈ p.inputs
  outputs : ∀ x, x ∈ cl.outputs ↔ ∃ p ∈ ps, x ∈ p.outputs

namespace Claims

variable {ps : List Live}

theorem mem_foldl_union {part : Claims → List Claim} {cs : List Claims} {a : List Claim}
    {x : Claim} : x ∈ cs.foldl (fun acc c => Claim.union acc (part c)) a ↔
    x ∈ a ∨ ∃ c ∈ cs, x ∈ part c := by
  induction cs generalizing a with
  | nil => simp
  | cons _ _ ih => rw [foldl_cons, ih, Claim.mem_union]; simp [or_assoc]

/-- The claims of all processes in a table are those of the processes together. -/
theorem gathers_all {t : Table Int Claims} (h : ∀ e, e ∈ t.entries ↔ ⟨e.1, some e.2⟩ ∈ ps) :
    (Claims.all t.values).Gathers ps := by
  have hpart : ∀ (part : Claims → List Claim) (x : Claim),
      (∃ cl ∈ t.values, x ∈ part cl) ↔ ∃ p ∈ ps, x ∈ p.claims.elim [] part := by
    intro part x
    constructor
    · rintro ⟨cl, hcl, hx⟩
      obtain ⟨e, he, rfl⟩ := mem_map.1 hcl
      exact ⟨_, (h e).1 he, hx⟩
    · rintro ⟨⟨id, claims⟩, hp, hx⟩
      cases claims with
      | none => simp at hx
      | some cl => exact ⟨cl, mem_map.2 ⟨(id, cl), (h (id, cl)).2 hp, rfl⟩, hx⟩
  constructor
  · intro x
    refine Iff.trans ?_ (hpart Claims.inputs x)
    simp [Claims.all, mem_foldl_union]
  · intro x
    refine Iff.trans ?_ (hpart Claims.outputs x)
    simp [Claims.all, mem_foldl_union]

/-- A process of which nothing is known adds nothing. -/
theorem gathers_iff_of_known {cl : Claims} {qs : List Live}
    (h : ∀ p, p.claims.isSome → (p ∈ ps ↔ p ∈ qs)) : cl.Gathers ps ↔ cl.Gathers qs := by
  have hinputs : ∀ x, (∃ p ∈ ps, x ∈ p.inputs) ↔ ∃ p ∈ qs, x ∈ p.inputs := by
    intro x
    refine exists_congr fun p => and_congr_left fun hx => h p (Live.claims_isSome_of_mem_inputs hx)
  have houtputs : ∀ x, (∃ p ∈ ps, x ∈ p.outputs) ↔ ∃ p ∈ qs, x ∈ p.outputs := by
    intro x
    refine exists_congr fun p => and_congr_left fun hx => h p (Live.claims_isSome_of_mem_outputs hx)
  constructor
  · intro hg
    exact ⟨fun x => (hg.inputs x).trans (hinputs x), fun x => (hg.outputs x).trans (houtputs x)⟩
  · intro hg
    exact ⟨fun x => (hg.inputs x).trans (hinputs x).symm,
      fun x => (hg.outputs x).trans (houtputs x).symm⟩

theorem Gathers.add {cl : Claims} (h : cl.Gathers ps) (id : Int) (new : Claims) :
    (cl.add new).Gathers (ps ++ [⟨id, some new⟩]) := by
  constructor
  · intro x
    simp [Claims.add, Claim.mem_union, h.inputs, Live.inputs, or_and_right, exists_or]
  · intro x
    simp [Claims.add, Claim.mem_union, h.outputs, Live.outputs, or_and_right, exists_or]

theorem compatible_iff {a b : Claims} :
    a.compatible b ↔ (∀ x ∈ a.outputs, x ∉ b.inputs ∧ x ∉ b.outputs) ∧
    ∀ x ∈ a.inputs, x ∉ b.outputs := by
  simp [Claims.compatible, Claim.meets]

end Claims

/-! ### The state of the scheduler -/

namespace Scheduler

variable {c : Scheduler} {live waiting : List Live} {id : Int} {p : Live} {ps : List Live}

/-- A process that has started and was not measured. -/
def Active (c : Scheduler) (id : Int) : Prop :=
  ∃ job, c.processes.get? id = some job ∧ job.started.isSome ∧ job.time = none

/-- The scheduler knows which processes run, and which process waits. -/
structure Tracks (c : Scheduler) (live waiting : List Live) : Prop where
  running : c.running = live.length
  nodup : ((live ++ waiting).map Live.id).Nodup
  id_le : ∀ p ∈ live ++ waiting, p.id ≤ c.lastId
  registered : ∀ e, e ∈ c.claims.entries ↔ ⟨e.1, some e.2⟩ ∈ live ++ waiting
  active : ∀ id, c.Active id → ∃ p ∈ live, p.id = id
  claimed : c.claimed.Gathers (live ++ waiting) ∨ waiting ≠ [] ∧ ∃ p ∈ live, p.claims.isSome

theorem tracks_fresh : Tracks {} [] [] where
  running := rfl
  nodup := nodup_nil
  id_le := by simp
  registered := by simp [Table.empty]
  active := by simp [Active]
  claimed := .inl ⟨by simp, by simp⟩

/-- When no process runs any more, the claims together are up to date. -/
theorem Tracks.gathers_of_nil (h : c.Tracks [] waiting) : c.claimed.Gathers waiting := by
  rcases h.claimed with hg | ⟨-, p, hp, -⟩
  · exact hg
  · simp at hp

theorem Tracks.gathers (h : c.Tracks live []) : c.claimed.Gathers live := by
  rcases h.claimed with hg | ⟨hne, -⟩
  · rwa [append_nil] at hg
  · exact absurd rfl hne

/-- The processes that are left when one has ended. -/
def without (id : Int) (ps : List Live) : List Live := ps.filter fun p => p.id ≠ id

theorem mem_without : p ∈ without id ps ↔ p ∈ ps ∧ p.id ≠ id := by
  simp [without]

theorem length_without (h : (ps.map Live.id).Nodup) (hp : p ∈ ps) (hid : p.id = id) :
    (without id ps).length + 1 = ps.length := by
  induction ps with
  | nil => simp at hp
  | cons q ps ih =>
    rw [map_cons, nodup_cons] at h
    by_cases hq : q.id = id
    · have hnone : without id ps = ps := by
        refine filter_eq_self.2 fun r hr => ?_
        simp only [decide_eq_true_eq]
        rintro hrid
        exact h.1 (mem_map.2 ⟨r, hr, hrid.trans hq.symm⟩)
      rw [without, filter_cons_of_neg (by simpa using hq), ← without, hnone, length_cons]
    · have hrest : p ∈ ps := by
        rcases mem_cons.1 hp with rfl | hp
        · exact absurd hid hq
        · exact hp
      rw [without, filter_cons_of_pos (by simpa using hq), ← without, length_cons, length_cons,
        ih h.2 hrest]

@[simp] theorem remove_running (c : Scheduler) (id : Int) :
    (c.remove id).running = c.running - 1 := by
  rw [Scheduler.remove]
  split <;> rfl

@[simp] theorem remove_lastId (c : Scheduler) (id : Int) : (c.remove id).lastId = c.lastId := by
  rw [Scheduler.remove]
  split <;> rfl

@[simp] theorem remove_processes (c : Scheduler) (id : Int) :
    (c.remove id).processes = c.processes := by
  rw [Scheduler.remove]
  split <;> rfl

theorem mem_claims_remove {e : Int × Claims} : e ∈ (c.remove id).claims.entries ↔
    e ∈ c.claims.entries ∧ e.1 ≠ id := by
  rw [Scheduler.remove]
  split
  · simp [Table.erase]
  · rename_i hnone
    rw [Table.contains_iff_mem_keys] at hnone
    refine ⟨fun he => ⟨he, ?_⟩, And.left⟩
    rintro rfl
    exact hnone (Table.mem_keys_iff.2 ⟨e.2, he⟩)

theorem claimed_remove (id : Int) : (c.remove id).claimed =
    if c.claims.contains id then .all (c.remove id).claims.values else c.claimed := by
  rw [Scheduler.remove]
  split <;> simp_all

/-- **A process ends.**  If it had claims, the claims together are made anew from those that are
left. -/
theorem Tracks.remove (h : c.Tracks live waiting) {job : Job}
    (hjob : c.processes.get? id = some job) (hstarted : job.started.isSome)
    (htime : job.time = none) (time : Duration) :
      Tracks (Scheduler.remove
        { c with processes := c.processes.insert id { job with time := some time } } id)
      (without id live) waiting := by
  set c' : Scheduler := { c with processes := c.processes.insert id { job with time := some time } }
  obtain ⟨p, hp, hid⟩ := h.active id ⟨job, hjob, hstarted, htime⟩
  have hnodup := h.nodup
  rw [map_append, nodup_append] at hnodup
  -- numbers are distinct, so just one process goes
  have honly : ∀ q ∈ live ++ waiting, q.id = id → q = p := fun q hq hqid =>
    inj_on_of_nodup_map h.nodup hq (mem_append_left _ hp) (hqid.trans hid.symm)
  have hleft : ∀ q, q ∈ without id live ++ waiting ↔ q ∈ live ++ waiting ∧ q.id ≠ id := by
    intro q
    have hapart : q ∈ waiting → q.id ≠ id := fun hq hqid =>
      hnodup.2.2 _ (mem_map.2 ⟨p, hp, hid⟩) _ (mem_map.2 ⟨q, hq, hqid⟩) rfl
    rw [mem_append, mem_append, mem_without, or_and_right]
    exact or_congr_right (iff_self_and.2 hapart)
  have hregistered : ∀ e, e ∈ (c'.remove id).claims.entries ↔
      ⟨e.1, some e.2⟩ ∈ without id live ++ waiting := by
    intro e
    rw [mem_claims_remove, hleft, ← h.registered]
  refine ⟨?_, ?_, ?_, hregistered, ?_, ?_⟩
  · have hcount := length_without hnodup.1 hp hid
    have hrunning : c'.running = live.length := h.running
    rw [remove_running]
    omega
  · exact h.nodup.sublist ((filter_sublist.append (List.Sublist.refl waiting)).map Live.id)
  · intro q hq
    rw [remove_lastId]
    exact h.id_le q ((hleft q).1 hq).1
  · rintro j ⟨job', hget, hs, ht⟩
    rw [remove_processes] at hget
    by_cases hj : j = id
    · subst hj
      obtain rfl : { job with time := some time } = job' := by simpa [c'] using hget
      simp at ht
    · have hget' : c.processes.get? j = some job' := by
        rwa [Table.get?_insert_of_ne _ hj] at hget
      obtain ⟨q, hq, hqid⟩ := h.active j ⟨job', hget', hs, ht⟩
      exact ⟨q, mem_without.2 ⟨hq, by rw [hqid]; exact hj⟩, hqid⟩
  · rw [claimed_remove]
    split
    · exact .inl (Claims.gathers_all hregistered)
    · rename_i hnone
      -- nothing is known of the process, so the claims together do not change
      have hunknown : p.claims = none := by
        cases hcl : p.claims with
        | none => rfl
        | some cl =>
          refine absurd (Table.contains_iff_mem_keys.2 (Table.mem_keys_iff.2 ⟨cl, ?_⟩)) hnone
          refine (h.registered (id, cl)).2 (mem_append_left _ ?_)
          rwa [← hid, ← hcl]
      have hknown : ∀ q : Live, q.claims.isSome → q ≠ p := by
        rintro q hq rfl
        simp [hunknown] at hq
      rcases h.claimed with hg | ⟨hne, q, hq, hqs⟩
      · refine .inl ((Claims.gathers_iff_of_known fun q hqs => ?_).1 hg)
        rw [hleft]
        exact iff_self_and.2 fun hq hqid => hknown q hqs (honly q hq hqid)
      · refine .inr ⟨hne, q, mem_without.2 ⟨hq, fun hqid => ?_⟩, hqs⟩
        exact hknown q hqs (honly q (mem_append_left _ hq) hqid)

/-- **A process is numbered.**  It waits, and nothing is known of it. -/
theorem Tracks.number (h : c.Tracks live []) (region : String) (width : Option Int)
    (byRegion : Table String (List Int)) :
    Tracks { c with
      lastId := c.lastId + 1
      processes := c.processes.insert (c.lastId + 1) { region, width }
      byRegion } live [⟨c.lastId + 1, none⟩] := by
  have hle : ∀ p ∈ live, p.id ≤ c.lastId := fun p hp => h.id_le p (mem_append_left _ hp)
  have hnodup := h.nodup
  rw [append_nil] at hnodup
  refine ⟨h.running, ?_, ?_, ?_, ?_, ?_⟩
  · rw [map_append, nodup_append]
    refine ⟨hnodup, nodup_singleton _, ?_⟩
    intro id hid _ hnew
    obtain ⟨p, hp, rfl⟩ := mem_map.1 hid
    obtain rfl := mem_singleton.1 hnew
    have := hle p hp
    show p.id ≠ c.lastId + 1
    omega
  · intro p hp
    show p.id ≤ c.lastId + 1
    rcases mem_append.1 hp with hp | hp
    · have := hle p hp
      omega
    · obtain rfl := mem_singleton.1 hp
      exact Int.le_refl _
  · intro e
    simpa using h.registered e
  · rintro id ⟨job, hget, hs, ht⟩
    by_cases hid : id = c.lastId + 1
    · subst hid
      obtain rfl : ({ region, width } : Job) = job := by simpa using hget
      simp at hs
    · rw [Table.get?_insert_of_ne _ hid] at hget
      exact h.active id ⟨job, hget, hs, ht⟩
  · refine .inl ((Claims.gathers_iff_of_known ?_).1 h.gathers)
    intro p hp
    simp only [mem_append, mem_singleton, iff_self_or]
    rintro rfl
    simp at hp

/-- **The claims of the process that waits are recorded.**  They are added to the claims together if
the process can run beside the others; otherwise one of these has claims. -/
theorem Tracks.setClaims (h : c.Tracks live [⟨id, none⟩]) (hg : c.claimed.Gathers live)
    (cl : Claims) {safe : Bool} (hsafe : safe = c.claimed.compatible cl) :
    Tracks { c with
      claims := c.claims.insert id cl
      claimed := if safe then c.claimed.add cl else c.claimed } live [⟨id, some cl⟩] := by
  have hnew : id ∉ c.claims.keys := by
    rw [Table.mem_keys_iff]
    rintro ⟨cl', hcl'⟩
    have hmem := (h.registered (id, cl')).1 hcl'
    cases inj_on_of_nodup_map h.nodup hmem (mem_append_right live (mem_singleton_self _)) rfl
  refine ⟨h.running, ?_, ?_, ?_, h.active, ?_⟩
  · have hnodup := h.nodup
    rw [map_append] at hnodup ⊢
    exact hnodup
  · intro p hp
    rcases mem_append.1 hp with hp | hp
    · exact h.id_le p (mem_append_left _ hp)
    · obtain rfl := mem_singleton.1 hp
      exact h.id_le ⟨id, none⟩ (mem_append_right live (mem_singleton_self _))
  · intro e
    obtain ⟨j, cl'⟩ := e
    rw [Table.entries_insert_of_notMem hnew, mem_append, h.registered]
    simp
  · cases safe with
    | true => exact .inl (hg.add id cl)
    | false =>
      refine .inr ⟨cons_ne_nil _ _, ?_⟩
      -- claims that are not compatible are not all empty
      have hmeet : ¬ c.claimed.compatible cl := by simp [← hsafe]
      rw [Claims.compatible_iff, not_and_or] at hmeet
      rcases hmeet with hmeet | hmeet
      · push Not at hmeet
        obtain ⟨x, hx, -⟩ := hmeet
        obtain ⟨p, hp, hxp⟩ := (hg.outputs x).1 hx
        exact ⟨p, hp, Live.claims_isSome_of_mem_outputs hxp⟩
      · push Not at hmeet
        obtain ⟨x, hx, -⟩ := hmeet
        obtain ⟨p, hp, hxp⟩ := (hg.inputs x).1 hx
        exact ⟨p, hp, Live.claims_isSome_of_mem_inputs hxp⟩

/-- **The process that waits starts.** -/
theorem Tracks.launch {new : Live} (h : c.Tracks live [new])
    (hg : c.claimed.Gathers (live ++ [new])) (exclusive : Bool) (job : Job) :
    Tracks { c with
      exclusive
      running := c.running + 1
      processes := c.processes.insert new.id job } (live ++ [new]) [] := by
  refine ⟨?_, ?_, ?_, ?_, ?_, ?_⟩
  · show c.running + 1 = _
    rw [h.running, length_append]
    rfl
  · rw [append_nil]
    exact h.nodup
  · rw [append_nil]
    exact h.id_le
  · rw [append_nil]
    exact h.registered
  · rintro id ⟨job', hget, hs, ht⟩
    by_cases hid : id = new.id
    · exact ⟨new, mem_append_right _ (mem_singleton_self _), hid.symm⟩
    · rw [Table.get?_insert_of_ne _ hid] at hget
      obtain ⟨p, hp, hpid⟩ := h.active id ⟨job', hget, hs, ht⟩
      exact ⟨p, mem_append_left _ hp, hpid⟩
  · rw [append_nil]
    exact .inl hg

end Scheduler

end ShellFlow
