import Mathlib.Logic.Relation
import ShellFlow.Cluster.Worker

/-!
# Work is spread evenly

The worker to be given work is found in one pass over the list, which keeps the best worker so far.
Behind the pass it is the first of those that suit and run least, so whoever is engaged ran no more
than the others: what workers that are online run never differs by more than one.
-/

namespace ShellFlow.Worker

open List Relation

variable {cs : List (Channel Int)} {ws ws' : List Worker} {b : Nat × Worker} {i : Nat} {w : Worker}

/-! ### The best worker -/

/-- The first of the workers that suit and run least, with its position. -/
structure IsFirstLeast (cs : List (Channel Int)) (ws : List Worker) (b : Nat × Worker) : Prop where
  stands : ws[b.1]? = some b.2
  suits : b.2.suits cs
  least : ∀ w ∈ ws, w.suits cs → b.2.running ≤ w.running
  first : ∀ i w, ws[i]? = some w → i < b.1 → w.suits cs → b.2.running < w.running

/-- The best worker of a list, if any suits. -/
inductive IsBest (cs : List (Channel Int)) (ws : List Worker) : Option (Nat × Worker) → Prop
  | nobody (h : ∀ w ∈ ws, w.suits cs = false) : IsBest cs ws none
  | worker {b : Nat × Worker} (h : IsFirstLeast cs ws b) : IsBest cs ws (some b)

/-- A worker that suits better than all in front of it. -/
theorem isFirstLeast_concat (hw : w.suits cs) (h : ∀ v ∈ ws, v.suits cs → w.running < v.running) :
    IsFirstLeast cs (ws ++ [w]) (ws.length, w) where
  stands := getElem?_concat_length
  suits := hw
  least := by
    intro v hv hsuits
    rcases mem_append.1 hv with hv | hv
    · exact Int.le_of_lt (h v hv hsuits)
    · exact (mem_singleton.1 hv) ▸ Int.le_refl _
  first := by
    intro j v hv hj hsuits
    rw [getElem?_append_left hj] at hv
    exact h v (mem_of_getElem? hv) hsuits

/-- A worker behind the best one that does not suit better. -/
theorem IsFirstLeast.concat (h : IsFirstLeast cs ws b) (hw : w.suits cs → b.2.running ≤ w.running) :
    IsFirstLeast cs (ws ++ [w]) b := by
  obtain ⟨hlt, -⟩ := List.getElem?_eq_some_iff.1 h.stands
  refine ⟨by rw [getElem?_append_left hlt, h.stands], h.suits, ?_, ?_⟩
  · intro v hv hsuits
    rcases mem_append.1 hv with hv | hv
    · exact h.least v hv hsuits
    · rw [mem_singleton.1 hv] at hsuits ⊢
      exact hw hsuits
  · intro j v hv hj hsuits
    rw [getElem?_append_left (Nat.lt_trans hj hlt)] at hv
    exact h.first j v hv hj hsuits

theorem IsBest.concat {best : Option (Nat × Worker)} (h : IsBest cs ws best) (w : Worker) :
    IsBest cs (ws ++ [w]) (if w.suits cs then better best (ws.length, w) else best) := by
  split
  · next hw =>
    cases h with
    | nobody hnone =>
      exact .worker (isFirstLeast_concat hw fun v hv hsuits => absurd hsuits (by simp [hnone v hv]))
    | worker hb =>
      rw [better]
      split
      · next hlt =>
          exact .worker (isFirstLeast_concat hw fun v hv hsuits =>
            Int.lt_of_lt_of_le hlt (hb.least v hv hsuits))
      · next hle => exact .worker (hb.concat fun _ => Int.not_lt.1 hle)
  · next hw =>
    cases h with
    | nobody hnone => exact .nobody (forall_mem_append.2 ⟨hnone, by simpa using hw⟩)
    | worker hb => exact .worker (hb.concat fun hsuits => absurd hsuits hw)

/-- **The pass over the list finds the best worker.**  The induction is on the workers still to be
looked at; those in front of them have a best one already. -/
theorem IsBest.append {best : Option (Nat × Worker)} (h : IsBest cs ws best) (us : List Worker) :
    IsBest cs (ws ++ us) (bestFrom cs best ws.length us) := by
  induction us generalizing ws best with
  | nil => rwa [append_nil]
  | cons u _ ih =>
    have hnext := ih (h.concat u)
    rwa [append_assoc, length_append] at hnext

theorem isBest_bestFrom (cs : List (Channel Int)) (ws : List Worker) :
    IsBest cs ws (bestFrom cs none 0 ws) :=
  have hnone : IsBest cs [] none := .nobody (by simp)
  hnone.append ws

theorem isFirstLeast_of_choose (h : choose ws cs = .ok b) : IsFirstLeast cs ws b := by
  have hbest := isBest_bestFrom cs ws
  rw [choose] at h
  generalize bestFrom cs none 0 ws = best at h hbest
  cases hbest with
  | nobody => cases h
  | worker hb =>
    cases h
    exact hb

/-- There is nobody to choose exactly if nobody suits. -/
theorem choose_fails_iff : (∃ e, choose ws cs = .error e) ↔ ∀ w ∈ ws, w.suits cs = false := by
  have hbest := isBest_bestFrom cs ws
  rw [choose]
  generalize bestFrom cs none 0 ws = best at hbest
  cases hbest with
  | nobody hnone => exact iff_of_true ⟨_, rfl⟩ hnone
  | worker hb =>
    refine iff_of_false (by simp) fun hnone => ?_
    exact absurd hb.suits (by simp [hnone _ (mem_of_getElem? hb.stands)])

/-! ### One worker after the other -/

/-- A worker is chosen for work that may be done anywhere, and engaged. -/
def Engages (ws ws' : List Worker) : Prop := ∃ i w, choose ws [] = .ok (i, w) ∧ engage ws i = ws'

theorem suits_iff : w.suits cs ↔ w.online ∧ ∀ c ∈ cs, c.isAvailableOn (.text w.host) := by
  simp [suits]

theorem mem_engage (h : w ∈ engage ws i) :
    w ∈ ws ∨ ∃ v, ws[i]? = some v ∧ w = { v with running := v.running + 1 } := by
  obtain ⟨j, hj⟩ := mem_iff_getElem?.1 h
  rw [engage, getElem?_modify] at hj
  obtain ⟨v, hv, rfl⟩ := Option.map_eq_some_iff.1 hj
  by_cases hij : i = j
  · exact .inr ⟨v, hij ▸ hv, if_pos hij⟩
  · exact .inl (if_neg hij ▸ mem_of_getElem? hv)

theorem map_online_engage (ws : List Worker) (i : Nat) :
    (engage ws i).map online = ws.map online := by
  refine ext_getElem? fun j => ?_
  rw [engage, getElem?_map, getElem?_map, getElem?_modify]
  by_cases hij : i = j <;> cases ws[j]? <;> simp [hij]

/-- What workers that are online run differs by at most one. -/
def Balanced (ws : List Worker) : Prop :=
  ∀ a ∈ ws, ∀ b ∈ ws, a.online → b.online → a.running ≤ b.running + 1

/-- **Engaging the worker that runs least keeps the balance.** -/
theorem Balanced.engages (h : Balanced ws) (hstep : Engages ws ws') : Balanced ws' := by
  obtain ⟨i, w, hchoose, rfl⟩ := hstep
  obtain ⟨hstands, hsuits, hleast, -⟩ := isFirstLeast_of_choose hchoose
  have hnew : ∀ v, ws[i]? = some v → v = w := fun v hv => Option.some.inj (hv.symm.trans hstands)
  intro a ha b hb haon hbon
  rcases mem_engage ha with ha | ⟨v, hv, rfl⟩ <;> rcases mem_engage hb with hb | ⟨u, hu, rfl⟩
  · exact h a ha b hb haon hbon
  · rw [hnew u hu]
    have hle := h a ha w (mem_of_getElem? hstands) haon (suits_iff.1 hsuits).1
    exact Int.le_trans hle (Int.le_add_one (Int.le_refl _))
  · rw [hnew v hv]
    exact Int.add_le_add_right (hleast b hb (suits_iff.2 ⟨hbon, by simp⟩)) 1
  · rw [hnew u hu, hnew v hv]
    exact Int.le_add_one (Int.le_refl _)

/-- A run of such steps keeps the balance, and who is online. -/
theorem Balanced.run (h : Balanced ws) (hrun : ReflTransGen Engages ws ws') :
    Balanced ws' ∧ ws'.map online = ws.map online := by
  induction hrun with
  | refl => exact ⟨h, rfl⟩
  | tail _ hstep ih =>
    refine ⟨ih.1.engages hstep, ?_⟩
    obtain ⟨i, w, -, rfl⟩ := hstep
    rw [map_online_engage, ih.2]

/-- **Work is spread evenly.**  From workers that run nothing, after any number of steps, a worker
can be chosen exactly if one is online, only workers that are online are chosen, and what they run
differs by at most one.  A worker that is chosen for some channels is online and has them all; of
such workers it runs least, and is the first that does. -/
theorem choose_spreads (hidle : ∀ w ∈ ws, w.running = 0) :
    (∀ ws', ReflTransGen Engages ws ws' →
      ((∃ e, choose ws' [] = .error e) ↔ ∀ w ∈ ws, w.online = false) ∧
      (∀ i w, choose ws' [] = .ok (i, w) → ws'[i]? = some w ∧ w.online = true) ∧
      ∀ a ∈ ws', ∀ b ∈ ws', a.online = true → b.online = true →
      (a.running - b.running).natAbs ≤ 1) ∧
    ∀ (us : List Worker) (cs : List (Channel Int)) (i : Nat) (w : Worker), choose us cs =
      .ok (i, w) → us[i]? = some w ∧ w.online = true ∧
      (∀ c ∈ cs, c.isAvailableOn (.text w.host) = true) ∧
      ∀ j v, us[j]? = some v → v.online = true → (∀ c ∈ cs, c.isAvailableOn (.text v.host) = true) →
        w.running ≤ v.running ∧ (j < i → w.running < v.running) := by
  have hstart : Balanced ws := fun a ha b hb _ _ => by rw [hidle a ha, hidle b hb]; decide
  constructor
  · intro ws' hrun
    obtain ⟨hbalanced, honline⟩ := hstart.run hrun
    refine ⟨?_, fun i w h => ?_, fun a ha b hb haon hbon => ?_⟩
    · have hsame : (∀ w ∈ ws', w.online = false) ↔ ∀ w ∈ ws, w.online = false := by
        have hall := congrArg (fun os => ∀ o ∈ os, o = false) honline
        simpa using hall
      rw [choose_fails_iff, ← hsame]
      simp [suits]
    · have hw := isFirstLeast_of_choose h
      exact ⟨hw.stands, (suits_iff.1 hw.suits).1⟩
    · have hab := hbalanced a ha b hb haon hbon
      have hba := hbalanced b hb a ha hbon haon
      omega
  · intro us cs i w h
    have hw := isFirstLeast_of_choose h
    obtain ⟨honline, hholds⟩ := suits_iff.1 hw.suits
    refine ⟨hw.stands, honline, hholds, fun j v hv hon hall => ?_⟩
    have hsuits := suits_iff.2 ⟨hon, hall⟩
    exact ⟨hw.least v (mem_of_getElem? hv) hsuits, fun hj => hw.first j v hv hj hsuits⟩

/-- Two workers that are online, with one between them that is not. -/
def trio (first last : Int) : List Worker :=
  [{ host := "a", port := .int 1, running := first },
    { host := "b", port := .int 1, online := false },
    { host := "c", port := .int 1, running := last }]

/-- Three steps engage the first and the last worker in turn. -/
theorem choose_spreads_trio :
    (∀ w ∈ trio 0 0, w.running = 0) ∧ ReflTransGen Engages (trio 0 0) (trio 2 1) ∧
    (∀ a ∈ trio 2 1, ∀ b ∈ trio 2 1, a.online = true → b.online = true →
      (a.running - b.running).natAbs ≤ 1) ∧
    ∀ i w, choose (trio 2 1) [] = .ok (i, w) → w.online = true := by
  have hidle : ∀ w ∈ trio 0 0, w.running = 0 := by simp [trio]
  have hrun : ReflTransGen Engages (trio 0 0) (trio 2 1) :=
    ((ReflTransGen.single ⟨0, _, rfl, rfl⟩).tail (b := trio 1 0) ⟨2, _, rfl, rfl⟩).tail
      (b := trio 1 1) ⟨0, _, rfl, rfl⟩
  obtain ⟨-, honline, hbalanced⟩ := (choose_spreads hidle).1 _ hrun
  exact ⟨hidle, hrun, hbalanced, fun i w h => (honline i w h).2⟩

end ShellFlow.Worker
