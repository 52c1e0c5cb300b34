import Mathlib.Data.List.Forall2
import Mathlib.Data.List.Induction
import ShellFlow.Supply

/-!
# Taking computations apart

Computations here may fail, and most of them also change a state.  A statement about a computation
that has given a result is proved by taking the computation apart into its steps, each of which has
given a result.

## Contents

* **Computations that may fail** (`bind_eq_ok`, `Except.mapM_eq_ok_iff`, `Except.foldlM_keeps`,
  `Except.foldlM_cases`): one step after another, along a list, and with a value that is passed on.
* **Computations with a state** (`Yields`): one that gives a result and leaves a state, and its
  steps.
-/

namespace ShellFlow

variable {b : Bool} {s s' : Supply} {u : Unit} {α : Type}

universe u v

section Except

variable {ε : Type u} {α β : Type v} {x : Except ε α} {f : α → Except ε β} {as : List α}
  {bs : List β} {b b' : β}

theorem bind_eq_ok : x >>= f = .ok b ↔ ∃ a, x = .ok a ∧ f a = .ok b := by
  cases x with
  | error =>
    constructor
    · intro h
      cases h
    · rintro ⟨a, h, -⟩
      cases h
  | ok a =>
    constructor
    · intro h
      exact ⟨a, rfl, h⟩
    · rintro ⟨a', h, hf⟩
      cases h
      exact hf

theorem map_eq_ok {f : α → β} : x.map f = .ok b ↔ ∃ a, x = .ok a ∧ f a = b := by
  cases x <;> simp [Except.map]

theorem map_eq_error {f : α → β} {e : ε} : x.map f = .error e ↔ x = .error e := by
  cases x <;> simp [Except.map]

theorem pure_eq_ok {a b : α} : (pure a : Except ε α) = .ok b ↔ a = b :=
  Except.ok.injEq a b ▸ Iff.rfl

theorem mapM_cons_eq_ok {a : α} :
    (a :: as).mapM f = .ok bs ↔ ∃ b rest, f a = .ok b ∧ as.mapM f = .ok rest ∧ b :: rest = bs := by
  simp only [List.mapM_cons, bind_eq_ok, pure_eq_ok, exists_and_left]

/-- A computation along a list gives a result for every element. -/
theorem Except.mapM_eq_ok_iff :
    as.mapM f = .ok bs ↔ List.Forall₂ (fun a b => f a = .ok b) as bs := by
  induction as generalizing bs with
  | nil =>
    show Except.ok [] = Except.ok bs ↔ _
    rw [List.forall₂_nil_left_iff, Except.ok.injEq, eq_comm]
  | cons _ _ ih =>
    rw [mapM_cons_eq_ok, List.forall₂_cons_left_iff]
    constructor
    · rintro ⟨b, rest, hb, hrest, rfl⟩
      exact ⟨b, rest, hb, ih.1 hrest, rfl⟩
    · rintro ⟨b, rest, hb, hrest, rfl⟩
      exact ⟨b, rest, hb, ih.2 hrest, rfl⟩

/-- A computation that succeeds wherever another one finds a result finds the same along a list. -/
theorem Except.mapM_eq_ok_of_some {f' : α → Option β} (hf : ∀ a b, f' a = some b → f a = .ok b)
    (h : as.mapM f' = some bs) : as.mapM f = .ok bs := by
  induction as generalizing bs with
  | nil =>
    cases h
    rfl
  | cons a _ ih =>
    simp only [List.mapM_cons, Option.bind_eq_bind, Option.bind_eq_some_iff, Option.pure_def,
      Option.some.injEq] at h
    obtain ⟨b, hb, rest, hrest, rfl⟩ := h
    exact mapM_cons_eq_ok.2 ⟨b, rest, hf a b hb, ih hrest, rfl⟩

/-- If every result of `f` is known, so are the results along a list. -/
theorem Except.mapM_eq_map {φ : α → β} (hf : ∀ a b, f a = .ok b → b = φ a)
    {as : List α} {bs : List β} (h : as.mapM f = .ok bs) : bs = as.map φ := by
  induction as generalizing bs with
  | nil => exact (pure_eq_ok.1 h).symm
  | cons a _ ih =>
    obtain ⟨b, rest, hb, hrest, rfl⟩ := mapM_cons_eq_ok.1 h
    rw [hf a b hb, ih hrest, List.map_cons]

/-- What every step keeps, all steps keep together. -/
theorem Except.foldlM_keeps {f : β → α → Except ε β} {P : β → Prop}
    (hstep : ∀ a ∈ as, ∀ b b', P b → f b a = .ok b' → P b') (hb : P b)
    (h : as.foldlM f b = .ok b') : P b' := by
  induction as generalizing b with
  | nil =>
    cases h
    exact hb
  | cons _ _ ih =>
    obtain ⟨c, hc, h⟩ := bind_eq_ok.1 h
    obtain ⟨hfirst, hrest⟩ := List.forall_mem_cons.1 hstep
    exact ih hrest (hfirst b c hb hc) h

/-- What every step does, all steps do together. -/
theorem Except.foldlM_rel {f : β → α → Except ε β} {R : β → β → Prop} (hrefl : ∀ b, R b b)
    (htrans : ∀ a b c, R a b → R b c → R a c) (hstep : ∀ b a b', f b a = .ok b' → R b b')
    {as : List α} {b b' : β} (h : as.foldlM f b = .ok b') : R b b' :=
  Except.foldlM_keeps (fun a _ c c' hc hfc => htrans b c c' hc (hstep c a c' hfc)) (hrefl b) h

/-- Steps fail together as one of them fails, or all keep what every one of them keeps.  What is
kept may depend on the steps that were made. -/
theorem Except.foldlM_cases {f : β → α → Except ε β} {E : ε → Prop} {P : List α → β → Prop}
    (hb : P [] b) (hstep : ∀ done a rest b, as = done ++ a :: rest → P done b →
      (∃ e, f b a = .error e ∧ E e) ∨ ∃ b', f b a = .ok b' ∧ P (done ++ [a]) b') :
    (∃ e, as.foldlM f b = .error e ∧ E e) ∨ ∃ b', as.foldlM f b = .ok b' ∧ P as b' := by
  induction as using List.reverseRecOn with
  | nil => exact .inr ⟨b, rfl, hb⟩
  | append_singleton as a ih =>
    rw [List.foldlM_append]
    rcases ih fun done x rest b hsplit => hstep done x (rest ++ [a]) b (by simp [hsplit]) with
      ⟨e, herror, he⟩ | ⟨c, hok, hc⟩
    · exact .inl ⟨e, by rw [herror]; rfl, he⟩
    · rw [hok, show (.ok c >>= fun c => [a].foldlM f c) = f c a from bind_pure (f c a)]
      exact hstep as a [] c rfl hc

/-- A step that changes nothing can be repeated. -/
theorem Except.foldlM_eq_self {f : β → α → Except ε β} (h : ∀ a ∈ as, f b a = .ok b) :
    as.foldlM f b = .ok b := by
  induction as with
  | nil => rfl
  | cons _ _ ih =>
    obtain ⟨ha, has⟩ := List.forall_mem_cons.1 h
    exact bind_eq_ok.2 ⟨b, ha, ih has⟩

theorem Except.exists_map_eq_ok {f : α → β} : (∃ b, x.map f = .ok b) ↔ ∃ a, x = .ok a := by
  cases x <;> simp [Except.map]

end Except

theorem require_eq_ok : require b = .ok u ↔ b := by
  cases b <;> simp [require]

section State

variable {σ β : Type} {s s' t : σ} {u : PUnit} {x : ExceptT Fault (StateM σ) α}
  {f : α → ExceptT Fault (StateM σ) β} {a c : α} {b d : β}

/-- A computation gives a result and leaves a state. -/
def Yields (x : ExceptT Fault (StateM σ) α) (s : σ) (a : α) (s' : σ) : Prop :=
  Id.run (StateT.run (ExceptT.run x) s) = (.ok a, s')

theorem Yields.unique (h : Yields x s a t) (h' : Yields x s c s') : a = c ∧ t = s' := by
  have heq := h.symm.trans h'
  simpa using heq

theorem yields_pure : Yields (pure a : ExceptT Fault (StateM σ) α) s c s' ↔ a = c ∧ s = s' := by
  show ((Except.ok a, s) : Except Fault α × σ) = (.ok c, s') ↔ _
  simp

theorem yields_throw {e : Fault} : Yields (throw e : ExceptT Fault (StateM σ) α) s a s' ↔
    False := by
  show ((Except.error e, s) : Except Fault α × σ) = (.ok a, s') ↔ _
  simp

/-- **A computation that has given a result has done so step by step.** -/
theorem yields_bind : Yields (x >>= f) s b s' ↔ ∃ a t, Yields x s a t ∧ Yields (f a) t b s' := by
  have hrun : Id.run (StateT.run (ExceptT.run (x >>= f)) s) =
      Id.run (StateT.run (ExceptT.bindCont f (StateT.run (ExceptT.run x) s).1)
        (StateT.run (ExceptT.run x) s).2) := rfl
  unfold Yields
  rw [hrun]
  rcases StateT.run (ExceptT.run x) s with ⟨r, t⟩
  cases r with
  | error =>
    constructor
    · intro h
      cases h
    · rintro ⟨a, t', heq, -⟩
      cases heq
  | ok a =>
    constructor
    · intro h
      exact ⟨a, t, rfl, h⟩
    · rintro ⟨a', t', heq, h⟩
      cases heq
      exact h

theorem Yields.pure (h : Yields (pure a : ExceptT Fault (StateM σ) α) s c s') : a = c ∧ s = s' :=
  yields_pure.1 h

theorem Yields.pure_pair
    (h : Yields (Pure.pure (a, b) : ExceptT Fault (StateM σ) (α × β)) s (c, d) s') :
    a = c ∧ b = d ∧ s = s' := by
  rwa [yields_pure, Prod.mk.injEq, and_assoc] at h

theorem Yields.bind (h : Yields (x >>= f) s b s') : ∃ a t, Yields x s a t ∧ Yields (f a) t b s' :=
  yields_bind.1 h

theorem yields_get {a : σ} : Yields (get : ExceptT Fault (StateM σ) σ) s a s' ↔ s = a ∧ s = s' := by
  show ((Except.ok s, s) : Except Fault σ × σ) = (.ok a, s') ↔ _
  simp

theorem yields_get_bind {f : σ → ExceptT Fault (StateM σ) β} : Yields (get >>= f) s b s' ↔
    Yields (f s) s b s' := by
  rw [yields_bind]
  constructor
  · rintro ⟨_, _, hget, hf⟩
    obtain ⟨rfl, rfl⟩ := yields_get.1 hget
    exact hf
  · intro hf
    exact ⟨s, s, yields_get.2 ⟨rfl, rfl⟩, hf⟩

theorem yields_set : Yields (set t : ExceptT Fault (StateM σ) PUnit) s u s' ↔ t = s' := by
  show ((Except.ok PUnit.unit, t) : Except Fault PUnit × σ) = (.ok u, s') ↔ _
  simp

theorem yields_modify {f : σ → σ} : Yields (modify f : ExceptT Fault (StateM σ) PUnit) s u s' ↔
    f s = s' := by
  show ((Except.ok PUnit.unit, f s) : Except Fault PUnit × σ) = (.ok u, s') ↔ _
  simp

end State

section Lift

variable {β : Type} {x : Except Fault α} {f : α → Build β} {b : β}

theorem yields_lift {a : α} : Yields (Build.lift x) s a s' ↔ x = .ok a ∧ s = s' := by
  cases x with
  | error => simp [Build.lift, yields_throw]
  | ok => simp [Build.lift, yields_pure]

theorem yields_lift_bind : Yields (Build.lift x >>= f) s b s' ↔
    ∃ a, x = .ok a ∧ Yields (f a) s b s' := by
  rw [yields_bind]
  constructor
  · rintro ⟨a, t, hlift, hf⟩
    obtain ⟨hx, rfl⟩ := yields_lift.1 hlift
    exact ⟨a, hx, hf⟩
  · rintro ⟨a, hx, hf⟩
    exact ⟨a, s, yields_lift.2 ⟨hx, rfl⟩, hf⟩

theorem Yields.lift_bind (h : Yields (Build.lift x >>= f) s b s') :
    ∃ a, x = .ok a ∧ Yields (f a) s b s' :=
  yields_lift_bind.1 h

end Lift

theorem yields_require {t t' : Supply} : Yields (Build.require b) t u t' ↔ b ∧ t = t' := by
  cases b with
  | false => simp [Build.require, yields_throw]
  | true => simp [Build.require, yields_pure]

/-- A computation that can be run gives a result that passes a test. -/
theorem exists_yields_of_any {α : Type} {x : Build α} {s : Supply} {test : α → Bool}
    (h : (x.outcome s).1.toOption.any test) : ∃ a s', Yields x s a s' ∧ test a := by
  rcases hx : x.outcome s with ⟨r, s'⟩
  rw [hx] at h
  cases r with
  | error => cases h
  | ok a => exact ⟨a, s', hx, h⟩

theorem exists_yields_of_isOk {α : Type} {x : Build α} {s : Supply} (h : (x.outcome s).1.isOk) :
    ∃ a s', Yields x s a s' := by
  rcases hx : x.outcome s with ⟨r, s'⟩
  rw [hx] at h
  cases r with
  | error => cases h
  | ok a => exact ⟨a, s', hx⟩

end ShellFlow
