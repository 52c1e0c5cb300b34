import ShellFlow.Preprocess.Script
import ShellFlow.Proofs.Outcome

/-!
# Taking traversals apart

A computation over a traversal draws fresh names and may fail, as the computations below it do, and
changes the traversal besides.
-/

namespace ShellFlow

variable {α β : Type} {t t' : Traversal} {s s' : Supply} {trees : List Tree} {u : Traversal}
  {v : PUnit}

/-- A computation over a traversal gives a result and leaves a traversal and a supply. -/
def Reaches (x : Preprocess α) (t : Traversal) (s : Supply) (a : α) (t' : Traversal) (s' : Supply) :
    Prop :=
  Yields (x.run t) s (a, t') s'

theorem reaches_pure {a b : α} : Reaches (pure a) t s b t' s' ↔ a = b ∧ t = t' ∧ s = s' := by
  unfold Reaches
  rw [StateT.run_pure, yields_pure, Prod.mk.injEq, and_assoc]

theorem reaches_throw {e : Fault} {b : α} : Reaches (throw e) t s b t' s' ↔ False := by
  show Yields ((throw e : Build α) >>= fun a => pure (a, t)) s (b, t') s' ↔ False
  simp [yields_throw]

/-- **A computation over a traversal that has given a result has done so step by step.** -/
theorem reaches_bind {x : Preprocess α} {f : α → Preprocess β} {b : β} :
    Reaches (x >>= f) t s b t' s' ↔ ∃ a u r, Reaches x t s a u r ∧ Reaches (f a) u r b t' s' := by
  unfold Reaches
  rw [StateT.run_bind, yields_bind, Prod.exists]

theorem Reaches.pure {a b : α} (h : Reaches (pure a) t s b t' s') : a = b ∧ t = t' ∧ s = s' :=
  reaches_pure.1 h

theorem Reaches.bind {x : Preprocess α} {f : α → Preprocess β} {b : β}
    (h : Reaches (x >>= f) t s b t' s') :
    ∃ a u r, Reaches x t s a u r ∧ Reaches (f a) u r b t' s' :=
  reaches_bind.1 h

theorem reaches_get : Reaches get t s u t' s' ↔ t = u ∧ t = t' ∧ s = s' := by
  unfold Reaches
  rw [StateT.run_get, yields_pure, Prod.mk.injEq, and_assoc]

theorem reaches_set : Reaches (set u) t s v t' s' ↔ u = t' ∧ s = s' := by
  unfold Reaches
  rw [StateT.run_set, yields_pure]
  simp

theorem reaches_modify {f : Traversal → Traversal} : Reaches (modify f) t s v t' s' ↔
    f t = t' ∧ s = s' := by
  unfold Reaches
  rw [StateT.run_modify, yields_pure]
  simp

/-- What only draws names leaves the traversal as it is. -/
theorem reaches_lift {x : Build α} {a : α} : Reaches (liftM x) t s a t' s' ↔
    Yields x s a s' ∧ t = t' := by
  unfold Reaches
  rw [StateT.run_monadLift, yields_bind]
  constructor
  · rintro ⟨b, r, hx, hpure⟩
    obtain ⟨heq, rfl⟩ := hpure.pure
    cases heq
    exact ⟨hx, rfl⟩
  · rintro ⟨hx, rfl⟩
    exact ⟨a, s', hx, yields_pure.2 ⟨rfl, rfl⟩⟩

theorem exists_reaches_of_isOk {x : Preprocess α} (h : ((x.run t).outcome s).1.isOk) :
    ∃ a t' s', Reaches x t s a t' s' := by
  obtain ⟨⟨a, t'⟩, s', hx⟩ := exists_yields_of_isOk h
  exact ⟨a, t', s', hx⟩

def scratchFile (number : Nat) : String := Settings.standard.scratchPath ("tmp" ++ toString number)

theorem yields_freshFile {path : String} : Yields freshFile s path s' ↔
      path = scratchFile (s.scratch + 1) ∧ s' = { s with scratch := s.scratch + 1 } := by
  unfold freshFile Build.freshScratch
  simp only [yields_bind, yields_get, yields_set, yields_pure, scratchFile]
  constructor
  · rintro ⟨n, r, ⟨a, u, ⟨rfl, rfl⟩, ⟨v, w, rfl, rfl, rfl⟩⟩, rfl, rfl⟩
    exact ⟨rfl, rfl⟩
  · rintro ⟨rfl, rfl⟩
    exact ⟨_, _, ⟨_, _, ⟨rfl, rfl⟩, ⟨.unit, _, rfl, rfl, rfl⟩⟩, rfl, rfl⟩

theorem regionText_some {text script : String} (h : regionText trees (some text) = .ok script) :
    script = text := by
  obtain ⟨known, hknown, hwritten⟩ := bind_eq_ok.1 h
  cases hknown
  obtain ⟨octets, -, hpure⟩ := bind_eq_ok.1 hwritten
  exact (pure_eq_ok.1 hpure).symm

/-- **Storing a region** puts its trees and its text into the next two scratch files. -/
theorem reaches_storeRegion {text : Option String} {inSequence : Bool} {call : Tree}
    (h : Reaches (storeRegion .direct trees text inSequence) t s call t' s') :
    ∃ script, regionText trees text = .ok script ∧
      call = directCall (scratchFile (s.scratch + 1)) (scratchFile (s.scratch + 2)) inSequence ∧
      t' = { t with
        files := (t.files.insert (scratchFile (s.scratch + 1)) (.region trees)).insert
          (scratchFile (s.scratch + 2)) (.text script) } ∧
      s' = { s with scratch := s.scratch + 2 } := by
  unfold storeRegion at h
  obtain ⟨script, u, r, htext, h⟩ := h.bind
  obtain ⟨hscript, rfl⟩ := reaches_lift.1 htext
  obtain ⟨hok, rfl⟩ := yields_lift.1 hscript
  obtain ⟨regionFile, u, r, hfirst, h⟩ := h.bind
  obtain ⟨hregion, rfl⟩ := reaches_lift.1 hfirst
  obtain ⟨rfl, rfl⟩ := yields_freshFile.1 hregion
  obtain ⟨scriptFile, u, r, hsecond, h⟩ := h.bind
  obtain ⟨hfile, rfl⟩ := reaches_lift.1 hsecond
  obtain ⟨rfl, rfl⟩ := yields_freshFile.1 hfile
  obtain ⟨_, u, r, hmodify, h⟩ := h.bind
  obtain ⟨rfl, rfl⟩ := reaches_modify.1 hmodify
  obtain ⟨rfl, rfl, rfl⟩ := h.pure
  exact ⟨script, hok, rfl, rfl, rfl⟩

end ShellFlow
