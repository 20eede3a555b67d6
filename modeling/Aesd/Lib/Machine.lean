import Mathlib.Logic.Basic
import Mathlib.Data.List.Basic

/-!
# Runs of a machine with inputs

A machine is a step function `step : σ → ι → Option σ`: in a state, an input is either not
possible (`none`) or leads to the next state.  The inputs carry every choice there is, so a run is
a list of inputs, `exec` computes where it leads and `decide` can evaluate it.

`Run step ok s is t` is the same as a relation, for runs all of whose steps meet the condition `ok`
on the state before the step and its input.  `Run.invariant` is the induction rule: what one such
step preserves, the run preserves.
-/

set_option autoImplicit false

namespace Machine

variable {σ ι : Type*} (step : σ → ι → Option σ)

/-- Where a list of inputs leads. -/
def exec : σ → List ι → Option σ
  | s, [] => some s
  | s, i :: is =>
    match step s i with
    | some t => exec t is
    | none => none

/-- Runs all of whose steps meet the condition `ok`. -/
inductive Run (ok : σ → ι → Prop) : σ → List ι → σ → Prop
  | nil (s : σ) : Run ok s [] s
  | cons {s t u : σ} {i : ι} {is : List ι} (hok : ok s i) (hstep : step s i = some t)
      (hrun : Run ok t is u) : Run ok s (i :: is) u

/-- The condition every step meets. -/
def Always : σ → ι → Prop := fun _ _ ↦ True

/-- What some run leads to from `s`. -/
def Reachable (ok : σ → ι → Prop) (s t : σ) : Prop := ∃ is, Run step ok s is t

variable {step} {ok ok' : σ → ι → Prop} {s t u : σ} {i : ι} {is js : List ι}

namespace Run

theorem single (hok : ok s i) (h : step s i = some t) : Run step ok s [i] t :=
  .cons hok h (.nil t)

theorem append (h : Run step ok s is t) (h' : Run step ok t js u) :
    Run step ok s (is ++ js) u := by
  induction h with
  | nil => exact h'
  | cons hok hstep _ ih => exact .cons hok hstep (ih h')

/-- A weaker condition. -/
theorem mono (h : Run step ok s is t) (hok : ∀ s i, ok s i → ok' s i) : Run step ok' s is t := by
  induction h with
  | nil => exact .nil _
  | cons h hstep _ ih => exact .cons (hok _ _ h) hstep ih

theorem exec_eq (h : Run step ok s is t) : exec step s is = some t := by
  induction h with
  | nil => rfl
  | cons _ hstep _ ih => rw [exec, hstep]; exact ih

/-- **The invariant rule.**  What every step of the run preserves holds where the run ends. -/
theorem invariant {P : σ → Prop} (hP : ∀ s i t, P s → ok s i → step s i = some t → P t)
    (h : Run step ok s is t) (hs : P s) : P t := by
  induction h with
  | nil => exact hs
  | cons hok hstep _ ih => exact ih (hP _ _ _ hs hok hstep)

end Run

/-- One list of inputs after the other. -/
theorem exec_append : exec step s (is ++ js) = some u ↔
    ∃ t, exec step s is = some t ∧ exec step t js = some u := by
  induction is generalizing s with
  | nil => simp [exec]
  | cons i is ih =>
    rw [List.cons_append, exec, exec]
    cases step s i with
    | none => simp
    | some t => exact ih

theorem exec_singleton : exec step s [i] = step s i := by
  rw [exec]
  cases step s i <;> rfl

theorem run_of_exec (h : exec step s is = some t) : Run step Always s is t := by
  induction is generalizing s with
  | nil => cases h; exact .nil _
  | cons i is ih =>
    rw [exec] at h
    split at h
    · rename_i u hu
      exact .cons trivial hu (ih h)
    · exact absurd h (by simp)

/-- A condition that can be computed may be tested while a run is executed. -/
theorem run_of_exec_guarded [∀ s i, Decidable (ok s i)]
    (h : exec (fun s i ↦ if ok s i then step s i else none) s is = some t) :
    Run step ok s is t := by
  induction is generalizing s with
  | nil => cases h; exact .nil _
  | cons i is ih =>
    rw [exec] at h
    split at h
    · rename_i u hu
      split at hu
      · rename_i hok; exact .cons hok hu (ih h)
      · exact absurd hu (by simp)
    · exact absurd h (by simp)

instance (s : σ) (i : ι) : Decidable (Always s i) := inferInstanceAs (Decidable True)

/-! ## Two machines in lockstep -/

section Lockstep

variable {τ : Type*} {step' : τ → ι → Option τ} {R : σ → τ → Prop} {P : ι → Prop}

/-- Two machines that make the same inputs' steps, to states that are related again, make the same
inputs' runs. -/
theorem exec_rel (h : ∀ s a i, R s a → P i → Option.Rel R (step s i) (step' a i)) {a : τ}
    (hR : R s a) (hP : ∀ i ∈ is, P i) : Option.Rel R (exec step s is) (exec step' a is) := by
  induction is generalizing s a with
  | nil => exact .some hR
  | cons i is ih =>
    have hstep := h s a i hR (hP i (List.mem_cons_self ..))
    rw [exec, exec]
    revert hstep
    cases step s i <;> cases step' a i <;> intro hstep
    · exact .none
    · cases hstep
    · cases hstep
    · cases hstep with
      | some hR => exact ih hR fun j hj ↦ hP j (List.mem_cons_of_mem _ hj)

end Lockstep

/-! ## What is observed of a run -/

section Observed

variable {β : Type*} {f : σ → ι → Option β}

/-- What the steps of a run show, in order: `f` says what a step shows, if anything. -/
def observed (step : σ → ι → Option σ) (f : σ → ι → Option β) : σ → List ι → List β
  | _, [] => []
  | s, i :: is =>
    match step s i with
    | some t => (f s i).toList ++ observed step f t is
    | none => []

theorem observed_cons (h : step s i = some t) (is : List ι) :
    observed step f s (i :: is) = (f s i).toList ++ observed step f t is := by
  rw [observed, h]

/-- A step that shows nothing. -/
theorem observed_cons_none (h : step s i = some t) (hf : f s i = none) (is : List ι) :
    observed step f s (i :: is) = observed step f t is := by
  rw [observed_cons h, hf, Option.toList_none, List.nil_append]

theorem Run.observed_append (h : Run step ok s is t) (js : List ι) :
    observed step f s (is ++ js) = observed step f s is ++ observed step f t js := by
  induction h with
  | nil => rfl
  | cons _ hstep _ ih =>
    rw [List.cons_append, observed_cons hstep, observed_cons hstep, ih, List.append_assoc]

/-- **What a run shows**, if every step adds to it what the step shows. -/
theorem Run.records {R : σ → List β → Prop} {bs : List β}
    (hR : ∀ s i t bs, R s bs → ok s i → step s i = some t → R t (bs ++ (f s i).toList))
    (h : Run step ok s is t) (hs : R s bs) : R t (bs ++ observed step f s is) := by
  induction h generalizing bs with
  | nil => simpa [observed] using hs
  | cons hok hstep _ ih =>
    rw [observed_cons hstep, ← List.append_assoc]
    exact ih (hR _ _ _ _ hs hok hstep)

/-- **The simulation rule.**  If every step of the run leads to a state that is related to one where
what the step shows leads in another machine, then so does the run, with all that it shows. -/
theorem Run.simulates {τ : Type*} {step' : τ → β → Option τ} {R : σ → τ → Prop}
    (hR : ∀ s i t a, R s a → ok s i → step s i = some t →
      ∃ b, exec step' a (f s i).toList = some b ∧ R t b)
    (h : Run step ok s is t) {a : τ} (ha : R s a) :
    ∃ b, exec step' a (observed step f s is) = some b ∧ R t b := by
  have hstart : ∃ b, exec step' a [] = some b ∧ R s b := ⟨a, rfl, ha⟩
  refine h.records (R := fun s bs ↦ ∃ b, exec step' a bs = some b ∧ R s b) ?_ hstart
  rintro s i t bs ⟨b, hb, hs⟩ hok hstep
  obtain ⟨c, hc, ht⟩ := hR _ _ _ _ hs hok hstep
  exact ⟨c, exec_append.2 ⟨b, hb, hc⟩, ht⟩

end Observed

namespace Reachable

theorem refl (s : σ) : Reachable step ok s s := ⟨[], .nil s⟩

theorem single (hok : ok s i) (h : step s i = some t) : Reachable step ok s t :=
  ⟨[i], .single hok h⟩

theorem trans (h : Reachable step ok s t) (h' : Reachable step ok t u) :
    Reachable step ok s u := by
  obtain ⟨is, h⟩ := h
  obtain ⟨js, h'⟩ := h'
  exact ⟨is ++ js, h.append h'⟩

theorem invariant {P : σ → Prop} (hP : ∀ s i t, P s → ok s i → step s i = some t → P t)
    (h : Reachable step ok s t) (hs : P s) : P t := by
  obtain ⟨is, h⟩ := h
  exact h.invariant hP hs

theorem mono (h : Reachable step ok s t) (hok : ∀ s i, ok s i → ok' s i) :
    Reachable step ok' s t := by
  obtain ⟨is, hrun⟩ := h
  exact ⟨is, hrun.mono hok⟩

end Reachable

/-! ## What is possible -/

variable (step) in
/-- Some run leads from `s` to a state of the kind `P`. -/
def CanReach (ok : σ → ι → Prop) (s : σ) (P : σ → Prop) : Prop := ∃ t, Reachable step ok s t ∧ P t

namespace CanReach

variable {P Q : σ → Prop}

theorem now (h : P s) : CanReach step ok s P := ⟨s, .refl s, h⟩

/-- What is possible after a run. -/
theorem after (hreach : Reachable step ok s t) (h : CanReach step ok t P) :
    CanReach step ok s P := by
  obtain ⟨u, hreach', hu⟩ := h
  exact ⟨u, hreach.trans hreach', hu⟩

/-- One run after the other. -/
theorem bind (h : CanReach step ok s P) (hP : ∀ t, P t → CanReach step ok t Q) :
    CanReach step ok s Q := by
  obtain ⟨t, hreach, ht⟩ := h
  exact (hP t ht).after hreach

end CanReach

end Machine
