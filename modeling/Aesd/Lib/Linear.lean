import Aesd.Lib.Machine

/-!
# Linearizing an operation after the fact

Operations that overlap in time are linearizable if they can be ordered, one at a time, without
contradicting the times at which they began and ended, such that a sequential machine that takes
them in this order gives each its answer (`Linear.Linearizes`).  The machine's inputs are the
operations together with their answers; an answer that is not the machine's is an input that is not
possible.

An operation that looks at the state early and answers late does not have to come last in the
order.  It may be put where it looked, if it has the effect there that it has at the end and the
operations behind that place do not notice it: `Linear.Gap` is such a place, `Linearizes.insert`
puts an operation there, and `Gap.insert` says that other places stay open.
-/

set_option autoImplicit false

namespace Linear

open Machine

variable {σ ι : Type*} {step : σ → ι → Option σ} {first last : ι → ℕ} {free : ι → Prop}
  {g : σ → σ} {s t u mid : σ} {op : ι} {done order before after is js : List ι}

/-- **A sequential order of what was done**, from `s` to `t`. -/
structure Linearizes (step : σ → ι → Option σ) (first last : ι → ℕ) (s : σ)
    (done order : List ι) (t : σ) : Prop where
  /-- The order has every operation once. -/
  perm : order.Perm done
  /-- No operation stands behind one that began only when it had ended. -/
  realTime : order.Pairwise fun a b ↦ first a ≤ last b
  /-- The machine takes the operations in this order. -/
  legal : Run step Always s order t

/-- The input does not notice the change `g` of the state. -/
def Commutes (step : σ → ι → Option σ) (g : σ → σ) (i : ι) : Prop :=
  ∀ s t, step s i = some t → step (g s) i = some (g t)

/-- A place in an order, in state `mid`, all operations behind which are free. -/
def Gap (step : σ → ι → Option σ) (free : ι → Prop) (s : σ) (order : List ι) (mid : σ) : Prop :=
  ∃ before after : List ι, order = before ++ after ∧ Run step Always s before mid ∧
    ∀ i ∈ after, free i

/-! ## Runs and changes of the state -/

/-- What comes after the first part of a run. -/
theorem run_suffix (h : Run step Always s (is ++ js) u) (h' : Run step Always s is t) :
    Run step Always t js u := by
  induction h' with
  | nil => exact h
  | cons _ hstep _ ih =>
    rw [List.cons_append] at h
    cases h with
    | cons _ hstep' hrun =>
      rw [hstep, Option.some_inj] at hstep'
      subst hstep'
      exact ih hrun

/-- A run that does not notice a change. -/
theorem run_map (h : Run step Always s is t) (hg : ∀ i ∈ is, Commutes step g i) :
    Run step Always (g s) is (g t) := by
  induction h with
  | nil => exact .nil _
  | cons _ hstep _ ih =>
    rw [List.forall_mem_cons] at hg
    exact .cons trivial (hg.1 _ _ hstep) (ih hg.2)

/-- A run into the middle of which an input is put. -/
theorem run_insert (h : Run step Always s (before ++ after) t) (hmid : Run step Always s before mid)
    (hop : step mid op = some (g mid)) (hg : ∀ i ∈ after, Commutes step g i) :
    Run step Always s (before ++ op :: after) (g t) :=
  hmid.append (.cons trivial hop (run_map (run_suffix h hmid) hg))

/-! ## Places -/

namespace Gap

/-- The end is a place. -/
theorem atEnd (h : Run step Always s order t) : Gap step free s order t :=
  ⟨order, [], (List.append_nil _).symm, h, by simp⟩

theorem concat (h : Gap step free s order mid) (hop : free op) :
    Gap step free s (order ++ [op]) mid := by
  obtain ⟨before, after, rfl, hrun, hfree⟩ := h
  refine ⟨before, after ++ [op], List.append_assoc .., hrun, fun i hi ↦ ?_⟩
  rcases List.mem_append.1 hi with hi | hi
  · exact hfree i hi
  · rwa [List.mem_singleton.1 hi]

/-- **A place stays open when a free operation is put into another one.** -/
theorem insert (h : Gap step free s (before ++ after) mid) (hmid : Run step Always s before u)
    (hop : step u op = some (g u)) (hg : ∀ i ∈ after, Commutes step g i) (hfree : free op) :
    ∃ mid', (mid' = mid ∨ mid' = g mid) ∧ Gap step free s (before ++ op :: after) mid' := by
  obtain ⟨before', after', heq, hrun, hfree'⟩ := h
  rcases List.append_eq_append_iff.1 heq with ⟨l, rfl, rfl⟩ | ⟨l, rfl, rfl⟩
  · refine ⟨g mid, Or.inr rfl, before ++ op :: l, after', by simp, ?_, hfree'⟩
    exact run_insert hrun hmid hop fun i hi ↦ hg i (List.mem_append_left _ hi)
  · refine ⟨mid, Or.inl rfl, before', l ++ op :: after, by simp, hrun, fun i hi ↦ ?_⟩
    rw [List.mem_append, List.mem_cons] at hi
    rcases hi with hi | rfl | hi
    · exact hfree' i (List.mem_append_left _ hi)
    · exact hfree
    · exact hfree' i (List.mem_append_right _ hi)

end Gap

/-! ## Orders -/

namespace Linearizes

theorem nil (s : σ) : Linearizes step first last s [] [] s := ⟨.nil, .nil, .nil s⟩

/-- **An operation at a place**, in front of what was only done while it was going on. -/
theorem insert (h : Linearizes step first last s done (before ++ after) t)
    (hmid : Run step Always s before mid) (hop : step mid op = some (g mid))
    (hg : ∀ i ∈ after, Commutes step g i) (hfirst : ∀ i ∈ after, first op ≤ last i)
    (hlast : ∀ i ∈ done, first i ≤ last op) :
    Linearizes step first last s (done ++ [op]) (before ++ op :: after) (g t) where
  perm := (List.perm_middle.trans (h.perm.cons op)).trans (List.perm_append_singleton op done).symm
  realTime := by
    obtain ⟨hbefore, hafter, hcross⟩ := List.pairwise_append.1 h.realTime
    refine List.pairwise_append.2 ⟨hbefore, List.pairwise_cons.2 ⟨hfirst, hafter⟩, ?_⟩
    intro a ha b hb
    rcases List.mem_cons.1 hb with rfl | hb
    · exact hlast a (h.perm.mem_iff.1 (List.mem_append_left _ ha))
    · exact hcross a ha b hb
  legal := run_insert h.legal hmid hop hg

/-- An operation at the end. -/
theorem concat (h : Linearizes step first last s done order t) (hop : step t op = some u)
    (hlast : ∀ i ∈ done, first i ≤ last op) :
    Linearizes step first last s (done ++ [op]) (order ++ [op]) u where
  perm := h.perm.append_right [op]
  realTime := by
    refine List.pairwise_append.2 ⟨h.realTime, List.pairwise_singleton .., fun a ha b hb ↦ ?_⟩
    rw [List.mem_singleton.1 hb]
    exact hlast a (h.perm.mem_iff.1 ha)
  legal := h.legal.append (.single trivial hop)

end Linearizes

end Linear
