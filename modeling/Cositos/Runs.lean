/-
Runs of a step function over a list of inputs: invariants, and laws that hold at
every point of a run exactly when the run avoids certain steps.
-/
import Mathlib.Data.List.Induction

namespace Cositos

namespace Runs

universe u v

variable {S : Type u} {A : Type v} {step : S → A → S}

/-- What every step keeps holds after every run. -/
theorem invariant {I : S → Prop} (hstep : ∀ s a, I s → I (step s a)) {s : S} (hs : I s)
    (inputs : List A) : I (inputs.foldl step s) := by
  induction inputs generalizing s with
  | nil => exact hs
  | cons a inputs ih => exact ih (hstep s a hs)

/-- The states that inputs reach when each is allowed where it comes. -/
inductive Reached (step : S → A → S) (allowed : S → A → Prop) (start : S) : S → Prop
  | start : Reached step allowed start start
  | step {s : S} {a : A} : Reached step allowed start s → allowed s a →
      Reached step allowed start (step s a)

/-- What every allowed step keeps holds wherever allowed inputs lead. -/
theorem Reached.invariant {allowed : S → A → Prop} {start s : S} {I : S → Prop}
    (hreached : Reached step allowed start s) (hstart : I start)
    (hstep : ∀ s a, I s → allowed s a → I (step s a)) : I s := by
  induction hreached with
  | start => exact hstart
  | step _ hallowed ih => exact hstep _ _ ih hallowed

theorem reached_foldl {allowed : A → Prop} {start : S} {inputs : List A}
    (hinputs : ∀ a ∈ inputs, allowed a) :
    Reached step (fun _ a => allowed a) start (inputs.foldl step start) := by
  induction inputs using List.reverseRecOn with
  | nil => exact Reached.start
  | append_singleton inputs a ih =>
      rw [List.foldl_append, List.foldl_cons, List.foldl_nil]
      exact Reached.step (ih fun b hb => hinputs b (List.mem_append_left _ hb))
        (hinputs a (by simp))

/-- Let good steps keep a law and bad steps break it, while `I` lasts.  Then the
law holds all along a run exactly when the run takes no bad step. -/
theorem law_iff_no_bad_step {I P : S → Prop} {bad : S → A → Prop}
    (hinv : ∀ s a, I s → I (step s a))
    (hgood : ∀ s a, I s → P s → ¬ bad s a → P (step s a))
    (hbad : ∀ s a, I s → bad s a → ¬ P (step s a))
    {start : S} (hI : I start) (hP : P start) (inputs : List A) :
    (∀ done, done <+: inputs → P (done.foldl step start)) ↔
      ∀ done a, done ++ [a] <+: inputs → ¬ bad (done.foldl step start) a := by
  constructor
  · intro hlaw done a hpre hstep
    have hafter := hlaw (done ++ [a]) hpre
    rw [List.foldl_append] at hafter
    exact hbad _ a (invariant hinv hI done) hstep hafter
  · intro hno done hpre
    induction done using List.reverseRecOn with
    | nil => exact hP
    | append_singleton done a ih =>
        have hbefore := ih ((List.prefix_append done [a]).trans hpre)
        rw [List.foldl_append]
        exact hgood _ a (invariant hinv hI done) hbefore (hno done a hpre)

end Runs

end Cositos
