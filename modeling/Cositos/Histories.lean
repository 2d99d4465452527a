/-
Histories of a machine that takes one action after the other.  Nothing here knows about
widgets.
-/
import Mathlib.Data.List.Induction
import Mathlib.Data.List.Infix

namespace Cositos

universe u v w

variable {S : Type u} {T : Type v} {A : Type w}

/-- The property holds of every action of a history, and of the state it finds. -/
def AtEach (step : S → A → S) (s : S) (actions : List A) (P : S → A → Prop) : Prop :=
  ∀ before action, before ++ [action] <+: actions → P (before.foldl step s) action

variable {step : S → A → S} {s : S} {P Q : S → A → Prop}

theorem AtEach.imp {actions : List A} (h : AtEach step s actions P)
    (himp : ∀ s a, P s a → Q s a) : AtEach step s actions Q :=
  fun before action hpre => himp _ action (h before action hpre)

theorem atEach_append_singleton {before : List A} {action : A} :
    AtEach step s (before ++ [action]) P ↔
      AtEach step s before P ∧ P (before.foldl step s) action := by
  constructor
  · intro h
    refine ⟨fun front last hpre => ?_, h before action (List.prefix_refl _)⟩
    exact h front last (hpre.trans (List.prefix_append before [action]))
  · rintro ⟨hbefore, hlast⟩ front last hpre
    rcases List.prefix_concat_iff.mp hpre with heq | hshort
    · obtain ⟨rfl, hsame⟩ := List.append_inj' heq rfl
      cases hsame
      exact hlast
    · exact hbefore front last hshort

/-- An invariant that each action keeps holds of every state of a history. -/
theorem AtEach.invariant {I : S → Prop} {actions : List A} (hinit : I s)
    (hstep : ∀ s a, I s → P s a → I (step s a)) (h : AtEach step s actions P) :
    I (actions.foldl step s) := by
  induction actions using List.reverseRecOn with
  | nil => exact hinit
  | append_singleton before action ih =>
      obtain ⟨hbefore, hlast⟩ := atEach_append_singleton.mp h
      rw [List.foldl_append, List.foldl_cons, List.foldl_nil]
      exact hstep _ action (ih hbefore) hlast

/-- Two properties that say the same of the states an invariant allows say the same of a
history, when the first keeps the invariant. -/
theorem atEach_iff_of_invariant {I : S → Prop} (hinit : I s)
    (hiff : ∀ s a, I s → (P s a ↔ Q s a)) (hkeep : ∀ s a, I s → P s a → I (step s a))
    (actions : List A) : AtEach step s actions P ↔ AtEach step s actions Q := by
  induction actions using List.reverseRecOn with
  | nil =>
      constructor
      · exact fun _ before action hpre => absurd (List.prefix_nil.mp hpre) (by simp)
      · exact fun _ before action hpre => absurd (List.prefix_nil.mp hpre) (by simp)
  | append_singleton before action ih =>
      rw [atEach_append_singleton, atEach_append_singleton, ← ih]
      exact and_congr_right fun hbefore => hiff _ action (hbefore.invariant hinit hkeep)

/-- Two machines that are related at the start stay related all along a history exactly
when each action keeps them so. -/
theorem related_iff {step' : T → A → T} {t : T} {R : S → T → Prop} {meets : T → A → Prop}
    (hinit : R s t) (hstep : ∀ s t a, R s t → (R (step s a) (step' t a) ↔ meets t a))
    (actions : List A) :
    (∀ before, before <+: actions → R (before.foldl step s) (before.foldl step' t)) ↔
      AtEach step' t actions meets := by
  constructor
  · intro h before action hpre
    have hbefore := h before ((List.prefix_append before [action]).trans hpre)
    have hafter := h (before ++ [action]) hpre
    rw [List.foldl_append, List.foldl_append] at hafter
    exact (hstep _ _ action hbefore).mp hafter
  · intro h before hpre
    induction before using List.reverseRecOn with
    | nil => exact hinit
    | append_singleton before action ih =>
        have hbefore := ih ((List.prefix_append before [action]).trans hpre)
        rw [List.foldl_append, List.foldl_append]
        exact (hstep _ _ action hbefore).mpr (h before action hpre)

end Cositos
