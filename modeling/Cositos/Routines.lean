/-
Routines that change a state and may throw.  What holds across the parts of a routine holds
across the routine; states and the code that runs on them are arbitrary.
-/

namespace Cositos

universe u v

/-- How a routine ended. -/
inductive Exit
  | returned
  | threw
deriving DecidableEq, Repr

/-- Code that runs on a state. -/
abbrev Routine (S : Type u) := S → Exit × S

namespace Routine

variable {S : Type u} {A : Type v}

def skip : Routine S := fun s => (.returned, s)

/-- A change of the state that does not throw. -/
def change (f : S → S) : Routine S := fun s => (.returned, f s)

/-- The first, and unless it throws the next. -/
def andThen (first next : Routine S) : Routine S := fun s =>
  match first s with
  | (.returned, s) => next s
  | (.threw, s) => (.threw, s)

/-- A loop over a list, with the number of the round. -/
def forEach (body : Nat → A → Routine S) : Nat → List A → Routine S
  | _, [] => skip
  | i, a :: as => (body i a).andThen (forEach body (i + 1) as)

/-! ### Relations that hold across a routine -/

/-- However the routine ends, its states at the beginning and at the end are related. -/
def Across (R : S → S → Prop) (routine : Routine S) : Prop := ∀ s, R s (routine s).2

/-- A relation that holds across nothing, and across two routines when across each. -/
structure Chains (R : S → S → Prop) : Prop where
  refl : ∀ s, R s s
  trans : ∀ {s s' s''}, R s s' → R s' s'' → R s s''

variable {R : S → S → Prop} {first next : Routine S}

theorem andThen_returned {s s' : S} (h : first s = (.returned, s')) :
    first.andThen next s = next s' := by
  rw [andThen, h]

theorem andThen_threw {s s' : S} (h : first s = (.threw, s')) :
    first.andThen next s = (.threw, s') := by
  rw [andThen, h]

theorem Across.andThen (hR : Chains R) (hfirst : Across R first) (hnext : Across R next) :
    Across R (first.andThen next) := by
  intro s
  have hmiddle := hfirst s
  rcases hs : first s with ⟨exit, s'⟩
  rw [hs] at hmiddle
  cases exit with
  | returned =>
      rw [andThen_returned hs]
      exact hR.trans hmiddle (hnext s')
  | threw => rwa [andThen_threw hs]

theorem across_forEach (hR : Chains R) {body : Nat → A → Routine S}
    (hbody : ∀ i a, Across R (body i a)) (i : Nat) (as : List A) :
    Across R (forEach body i as) := by
  induction as generalizing i with
  | nil => exact hR.refl
  | cons a as ih => exact (hbody i a).andThen hR (ih (i + 1))

/-- What was true before stays true. -/
theorem chains_invariant (I : S → Prop) : Chains fun s s' => I s → I s' where
  refl _ := id
  trans h h' := h' ∘ h

/-- An invariant that says what a loop has still to do, and that no round breaks which
returns. -/
theorem forEach_invariant {I : List A → S → Prop} {body : Nat → A → Routine S}
    (hbody : ∀ i a as s, I (a :: as) s → (body i a s).1 = .returned → I as (body i a s).2)
    {i : Nat} {as : List A} {s : S} (hs : I as s) (hreturned : (forEach body i as s).1 = .returned) :
    I [] (forEach body i as s).2 := by
  induction as generalizing i s with
  | nil => exact hs
  | cons a as ih =>
      have hround := hbody i a as s hs
      rcases ha : body i a s with ⟨exit, s'⟩
      rw [ha] at hround
      cases exit with
      | returned =>
          rw [forEach, andThen_returned ha] at hreturned ⊢
          exact ih (hround rfl) hreturned
      | threw =>
          rw [forEach, andThen_threw ha] at hreturned
          cases hreturned

theorem forEach_returns {body : Nat → A → Routine S}
    (hbody : ∀ i a s, (body i a s).1 = .returned) (i : Nat) (as : List A) (s : S) :
    (forEach body i as s).1 = .returned := by
  induction as generalizing i s with
  | nil => rfl
  | cons a as ih =>
      have hround := hbody i a s
      rcases ha : body i a s with ⟨exit, s'⟩
      rw [ha] at hround
      obtain rfl : exit = .returned := hround
      rw [forEach, andThen_returned ha]
      exact ih (i + 1) s'

end Routine

end Cositos
