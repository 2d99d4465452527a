/-
Views on one `Model` (`runtime.js`): rendering a widget, and the cleanup function that
unmounts it.  What is registered on the model is recorded together with who did it.
-/
import Cositos.Emitter

namespace Cositos

namespace Front

universe u v w

variable {γ : Type u} {κ : Type v} {ι : Type w}

/-- What a hook of a widget does: its calls of `on` and `off`, and those of the function it
returns, if it returns one. -/
structure Hook (γ : Type u) (κ : Type v) where
  calls : List (Call γ κ)
  cleanup : Option (List (Call γ κ))

/-- The definition of a widget: its `initialize` and its `render`. -/
structure Widget (γ : Type u) (κ : Type v) where
  initHook : Option (Hook γ κ)
  renderHook : Option (Hook γ κ)

/-- The hooks that `renderWidget` runs, in turn. -/
def Widget.hooks (widget : Widget γ κ) : List (Hook γ κ) :=
  widget.initHook.toList ++ widget.renderHook.toList

/-- What `renderWidget` calls, and its `cleanups`. -/
def renderWidget (widget : Widget γ κ) : List (Call γ κ) × List (List (Call γ κ)) :=
  (widget.hooks.flatMap Hook.calls, widget.hooks.filterMap Hook.cleanup)

/-- What the function that `renderWidget` returns calls, once it has reversed `cleanups`. -/
def cleanupCalls (cleanups : List (List (Call γ κ))) : List (Call γ κ) :=
  cleanups.flatten ++ [.off none none none]

/-- A registration with the view that made it; the page is `none`. -/
abbrev Owned (γ : Type u) (κ : Type v) (ι : Type w) := Option ι × Registration γ κ

/-- A view that was rendered: the `cleanups` that its cleanup function holds, and whether
that function has still to be called. -/
structure View (γ : Type u) (κ : Type v) where
  cleanups : List (List (Call γ κ))
  mounted : Bool

/-- The emitter of a model, a record of what is registered in it, and the views that were
rendered on it.  The code keeps no such record. -/
structure Stage (γ : Type u) (κ : Type v) (ι : Type w) where
  emitter : Emitter γ κ := {}
  owned : List (Owned γ κ ι) := []
  views : List (ι × View γ κ) := []

/-- What happens on a page. -/
inductive Act (γ : Type u) (κ : Type v) (ι : Type w)
  /-- A view, or the page, calls `on` and `off`. -/
  | calls (owner : Option ι) (calls : List (Call γ κ))
  | mount (view : ι) (widget : Widget γ κ)
  /-- The cleanup function of a view is called, for the first time or again. -/
  | unmount (view : ι)

variable [DecidableEq γ] [DecidableEq κ] [DecidableEq ι] (truthy : κ → Bool)

/-- Whether a call of `off` leaves a registration in the emitter. -/
def Registration.stays (r : Registration γ κ) (name : Option String) (cb : Option γ)
    (context : Option κ) : Bool :=
  match name with
  | none => Emitter.keepsAny context r.listener
  | some name => r.name ≠ name || Emitter.keeps truthy cb context r.listener

/-- One call of an owner. -/
def Stage.call (owner : Option ι) (stage : Stage γ κ ι) (c : Call γ κ) : Stage γ κ ι :=
  { stage with
    emitter := stage.emitter.call truthy c
    owned :=
      match c with
      | .on name cb context => stage.owned ++ [(owner, ⟨name, ⟨cb, context⟩⟩)]
      | .off name cb context => stage.owned.filter fun o => o.2.stays truthy name cb context }

/-- The calls of an owner, in turn. -/
def Stage.callAll (stage : Stage γ κ ι) (owner : Option ι) (calls : List (Call γ κ)) :
    Stage γ κ ι :=
  calls.foldl (Stage.call truthy owner) stage

/-- What happens next. -/
def Stage.step (stage : Stage γ κ ι) : Act γ κ ι → Stage γ κ ι
  | .calls owner calls => stage.callAll truthy owner calls
  | .mount view widget =>
      let (calls, cleanups) := renderWidget widget
      let stage := stage.callAll truthy (some view) calls
      { stage with views := Dict.set stage.views view ⟨cleanups, true⟩ }
  | .unmount view =>
      match stage.views.lookup view with
      | none => stage
      | some rendered =>
          -- `reverse` turns the array around in place, so the next call meets it this way
          let cleanups := rendered.cleanups.reverse
          let stage := { stage with views := Dict.set stage.views view ⟨cleanups, false⟩ }
          stage.callAll truthy (some view) (cleanupCalls cleanups)

/-- Whether a view is mounted. -/
def Stage.isMounted (stage : Stage γ κ ι) (view : ι) : Bool :=
  (stage.views.lookup view).any View.mounted

/-- The page, or another view that is mounted. -/
def Stage.foreign (stage : Stage γ κ ι) (view : ι) (owner : Option ι) : Bool :=
  match owner with
  | none => true
  | some other => other ≠ view && stage.isMounted other

/-- The registrations that the page and the other mounted views have made. -/
def Stage.others (stage : Stage γ κ ι) (view : ι) : List (Registration γ κ) :=
  (stage.owned.filter fun o => stage.foreign view o.1).map Prod.snd

/-- The cleanup of a view leaves what the others have registered, so that an event calls
it. -/
def KeepsOthers (stage : Stage γ κ ι) : Act γ κ ι → Prop
  | .unmount view => view ∈ Dict.keys stage.views → ∀ name,
      (listenersOf (stage.others view) name).Sublist
          ((stage.step truthy (.unmount view)).emitter.get name) ∧
        ((listenersOf (stage.others view) name).map Listener.cb).Sublist
          ((stage.step truthy (.unmount view)).emitter.emit name)
  | _ => True

/-- When the cleanup of a view is called, nobody else has anything registered. -/
def AloneAtUnmount (stage : Stage γ κ ι) : Act γ κ ι → Prop
  | .unmount view => view ∈ Dict.keys stage.views → stage.others view = []
  | _ => True

variable {truthy}

/-! ### The record -/

/-- The record tells what the emitter has. -/
def Stage.Recorded (stage : Stage γ κ ι) : Prop :=
  stage.emitter.Shows (stage.owned.map Prod.snd)

theorem shows_off {emitter : Emitter γ κ} {registrations : List (Registration γ κ)}
    (h : emitter.Shows registrations) (name : Option String) (cb : Option γ)
    (context : Option κ) : (emitter.off truthy name cb context).Shows
      (registrations.filter fun r => r.stays truthy name cb context) := by
  intro name'
  cases name with
  | none =>
      rw [Emitter.get_off_all, h name']
      exact Emitter.filter_listenersOf_iff.mpr fun _ _ _ => rfl
  | some name =>
      rw [Emitter.get_off_name]
      split_ifs with heq
      · subst heq
        rw [h name']
        apply Emitter.filter_listenersOf_iff.mpr
        intro r _ hname
        simp [Registration.stays, hname]
      · have hkept : (listenersOf registrations name').filter (fun _ => true) =
            listenersOf (registrations.filter fun r => r.stays truthy (some name) cb context)
              name' := by
          apply Emitter.filter_listenersOf_iff.mpr
          intro r _ hr
          have hne : r.name ≠ name := fun hsame => heq (hr.symm.trans hsame)
          simp [Registration.stays, hne]
        rw [h name', ← hkept]
        simp

omit [DecidableEq ι] in
theorem Stage.recorded_call {stage : Stage γ κ ι} (h : stage.Recorded) (owner : Option ι)
    (c : Call γ κ) : (stage.call truthy owner c).Recorded := by
  cases c with
  | on name cb context =>
      have hshows : (stage.emitter.call truthy (.on name cb context)).Shows _ :=
        (Emitter.shows_call_iff h (.on name cb context)).mpr trivial
      simpa [Recorded, call, register] using hshows
  | off name cb context =>
      have hshows : (stage.emitter.off truthy name cb context).Shows _ :=
        shows_off h name cb context
      rw [List.filter_map] at hshows
      exact hshows

omit [DecidableEq ι] in
theorem Stage.recorded_callAll {stage : Stage γ κ ι} (h : stage.Recorded) (owner : Option ι)
    (calls : List (Call γ κ)) : (stage.callAll truthy owner calls).Recorded := by
  induction calls generalizing stage with
  | nil => exact h
  | cons c calls ih => exact ih (Stage.recorded_call h owner c)

theorem Stage.recorded_step {stage : Stage γ κ ι} (h : stage.Recorded) (act : Act γ κ ι) :
    (stage.step truthy act).Recorded := by
  cases act with
  | calls owner calls => exact Stage.recorded_callAll h owner calls
  | mount view widget => exact Stage.recorded_callAll h (some view) _
  | unmount view =>
      cases hview : stage.views.lookup view with
      | none =>
          simp only [step, hview]
          exact h
      | some rendered =>
          have hcleaned : Stage.Recorded { stage with
              views := Dict.set stage.views view ⟨rendered.cleanups.reverse, false⟩ } := h
          simp only [step, hview]
          exact Stage.recorded_callAll hcleaned (some view) _

/-! ### Unmounting -/

omit [DecidableEq ι] in
/-- `off(null, null)` leaves nothing. -/
theorem Stage.get_after_cleanup (stage : Stage γ κ ι) (owner : Option ι)
    (cleanups : List (List (Call γ κ))) (name : String) :
    (stage.callAll truthy owner (cleanupCalls cleanups)).emitter.get name = [] := by
  rw [callAll, cleanupCalls, List.foldl_append, List.foldl_cons, List.foldl_nil, call]
  simp only [Emitter.call, Emitter.get_off_all]
  exact List.filter_eq_nil_iff.mpr (by simp [Emitter.keepsAny])

theorem Stage.get_unmount {stage : Stage γ κ ι} {view : ι}
    (hview : view ∈ Dict.keys stage.views) (name : String) :
    (stage.step truthy (.unmount view)).emitter.get name = [] := by
  obtain ⟨rendered, hrendered⟩ := Dict.exists_lookup_of_mem_keys hview
  simp only [step, hrendered]
  exact Stage.get_after_cleanup _ _ rendered.cleanups.reverse name

omit [DecidableEq γ] [DecidableEq κ] in
theorem listenersOf_eq_nil_iff {registrations : List (Registration γ κ)} :
    (∀ name, listenersOf registrations name = []) ↔ registrations = [] := by
  constructor
  · intro h
    cases registrations with
    | nil => rfl
    | cons r registrations =>
        have hr := h r.name
        simp [listenersOf] at hr
  · rintro rfl name
    rfl

/-- The cleanup of a view leaves what the others have registered exactly when they have
registered nothing. -/
theorem keepsOthers_iff (stage : Stage γ κ ι) (act : Act γ κ ι) :
    KeepsOthers truthy stage act ↔ AloneAtUnmount stage act := by
  cases act with
  | calls owner calls => exact Iff.rfl
  | mount view widget => exact Iff.rfl
  | unmount view =>
      refine forall_congr' fun hview => ?_
      rw [← listenersOf_eq_nil_iff]
      refine forall_congr' fun name => ?_
      rw [Emitter.emit, Stage.get_unmount hview name]
      simp

variable (truthy) in
/-- In every run the record tells what the emitter has, and no cleanup, first or repeated,
takes away what others have registered exactly when each of them finds nothing of
theirs. -/
theorem unmounts_keep_others_iff (acts : List (Act γ κ ι)) :
    (acts.foldl (Stage.step truthy) {}).Recorded ∧
      (AtEach (Stage.step truthy) {} acts (KeepsOthers truthy) ↔
        AtEach (Stage.step truthy) {} acts AloneAtUnmount) := by
  constructor
  · induction acts using List.reverseRecOn with
    | nil => exact fun _ => rfl
    | append_singleton before act ih =>
        rw [List.foldl_append]
        exact Stage.recorded_step ih act
  · constructor
    · exact fun h => h.imp fun stage act => (keepsOthers_iff stage act).mp
    · exact fun h => h.imp fun stage act => (keepsOthers_iff stage act).mpr

/-- Two views of one widget, of which the first is unmounted. -/
def twoViews : List (Act Nat Nat Nat) :=
  [.mount 0 ⟨none, some ⟨[.on "change:value" 0 none], none⟩⟩,
    .mount 1 ⟨none, some ⟨[.on "change:value" 1 none], none⟩⟩, .unmount 0]

theorem unmount_silences_other_view :
    ¬ AtEach (Stage.step fun context => context ≠ 0) {} twoViews
      (KeepsOthers fun context => context ≠ 0) := by
  intro h
  have hlast := h (twoViews.take 2) (.unmount 0) (List.prefix_refl _) (by decide) "change:value"
  exact absurd hlast.1.length_le (by decide)

end Front

end Cositos
