/-
The event emitter of the front end's `Model` (`model.js`), and the rule by which Backbone
removes listeners: a listener goes when it meets every criterion that is given.
-/
import Cositos.Dict
import Cositos.Histories

namespace Cositos

namespace Front

universe u v

variable {γ : Type u} {κ : Type v}

/-- What `#listeners` keeps of a call of `on`. -/
structure Listener (γ : Type u) (κ : Type v) where
  cb : γ
  context : Option κ
deriving DecidableEq

/-- `Emitter`: its `#listeners`.  Callbacks and contexts are known by `===` alone; a
parameter that is `null` or was left out is `none`. -/
structure Emitter (γ : Type u) (κ : Type v) where
  listeners : List (String × List (Listener γ κ)) := []

namespace Emitter

/-- `#listeners.get(name) ?? []`. -/
def get (emitter : Emitter γ κ) (name : String) : List (Listener γ κ) :=
  (emitter.listeners.lookup name).getD []

/-- `on`. -/
def on (emitter : Emitter γ κ) (name : String) (cb : γ) (context : Option κ) : Emitter γ κ :=
  { listeners := Dict.set emitter.listeners name (emitter.get name ++ [⟨cb, context⟩]) }

/-- `emit`: the callbacks it calls, in turn.  It goes through a copy of the array, so that
what they register or remove meanwhile makes no difference. -/
def emit (emitter : Emitter γ κ) (name : String) : List γ :=
  (emitter.get name).map Listener.cb

variable [DecidableEq γ] [DecidableEq κ] (truthy : κ → Bool)

/-- What `off(null, cb, context)` keeps. -/
def keepsAny (context : Option κ) (l : Listener γ κ) : Bool :=
  match context with
  | none => false
  | some context => l.context ≠ some context

/-- What `off(name, cb, context)` keeps of the listeners of the name. -/
def keeps (cb : Option γ) (context : Option κ) (l : Listener γ κ) : Bool :=
  (match cb with
    | none => false
    | some cb => l.cb ≠ cb) &&
  match context with
  | none => true
  | some context => if truthy context then l.context ≠ some context else true

/-- `off`. -/
def off (emitter : Emitter γ κ) (name : Option String) (cb : Option γ) (context : Option κ) :
    Emitter γ κ :=
  match name with
  | none =>
      { listeners := emitter.listeners.map (Prod.map id (List.filter (keepsAny context))) }
  | some name =>
      { listeners := Dict.set emitter.listeners name
          ((emitter.get name).filter (keeps truthy cb context)) }

end Emitter

/-! ### The rule -/

/-- A call of `on` that has not been undone. -/
structure Registration (γ : Type u) (κ : Type v) where
  name : String
  listener : Listener γ κ
deriving DecidableEq

/-- A call of `on` or `off`. -/
inductive Call (γ : Type u) (κ : Type v)
  | on (name : String) (cb : γ) (context : Option κ)
  | off (name : Option String) (cb : Option γ) (context : Option κ)

variable [DecidableEq γ] [DecidableEq κ]

/-- The registration meets every criterion that is given. -/
def Registration.meets (r : Registration γ κ) (name : Option String) (cb : Option γ)
    (context : Option κ) : Bool :=
  (name.all fun name => r.name = name) && (cb.all fun cb => r.listener.cb = cb) &&
    context.all fun context => r.listener.context = some context

/-- The registrations after a call, by the rule. -/
def register (registrations : List (Registration γ κ)) : Call γ κ → List (Registration γ κ)
  | .on name cb context => registrations ++ [⟨name, ⟨cb, context⟩⟩]
  | .off name cb context => registrations.filter fun r => !r.meets name cb context

/-- The listeners of an event, in the order of their registration. -/
def listenersOf (registrations : List (Registration γ κ)) (name : String) :
    List (Listener γ κ) :=
  (registrations.filter fun r => r.name = name).map Registration.listener

namespace Emitter

variable (truthy : κ → Bool)

/-- The emitter after a call. -/
def call (emitter : Emitter γ κ) : Call γ κ → Emitter γ κ
  | .on name cb context => emitter.on name cb context
  | .off name cb context => emitter.off truthy name cb context

/-- For each event the emitter has the listeners that are registered, in order. -/
def Shows (emitter : Emitter γ κ) (registrations : List (Registration γ κ)) : Prop :=
  ∀ name, emitter.get name = listenersOf registrations name

/-- When `off` follows the rule.  Without a name the callback is not looked at; with one, a
listener has to differ in both criteria to stay, a callback left out matches none that
stays, and a context that is falsy counts as left out. -/
def Follows (registrations : List (Registration γ κ)) : Call γ κ → Prop
  | .on _ _ _ => True
  | .off none none _ => True
  | .off none (some cb) context =>
      ∀ r ∈ registrations, r.meets none none context = true → r.listener.cb = cb
  | .off (some _) _ none => True
  | .off (some name) none (some context) =>
      ∀ r ∈ registrations, r.name = name → r.listener.context = some context
  | .off (some name) (some cb) (some context) =>
      ∀ r ∈ registrations, r.name = name →
        (r.listener.cb = cb → r.listener.context = some context) ∧
          (truthy context = true → r.listener.context = some context → r.listener.cb = cb)

variable {truthy}

omit [DecidableEq γ] [DecidableEq κ] in
theorem get_on (emitter : Emitter γ κ) (name : String) (cb : γ) (context : Option κ)
    (name' : String) : (emitter.on name cb context).get name' =
      if name' = name then emitter.get name ++ [⟨cb, context⟩] else emitter.get name' := by
  simp only [get, on, Dict.lookup_set]
  split_ifs <;> rfl

theorem get_off_name (emitter : Emitter γ κ) (name : String) (cb : Option γ)
    (context : Option κ) (name' : String) :
    (emitter.off truthy (some name) cb context).get name' =
      if name' = name then (emitter.get name).filter (keeps truthy cb context)
      else emitter.get name' := by
  simp only [get, off, Dict.lookup_set]
  split_ifs <;> rfl

theorem get_off_all (emitter : Emitter γ κ) (cb : Option γ) (context : Option κ)
    (name : String) : (emitter.off truthy none cb context).get name =
      (emitter.get name).filter (keepsAny context) := by
  simp only [get, off, Dict.lookup_map_snd]
  cases emitter.listeners.lookup name <;> rfl

omit [DecidableEq γ] [DecidableEq κ] in
theorem listenersOf_append (left right : List (Registration γ κ)) (name : String) :
    listenersOf (left ++ right) name = listenersOf left name ++ listenersOf right name := by
  simp [listenersOf]

omit [DecidableEq γ] [DecidableEq κ] in
theorem mem_listenersOf_filter {registrations : List (Registration γ κ)}
    {q : Registration γ κ → Bool} {r : Registration γ κ} :
    r.listener ∈ listenersOf (registrations.filter q) r.name ↔ r ∈ registrations ∧ q r = true := by
  simp only [listenersOf, List.mem_map, List.mem_filter, decide_eq_true_eq]
  constructor
  · rintro ⟨r', ⟨⟨hmem, hq⟩, hname⟩, hlistener⟩
    have hsame : r' = r := by
      cases r'
      cases r
      simp_all
    exact hsame ▸ ⟨hmem, hq⟩
  · rintro ⟨hmem, hq⟩
    exact ⟨r, ⟨⟨hmem, hq⟩, rfl⟩, rfl⟩

omit [DecidableEq γ] [DecidableEq κ] in
theorem listenersOf_filter (registrations : List (Registration γ κ))
    (q : Registration γ κ → Bool) (name : String) :
    listenersOf (registrations.filter q) name =
      ((registrations.filter fun r => r.name = name).filter q).map Registration.listener := by
  rw [listenersOf, List.filter_comm]

omit [DecidableEq γ] [DecidableEq κ] in
/-- The listeners of an event once some registrations are gone, when the emitter keeps
those that `p` holds of. -/
theorem filter_listenersOf_iff {registrations : List (Registration γ κ)}
    {p : Listener γ κ → Bool} {q : Registration γ κ → Bool} {name : String} :
    (listenersOf registrations name).filter p = listenersOf (registrations.filter q) name ↔
      ∀ r ∈ registrations, r.name = name → p r.listener = q r := by
  have hleft : (listenersOf registrations name).filter p =
      listenersOf (registrations.filter fun r => p r.listener) name := by
    rw [listenersOf_filter, listenersOf, List.filter_map]
    rfl
  rw [hleft]
  constructor
  · rintro h r hr rfl
    have hmem : r.listener ∈ listenersOf (registrations.filter fun r => p r.listener) r.name ↔
        r ∈ registrations ∧ p r.listener = true := mem_listenersOf_filter
    rw [h, mem_listenersOf_filter] at hmem
    simp only [hr, true_and] at hmem
    exact (Bool.eq_iff_iff.mpr hmem).symm
  · intro h
    rw [listenersOf_filter, listenersOf_filter]
    congr 1
    apply List.filter_congr
    intro r hr
    obtain ⟨hmem, hname⟩ := List.mem_filter.mp hr
    exact h r hmem (of_decide_eq_true hname)

theorem shows_off_name_iff {emitter : Emitter γ κ} {registrations : List (Registration γ κ)}
    (h : emitter.Shows registrations) (name : String) (cb : Option γ) (context : Option κ) :
    (emitter.off truthy (some name) cb context).Shows
        (register registrations (.off (some name) cb context)) ↔
      ∀ r ∈ registrations, r.name = name →
        keeps truthy cb context r.listener = !r.meets (some name) cb context := by
  refine Iff.trans ⟨?_, ?_⟩ filter_listenersOf_iff
  · intro hshows
    have hname := hshows name
    rw [get_off_name, if_pos rfl, h name] at hname
    exact hname
  · intro hname name'
    rw [get_off_name]
    split_ifs with heq
    · subst heq
      rw [h name']
      exact hname
    · have hkept : (listenersOf registrations name').filter (fun _ => true) =
          listenersOf (register registrations (.off (some name) cb context)) name' := by
        apply filter_listenersOf_iff.mpr
        intro r _ hr
        have hne : r.name ≠ name := fun hsame => heq (hr.symm.trans hsame)
        simp [Registration.meets, hne]
      rw [h name', ← hkept]
      simp

theorem shows_off_all_iff {emitter : Emitter γ κ} {registrations : List (Registration γ κ)}
    (h : emitter.Shows registrations) (cb : Option γ) (context : Option κ) :
    (emitter.off truthy none cb context).Shows
        (register registrations (.off none cb context)) ↔
      ∀ r ∈ registrations, keepsAny context r.listener = !r.meets none cb context := by
  simp only [Shows, get_off_all, h _, register, filter_listenersOf_iff]
  exact ⟨fun hall r hr => hall r.name r hr rfl, fun hall name r hr _ => hall r hr⟩

/-- A call keeps the emitter in step with the rule exactly when it follows it. -/
theorem shows_call_iff {emitter : Emitter γ κ} {registrations : List (Registration γ κ)}
    (h : emitter.Shows registrations) (c : Call γ κ) :
    (emitter.call truthy c).Shows (register registrations c) ↔
      Follows truthy registrations c := by
  cases c with
  | on name cb context =>
      refine ⟨fun _ => trivial, fun _ name' => ?_⟩
      rw [call, register, get_on, listenersOf_append, h name, h name']
      split_ifs with heq
      · subst heq
        simp [listenersOf]
      · simp [listenersOf, Ne.symm heq]
  | off name cb context =>
      cases name with
      | none =>
          rw [call, shows_off_all_iff h]
          cases cb with
          | none =>
              refine ⟨fun _ => trivial, fun _ r _ => ?_⟩
              cases context <;> simp [keepsAny, Registration.meets]
          | some cb =>
              refine forall₂_congr fun r _ => ?_
              cases context with
              | none => simp [keepsAny, Registration.meets]
              | some context =>
                  by_cases hcb : r.listener.cb = cb <;>
                    by_cases hcontext : r.listener.context = some context <;>
                    simp [keepsAny, Registration.meets, hcb, hcontext]
      | some name =>
          rw [call, shows_off_name_iff h]
          cases context with
          | none =>
              refine ⟨fun _ => ?_, fun _ r _ hname => ?_⟩
              · cases cb <;> trivial
              · cases cb <;> simp [keeps, Registration.meets, hname]
          | some context =>
              cases cb with
              | none =>
                  refine forall₃_congr fun r _ hname => ?_
                  simp [keeps, Registration.meets, hname]
              | some cb =>
                  refine forall₃_congr fun r _ hname => ?_
                  by_cases hcb : r.listener.cb = cb <;>
                    by_cases hcontext : r.listener.context = some context <;>
                    cases htruthy : truthy context <;>
                    simp [keeps, Registration.meets, hname, hcb, hcontext, htruthy]

variable (truthy) in
/-- The emitter and the rule agree after every call of a history, on the listeners of each
event and on the callbacks it calls, exactly when every `off` of it follows the rule. -/
theorem calls_follow_backbone_iff (calls : List (Call γ κ)) :
    (∀ before, before <+: calls → ∀ name,
      (before.foldl (call truthy) {}).get name = listenersOf (before.foldl register []) name ∧
      (before.foldl (call truthy) {}).emit name =
        (listenersOf (before.foldl register []) name).map Listener.cb) ↔
      AtEach register [] calls (Follows truthy) := by
  have hshows : (∀ before, before <+: calls →
        (before.foldl (call truthy) {}).Shows (before.foldl register [])) ↔
      AtEach register [] calls (Follows truthy) :=
    @related_iff _ _ _ (call truthy) {} register [] Shows (Follows truthy) (fun _ => rfl)
      (fun _ _ c h => shows_call_iff h c) calls
  rw [← hshows]
  refine forall₂_congr fun before _ => ⟨fun h name => (h name).1, fun h name => ⟨h name, ?_⟩⟩
  rw [emit, h name]

/-- Two callbacks of one caller under different contexts, of which one is taken off. -/
theorem off_removes_other_context :
    ¬ ∀ before : List (Call Nat Nat), before <+: [.on "change:a" 0 (some 1),
        .on "change:a" 0 (some 2), .off (some "change:a") (some 0) (some 1)] → ∀ name,
      (before.foldl (call fun context => context ≠ 0) {}).get name =
        listenersOf (before.foldl register []) name := by
  intro h
  exact absurd (h _ (List.prefix_refl _) "change:a") (by decide)

end Emitter

end Front

end Cositos
