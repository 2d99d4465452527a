/-
A register that tasks bump, read and publish, each as a step of its own, and viewers that are
told what is published, one after the other, and see it in the order in which they were told.
No lock keeps a task from publishing a value that is out of date.
-/
import Mathlib.Order.BoundedOrder.Basic
import Mathlib.Logic.Function.Iterate
import Mathlib.Data.List.Basic

namespace Cositos

namespace Broadcasts

universe u

/-- What a task still does.  A value that was read waits to be published, and then waits for
each viewer to be told. -/
inductive Op (V : Type u)
  | bump
  | read
  | publish (v : V)
  | tell (i : Nat) (v : V)

/-- The value that waits. -/
def Op.value? {V : Type u} : Op V → Option V
  | .publish v | .tell _ v => some v
  | .bump | .read => none

/-- The register, its tasks, and of each viewer what it shows and what it has still to see,
oldest first. -/
structure Register (V : Type u) where
  value : V
  tasks : List (List (Op V)) := []
  viewers : List (V × List V) := []

variable {V : Type u}

/-- What the tasks still do. -/
def Register.pending (r : Register V) : List (Op V) := r.tasks.flatten

/-- What a viewer shows in the end. -/
def latest (viewer : V × List V) : V := viewer.2.getLastD viewer.1

/-- Each bump is followed by a read. -/
def Settles : List (Op V) → Prop
  | [] => True
  | .bump :: task => .read ∈ task ∧ Settles task
  | _ :: task => Settles task

/-- A task that a viewer or someone else begins: it has read nothing yet. -/
structure Begins (task : List (Op V)) : Prop where
  settles : Settles task
  unread : ∀ op ∈ task, op.value? = none

/-- What happens. -/
inductive Label (V : Type u)
  | begins (task : List (Op V))
  | bump
  | read
  | publish (targets : List Nat)
  | tell
  | see

section Step

variable [LE V] [OrderBot V] (bump : V → V)

/-- One thing happens. -/
inductive Step : Register V → Label V → Register V → Prop
  /-- A viewer joins and begins a task that will publish to it. -/
  | join {r : Register V} {task : List (Op V)} (hbegins : Begins task) (hread : .read ∈ task) :
      Step r (.begins task)
        { r with tasks := r.tasks ++ [task], viewers := r.viewers ++ [(⊥, [])] }
  | begins {r : Register V} {task : List (Op V)} (hbegins : Begins task) :
      Step r (.begins task) { r with tasks := r.tasks ++ [task] }
  | bump {r : Register V} {front back : List (List (Op V))} {task : List (Op V)}
      (htasks : r.tasks = front ++ (.bump :: task) :: back) :
      Step r .bump { r with value := bump r.value, tasks := front ++ task :: back }
  | read {r : Register V} {front back : List (List (Op V))} {task : List (Op V)}
      (htasks : r.tasks = front ++ (.read :: task) :: back) :
      Step r .read { r with tasks := front ++ (.publish r.value :: task) :: back }
  | publish {r : Register V} {front back : List (List (Op V))} {task : List (Op V)} {v : V}
      {targets : List Nat} (htasks : r.tasks = front ++ (.publish v :: task) :: back) :
      Step r (.publish targets)
        { r with tasks := front ++ (targets.map (.tell · v) ++ task) :: back }
  | tell {r : Register V} {front back : List (List (Op V))} {task : List (Op V)} {i : Nat} {v : V}
      (htasks : r.tasks = front ++ (.tell i v :: task) :: back) :
      Step r .tell
        { r with
          tasks := front ++ task :: back
          viewers := r.viewers.modify i fun viewer => (viewer.1, viewer.2 ++ [v]) }
  | see {r : Register V} {front back : List (V × List V)} {shown v : V} {queue : List V}
      (hviewers : r.viewers = front ++ (shown, v :: queue) :: back) :
      Step r .see { r with viewers := front ++ (v, queue) :: back }

end Step

/-- A value waits for a task. -/
def Register.Waits (r : Register V) (v : V) : Prop := ∃ op ∈ r.pending, op.value? = some v

/-- The register is not read while another value waits, and what is published is for every
viewer. -/
def Calm (r : Register V) : Label V → Prop
  | .read => ∀ v, r.Waits v → v = r.value
  | .publish targets => ∀ i < r.viewers.length, i ∈ targets
  | _ => True

/-! ### Tasks -/

section Tasks

variable {front back : List (List (Op V))} {task : List (Op V)} {op : Op V}

theorem mem_pending_iff {r : Register V} : op ∈ r.pending ↔ ∃ task ∈ r.tasks, op ∈ task :=
  List.mem_flatten

/-- What is left when a task has done its first thing. -/
theorem mem_rest {op' : Op V} (h : op' ∈ (front ++ task :: back).flatten) :
    op' ∈ (front ++ (op :: task) :: back).flatten := by
  simp only [List.flatten_append, List.flatten_cons, List.mem_append, List.mem_cons] at h ⊢
  rcases h with h | h | h
  · exact Or.inl h
  · exact Or.inr (Or.inl (Or.inr h))
  · exact Or.inr (Or.inr h)

theorem mem_first_or_rest {op' : Op V} (h : op' ∈ (front ++ (op :: task) :: back).flatten) :
    op' = op ∨ op' ∈ (front ++ task :: back).flatten := by
  simp only [List.flatten_append, List.flatten_cons, List.mem_append, List.mem_cons] at h ⊢
  rcases h with h | (h | h) | h
  · exact Or.inr (Or.inl h)
  · exact Or.inl h
  · exact Or.inr (Or.inr (Or.inl h))
  · exact Or.inr (Or.inr (Or.inr h))

theorem mem_own {op' : Op V} (h : op' ∈ task) : op' ∈ (front ++ task :: back).flatten := by
  simp [h]

theorem settles_tail (h : Settles (op :: task)) : Settles task := by
  cases op with
  | bump => exact h.2
  | read | publish | tell => exact h

theorem settles_tells {v : V} (targets : List Nat) (h : Settles task) :
    Settles (targets.map (Op.tell · v) ++ task) := by
  induction targets with
  | nil => exact h
  | cons i targets ih => exact ih

end Tasks

theorem settles_all {front back : List (List (Op V))} {first task : List (Op V)}
    (h : ∀ t ∈ front ++ first :: back, Settles t) (htask : Settles first → Settles task) :
    ∀ t ∈ front ++ task :: back, Settles t := by
  intro t ht
  simp only [List.mem_append, List.mem_cons] at ht
  rcases ht with hfront | rfl | hback
  · exact h t (by simp [hfront])
  · exact htask (h first (by simp))
  · exact h t (by simp [hback])

/-! ### Counting -/

section Counting

def Op.isBump : Op V → Bool
  | .bump => true
  | _ => false

/-- How many bumps are still to come. -/
def Register.bumps (r : Register V) : Nat := r.pending.countP Op.isBump

/-- How many bumps are begun. -/
def Label.bumps : Label V → Nat
  | .begins task => task.countP Op.isBump
  | _ => 0

theorem countP_first {front back : List (List (Op V))} {task : List (Op V)} (op : Op V) :
    (front ++ (op :: task) :: back).flatten.countP Op.isBump =
      (front ++ task :: back).flatten.countP Op.isBump + if op.isBump then 1 else 0 := by
  simp only [List.flatten_append, List.flatten_cons, List.countP_append, List.countP_cons]
  omega

variable [LE V] [OrderBot V] {bump : V → V} {r r' : Register V} {label : Label V}

/-- Each bump that is begun is carried out once. -/
theorem Step.counted (h : Step bump r label r') :
    ∃ k, r'.value = bump^[k] r.value ∧ k + r'.bumps = r.bumps + label.bumps := by
  cases h with
  | join hbegins | begins hbegins =>
      exact ⟨0, rfl, by simp [Register.bumps, Register.pending, Label.bumps]⟩
  | bump htasks =>
      refine ⟨1, rfl, ?_⟩
      rw [Register.bumps, Register.bumps, Register.pending, Register.pending, htasks,
        countP_first .bump, Nat.add_comm]
      rfl
  | read htasks =>
      refine ⟨0, rfl, ?_⟩
      rw [Register.bumps, Register.bumps, Register.pending, Register.pending, htasks,
        countP_first .read, countP_first (.publish r.value), Nat.zero_add]
      rfl
  | @publish front back task v targets htasks =>
      have htells : (targets.map (Op.tell · v)).countP Op.isBump = 0 :=
        List.countP_eq_zero.mpr fun op hop => by
          obtain ⟨i, _, rfl⟩ := List.mem_map.mp hop
          exact Bool.false_ne_true
      refine ⟨0, rfl, ?_⟩
      rw [Register.bumps, Register.bumps, Register.pending, Register.pending, htasks,
        countP_first (.publish _), Nat.zero_add]
      simp only [List.flatten_append, List.flatten_cons, List.countP_append, htells]
      simp [Label.bumps, Op.isBump]
  | tell htasks =>
      refine ⟨0, rfl, ?_⟩
      rw [Register.bumps, Register.bumps, Register.pending, Register.pending, htasks,
        countP_first (.tell _ _), Nat.zero_add]
      rfl
  | see => exact ⟨0, rfl, Nat.zero_add _⟩

end Counting

/-! ### Agreement -/

section Agreement

/-- The register will be read, or what waits is its value and each viewer has been told it, or
will be. -/
structure Fresh (r : Register V) : Prop where
  settles : ∀ task ∈ r.tasks, Settles task
  current : .read ∈ r.pending ∨
    (∀ v, r.Waits v → v = r.value) ∧
      (.publish r.value ∈ r.pending ∨
        ∀ (i : Nat) viewer, r.viewers[i]? = some viewer →
          latest viewer = r.value ∨ .tell i r.value ∈ r.pending)

theorem fresh_new (value : V) : Fresh ({ value } : Register V) where
  settles := by simp
  current := Or.inr ⟨by simp [Register.Waits, Register.pending], Or.inr (by simp)⟩

/-- Seeing a value leaves what a viewer shows in the end. -/
theorem latest_of_see {r : Register V} {front back : List (V × List V)} {shown v : V}
    {queue : List V} (hviewers : r.viewers = front ++ (shown, v :: queue) :: back) {i : Nat}
    {viewer : V × List V} (hi : (front ++ (v, queue) :: back)[i]? = some viewer) :
    ∃ old, r.viewers[i]? = some old ∧ latest viewer = latest old := by
  rw [hviewers]
  rcases Nat.lt_trichotomy i front.length with hlt | rfl | hgt
  · rw [List.getElem?_append_left hlt] at hi ⊢
    exact ⟨viewer, hi, rfl⟩
  · rw [List.getElem?_append_right (Nat.le_refl _), Nat.sub_self] at hi ⊢
    cases hi
    exact ⟨_, rfl, by rw [latest, latest, List.getLastD_cons]⟩
  · obtain ⟨k, rfl⟩ := Nat.exists_eq_add_of_lt hgt
    rw [List.getElem?_append_right (by omega)] at hi ⊢
    rw [show front.length + k + 1 - front.length = k + 1 by omega, List.getElem?_cons_succ]
      at hi ⊢
    exact ⟨viewer, hi, rfl⟩

/-- A viewer that is told a value shows it in the end; the others are as they were. -/
theorem latest_of_tell {viewers : List (V × List V)} {i j : Nat} {v : V} {viewer : V × List V}
    (hj : (viewers.modify i fun viewer => (viewer.1, viewer.2 ++ [v]))[j]? = some viewer) :
    i = j ∧ latest viewer = v ∨ i ≠ j ∧ viewers[j]? = some viewer := by
  rw [List.getElem?_modify] at hj
  obtain ⟨old, hold, rfl⟩ := Option.map_eq_some_iff.mp hj
  by_cases hij : i = j
  · exact Or.inl ⟨hij, by simp [hij, latest]⟩
  · exact Or.inr ⟨hij, by rwa [if_neg hij]⟩

/-- When all tasks are done, every viewer comes to show the value of the register. -/
theorem Fresh.agree {r : Register V} (h : Fresh r) (hdone : r.pending = []) :
    ∀ viewer ∈ r.viewers, latest viewer = r.value := by
  intro viewer hviewer
  have hnone : ∀ op, op ∉ r.pending := by simp [hdone]
  obtain ⟨i, hi⟩ := List.mem_iff_getElem?.mp hviewer
  have htold := ((h.current.resolve_left (hnone _)).2).resolve_left (hnone _)
  exact (htold i viewer hi).resolve_right (hnone _)

variable [LE V] [OrderBot V] {bump : V → V} {r r' : Register V} {label : Label V}

/-- What waits was waiting before, or was just read. -/
theorem Step.waits_cases (hstep : Step bump r label r') {v : V} (hv : r'.Waits v) :
    r.Waits v ∨ label = .read ∧ v = r.value := by
  have hbegins : ∀ {task : List (Op V)}, Begins task →
      (∃ op ∈ (r.tasks ++ [task]).flatten, op.value? = some v) → r.Waits v := by
    rintro task hbegins ⟨op, hop, hvalue⟩
    rw [List.flatten_append, List.mem_append, List.flatten_singleton] at hop
    refine ⟨op, hop.resolve_right fun hmem => ?_, hvalue⟩
    rw [hbegins.unread op hmem] at hvalue
    cases hvalue
  obtain ⟨op, hop, hvalue⟩ := hv
  cases hstep with
  | join hbegin _ | begins hbegin => exact Or.inl (hbegins hbegin ⟨op, hop, hvalue⟩)
  | bump htasks | tell htasks =>
      refine Or.inl ⟨op, ?_, hvalue⟩
      rw [Register.pending, htasks]
      exact mem_rest hop
  | read htasks =>
      rcases mem_first_or_rest hop with rfl | hrest
      · exact Or.inr ⟨rfl, (Option.some.inj hvalue).symm⟩
      · refine Or.inl ⟨op, ?_, hvalue⟩
        rw [Register.pending, htasks]
        exact mem_rest hrest
  | @publish front back task w targets htasks =>
      refine Or.inl ?_
      simp only [Register.pending, List.flatten_append, List.flatten_cons, List.mem_append] at hop
      rw [Register.Waits, Register.pending, htasks]
      rcases hop with hfront | (htell | htask) | hback
      · exact ⟨op, by simp [hfront], hvalue⟩
      · obtain ⟨i, _, rfl⟩ := List.mem_map.mp htell
        exact ⟨.publish w, by simp, hvalue⟩
      · exact ⟨op, by simp [htask], hvalue⟩
      · exact ⟨op, by simp [hback], hvalue⟩
  | see => exact Or.inl ⟨op, hop, hvalue⟩

theorem Step.settles (hstep : Step bump r label r') (h : ∀ task ∈ r.tasks, Settles task) :
    ∀ task ∈ r'.tasks, Settles task := by
  cases hstep with
  | join hbegins _ | begins hbegins =>
      exact List.forall_mem_append.mpr ⟨h, by simpa using hbegins.settles⟩
  | bump htasks | tell htasks => exact settles_all (htasks ▸ h) settles_tail
  | @read front back task htasks =>
      have hread : ∀ t ∈ front ++ (.read :: task) :: back, Settles t := htasks ▸ h
      exact settles_all hread fun hfirst => hfirst
  | @publish front back task v targets htasks =>
      have hpublish : ∀ t ∈ front ++ (.publish v :: task) :: back, Settles t := htasks ▸ h
      exact settles_all hpublish fun hfirst => settles_tells targets hfirst
  | see => exact h

/-- What is still to be read is read some time. -/
theorem Step.keeps_read (hstep : Step bump r label r') (hlabel : label ≠ .read)
    (hread : .read ∈ r.pending) : .read ∈ r'.pending := by
  have hlater : ∀ {front back : List (List (Op V))} {task : List (Op V)} {op : Op V},
      r.tasks = front ++ (op :: task) :: back → op ≠ .read →
      .read ∈ (front ++ task :: back).flatten := by
    intro front back task op htasks hop
    rw [Register.pending, htasks] at hread
    exact (mem_first_or_rest hread).resolve_left (Ne.symm hop)
  cases hstep with
  | join | begins =>
      rw [Register.pending, List.flatten_append]
      exact List.mem_append_left _ hread
  | bump htasks | tell htasks => exact hlater htasks (by simp)
  | read => exact absurd rfl hlabel
  | publish htasks =>
      have hrest := hlater htasks (by simp)
      simp only [Register.pending, List.flatten_append, List.flatten_cons, List.mem_append]
        at hrest ⊢
      tauto
  | see => exact hread

/-- A step in a calm register. -/
theorem Step.fresh (hstep : Step bump r label r') (hcalm : Calm r label) (h : Fresh r) :
    Fresh r' := by
  refine ⟨hstep.settles h.settles, ?_⟩
  have hwaits : (∀ v, r.Waits v → v = r.value) → r'.value = r.value → label ≠ .read →
      ∀ v, r'.Waits v → v = r'.value := by
    intro hall hvalue hlabel v hv
    rw [hvalue]
    exact hall v ((hstep.waits_cases hv).resolve_right fun hread => hlabel hread.1)
  have hkeeps := hstep.keeps_read
  cases hstep with
  | join hbegins hread => exact Or.inl (mem_pending_iff.mpr ⟨_, by simp, hread⟩)
  | @begins task hbegins =>
      have hold : ∀ op, op ∈ r.pending → op ∈ (r.tasks ++ [task]).flatten := by
        intro op hop
        rw [List.flatten_append]
        exact List.mem_append_left _ hop
      refine h.current.imp (hkeeps (by simp)) fun ⟨hvalues, hreach⟩ =>
        ⟨hwaits hvalues rfl (by simp), hreach.imp (hold _) fun hall i viewer hi => ?_⟩
      exact (hall i viewer hi).imp_right (hold _)
  | @bump front back task htasks =>
      have hsettles : ∀ t ∈ front ++ (.bump :: task) :: back, Settles t := htasks ▸ h.settles
      have hread : .read ∈ task ∧ Settles task := hsettles (.bump :: task) (by simp)
      exact Or.inl (mem_own hread.1)
  | @read front back task htasks =>
      refine Or.inr ⟨?_, Or.inl (by simp [Register.pending])⟩
      rintro v ⟨op, hop, hvalue⟩
      rcases mem_first_or_rest hop with rfl | hrest
      · exact (Option.some.inj hvalue).symm
      · refine hcalm v ⟨op, ?_, hvalue⟩
        rw [Register.pending, htasks]
        exact mem_rest hrest
  | @publish front back task v targets htasks =>
      refine h.current.imp (hkeeps (by simp)) fun ⟨hvalues, _⟩ =>
        ⟨hwaits hvalues rfl (by simp), Or.inr fun i viewer hi => Or.inr ?_⟩
      have hv : v = r.value := hvalues v ⟨.publish v, by simp [Register.pending, htasks], rfl⟩
      have htarget : i ∈ targets := hcalm i (List.getElem?_eq_some_iff.mp hi).1
      simp [Register.pending, hv, htarget]
  | @tell front back task i v htasks =>
      refine h.current.imp (hkeeps (by simp)) fun ⟨hvalues, hreach⟩ =>
        ⟨hwaits hvalues rfl (by simp), ?_⟩
      have hpending : r.pending = (front ++ (.tell i v :: task) :: back).flatten := by
        rw [Register.pending, htasks]
      rw [hpending] at hreach
      have hv : v = r.value := hvalues v ⟨.tell i v, by simp [hpending], rfl⟩
      refine hreach.imp (fun hpublish => (mem_first_or_rest hpublish).resolve_left (by simp))
        fun hall j viewer hj => ?_
      rcases latest_of_tell hj with ⟨-, hlatest⟩ | ⟨hij, hold⟩
      · exact Or.inl (hlatest.trans hv)
      · refine (hall j viewer hold).imp_right fun htell => ?_
        refine (mem_first_or_rest htell).resolve_left fun heq => ?_
        cases heq
        exact hij rfl
  | @see front back shown v queue hviewers =>
      refine h.current.imp_right fun ⟨hvalues, hreach⟩ =>
        ⟨hvalues, hreach.imp_right fun hall i viewer hi => ?_⟩
      obtain ⟨old, hget, hlatest⟩ := latest_of_see hviewers hi
      rw [hlatest]
      exact hall i old hget

end Agreement

/-! ### Bounds -/

section Steps

variable [LE V] [OrderBot V] {bump : V → V} {r r' : Register V} {label : Label V}

/-- A viewer is as it was, has just joined, has been published to, or has seen a value. -/
theorem Step.viewer_cases (hstep : Step bump r label r') {viewer : V × List V}
    (hviewer : viewer ∈ r'.viewers) :
    viewer ∈ r.viewers ∨ viewer = (⊥, []) ∨
      (∃ old ∈ r.viewers, ∃ v, r.Waits v ∧ viewer = (old.1, old.2 ++ [v])) ∨
      ∃ shown, (shown, viewer.1 :: viewer.2) ∈ r.viewers := by
  cases hstep with
  | join =>
      rw [List.mem_append, List.mem_singleton] at hviewer
      exact hviewer.imp_right Or.inl
  | begins | bump | read | publish => exact Or.inl hviewer
  | @tell _ _ _ i v htasks =>
      obtain ⟨j, hj⟩ := List.mem_iff_getElem?.mp hviewer
      rw [List.getElem?_modify] at hj
      obtain ⟨old, hget, rfl⟩ := Option.map_eq_some_iff.mp hj
      have hold := List.mem_of_getElem? hget
      by_cases hij : i = j
      · exact Or.inr (Or.inr (Or.inl ⟨old, hold, v,
          ⟨.tell i v, by simp [Register.pending, htasks], rfl⟩, by rw [if_pos hij]⟩))
      · exact Or.inl (by rwa [if_neg hij])
  | @see front back shown v queue hviewers =>
      rw [hviewers]
      simp only [List.mem_append, List.mem_cons] at hviewer
      rcases hviewer with hfront | rfl | hback
      · exact Or.inl (by simp [hfront])
      · exact Or.inr (Or.inr (Or.inr ⟨shown, by simp⟩))
      · exact Or.inl (by simp [hback])

end Steps

section Bounds

variable [Preorder V] [OrderBot V] {bump : V → V} {r r' : Register V} {label : Label V}

/-- Every value that was read is at most the value of the register. -/
structure Bounded (r : Register V) : Prop where
  pending : ∀ v, r.Waits v → v ≤ r.value
  viewers : ∀ viewer ∈ r.viewers, ∀ v ∈ viewer.1 :: viewer.2, v ≤ r.value

/-- No viewer goes back. -/
structure Rising (r : Register V) : Prop extends Bounded r where
  equal : ∀ v w, r.Waits v → r.Waits w → v = w
  ahead : ∀ viewer ∈ r.viewers, ∀ v ∈ viewer.1 :: viewer.2, ∀ w, r.Waits w → v ≤ w
  sorted : ∀ viewer ∈ r.viewers, (viewer.1 :: viewer.2).Pairwise (· ≤ ·)

omit [OrderBot V] in
theorem bounded_new (value : V) : Bounded ({ value } : Register V) where
  pending := by simp [Register.Waits, Register.pending]
  viewers := by simp

omit [OrderBot V] in
theorem rising_new (value : V) : Rising ({ value } : Register V) where
  toBounded := bounded_new value
  equal := by simp [Register.Waits, Register.pending]
  ahead := by simp
  sorted := by simp

theorem Step.le_value (hbump : ∀ v, v ≤ bump v) (hstep : Step bump r label r') :
    r.value ≤ r'.value := by
  cases hstep with
  | bump => exact hbump r.value
  | join | begins | read | publish | tell | see => exact le_rfl

/-- What a viewer has seen or will see. -/
theorem Step.seen_cases (hstep : Step bump r label r') {viewer : V × List V}
    (hviewer : viewer ∈ r'.viewers) {v : V} (hv : v ∈ viewer.1 :: viewer.2) :
    v = ⊥ ∨ r.Waits v ∨ ∃ old ∈ r.viewers, v ∈ old.1 :: old.2 := by
  rcases hstep.viewer_cases hviewer with hold | rfl | ⟨old, hold, w, hw, rfl⟩ | ⟨shown, hold⟩
  · exact Or.inr (Or.inr ⟨viewer, hold, hv⟩)
  · exact Or.inl (List.mem_singleton.mp hv)
  · rw [← List.cons_append, List.mem_append, List.mem_singleton] at hv
    rcases hv with hv | rfl
    · exact Or.inr (Or.inr ⟨old, hold, hv⟩)
    · exact Or.inr (Or.inl hw)
  · exact Or.inr (Or.inr ⟨_, hold, List.mem_cons_of_mem _ hv⟩)

theorem Step.bounded (hbump : ∀ v, v ≤ bump v) (hstep : Step bump r label r') (h : Bounded r) :
    Bounded r' := by
  have hle := hstep.le_value hbump
  constructor
  · intro v hv
    rcases hstep.waits_cases hv with hold | ⟨-, rfl⟩
    · exact (h.pending v hold).trans hle
    · exact hle
  · intro viewer hviewer v hv
    rcases hstep.seen_cases hviewer hv with rfl | hpending | ⟨old, hold, hv⟩
    · exact bot_le
    · exact (h.pending v hpending).trans hle
    · exact (h.viewers old hold v hv).trans hle

/-- A step in a calm register. -/
theorem Step.rising (hbump : ∀ v, v ≤ bump v) (hstep : Step bump r label r')
    (hcalm : Calm r label) (h : Rising r) : Rising r' := by
  have hread : label = .read → ∀ v, r.Waits v → v = r.value := by
    rintro rfl
    exact hcalm
  refine ⟨hstep.bounded hbump h.toBounded, fun v w hv hw => ?_,
    fun viewer hviewer v hv w hw => ?_, fun viewer hviewer => ?_⟩
  · rcases hstep.waits_cases hv with hv | ⟨hlabel, rfl⟩
    · rcases hstep.waits_cases hw with hw | ⟨hlabel, rfl⟩
      · exact h.equal v w hv hw
      · exact hread hlabel v hv
    · rcases hstep.waits_cases hw with hw | ⟨-, rfl⟩
      · exact (hread hlabel w hw).symm
      · rfl
  · rcases hstep.waits_cases hw with hw | ⟨-, rfl⟩
    · rcases hstep.seen_cases hviewer hv with rfl | hpending | ⟨old, hold, hv⟩
      · exact bot_le
      · exact (h.equal v w hpending hw).le
      · exact h.ahead old hold v hv w hw
    · rcases hstep.seen_cases hviewer hv with rfl | hpending | ⟨old, hold, hv⟩
      · exact bot_le
      · exact h.pending v hpending
      · exact h.viewers old hold v hv
  · rcases hstep.viewer_cases hviewer with hold | rfl | ⟨old, hold, v, hv, rfl⟩ | ⟨shown, hold⟩
    · exact h.sorted viewer hold
    · exact List.pairwise_singleton _ _
    · rw [← List.cons_append, List.pairwise_append]
      refine ⟨h.sorted old hold, List.pairwise_singleton _ _, fun x hx y hy => ?_⟩
      rw [List.mem_singleton.mp hy]
      exact h.ahead old hold x hx v hv
    · exact (List.pairwise_cons.mp (h.sorted _ hold)).2

end Bounds

end Broadcasts

end Cositos
