/-
Events that reach the reducer in any order, id assignments included, and what
the phase and the messages then say about each other.
-/
import Cositos.Lifecycle
import Cositos.Session

namespace Cositos

/-- An event with the host state and the capabilities it is reduced under. -/
structure Arrival where
  event : Event
  currentState : Bindings := []
  capabilities : TransportCapabilities := {}

namespace Port

variable {ε : Type}

/-- `reduce` folded over the arrivals from phase `UNOPENED`: the last phase and
all effects. -/
def foldReduce (port : Port ε) (arrivals : List Arrival) : Except ε (Phase × List Effect) :=
  arrivals.foldlM
    (fun reached arrival => do
      let (phase, effects) ←
        port.reduce reached.1 arrival.event arrival.currentState arrival.capabilities
      return (phase, reached.2 ++ effects))
    (.unopened, [])

/-- The `msg_type`s of the messages among the effects. -/
def sentTypes (effects : List Effect) : List MsgType :=
  effects.filterMap fun
    | .send message => some message.msgType
    | _ => none

/-- Some `Open` has no `Close` after it. -/
def OpenUnclosed (events : List Event) : Prop :=
  ∃ before after, events = before ++ .openComm :: after ∧ .closeComm ∉ after

/-- The phase is open exactly while an `Open` is not closed, and every
`comm_msg` belongs to a comm that was opened and not closed. -/
structure Lawful (events : List Event) (phase : Phase) (effects : List Effect) : Prop where
  phase_iff : phase = .opened ↔ OpenUnclosed events
  commMsg : ∀ front back, sentTypes effects = front ++ .commMsg :: back →
    ∃ before between, front = before ++ .commOpen :: between ∧ .commClose ∉ between

/-- Every id is assigned while an `Open` is not closed. -/
def Timely (events : List Event) : Prop :=
  ∀ front id back, events = front ++ .commIdAssigned id :: back → OpenUnclosed front

theorem sentTypes_append (effects effects' : List Effect) :
    sentTypes (effects ++ effects') = sentTypes effects ++ sentTypes effects' :=
  List.filterMap_append

theorem openUnclosed_append_open (events : List Event) :
    OpenUnclosed (events ++ [.openComm]) := ⟨events, [], rfl, by simp⟩

theorem openUnclosed_append_iff {event : Event} (hopen : event ≠ .openComm)
    (events : List Event) :
    OpenUnclosed (events ++ [event]) ↔ OpenUnclosed events ∧ event ≠ .closeComm := by
  constructor
  · rintro ⟨before, after, heq, hno⟩
    rcases List.eq_nil_or_concat after with rfl | ⟨after, last, rfl⟩
    · exact absurd (List.append_inj_right' heq rfl) (by simpa using hopen)
    · rw [List.concat_eq_append, ← List.cons_append, ← List.append_assoc] at heq
      have hlast : event = last := by simpa using List.append_inj_right' heq rfl
      subst hlast
      simp only [List.concat_eq_append, List.mem_append, List.mem_singleton, not_or] at hno
      exact ⟨⟨before, after, List.append_inj_left' heq rfl, hno.1⟩, fun h => hno.2 h.symm⟩
  · rintro ⟨⟨before, after, rfl, hno⟩, hclose⟩
    refine ⟨before, after ++ [event], by simp, ?_⟩
    simp only [List.mem_append, List.mem_singleton, not_or]
    exact ⟨hno, fun h => hclose h.symm⟩

theorem timely_append_iff {events : List Event} {event : Event} :
    Timely (events ++ [event]) ↔
      Timely events ∧ ∀ id, event = .commIdAssigned id → OpenUnclosed events := by
  constructor
  · intro h
    refine ⟨fun front id back heq => h front id (back ++ [event]) (by simp [heq]), ?_⟩
    rintro id rfl
    exact h events id [] rfl
  · rintro ⟨hevents, hlast⟩ front id back heq
    rcases List.eq_nil_or_concat back with rfl | ⟨back, last, rfl⟩
    · have hfront := List.append_inj_left' heq rfl
      have hid := List.append_inj_right' heq rfl
      rw [← hfront]
      exact hlast id (by simpa using hid)
    · rw [List.concat_eq_append, ← List.cons_append, ← List.append_assoc] at heq
      exact hevents front id back (List.append_inj_left' heq rfl)

/-- What holds after timely events: the messages sent form sessions, the last of
which is open exactly in phase `OPEN`. -/
structure Sessional (events : List Event) (phase : Phase) (effects : List Effect) : Prop where
  phase_iff : phase = .opened ↔ OpenUnclosed events
  log : Session.Log .commOpen .commMsg .commClose (sentTypes effects) (phase = .opened)

variable {events : List Event} {phase phase' : Phase} {effects effects' : List Effect}

theorem sessional_start : Sessional [] .unopened [] where
  phase_iff := by simp [OpenUnclosed]
  log := Session.Log.nil

theorem Sessional.lawful (h : Sessional events phase effects) : Lawful events phase effects where
  phase_iff := h.phase_iff
  commMsg front back heq := by
    apply h.log.session_of_inner (by decide) (by decide)
    rw [heq]
    exact ⟨back, by simp⟩

/-- A step without messages that leaves the phase alone. -/
theorem Sessional.quiet (h : Sessional events phase effects) {event : Event}
    (heffects : sentTypes effects' = [])
    (hevents : OpenUnclosed (events ++ [event]) ↔ OpenUnclosed events) :
    Sessional (events ++ [event]) phase (effects ++ effects') where
  phase_iff := h.phase_iff.trans hevents.symm
  log := by
    rw [sentTypes_append, heffects, List.append_nil]
    exact h.log

/-- One answer of the reducer keeps the sessions. -/
theorem Sessional.step (h : Sessional events phase effects) {event : Event}
    {capabilities : TransportCapabilities}
    (hmoves : Moves capabilities phase event phase' effects')
    (htimely : ∀ id, event = .commIdAssigned id → OpenUnclosed events) :
    Sessional (events ++ [event]) phase' (effects ++ effects') := by
  have hlog := h.log
  cases hmoves with
  | @opens _ message hphase htype =>
      refine ⟨iff_of_true rfl (openUnclosed_append_open events), ?_⟩
      have hsent : sentTypes (.send message ::
          if capabilities.supportsReceive = true then [.listen] else []) = [.commOpen] := by
        by_cases hreceive : capabilities.supportsReceive = true <;>
          simp [sentTypes, hreceive, htype]
      rw [sentTypes_append, hsent]
      rw [decide_eq_false hphase] at hlog
      exact hlog.opens
  | closes htype =>
      refine ⟨?_, ?_⟩
      · rw [openUnclosed_append_iff (by simp)]
        simp
      · rw [sentTypes_append]
        simp only [sentTypes, List.filterMap_cons, List.filterMap_nil, htype]
        exact Session.Log.closes hlog
  | sends hevent htype =>
      refine ⟨?_, ?_⟩
      · rw [openUnclosed_append_iff hevent.1, ← h.phase_iff]
        simp [hevent.2]
      · rw [sentTypes_append]
        simp only [sentTypes, List.filterMap_cons, List.filterMap_nil, htype]
        exact Session.Log.passes hlog
  | applies | invokes =>
      apply h.quiet rfl
      rw [openUnclosed_append_iff (by simp)]
      simp
  | refuses hevent =>
      apply h.quiet rfl
      rw [openUnclosed_append_iff (by rintro rfl; simp [requiresOpen] at hevent)]
      simp only [and_iff_left_iff_imp]
      rintro _ rfl
      simp [requiresOpen] at hevent
  | skips hevent hopen hclose =>
      apply h.quiet rfl
      by_cases heq : event = .openComm
      · subst heq
        exact iff_of_true (openUnclosed_append_open events) (h.phase_iff.mp (hopen rfl))
      · rw [openUnclosed_append_iff heq, and_iff_left_iff_imp]
        exact fun hunclosed heq => hclose heq (h.phase_iff.mpr hunclosed)
  | @adopts phase id =>
      -- the only move that can leave a phase other than OPEN without an Open
      have hopened : phase = .opened := h.phase_iff.mpr (htimely id rfl)
      subst hopened
      apply h.quiet rfl
      rw [openUnclosed_append_iff (by simp)]
      simp

theorem foldReduce_append_iff {port : Port ε} {arrivals : List Arrival} {arrival : Arrival}
    {reached : Phase × List Effect} :
    port.foldReduce (arrivals ++ [arrival]) = .ok reached ↔
      ∃ before answer, port.foldReduce arrivals = .ok before ∧
        port.reduce before.1 arrival.event arrival.currentState arrival.capabilities =
          .ok answer ∧
        reached = (answer.1, before.2 ++ answer.2) := by
  simp only [foldReduce, List.foldlM_append, List.foldlM_cons, List.foldlM_nil, bind_eq_ok_iff,
    bind_pure]
  constructor
  · rintro ⟨before, hbefore, answer, hanswer, hreached⟩
    cases hreached
    exact ⟨before, answer, hbefore, hanswer, rfl⟩
  · rintro ⟨before, answer, hbefore, hanswer, rfl⟩
    exact ⟨before, hbefore, answer, hanswer, rfl⟩

/-- The events of the arrivals. -/
abbrev eventsOf (arrivals : List Arrival) : List Event := arrivals.map Arrival.event

theorem sessional_foldReduce {port : Port ε} {arrivals : List Arrival}
    {reached : Phase × List Effect} (h : port.foldReduce arrivals = .ok reached)
    (htimely : Timely (eventsOf arrivals)) :
    Sessional (eventsOf arrivals) reached.1 reached.2 := by
  induction arrivals using List.reverseRecOn generalizing reached with
  | nil =>
      cases h
      exact sessional_start
  | append_singleton arrivals arrival ih =>
      rw [eventsOf, List.map_append, List.map_cons, List.map_nil] at htimely ⊢
      obtain ⟨hbefore, hlast⟩ := timely_append_iff.mp htimely
      obtain ⟨before, answer, hfold, hanswer, rfl⟩ := foldReduce_append_iff.mp h
      exact (ih hfold hbefore).step (reduce_moves hanswer) hlast

/-- The phase tells whether an `Open` is unclosed, and no `comm_msg` leaves
outside an open comm, after any sequence of events in which ids are assigned
only while an `Open` is unclosed; one assigned at another time makes the phase
`OPEN` by itself. -/
theorem foldReduce_lawful_iff (port : Port ε) (arrivals : List Arrival)
    (reached : Phase × List Effect) (h : port.foldReduce arrivals = .ok reached) :
    (∀ done reached', done <+: arrivals → port.foldReduce done = .ok reached' →
      Lawful (eventsOf done) reached'.1 reached'.2) ↔
      Timely (eventsOf arrivals) := by
  induction arrivals using List.reverseRecOn generalizing reached with
  | nil =>
      refine iff_of_true ?_ (by simp [Timely])
      rintro done reached' hdone hfold
      obtain rfl := List.prefix_nil.mp hdone
      cases hfold
      exact sessional_start.lawful
  | append_singleton arrivals arrival ih =>
      obtain ⟨before, answer, hfold, hanswer, rfl⟩ := foldReduce_append_iff.mp h
      constructor
      · intro hlaw
        have hbefore := (ih before hfold).mp fun done reached' hdone =>
          hlaw done reached' (hdone.trans (List.prefix_append _ _))
        rw [eventsOf, List.map_append, List.map_cons, List.map_nil, timely_append_iff]
        refine ⟨hbefore, fun id hid => ?_⟩
        have hlast := (hlaw _ _ (List.prefix_refl _) h).phase_iff
        rw [eventsOf, List.map_append, List.map_cons, List.map_nil, hid,
          openUnclosed_append_iff (by simp)] at hlast
        rw [hid] at hanswer
        cases hanswer
        exact (hlast.mp rfl).1
      · intro htimely done reached' hdone hfold'
        refine (sessional_foldReduce hfold' fun front id back heq => ?_).lawful
        obtain ⟨rest, hrest⟩ := hdone
        apply htimely front id (back ++ eventsOf rest)
        rw [← hrest, eventsOf, List.map_append, ← eventsOf, heq]
        simp

namespace ArrivalsWitness

/-- `Open()`, `CommIdAssigned("c1")`, `SendState()`, `Close()`. -/
def assigned : List Arrival :=
  [{ event := .openComm }, { event := .commIdAssigned "c1" }, { event := .sendState none },
    { event := .closeComm }]

/-- `CommIdAssigned("c1")` before any `Open()`, then `SendState({"value"})`. -/
def early : List Arrival :=
  [{ event := .commIdAssigned "c1" }, { event := .sendState (some [.str "value"]) }]

theorem timely_assigned : Timely (eventsOf assigned) := by
  intro front id back heq
  rcases front with _ | ⟨first, _ | ⟨second, _ | ⟨third, _ | ⟨fourth, front⟩⟩⟩⟩
  · simp [assigned] at heq
  · simp only [assigned, eventsOf, List.map_cons, List.cons_append, List.nil_append,
      List.cons.injEq] at heq
    exact ⟨[], [], by rw [heq.1]; rfl, by simp⟩
  all_goals simp [assigned] at heq

end ArrivalsWitness

theorem foldReduce_lawful_iff_assigned :
    ∃ reached, Lifecycle.python.foldReduce ArrivalsWitness.assigned = .ok reached ∧
      Lawful (eventsOf ArrivalsWitness.assigned) reached.1 reached.2 := by
  obtain ⟨reached, h⟩ : ∃ reached,
      Lifecycle.python.foldReduce ArrivalsWitness.assigned = .ok reached := by
    have hok : (Lifecycle.python.foldReduce ArrivalsWitness.assigned).isOk = true := by
      decide +kernel
    cases hfold : Lifecycle.python.foldReduce ArrivalsWitness.assigned with
    | ok reached => exact ⟨reached, rfl⟩
    | error e => simp [hfold, Except.isOk, Except.toBool] at hok
  have hlaw := foldReduce_lawful_iff Lifecycle.python ArrivalsWitness.assigned reached h
  exact ⟨reached, h, hlaw.mpr ArrivalsWitness.timely_assigned _ _ (List.prefix_refl _) h⟩

/-- An id assigned to a widget never opened makes it send. -/
theorem foldReduce_early_id :
    ¬ ∀ arrivals reached, Lifecycle.python.foldReduce arrivals = .ok reached →
      Lawful (eventsOf arrivals) reached.1 reached.2 := by
  intro hlaw
  have hfold : Lifecycle.python.foldReduce ArrivalsWitness.early =
      .ok (.opened, [.send {
        msgType := .commMsg
        data := [(.str "method", .str "update"), (.str "state", .dict []),
          (.str "buffer_paths", .list [])] }]) := rfl
  obtain ⟨before, between, heq, _⟩ := (hlaw _ _ hfold).commMsg [] [] rfl
  simp at heq

end Port

end Cositos
