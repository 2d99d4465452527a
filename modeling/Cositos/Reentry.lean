/-
The front end's `Model` (`model.js`) while it runs code of the page.  Listeners, and what a
channel runs in `send`, may call the model again and may throw.  Whatever they do, the model
does one thing after the other, as a machine does that keeps a stack of emissions.
-/
import Cositos.Routines
import Cositos.Saves
import Cositos.Views
import Cositos.Wire

namespace Cositos

namespace Front

open Routine

variable {γ κ τ : Type}

/-! ### The model -/

/-- A channel over its own state: what `send` does to it, and whether `send` then runs code
of the page, such as a handler or the listeners of a DOM event. -/
structure Channel (τ : Type) where
  send : Outbound → τ → τ
  calls : Outbound → Bool

/-- The name under which an event is emitted. -/
def Emitted.name : Emitted → String
  | .change key _ => "change:" ++ text key.toValue
  | .custom _ _ => "msg:custom"

/-- What happens in a model. -/
inductive Moment (γ κ : Type)
  | set (key : String) (value : Value)
  /-- `save_changes` empties the dirty set and hands a message to the channel. -/
  | saved (message : Outbound)
  | sent (message : Outbound)
  /-- `#receive` writes one key. -/
  | arrived (key : Key) (value : Value)
  | listens (call : Call γ κ)
  | emits (event : Emitted)
  | calls (cb : γ) (event : Emitted)
  /-- An emission ends, after all its callbacks or with what one of them threw. -/
  | ends (completed : Bool)

/-- `Model` with its emitter and its channel.  `trace` records what happened; the code keeps
no such record. -/
structure Live (γ κ τ : Type) where
  model : Model
  emitter : Emitter γ κ := {}
  channel : τ
  trace : List (Moment γ κ) := []

namespace Live

/-- `constructor`. -/
def new (initialState : Bindings) (channel : τ) : Live γ κ τ where
  model := Model.new initialState
  channel

def record (live : Live γ κ τ) (moment : Moment γ κ) : Live γ κ τ :=
  { live with trace := live.trace ++ [moment] }

/-- `Emitter.emit`; `host i` is what the callback goes on to do that is called in the round
`i`. -/
def emit (host : Nat → Routine (Live γ κ τ)) (event : Emitted) : Routine (Live γ κ τ) :=
  fun live =>
    match forEach (fun i cb => (change fun live => live.record (.calls cb event)).andThen (host i))
        0 (live.emitter.emit event.name) (live.record (.emits event)) with
    | (.returned, live) => (.returned, live.record (.ends true))
    | (.threw, live) => (.threw, live.record (.ends false))

/-- `set`. -/
def set (host : Nat → Routine (Live γ κ τ)) (key : String) (value : Value) :
    Routine (Live γ κ τ) := fun live =>
  emit host (.change (.str key) value)
    ({ live with model := (live.model.set key value).1 }.record (.set key value))

variable (channel : Channel τ) (truthy : κ → Bool)

/-- `this.#channel.send(msg, buffers)`. -/
def handOver (host : Routine (Live γ κ τ)) (message : Outbound) : Routine (Live γ κ τ) :=
  fun live =>
    let live := { live with channel := channel.send message live.channel }
    if channel.calls message then host live else (.returned, live)

/-- `save_changes`. -/
def saveChanges (host : Routine (Live γ κ τ)) : Routine (Live γ κ τ) := fun live =>
  match live.model.saveChanges with
  | (_, none) => (.returned, live)
  | (model, some message) =>
      handOver channel host message ({ live with model }.record (.saved message))

/-- `send`, and `request_state`. -/
def send (host : Routine (Live γ κ τ)) (message : Outbound) : Routine (Live γ κ τ) := fun live =>
  handOver channel host message (live.record (.sent message))

variable [DecidableEq γ] [DecidableEq κ]

/-- `on`, and `off`. -/
def listen (call : Call γ κ) : Routine (Live γ κ τ) := change fun live =>
  { live with emitter := live.emitter.call truthy call }.record (.listens call)

/-- The body of the loop in `#receive`. -/
def receiveOne (host : Nat → Routine (Live γ κ τ)) (entry : Key × Value) :
    Routine (Live γ κ τ) := fun live =>
  let model := { live.model with state := assign live.model.state entry.1 entry.2 }
  emit host (.change entry.1 entry.2)
    ({ live with model }.record (.arrived entry.1 entry.2))

/-- `#receive`; `host i j` is what the callback goes on to do that is called in the round `j`
of the emission `i`. -/
def receive (host : Nat → Nat → Routine (Live γ κ τ)) (msg : Value) (buffers : List Binary) :
    Routine (Live γ κ τ) := fun live =>
  match getProp msg (.str "method") with
  | .error _ => (.threw, live)
  | .ok (.str "update") =>
      match Model.incoming msg buffers with
      | .error _ => (.threw, live)
      | .ok entries => forEach (fun i entry => receiveOne (host i) entry) 0 entries live
  | .ok (.str "custom") =>
      match getProp msg (.str "content") with
      | .error _ => (.threw, live)
      | .ok content => emit (host 0) (.custom content buffers) live
  | .ok _ => (.returned, live)

/-- What the page and the channel can call. -/
inductive Request (γ κ : Type)
  | set (key : String) (value : Value)
  | saveChanges
  | send (content : Value) (buffers : List Binary)
  | requestState
  | listen (call : Call γ κ)
  | receive (msg : Value) (buffers : List Binary)

/-- One call.  What a channel runs in `send` is `host 0 0`. -/
def invoke (host : Nat → Nat → Routine (Live γ κ τ)) : Request γ κ → Routine (Live γ κ τ)
  | .set key value => set (host 0) key value
  | .saveChanges => saveChanges channel (host 0 0)
  | .send content buffers => send channel (host 0 0) (Model.send content buffers)
  | .requestState => send channel (host 0 0) Model.requestState
  | .listen call => listen truthy call
  | .receive msg buffers => receive host msg buffers

/-- Code of the page, as far as the model can tell: it ends, throws, or makes a call and goes
on, whether or not the call threw.  `callbacks` are what the call runs. -/
inductive Script (γ κ : Type)
  | ret
  | throw
  | call (request : Request γ κ) (callbacks : Nat → Nat → Script γ κ) (next : Script γ κ)

/-- Code of the page run on a model. -/
def run : Script γ κ → Routine (Live γ κ τ)
  | .ret => skip
  | .throw => fun live => (.threw, live)
  | .call request callbacks next => fun live =>
      run next (invoke channel truthy (fun i j => run (callbacks i j)) request live).2

/-- Every call in the script, and in what the calls run, is of this kind. -/
def Script.All (P : Request γ κ → Prop) : Script γ κ → Prop
  | .ret | .throw => True
  | .call request callbacks next =>
      P request ∧ (∀ i j, (callbacks i j).All P) ∧ next.All P

/-- The script ends with an exception. -/
def Script.throws : Script γ κ → Bool
  | .ret => false
  | .throw => true
  | .call _ _ next => next.throws

/-- A new model after a run. -/
def after (initialState : Bindings) (t : τ) (script : Script γ κ) : Live γ κ τ :=
  (run channel truthy script (new initialState t)).2

end Live

/-! ### Relations that hold across scripts -/

namespace Live

variable {channel : Channel τ} {R : Live γ κ τ → Live γ κ τ → Prop}

/-- A relation that chains and holds across the record of an emission. -/
structure Emits (R : Live γ κ τ → Live γ κ τ → Prop) : Prop extends Chains R where
  emits : ∀ live event, R live (live.record (.emits event))
  calls : ∀ live cb event, R live (live.record (.calls cb event))
  ends : ∀ live completed, R live (live.record (.ends completed))

theorem Emits.emit (hR : Emits R) {host : Nat → Routine (Live γ κ τ)}
    (hhost : ∀ i, Across R (host i)) (event : Emitted) : Across R (emit host event) := by
  intro live
  have hcall : ∀ i cb, Across R
      ((change fun live => live.record (.calls cb event)).andThen (host i)) := fun i cb =>
    Across.andThen hR.toChains (fun live => hR.calls live cb event) (hhost i)
  have hloop := across_forEach hR.toChains hcall 0 (live.emitter.emit event.name)
    (live.record (.emits event))
  rcases hresult : forEach
      (fun i cb => (change fun live => live.record (.calls cb event)).andThen (host i)) 0
      (live.emitter.emit event.name) (live.record (.emits event)) with ⟨exit, live'⟩
  rw [hresult] at hloop
  have hcalled : R live live' := hR.trans (hR.emits live event) hloop
  cases exit <;> simp only [Live.emit, hresult] <;> exact hR.trans hcalled (hR.ends live' _)

/-- A message is sent, and then the channel may run code of the page. -/
theorem related_handOver (hR : Chains R) {host : Routine (Live γ κ τ)}
    (hhost : Across R host) {message : Outbound} {live live' : Live γ κ τ}
    (hsend : R live { live' with channel := channel.send message live'.channel }) :
    R live (handOver channel host message live').2 := by
  rw [handOver]
  split_ifs
  · exact hR.trans hsend (hhost _)
  · exact hsend

variable [DecidableEq γ] [DecidableEq κ] {truthy : κ → Bool} {P : Request γ κ → Prop}

/-- A relation that holds across each thing that calls of this kind do. -/
structure Rule (channel : Channel τ) (truthy : κ → Bool) (P : Request γ κ → Prop)
    (R : Live γ κ τ → Live γ κ τ → Prop) : Prop extends Emits R where
  set : ∀ live key value, P (.set key value) →
    R live ({ live with model := (live.model.set key value).1 }.record (.set key value))
  save : ∀ live model message, live.model.saveChanges = (model, some message) →
    R live ({ live with model, channel := channel.send message live.channel }.record
      (.saved message))
  send : ∀ live content buffers, P (.send content buffers) →
    R live ({ live with channel := channel.send (Model.send content buffers) live.channel }.record
      (.sent (Model.send content buffers)))
  requestState : ∀ live, P .requestState →
    R live ({ live with channel := channel.send Model.requestState live.channel }.record
      (.sent Model.requestState))
  listen : ∀ live call, P (.listen call) →
    R live ({ live with emitter := live.emitter.call truthy call }.record (.listens call))
  receive : ∀ host msg buffers, P (.receive msg buffers) → (∀ i j, Across R (host i j)) →
    Across R (receive host msg buffers)

/-- A rule for what calls do is a rule for scripts of such calls. -/
theorem Rule.across_run (hrule : Rule channel truthy P R) {script : Script γ κ}
    (hscript : script.All P) : Across R (run channel truthy script) := by
  induction script with
  | ret => exact hrule.refl
  | throw => exact hrule.refl
  | call request callbacks next ihcallbacks ihnext =>
      obtain ⟨hrequest, hcallbacks, hnext⟩ := hscript
      have hhost : ∀ i j, Across R (run channel truthy (callbacks i j)) :=
        fun i j => ihcallbacks i j (hcallbacks i j)
      refine fun live => hrule.trans ?_ (ihnext hnext _)
      cases request with
      | set key value =>
          exact hrule.trans (hrule.set live key value hrequest) (hrule.emit (hhost 0) _ _)
      | saveChanges =>
          rcases hsaved : live.model.saveChanges with ⟨model, none | message⟩
          · have hnothing : saveChanges channel (run channel truthy (callbacks 0 0)) live =
                (.returned, live) := by rw [saveChanges, hsaved]
            rw [invoke, hnothing]
            exact hrule.refl live
          · have hhanded : saveChanges channel (run channel truthy (callbacks 0 0)) live =
                handOver channel (run channel truthy (callbacks 0 0)) message
                  ({ live with model }.record (.saved message)) := by rw [saveChanges, hsaved]
            rw [invoke, hhanded]
            exact related_handOver hrule.toChains (hhost 0 0)
              (hrule.save live model message hsaved)
      | send content buffers =>
          exact related_handOver hrule.toChains (hhost 0 0)
            (hrule.send live content buffers hrequest)
      | requestState =>
          exact related_handOver hrule.toChains (hhost 0 0)
            (hrule.requestState live hrequest)
      | listen call => exact hrule.listen live call hrequest
      | receive msg buffers => exact hrule.receive _ msg buffers hrequest hhost live

omit [DecidableEq γ] [DecidableEq κ] in
theorem emit_returns {host : Nat → Routine (Live γ κ τ)}
    (hhost : ∀ i live, (host i live).1 = .returned) (event : Emitted) (live : Live γ κ τ) :
    (emit host event live).1 = .returned := by
  have hcall : ∀ i cb (live : Live γ κ τ),
      ((change fun live => live.record (.calls cb event)).andThen (host i) live).1 = .returned :=
    fun i cb live => hhost i _
  have hloop := forEach_returns hcall 0 (live.emitter.emit event.name) (live.record (.emits event))
  rcases hresult : forEach
      (fun i cb => (change fun live => live.record (.calls cb event)).andThen (host i)) 0
      (live.emitter.emit event.name) (live.record (.emits event)) with ⟨exit, live'⟩
  rw [hresult] at hloop
  obtain rfl : exit = .returned := hloop
  simp only [emit, hresult]

theorem run_exit (script : Script γ κ) (live : Live γ κ τ) :
    (run channel truthy script live).1 = if script.throws then .threw else .returned := by
  induction script generalizing live with
  | ret => rfl
  | throw => rfl
  | call request callbacks next _ ihnext => exact ihnext _

end Live

/-! ### The machine -/

/-- A model that only does one thing at a time, and the emissions under way, innermost first,
each with the callbacks it has still to call. -/
structure Machine (γ κ τ : Type) where
  model : Model
  emitter : Emitter γ κ := {}
  channel : τ
  emissions : List (Emitted × List γ) := []

namespace Machine

variable [DecidableEq γ] [DecidableEq κ] (channel : Channel τ) (truthy : κ → Bool)

/-- One thing happens. -/
inductive Step : Machine γ κ τ → Moment γ κ → Machine γ κ τ → Prop
  | set (m : Machine γ κ τ) (key : String) (value : Value) :
      Step m (.set key value) { m with model := (m.model.set key value).1 }
  | saved {m : Machine γ κ τ} {model : Model} {message : Outbound}
      (hsaved : m.model.saveChanges = (model, some message)) :
      Step m (.saved message) { m with model, channel := channel.send message m.channel }
  | sent (m : Machine γ κ τ) (message : Outbound) :
      Step m (.sent message) { m with channel := channel.send message m.channel }
  | arrived (m : Machine γ κ τ) (key : Key) (value : Value) :
      Step m (.arrived key value)
        { m with model := { m.model with state := assign m.model.state key value } }
  | listens (m : Machine γ κ τ) (call : Call γ κ) :
      Step m (.listens call) { m with emitter := m.emitter.call truthy call }
  | emits (m : Machine γ κ τ) (event : Emitted) :
      Step m (.emits event)
        { m with emissions := (event, m.emitter.emit event.name) :: m.emissions }
  | calls {m : Machine γ κ τ} {event : Emitted} {cb : γ} {cbs : List γ}
      {outer : List (Emitted × List γ)} (hinner : m.emissions = (event, cb :: cbs) :: outer) :
      Step m (.calls cb event) { m with emissions := (event, cbs) :: outer }
  | ends {m : Machine γ κ τ} {event : Emitted} {cbs : List γ} {outer : List (Emitted × List γ)}
      {completed : Bool} (hinner : m.emissions = (event, cbs) :: outer)
      (hcompleted : completed = true → cbs = []) :
      Step m (.ends completed) { m with emissions := outer }

/-- The machine goes through these moments. -/
inductive Replays : Machine γ κ τ → List (Moment γ κ) → Machine γ κ τ → Prop
  | nil (m : Machine γ κ τ) : Replays m [] m
  | cons {m m' m'' : Machine γ κ τ} {moment : Moment γ κ} {moments : List (Moment γ κ)}
      (hstep : Step channel truthy m moment m') (hrest : Replays m' moments m'') :
      Replays m (moment :: moments) m''

variable {channel} {truthy}

theorem Replays.append {m m' m'' : Machine γ κ τ} {moments moments' : List (Moment γ κ)}
    (h : Replays channel truthy m moments m') (h' : Replays channel truthy m' moments' m'') :
    Replays channel truthy m (moments ++ moments') m'' := by
  induction h with
  | nil => exact h'
  | cons hstep _ ih => exact .cons hstep (ih h')

theorem Replays.single {m m' : Machine γ κ τ} {moment : Moment γ κ}
    (h : Step channel truthy m moment m') : Replays channel truthy m [moment] m' :=
  .cons h (.nil m')

end Machine

/-! ### Every routine is replayed by the machine -/

namespace Live

open Machine

section Replayed

variable [DecidableEq γ] [DecidableEq κ] {channel : Channel τ} {truthy : κ → Bool}
  {live live' : Live γ κ τ}

/-- The machine that does what the model does, with these emissions under way. -/
def machine (live : Live γ κ τ) (emissions : List (Emitted × List γ)) : Machine γ κ τ :=
  ⟨live.model, live.emitter, live.channel, emissions⟩

/-- The machine goes through what happened, and the emissions under way are the same
afterwards. -/
def Replayed (channel : Channel τ) (truthy : κ → Bool) (live live' : Live γ κ τ) : Prop :=
  ∃ moments, live'.trace = live.trace ++ moments ∧
    ∀ emissions, Replays channel truthy (live.machine emissions) moments (live'.machine emissions)

theorem chains_replayed : Chains (Replayed channel truthy : Live γ κ τ → Live γ κ τ → Prop) where
  refl live := ⟨[], by simp, fun _ => .nil _⟩
  trans := by
    rintro live live' live'' ⟨moments, htrace, hreplays⟩ ⟨moments', htrace', hreplays'⟩
    refine ⟨moments ++ moments', ?_, fun emissions => (hreplays _).append (hreplays' emissions)⟩
    rw [htrace', htrace, List.append_assoc]

/-- One moment. -/
theorem replayed_step {moment : Moment γ κ} (htrace : live'.trace = live.trace ++ [moment])
    (hstep : ∀ emissions, Step channel truthy (live.machine emissions) moment (live'.machine emissions)) :
    Replayed channel truthy live live' :=
  ⟨[moment], htrace, fun emissions => .single (hstep emissions)⟩

section Emissions

variable {host : Nat → Routine (Live γ κ τ)} (hhost : ∀ i, Across (Replayed channel truthy) (host i))

include hhost

/-- The loop of `emit` calls the callbacks in turn; what they do in between starts and ends
with this emission the innermost. -/
theorem replays_callbacks (event : Emitted) (cbs : List γ) (i : Nat) (live : Live γ κ τ) :
    let after := forEach
      (fun i cb => (change fun live => live.record (.calls cb event)).andThen (host i)) i cbs live
    ∃ moments left, after.2.trace = live.trace ++ moments ∧
      (after.1 = .returned → left = []) ∧
      ∀ outer, Replays channel truthy (live.machine ((event, cbs) :: outer)) moments
        (after.2.machine ((event, left) :: outer)) := by
  induction cbs generalizing i live with
  | nil => exact ⟨[], [], by simp [forEach, skip], fun _ => rfl, fun _ => .nil _⟩
  | cons cb cbs ih =>
      intro after
      obtain ⟨moments, htrace, hreplays⟩ := hhost i (live.record (.calls cb event))
      have hcall : ∀ outer, Replays channel truthy (live.machine ((event, cb :: cbs) :: outer))
          (.calls cb event :: moments)
          ((host i (live.record (.calls cb event))).2.machine ((event, cbs) :: outer)) :=
        fun outer => .cons (.calls rfl) (hreplays _)
      have hround : (change fun live => live.record (.calls cb event)).andThen (host i) live =
          host i (live.record (.calls cb event)) := rfl
      rcases hresult : host i (live.record (.calls cb event)) with ⟨exit, live'⟩
      rw [hresult] at hcall hround htrace
      cases exit with
      | returned =>
          have hafter : after = _ := andThen_returned hround
          obtain ⟨moments', left, htrace', hleft, hreplays'⟩ := ih (i + 1) live'
          refine ⟨.calls cb event :: moments ++ moments', left, ?_, ?_, fun outer => ?_⟩
          · rw [hafter, htrace', htrace]
            simp [record]
          · rw [hafter]
            exact hleft
          · rw [hafter]
            exact (hcall outer).append (hreplays' outer)
      | threw =>
          have hafter : after = _ := andThen_threw hround
          refine ⟨.calls cb event :: moments, cbs, ?_, ?_, fun outer => ?_⟩
          · rw [hafter, htrace]
            simp [record]
          · rw [hafter]
            exact fun h => by cases h
          · rw [hafter]
            exact hcall outer

theorem across_emit (event : Emitted) : Across (Replayed channel truthy) (emit host event) := by
  intro live
  obtain ⟨moments, left, htrace, hleft, hreplays⟩ := replays_callbacks hhost event
    (live.emitter.emit event.name) 0 (live.record (.emits event))
  rcases hloop : forEach
      (fun i cb => (change fun live => live.record (.calls cb event)).andThen (host i)) 0
      (live.emitter.emit event.name) (live.record (.emits event)) with ⟨exit, live'⟩
  rw [hloop] at htrace hleft hreplays
  -- the emission is over, whether the loop came to its end or not
  have hover : ∀ completed : Bool, (completed = true → left = []) →
      Replayed channel truthy live (live'.record (.ends completed)) := by
    intro completed hcompleted
    refine ⟨.emits event :: moments ++ [.ends completed], ?_, fun emissions => ?_⟩
    · have hlive' : live'.trace = live.trace ++ [.emits event] ++ moments := htrace
      simp [record, hlive']
    · have hstart : Step channel truthy (live.machine emissions) (.emits event)
          ((live.record (.emits event)).machine
            ((event, live.emitter.emit event.name) :: emissions)) := .emits _ _
      have hend : Step channel truthy (live'.machine ((event, left) :: emissions)) (.ends completed)
          ((live'.record (.ends completed)).machine emissions) := .ends rfl hcompleted
      exact (Replays.cons hstart (hreplays emissions)).append (.single hend)
  cases exit with
  | returned =>
      have hemit : emit host event live = (.returned, live'.record (.ends true)) := by
        simp only [emit, hloop]
      rw [hemit]
      exact hover true fun _ => hleft rfl
  | threw =>
      have hemit : emit host event live = (.threw, live'.record (.ends false)) := by
        simp only [emit, hloop]
      rw [hemit]
      exact hover false fun h => by cases h

theorem across_set (key : String) (value : Value) :
    Across (Replayed channel truthy) (set host key value) := by
  intro live
  exact chains_replayed.trans (replayed_step rfl fun _ => .set _ key value)
    (across_emit hhost (.change (.str key) value) _)

theorem across_receiveOne (entry : Key × Value) :
    Across (Replayed channel truthy) (receiveOne host entry) := by
  intro live
  exact chains_replayed.trans (replayed_step rfl fun _ => .arrived _ entry.1 entry.2)
    (across_emit hhost (.change entry.1 entry.2) _)

end Emissions

section Channels

variable {host : Routine (Live γ κ τ)}
  (hhost : Across (Replayed channel truthy) host)

include hhost

theorem across_saveChanges : Across (Replayed channel truthy) (saveChanges channel host) := by
  intro live
  rcases hsaved : live.model.saveChanges with ⟨model, none | message⟩
  · have hnothing : saveChanges channel host live = (.returned, live) := by
      rw [saveChanges, hsaved]
    rw [hnothing]
    exact chains_replayed.refl live
  · have hhanded : saveChanges channel host live =
        handOver channel host message ({ live with model }.record (.saved message)) := by
      rw [saveChanges, hsaved]
    have hstep : ∀ emissions, Step channel truthy (live.machine emissions) (.saved message)
        (({ live with model, channel := channel.send message live.channel }.record
          (.saved message)).machine emissions) :=
      fun emissions => .saved (m := live.machine emissions) hsaved
    rw [hhanded]
    exact related_handOver chains_replayed hhost (replayed_step rfl hstep)

theorem across_send (message : Outbound) :
    Across (Replayed channel truthy) (send channel host message) := by
  intro live
  have hstep : ∀ emissions, Step channel truthy (live.machine emissions) (.sent message)
      (({ live with channel := channel.send message live.channel }.record
        (.sent message)).machine emissions) := fun emissions => .sent _ message
  exact related_handOver chains_replayed hhost (replayed_step rfl hstep)

end Channels

theorem across_listen (call : Call γ κ) :
    Across (Replayed channel truthy) (listen truthy call : Routine (Live γ κ τ)) := fun _ =>
  replayed_step rfl fun _ => .listens _ call

theorem across_receive {host : Nat → Nat → Routine (Live γ κ τ)}
    (hhost : ∀ i j, Across (Replayed channel truthy) (host i j)) (msg : Value) (buffers : List Binary) :
    Across (Replayed channel truthy) (receive host msg buffers) := by
  intro live
  rw [receive]
  split
  · exact chains_replayed.refl live
  · cases Model.incoming msg buffers with
    | error e => exact chains_replayed.refl live
    | ok entries =>
        exact across_forEach chains_replayed (fun i entry => across_receiveOne (hhost i) entry) 0
          entries live
  · cases getProp msg (.str "content") with
    | error e => exact chains_replayed.refl live
    | ok content => exact across_emit (hhost 0) (.custom content buffers) live
  · exact chains_replayed.refl live

variable (channel)

theorem across_invoke {host : Nat → Nat → Routine (Live γ κ τ)}
    (hhost : ∀ i j, Across (Replayed channel truthy) (host i j)) (request : Request γ κ) :
    Across (Replayed channel truthy) (invoke channel truthy host request) := by
  cases request with
  | set key value => exact across_set (hhost 0) key value
  | saveChanges => exact across_saveChanges (hhost 0 0)
  | send content buffers => exact across_send (hhost 0 0) _
  | requestState => exact across_send (hhost 0 0) _
  | listen call => exact across_listen call
  | receive msg buffers => exact across_receive hhost msg buffers

theorem across_run (script : Script γ κ) :
    Across (Replayed channel truthy) (run channel truthy script) := by
  induction script with
  | ret => exact chains_replayed.refl
  | throw => exact chains_replayed.refl
  | call request callbacks next ihcallbacks ihnext =>
      intro live
      have hrequest := across_invoke channel
        (fun i j => ihcallbacks i j) request live
      exact chains_replayed.trans hrequest (ihnext _)

end Replayed

end Live

/-! ### What the record says -/

namespace Moment

/-- The keys set since the dirty set was last emptied. -/
def unsaved (keys : List Key) : Moment γ κ → List Key
  | .set key _ => .str key :: keys
  | .saved _ => []
  | _ => keys

/-- The value that a key was last given. -/
def written (key : Key) (value : Option Value) : Moment γ κ → Option Value
  | .set key' value' => if key = .str key' then some value' else value
  | .arrived key' value' => if key = key' then some value' else value
  | _ => value

/-- The call of `on` or `off`, if it is one. -/
def call? : Moment γ κ → Option (Call γ κ)
  | .listens call => some call
  | _ => none

/-- The message that is handed to the channel, if one is. -/
def message? : Moment γ κ → Option Outbound
  | .saved message | .sent message => some message
  | _ => none

/-- The callbacks that an emission calls and what it hands them, read from the moments after
its beginning, and how it ends.  Inside of it `depth` others are under way. -/
def callsOf : Nat → List (Moment γ κ) → List (γ × Emitted) × Option Bool
  | _, [] => ([], none)
  | depth, moment :: moments =>
      match moment, depth with
      | .emits _, depth => callsOf (depth + 1) moments
      | .calls cb event, 0 => ((cb, event) :: (callsOf 0 moments).1, (callsOf 0 moments).2)
      | .ends completed, 0 => ([], some completed)
      | .ends _, depth + 1 => callsOf depth moments
      | _, depth => callsOf depth moments

end Moment

/-- The listeners that the calls among these moments leave. -/
def registered [DecidableEq γ] [DecidableEq κ] (truthy : κ → Bool) (moments : List (Moment γ κ)) :
    Emitter γ κ :=
  (moments.filterMap Moment.call?).foldl (Emitter.call truthy) {}

theorem lookup_assign_of_ne {own : Bindings} {key j : Key} {value : Value} (hj : j ≠ protoKey) :
    (assign own key value).lookup j = if j = key then some value else own.lookup j := by
  by_cases hkey : key = protoKey
  · rw [if_neg (hkey ▸ hj), hkey, assign]
    split_ifs
    · rfl
    · rw [lookup_setOwn, if_neg hj]
  · exact lookup_assign hkey j

theorem Model.saveChanges_some {model model' : Model} {message : Outbound}
    (h : model.saveChanges = (model', some message)) :
    message = model.dirtyUpdate ∧ model' = { model with dirty := [] } := by
  rw [Model.saveChanges] at h
  split_ifs at h with hdirty
  · cases (Prod.mk.inj h).2
  · obtain ⟨hmodel, hmessage⟩ := Prod.mk.inj h
    exact ⟨(Option.some.inj hmessage).symm, hmodel.symm⟩

namespace Machine

variable [DecidableEq γ] [DecidableEq κ] {channel : Channel τ} {truthy : κ → Bool}
  {m m' : Machine γ κ τ}
  {moments : List (Moment γ κ)}

theorem Replays.split {moments' : List (Moment γ κ)}
    (h : Replays channel truthy m (moments ++ moments') m') :
    ∃ between, Replays channel truthy m moments between ∧ Replays channel truthy between moments' m' := by
  induction moments generalizing m with
  | nil => exact ⟨m, .nil m, h⟩
  | cons moment moments ih =>
      obtain ⟨_, hstep, hrest⟩ : ∃ next, Step channel truthy m moment next ∧
          Replays channel truthy next (moments ++ moments') m' := by
        cases h with
        | cons hstep hrest => exact ⟨_, hstep, hrest⟩
      obtain ⟨between, hbefore, hafter⟩ := ih hrest
      exact ⟨between, .cons hstep hbefore, hafter⟩

/-- The dirty keys are those set since the dirty set was last emptied. -/
theorem Replays.dirty (h : Replays channel truthy m moments m') {keys : List Key}
    (hkeys : ∀ key, key ∈ m.model.dirty ↔ key ∈ keys) (key : Key) :
    key ∈ m'.model.dirty ↔ key ∈ moments.foldl Moment.unsaved keys := by
  induction h generalizing keys with
  | nil => exact hkeys key
  | cons hstep _ ih =>
      refine ih fun key => ?_
      cases hstep with
      | set key' value => simp [Moment.unsaved, Model.mem_dirty_set, hkeys]
      | saved hsaved =>
          obtain ⟨-, rfl⟩ := Model.saveChanges_some hsaved
          simp [Moment.unsaved]
      | sent | arrived | listens | emits | calls | ends => exact hkeys key

/-- The model has under each key what it was last given. -/
theorem Replays.state (h : Replays channel truthy m moments m') {key : Key} (hkey : key ≠ protoKey) :
    m'.model.state.lookup key = moments.foldl (Moment.written key) (m.model.state.lookup key) := by
  induction h with
  | nil => rfl
  | cons hstep _ ih =>
      rw [ih, List.foldl_cons]
      congr 1
      cases hstep with
      | set key' value => exact lookup_assign_of_ne hkey
      | saved hsaved =>
          obtain ⟨-, rfl⟩ := Model.saveChanges_some hsaved
          rfl
      | arrived key' value => exact lookup_assign_of_ne hkey
      | sent | listens | emits | calls | ends => rfl

theorem Replays.emitter (h : Replays channel truthy m moments m') :
    m'.emitter = (moments.filterMap Moment.call?).foldl (Emitter.call truthy) m.emitter := by
  induction h with
  | nil => rfl
  | cons hstep _ ih =>
      rw [ih]
      cases hstep <;> rfl

/-- The channel has been sent the messages in turn, each once. -/
theorem Replays.sent (h : Replays channel truthy m moments m') :
    m'.channel =
      (moments.filterMap Moment.message?).foldl (fun t message => channel.send message t)
        m.channel := by
  induction h with
  | nil => rfl
  | cons hstep _ ih =>
      rw [ih]
      cases hstep <;> rfl

/-- An emission that is over at the end has called some of its callbacks in turn, all of them
if it was completed. -/
theorem Replays.callsOf (h : Replays channel truthy m moments m') {event : Emitted} {cbs : List γ}
    {inner outer : List (Emitted × List γ)}
    (hemissions : m.emissions = inner ++ (event, cbs) :: outer)
    (hover : m'.emissions.length ≤ outer.length) :
    ∃ called completed, Moment.callsOf inner.length moments = (called, some completed) ∧
      called <+: cbs.map (fun cb => (cb, event)) ∧
      (completed = true → called = cbs.map fun cb => (cb, event)) := by
  induction h generalizing inner cbs with
  | nil =>
      rw [hemissions, List.length_append, List.length_cons] at hover
      omega
  | @cons m _ _ _ _ hstep hrest ih =>
      cases hstep with
      | set | saved | sent | arrived | listens => exact ih hemissions hover
      | emits event' =>
          have hnested : (event', m.emitter.emit event'.name) :: m.emissions =
              ((event', m.emitter.emit event'.name) :: inner) ++ (event, cbs) :: outer := by
            rw [hemissions, List.cons_append]
          exact ih hnested hover
      | @calls event' cb cbs' _ hinner =>
          rw [hemissions] at hinner
          cases inner with
          | nil =>
              cases hinner
              obtain ⟨called, completed, hcalls, hpre, hall⟩ := ih (List.nil_append _).symm hover
              refine ⟨(cb, event) :: called, completed, ?_, ?_, fun h => ?_⟩
              · simp only [List.length_nil, Moment.callsOf] at hcalls ⊢
                rw [hcalls]
              · exact List.cons_prefix_cons.mpr ⟨rfl, hpre⟩
              · rw [hall h, List.map_cons]
          | cons head inner =>
              cases hinner
              have hnested : (event', cbs') :: (inner ++ (event, cbs) :: outer) =
                  ((event', cbs') :: inner) ++ (event, cbs) :: outer := rfl
              have hcalls := ih hnested hover
              exact hcalls
      | ends hinner hcompleted =>
          rw [hemissions] at hinner
          cases inner with
          | nil =>
              cases hinner
              exact ⟨[], _, rfl, List.nil_prefix, fun h => by rw [hcompleted h]; rfl⟩
          | cons head inner =>
              cases hinner
              exact ih rfl hover

end Machine

section Runs

open Machine Live

variable [DecidableEq γ] [DecidableEq κ] (channel : Channel τ) (truthy : κ → Bool)

/-- A run on a new model, replayed. -/
theorem replays_after (initialState : Bindings) (t : τ) (script : Script γ κ) :
    Replays channel truthy ⟨Model.new initialState, {}, t, []⟩
      (Live.after channel truthy initialState t script).trace
      ((Live.after channel truthy initialState t script).machine []) := by
  have hrun : Across (Replayed channel truthy) (run channel truthy script) := across_run channel script
  obtain ⟨moments, htrace, hreplays⟩ := hrun (Live.new initialState t)
  have hmoments : (Live.after channel truthy initialState t script).trace = moments := htrace
  rw [hmoments]
  exact hreplays []

/-- Whatever the callbacks of a model do, it does one thing after the other.  Its dirty keys
are those set since it last saved, its channel has been sent what it handed over and nothing
else, and every update is about exactly the keys set since the one before, with the values
they were last given. -/
theorem reentrant_runs_replay (initialState : Bindings) (t : τ) (script : Script γ κ) :
    let live := Live.after channel truthy initialState t script
    Replays channel truthy ⟨Model.new initialState, {}, t, []⟩ live.trace (live.machine []) ∧
      (∀ key, key ∈ live.model.dirty ↔ key ∈ live.trace.foldl Moment.unsaved []) ∧
      live.channel = (live.trace.filterMap Moment.message?).foldl
        (fun t message => channel.send message t) t ∧
      ∀ before message after, live.trace = before ++ .saved message :: after →
        ∃ model : Model, message = model.dirtyUpdate ∧
          (∀ key, key ∈ model.dirty ↔ key ∈ before.foldl Moment.unsaved []) ∧
          (∀ key, Carries message key ↔
            key ∈ before.foldl Moment.unsaved [] ∧ key ≠ protoKey) ∧
          ∀ key, key ≠ protoKey → model.state.lookup key =
            before.foldl (Moment.written key) (initialState.lookup key) := by
  intro live
  have hreplays : Replays channel truthy _ live.trace _ :=
    replays_after channel truthy initialState t script
  have hnew : ∀ key, key ∈ (Model.new initialState).dirty ↔ key ∈ ([] : List Key) :=
    fun key => Iff.rfl
  refine ⟨hreplays, hreplays.dirty hnew, hreplays.sent, fun before message after htrace => ?_⟩
  rw [htrace] at hreplays
  obtain ⟨between, hbefore, hafter⟩ := hreplays.split
  cases hafter with
  | cons hstep _ =>
      cases hstep with
      | saved hsaved =>
          obtain ⟨rfl, -⟩ := Model.saveChanges_some hsaved
          refine ⟨between.model, rfl, hbefore.dirty hnew, fun key => ?_,
            fun key hkey => hbefore.state hkey⟩
          rw [carries_dirtyUpdate_iff, hbefore.dirty hnew]

/-- An emission calls the listeners that were registered when it began, in turn and with what
it is about, whatever is registered, removed or emitted meanwhile; it stops early only with
an exception. -/
theorem emissions_call_snapshot (initialState : Bindings) (t : τ) (script : Script γ κ)
    (before after : List (Moment γ κ)) (event : Emitted)
    (htrace : (Live.after channel truthy initialState t script).trace =
      before ++ .emits event :: after) :
    ∃ called completed, Moment.callsOf 0 after = (called, some completed) ∧
      called <+: ((registered truthy before).emit event.name).map (fun cb => (cb, event)) ∧
      (completed = true → called =
        ((registered truthy before).emit event.name).map fun cb => (cb, event)) := by
  have hreplays := replays_after channel truthy initialState t script
  rw [htrace] at hreplays
  obtain ⟨between, hbefore, hafter⟩ := hreplays.split
  cases hafter with
  | cons hstep hrest =>
      cases hstep with
      | emits =>
          have hemitter : registered truthy before = between.emitter := hbefore.emitter.symm
          rw [hemitter]
          exact hrest.callsOf (List.nil_append _).symm (Nat.zero_le _)

end Runs

namespace ReentryWitness

/-- A channel with no handler. -/
def silent : Channel Unit := ⟨fun _ t => t, fun _ => false⟩

/-- The event of the one `set`. -/
def moved : Emitted := .change (.str "x") (.int 1)

/-- The listener 7 registers the listener 8 for the event it hears. -/
def script : Live.Script Nat Nat :=
  .call (.listen (.on "change:x" 7 none)) (fun _ _ => .ret)
    (.call (.set "x" (.int 1))
      (fun _ _ => .call (.listen (.on "change:x" 8 none)) (fun _ _ => .ret) .ret) .ret)

end ReentryWitness

open ReentryWitness in
theorem emissions_call_snapshot_late :
    ∃ called completed, Moment.callsOf 0
        ([.calls 7 moved, .listens (.on "change:x" 8 none), .ends true] : List (Moment Nat Nat)) =
          (called, some completed) ∧
      called <+: [(7, moved)] ∧ (completed = true → called = [(7, moved)]) :=
  emissions_call_snapshot silent (fun _ => true) [] () script
    [.listens (.on "change:x" 7 none), .set "x" (.int 1)]
    [.calls 7 moved, .listens (.on "change:x" 8 none), .ends true] moved rfl

end Front

end Cositos
