/-
What every run of the R shell keeps: it sends sessions and is open exactly while the last one
is, and each call of `get_state` is for one message about the state.
-/
import Cositos.RShell

namespace Cositos

/-- The type of a message handed to the transport, whether or not that stopped. -/
def RExchange.handed : RExchange → Option MsgType
  | .sent message _ => some message.msgType
  | _ => none

/-- Whether a message is about the state. -/
def Send.aboutState (message : Send) : Bool :=
  match message.msgType, message.data.lookup (.str "method") with
  | .commOpen, _ => true
  | _, some (.str "update") => true
  | _, _ => false

/-- What an exchange adds to the calls of `get_state` that are still to be answered for. -/
def RExchange.weight : RExchange → Int
  | .asked => 1
  | .balked => -1
  | .sent message _ => if message.aboutState then -1 else 0
  | _ => 0

namespace RShell

variable {τ : Type} {setup : Setup τ} {shell shell' : RShell τ}

/-- The event of a call. -/
def Call.event : Call → Event
  | .openComm => .openComm
  | .sendState include? => .sendState include?
  | .sendCustom content buffers => .sendCustom content buffers
  | .closeComm => .closeComm
  | .inbound data buffers => .inbound data buffers

theorem Call.event_ne (call : Call) (id : String) : call.event ≠ .commIdAssigned id := by
  cases call <;> simp [Call.event]

/-! ### What the reducer answers -/

/-- An event that neither opens nor closes. -/
def Event.isMild : Event → Bool
  | .sendState _ | .sendCustom _ _ | .inbound _ _ => true
  | _ => false

/-- An effect that calls the host, or stops. -/
def Effect.isMild : Effect → Bool
  | .send _ | .listen => false
  | _ => true

/-- What the reducer answers to a call, and whether it has the state for it. -/
inductive Moves (capabilities : TransportCapabilities) :
    Phase → Event → Bool → Phase × List Effect → Prop
  | opens {phase : Phase} {message : Send} (hphase : phase ≠ .opened)
      (htype : message.msgType = .commOpen) :
      Moves capabilities phase .openComm true
        (.opened, .send message :: if capabilities.supportsReceive then [.listen] else [])
  | sends {event : Event} {message : Send} {asks : Bool} (hevent : event.isMild = true)
      (htype : message.msgType = .commMsg) (habout : message.aboutState = asks) :
      Moves capabilities .opened event asks (.opened, [.send message])
  | closes {message : Send} (htype : message.msgType = .commClose)
      (habout : message.aboutState = false) :
      Moves capabilities .opened .closeComm false (.closed, [.send message])
  | stays {phase : Phase} {event : Event} {effects : List Effect}
      (heffects : ∀ effect ∈ effects, effect.isMild = true) :
      Moves capabilities phase event false (phase, effects)

/-- An answer, and whether it was made with the state. -/
inductive Answer.Gives : Answer → Bool → Phase × List Effect → Prop
  | made {answer : Phase × List Effect} : Gives (.made (.ok answer)) false answer
  | awaits {f : Value → Except RError (Phase × List Effect)} {state : Value}
      {answer : Phase × List Effect} (h : f state = .ok answer) : Gives (.awaits f) true answer

variable {capabilities : TransportCapabilities} {phase : Phase} {event : Event} {asks : Bool}
  {answer : Phase × List Effect}

theorem ofAnswer_ok {r : Except RError (Phase × List Cositos.Effect)}
    (h : ofAnswer r = .ok answer) :
    ∃ effects, r = .ok (answer.1, effects) ∧ answer.2 = effects.map ofEffect := by
  cases r with
  | error e => cases h
  | ok r => cases h; exact ⟨r.2, rfl, rfl⟩

theorem reduceOpen_moves (h : (reduceOpen phase capabilities).Gives asks answer) :
    Moves capabilities phase .openComm asks answer := by
  rw [reduceOpen] at h
  split_ifs at h with hphase
  · cases h with | @awaits _ state _ hanswer
    obtain ⟨effects, hreduce, heffects⟩ := ofAnswer_ok hanswer
    simp only [R.reduceOpen, if_pos hphase, bind, Except.bind] at hreduce
    split at hreduce
    · cases hreduce
    · next built hbuild =>
        simp only [pure, Except.pure, Except.ok.injEq, Prod.mk.injEq] at hreduce
        obtain ⟨hnext, rfl⟩ := hreduce
        have hopens : Moves capabilities phase .openComm true (.opened,
            .send { msgType := .commOpen, data := built.1, buffers := built.2.1,
                    metadata := built.2.2 } ::
              if capabilities.supportsReceive then [.listen] else []) :=
          .opens (by rcases hphase with rfl | rfl <;> simp) rfl
        obtain ⟨next, made⟩ := answer
        cases hnext
        cases heffects
        cases hreceive : capabilities.supportsReceive <;> simpa [hreceive, ofEffect] using hopens
  · cases h
    have hopened : phase = .opened := by cases phase <;> simp at hphase ⊢
    subst hopened
    exact .stays (by simp)

theorem reduceSendState_moves {include? : Option (List Key)} (hevent : event.isMild = true)
    (h : (reduceSendState phase include?).Gives asks answer) :
    Moves capabilities phase event asks answer := by
  rw [reduceSendState] at h
  split_ifs at h with hphase
  · cases h
    exact .stays (by simp [Effect.isMild])
  · obtain rfl : phase = .opened := not_not.mp hphase
    cases h with | @awaits _ state _ hanswer
    obtain ⟨effects, hreduce, heffects⟩ := ofAnswer_ok hanswer
    rw [R.reduceSendState.eq_def, if_neg (by simp)] at hreduce
    simp only [bind, Except.bind] at hreduce
    split at hreduce
    · cases hreduce
    · next built hbuild =>
        simp only [pure, Except.pure, Except.ok.injEq, Prod.mk.injEq] at hreduce
        obtain ⟨hnext, rfl⟩ := hreduce
        have habout : Send.aboutState { msgType := .commMsg, data := built.1, buffers := built.2 }
            = true := by
          rw [R.buildUpdate] at hbuild
          simp only [bind, Except.bind] at hbuild
          split at hbuild
          · cases hbuild
          · cases hbuild
            rfl
        have hsends : Moves capabilities .opened event true (.opened, [.send
            { msgType := .commMsg, data := built.1, buffers := built.2 }]) :=
          .sends hevent rfl habout
        obtain ⟨next, made⟩ := answer
        cases hnext
        cases heffects
        exact hsends

theorem reduceSendCustom_moves (content : Value) (buffers : List Binary) :
    Moves capabilities phase (.sendCustom content buffers) false
      (reduceSendCustom phase content buffers capabilities) := by
  rw [reduceSendCustom]
  split_ifs with hphase
  · exact .stays (by simp [Effect.isMild])
  · exact .stays (by simp [Effect.isMild])
  · exact .stays (by simp [Effect.isMild])
  · obtain rfl : phase = .opened := not_not.mp hphase
    exact .sends rfl rfl rfl

theorem reduceClose_moves : Moves capabilities phase .closeComm false (reduceClose phase) := by
  rw [reduceClose]
  split_ifs with hphase
  · subst hphase
    exact .closes rfl rfl
  · exact .stays (by simp)

theorem reduceInbound_moves {message : RObject} {buffers : List Binary}
    (h : (reduceInbound phase message buffers capabilities).Gives asks answer) :
    Moves capabilities phase (.inbound message buffers) asks answer := by
  by_cases hphase : phase ≠ .opened
  · rw [reduceInbound, if_pos hphase] at h
    cases h
    exact .stays (by simp)
  · rw [reduceInbound, if_neg hphase] at h
    split at h
    · cases h
    · next state bufferPaths _ =>
        cases hmerge : mergeUpdate state bufferPaths buffers with
        | error e => rw [hmerge] at h; cases h
        | ok merged =>
            rw [hmerge] at h
            cases h
            exact .stays (by simp [Effect.isMild])
    · split_ifs at h
      · cases h
        exact .stays (by simp)
      · exact reduceSendState_moves rfl h
    · cases h
      exact .stays (by simp [Effect.isMild])
    · cases h
      exact .stays (by simp)

theorem reduce_moves (hevent : ∀ id, event ≠ .commIdAssigned id)
    (h : (reduce capabilities phase event).Gives asks answer) :
    Moves capabilities phase event asks answer := by
  cases event with
  | openComm => exact reduceOpen_moves h
  | sendState include? => exact reduceSendState_moves rfl h
  | sendCustom content buffers => cases h; exact reduceSendCustom_moves content buffers
  | inbound message buffers => exact reduceInbound_moves h
  | closeComm => cases h; exact reduceClose_moves
  | commIdAssigned id => exact absurd rfl (hevent id)

/-! ### Relations that hold across code -/

/-- What holds between a shell, the end of the code and the shell then. -/
def Across (R : RShell τ → Outcome Stop → RShell τ → Prop) (code : Code τ) : Prop :=
  ∀ shell, R shell (code shell).1 (code shell).2

/-- A relation that holds across code that ends at once, and across two pieces when across
each. -/
structure Chains (R : RShell τ → Outcome Stop → RShell τ → Prop) : Prop where
  ends : ∀ outcome shell, R shell outcome shell
  andThen : ∀ {shell outcome shell' outcome' shell''}, R shell outcome shell' →
    outcome ≠ .running → R shell' outcome' shell'' → R shell outcome' shell''

variable {R : RShell τ → Outcome Stop → RShell τ → Prop} {callback : Code τ} {host : Host τ}

theorem Across.andThen (hR : Chains R) {first next : Code τ} (hfirst : Across R first)
    (hnext : Across R next) : Across R (andThen first next) := by
  intro shell
  have hmiddle := hfirst shell
  rw [RShell.andThen]
  rcases hend : first shell with ⟨outcome, shell'⟩
  rw [hend] at hmiddle
  cases outcome with
  | running => exact hmiddle
  | returned => exact hR.andThen hmiddle (by simp) (hnext shell')
  | raised e => exact hR.andThen hmiddle (by simp) (hnext shell')

theorem across_execEffects (hR : Chains R) {effects : List Effect}
    (heffects : ∀ effect ∈ effects, Across R (execOne setup callback effect)) :
    Across R (execEffects setup callback effects) := by
  induction effects with
  | nil => exact hR.ends .returned
  | cons effect effects ih =>
      intro shell
      have hone := heffects effect List.mem_cons_self shell
      rcases hend : execOne setup callback effect shell with ⟨outcome, shell'⟩
      rw [hend] at hone
      simp only [execEffects, hend]
      cases outcome with
      | returned =>
          exact hR.andThen hone (by simp)
            (ih (fun effect h => heffects effect (List.mem_cons_of_mem _ h)) shell')
      | raised e => exact hone
      | running => exact hone

theorem across_invoke (hR : Chains R) {call : Call}
    (h : Across R (executeWith setup host call.event)) : Across R (invoke setup host call) := by
  cases call with
  | openComm =>
      intro shell
      simp only [invoke]
      split_ifs
      · exact hR.ends .returned shell
      · exact h shell
  | sendState _ | sendCustom _ _ | closeComm | inbound _ _ => exact h

/-- What holds of every call of the script, and of what `get_state` does in it. -/
def Script.All (fits : Call → Prop) (asks : Script → Prop) : Script → Prop
  | .ret | .stop _ | .wait => True
  | .call request asked _ callback next =>
      fits request ∧ asks asked ∧ asked.All fits asks ∧ callback.All fits asks ∧ next.All fits asks

/-- A relation across every call holds across a run: by induction on the script. -/
theorem across_run (hR : Chains R) {fits : Call → Prop} {asks : Script → Prop}
    {P : Code τ → Prop} (hasks : ∀ script, asks script → P (run setup script))
    (hcall : ∀ host call, fits call → P host.asked → Across R host.asked →
      Across R host.callback → Across R (executeWith setup host call.event))
    {script : Script} (hscript : script.All fits asks) : Across R (run setup script) := by
  induction script with
  | ret => exact hR.ends .returned
  | stop e => exact hR.ends (.raised e)
  | wait => exact hR.ends .running
  | call call asked getState callback next ihasked ihcallback ihnext =>
      obtain ⟨hfits, hquiet, hasked, hcallback, hnext⟩ := hscript
      have hexecute := hcall ⟨run setup asked, getState, run setup callback⟩ call hfits
        (hasks asked hquiet) (ihasked hasked) (ihcallback hcallback)
      exact (across_invoke hR hexecute).andThen hR (ihnext hnext)

/-! ### One call -/

theorem executeWith_cases (hevent : ∀ id, event ≠ .commIdAssigned id) (host : Host τ)
    (shell : RShell τ) :
    (∃ e, executeWith setup host event shell = (.raised e, shell)) ∨
      (∃ answer, Moves setup.capabilities shell.phase event false answer ∧
        executeWith setup host event shell = execute setup host.callback answer shell) ∨
      ((host.asked (shell.record .asked)).1 = .running ∧
        executeWith setup host event shell = host.asked (shell.record .asked)) ∨
      ((host.asked (shell.record .asked)).1 ≠ .running ∧
        ∃ e, executeWith setup host event shell =
          (.raised e, (host.asked (shell.record .asked)).2.record .balked)) ∨
      ((host.asked (shell.record .asked)).1 = .returned ∧
        ∃ answer, Moves setup.capabilities shell.phase event true answer ∧
          executeWith setup host event shell =
            execute setup host.callback answer (host.asked (shell.record .asked)).2) := by
  have hmoves : ∀ {asks answer}, (reduce setup.capabilities shell.phase event).Gives asks answer →
      Moves setup.capabilities shell.phase event asks answer := reduce_moves hevent
  simp only [executeWith]
  cases hreduce : reduce setup.capabilities shell.phase event with
  | made made =>
      rw [hreduce] at hmoves
      cases made with
      | error e => exact Or.inl ⟨_, rfl⟩
      | ok answer => exact Or.inr (Or.inl ⟨answer, hmoves .made, rfl⟩)
  | awaits f =>
      rw [hreduce] at hmoves
      refine Or.inr (Or.inr ?_)
      rcases hasked : host.asked (shell.record .asked) with ⟨outcome, shell'⟩
      cases outcome with
      | running => exact Or.inl ⟨rfl, rfl⟩
      | raised e => exact Or.inr (Or.inl ⟨by simp, _, rfl⟩)
      | returned =>
          cases hanswer : f host.getState with
          | error e => exact Or.inr (Or.inl ⟨by simp, .core e, by simp only [hanswer]⟩)
          | ok answer =>
              exact Or.inr (Or.inr ⟨rfl, answer, hmoves (.awaits hanswer),
                by simp only [hanswer]⟩)

/-- A message that opens nothing changes the transport and the record. -/
theorem execOne_send (setup : Setup τ) (callback : Code τ) {message : Send}
    (htype : message.msgType ≠ .commOpen) (shell : RShell τ) :
    ∃ outcome transport stopped, outcome ≠ .running ∧
      execOne setup callback (.send message) shell =
        (outcome, { shell with transport }.record (.sent message stopped)) := by
  simp only [execOne]
  cases (setup.transport.send message shell.transport).1 with
  | some e => exact ⟨.raised e, _, _, by simp, rfl⟩
  | none => exact ⟨.returned, _, _, by simp, if_neg htype⟩

/-- The feedback stores the id, if there is one, and leaves the shell open. -/
theorem adoptCommId_opened (setup : Setup τ) {shell : RShell τ} (hphase : shell.phase = .opened) :
    ∃ modelId, adoptCommId setup shell = (.returned, { shell with modelId }) := by
  rw [adoptCommId]
  dsimp only
  split_ifs
  · exact ⟨shell.modelId, rfl⟩
  · rw [reduce, ← hphase]
    exact ⟨_, rfl⟩

theorem execEffects_single (effect : Effect) (shell : RShell τ) :
    execEffects setup callback [effect] shell = execOne setup callback effect shell := by
  simp only [execEffects]
  split
  · next heq => exact heq.symm
  · rfl

/-- A relation that a record of the host's part begins holds across an effect that calls the
host. -/
theorem across_execOne (hR : Chains R) (hcallback : Across R callback)
    (happlied : ∀ shell state, R shell .returned (shell.record (.applied state)))
    (hinvoked : ∀ shell content buffers,
      R shell .returned (shell.record (.invoked content buffers)))
    {effect : Effect} (heffect : effect.isMild = true) :
    Across R (execOne setup callback effect) := by
  intro shell
  cases effect with
  | send message => cases heffect
  | listen => cases heffect
  | applyState state =>
      simp only [execOne]
      split_ifs
      · exact hR.andThen (happlied shell state) (by simp) (hcallback _)
      · exact hR.ends .returned shell
  | invokeCustom content buffers =>
      simp only [execOne]
      split_ifs
      · exact hR.andThen (hinvoked shell content buffers) (by simp) (hcallback _)
      · exact hR.ends .returned shell
  | error message => exact hR.ends _ shell

/-! ### Code that leaves the phase as it is -/

/-- The phase is the same at the end. -/
def Stays (shell : RShell τ) (_ : Outcome Stop) (shell' : RShell τ) : Prop :=
  shell'.phase = shell.phase

theorem chains_stays : Chains (Stays (τ := τ)) where
  ends _ _ := rfl
  andThen h _ h' := h'.trans h

theorem stays_execute (hcallback : Across Stays callback) (hevent : event.isMild = true)
    (h : Moves setup.capabilities shell.phase event asks answer) :
    (execute setup callback answer shell).2.phase = shell.phase := by
  rw [execute]
  generalize hphase : shell.phase = phase at h
  cases h with
  | opens => cases hevent
  | closes => cases hevent
  | @sends _ message _ _ htype _ =>
      have hother : message.msgType ≠ .commOpen := by simp [htype]
      obtain ⟨outcome, transport, stopped, -, hsend⟩ :=
        execOne_send setup callback hother { shell with phase := .opened }
      rw [execEffects_single, hsend]
      rfl
  | stays heffects =>
      exact across_execEffects chains_stays (fun effect heffect =>
        across_execOne chains_stays hcallback (fun _ _ => rfl) (fun _ _ _ => rfl)
          (heffects effect heffect)) { shell with phase }

theorem stays_executeWith (hasked : Across Stays host.asked)
    (hcallback : Across Stays host.callback) (hevent : event.isMild = true) :
    Across Stays (executeWith setup host event) := by
  intro shell
  have hne : ∀ id, event ≠ .commIdAssigned id := by
    rintro id rfl
    cases hevent
  have hphase : (host.asked (shell.record .asked)).2.phase = shell.phase := hasked _
  rcases executeWith_cases hne host shell with ⟨e, heq⟩ | ⟨answer, hmoves, heq⟩ | ⟨-, heq⟩ |
    ⟨-, e, heq⟩ | ⟨-, answer, hmoves, heq⟩
  · rw [heq]
    rfl
  · rw [heq]
    exact stays_execute hcallback hevent hmoves
  · rw [heq]
    exact hphase
  · rw [heq]
    exact hphase
  · rw [heq]
    exact (stays_execute hcallback hevent (hphase ▸ hmoves)).trans hphase

/-- A script without a call that opens or closes. -/
def Script.Quiet : Script → Prop :=
  Script.All (fun call => call.event.isMild = true) fun _ => True

theorem stays_run {script : Script} (h : script.Quiet) : Across Stays (run setup script) :=
  across_run (P := fun _ => True) chains_stays (fun _ _ => trivial)
    (fun _ _ hevent _ hasked hcallback => stays_executeWith hasked hcallback hevent) h

/-! ### Sessions -/

/-- The message types handed to the transport. -/
def handedTypes (trace : List RExchange) : List MsgType :=
  trace.filterMap RExchange.handed

/-- The phase is open exactly while the last session is. -/
def InStep (shell : RShell τ) : Prop :=
  Shell.Sessions (handedTypes shell.trace) (decide (shell.phase = .opened))

/-- The transport takes every `comm_open` and every `comm_close`. -/
def Setup.Steady (setup : Setup τ) : Prop :=
  ∀ message transport, message.msgType ≠ .commMsg →
    (setup.transport.send message transport).1 = none

/-- What was in step is in step at the end. -/
def KeepsStep (shell : RShell τ) (_ : Outcome Stop) (shell' : RShell τ) : Prop :=
  shell.InStep → shell'.InStep

theorem chains_keepsStep : Chains (KeepsStep (τ := τ)) where
  ends _ _ := id
  andThen h _ h' := h' ∘ h

theorem handedTypes_record (shell : RShell τ) (exchange : RExchange) :
    handedTypes (shell.record exchange).trace =
      handedTypes shell.trace ++ exchange.handed.toList := by
  rw [record, handedTypes, List.filterMap_append]
  cases h : exchange.handed <;> simp [handedTypes, h]

theorem InStep.record (h : shell.InStep) {exchange : RExchange}
    (hexchange : exchange.handed = none) : (shell.record exchange).InStep := by
  rw [InStep, handedTypes_record, hexchange, Option.toList_none, List.append_nil]
  exact h

/-- A message extends the sessions by its type. -/
theorem inStep_sent {message : Send} {stopped : Option Stop}
    (h : Shell.Sessions (handedTypes shell.trace ++ [message.msgType])
      (decide (shell.phase = .opened))) : (shell.record (.sent message stopped)).InStep := by
  rw [InStep, handedTypes_record]
  exact h

theorem keepsStep_listen (hcallback : Across KeepsStep callback) :
    Across KeepsStep (execOne setup callback .listen) := by
  intro shell hstep
  simp only [execOne]
  split_ifs
  · exact hstep
  · have hlistened : ({ shell with
        transport := setup.transport.onMessage shell.transport }.record .listened).InStep :=
      InStep.record hstep rfl
    have hafter := hcallback _ hlistened
    split
    · next heq =>
        rw [heq] at hafter
        exact hafter
    · exact hafter

theorem keepsStep_execOne (hcallback : Across KeepsStep callback) {effect : Effect}
    (heffect : effect.isMild = true) : Across KeepsStep (execOne setup callback effect) :=
  across_execOne chains_keepsStep hcallback (fun _ _ hstep => hstep.record rfl)
    (fun _ _ _ hstep => hstep.record rfl) heffect

/-- A delivered `comm_open` leaves the shell open. -/
theorem execOne_opening (hsteady : setup.Steady) (callback : Code τ) {message : Send}
    (htype : message.msgType = .commOpen) {shell : RShell τ} (hphase : shell.phase = .opened) :
    ∃ transport modelId, execOne setup callback (.send message) shell =
      (.returned, { shell with transport, modelId }.record (.sent message none)) := by
  have htaken : (setup.transport.send message shell.transport).1 = none :=
    hsteady message shell.transport (by simp [htype])
  have hsent : ({ shell with transport := (setup.transport.send message shell.transport).2 }.record
      (.sent message none)).phase = .opened := hphase
  obtain ⟨modelId, hadopt⟩ := adoptCommId_opened setup hsent
  refine ⟨(setup.transport.send message shell.transport).2, modelId, ?_⟩
  simp only [execOne, htaken, htype, if_true]
  exact hadopt

/-- The answer to a call keeps the step, the phase being the one that it was made in. -/
theorem inStep_execute (hsteady : setup.Steady) (hcallback : Across KeepsStep callback)
    (h : Moves setup.capabilities shell.phase event asks answer) (hstep : shell.InStep) :
    (execute setup callback answer shell).2.InStep := by
  rw [execute]
  generalize hphase : shell.phase = phase at h
  cases h with
  | @opens _ message hclosed htype =>
      have hphase' : ({ shell with phase := .opened } : RShell τ).phase = .opened := rfl
      obtain ⟨transport, modelId, hopen⟩ := execOne_opening hsteady callback htype hphase'
      have hopened : ({ shell with phase := .opened, transport, modelId }.record
          (.sent message none)).InStep := by
        refine inStep_sent ?_
        have hlog : Shell.Sessions (handedTypes shell.trace) false := by
          rw [InStep, hphase, decide_eq_false hclosed] at hstep
          exact hstep
        rw [htype]
        exact hlog.opens
      simp only [execEffects, hopen]
      refine across_execEffects chains_keepsStep (fun effect heffect => ?_) _ hopened
      split_ifs at heffect
      · cases List.mem_singleton.mp heffect
        exact keepsStep_listen hcallback
      · cases heffect
  | @sends _ message _ _ htype _ =>
      have hother : message.msgType ≠ .commOpen := by simp [htype]
      obtain ⟨outcome, transport, stopped, -, hsend⟩ :=
        execOne_send setup callback hother { shell with phase := .opened }
      rw [execEffects_single, hsend]
      refine inStep_sent ?_
      rw [InStep, decide_eq_true hphase] at hstep
      rw [htype]
      exact hstep.passes
  | @closes message htype _ =>
      have hother : message.msgType ≠ .commOpen := by simp [htype]
      obtain ⟨outcome, transport, stopped, -, hsend⟩ :=
        execOne_send setup callback hother { shell with phase := .closed }
      rw [execEffects_single, hsend]
      refine inStep_sent ?_
      rw [InStep, decide_eq_true hphase] at hstep
      rw [htype]
      exact hstep.closes
  | stays heffects =>
      have hsame : ({ shell with phase } : RShell τ) = shell := by rw [← hphase]
      rw [hsame]
      exact across_execEffects chains_keepsStep (fun effect heffect =>
        keepsStep_execOne hcallback (heffects effect heffect)) shell hstep

theorem keepsStep_executeWith (hsteady : setup.Steady)
    (hevent : ∀ id, event ≠ .commIdAssigned id) (hquiet : Across Stays host.asked)
    (hasked : Across KeepsStep host.asked) (hcallback : Across KeepsStep host.callback) :
    Across KeepsStep (executeWith setup host event) := by
  intro shell hstep
  have hanswered : (host.asked (shell.record .asked)).2.InStep := hasked _ (hstep.record rfl)
  have hphase : (host.asked (shell.record .asked)).2.phase = shell.phase := hquiet _
  rcases executeWith_cases hevent host shell with ⟨e, heq⟩ | ⟨answer, hmoves, heq⟩ | ⟨-, heq⟩ |
    ⟨-, e, heq⟩ | ⟨-, answer, hmoves, heq⟩
  · rw [heq]
    exact hstep
  · rw [heq]
    exact inStep_execute hsteady hcallback hmoves hstep
  · rw [heq]
    exact hanswered
  · rw [heq]
    exact hanswered.record rfl
  · rw [heq]
    exact inStep_execute hsteady hcallback (hphase ▸ hmoves) hanswered

/-- A script in which `get_state` neither opens nor closes the shell. -/
def Script.Calm : Script → Prop := Script.All (fun _ => True) Script.Quiet

theorem keepsStep_run (hsteady : setup.Steady) {script : Script} (h : script.Calm) :
    Across KeepsStep (run setup script) :=
  across_run chains_keepsStep (fun _ => stays_run)
    (fun _ call _ hquiet hasked hcallback =>
      keepsStep_executeWith hsteady call.event_ne hquiet hasked hcallback) h

/-! ### What `get_state` is called for -/

/-- The calls of `get_state` that are still to be answered for. -/
def debt (trace : List RExchange) : Int := (trace.map RExchange.weight).sum

/-- So many calls were answered for; while the code is running, at most so many. -/
def Pays (n : Int) (shell : RShell τ) (outcome : Outcome Stop) (shell' : RShell τ) : Prop :=
  debt shell.trace ≤ debt shell'.trace + n ∧
    (outcome ≠ .running → debt shell.trace = debt shell'.trace + n)

theorem Pays.andThen {n m : Int} {outcome outcome' : Outcome Stop} {shell'' : RShell τ}
    (h : Pays n shell outcome shell') (houtcome : outcome ≠ .running)
    (h' : Pays m shell' outcome' shell'') : Pays (n + m) shell outcome' shell'' := by
  have hfirst := h.2 houtcome
  have hnext := h'.1
  refine ⟨by omega, fun hend => ?_⟩
  have hlast := h'.2 hend
  omega

theorem chains_pays : Chains (Pays (τ := τ) 0) where
  ends _ _ := ⟨by simp, fun _ => by simp⟩
  andThen h houtcome h' := h.andThen houtcome h'

theorem pays_record (exchange : RExchange) {n : Int} {outcome : Outcome Stop}
    (htrace : shell'.trace = shell.trace ++ [exchange]) (hweight : exchange.weight = -n) :
    Pays n shell outcome shell' := by
  have hdebt : debt shell'.trace = debt shell.trace + exchange.weight := by
    simp [debt, htrace]
  exact ⟨by omega, fun _ => by omega⟩

theorem pays_listen (hcallback : Across (Pays 0) callback) :
    Across (Pays 0) (execOne setup callback .listen) := by
  intro shell
  simp only [execOne]
  split_ifs
  · exact chains_pays.ends _ shell
  · have hrecorded : Pays 0 shell .returned ({ shell with
        transport := setup.transport.onMessage shell.transport }.record .listened) :=
      pays_record .listened rfl rfl
    have hafter := hrecorded.andThen (by simp) (hcallback _)
    split
    · next heq =>
        rw [heq] at hafter
        exact hafter
    · exact hafter

theorem pays_execOne (hcallback : Across (Pays 0) callback) {effect : Effect}
    (heffect : effect.isMild = true) : Across (Pays 0) (execOne setup callback effect) :=
  across_execOne chains_pays hcallback (fun _ state => pays_record (.applied state) rfl rfl)
    (fun _ content buffers => pays_record (.invoked content buffers) rfl rfl) heffect

theorem adoptCommId_trace (setup : Setup τ) (shell : RShell τ) :
    (adoptCommId setup shell).1 = .returned ∧
      (adoptCommId setup shell).2.trace = shell.trace := by
  rw [adoptCommId]
  dsimp only
  split_ifs
  · exact ⟨rfl, rfl⟩
  · exact ⟨rfl, rfl⟩

theorem pays_send (setup : Setup τ) (callback : Code τ) (message : Send) (shell : RShell τ) :
    (execOne setup callback (.send message) shell).1 ≠ .running ∧
      Pays (if message.aboutState then 1 else 0) shell
        (execOne setup callback (.send message) shell).1
        (execOne setup callback (.send message) shell).2 := by
  obtain ⟨stopped, hend, htrace⟩ : ∃ stopped,
      (execOne setup callback (.send message) shell).1 ≠ .running ∧
        (execOne setup callback (.send message) shell).2.trace =
          shell.trace ++ [.sent message stopped] := by
    simp only [execOne]
    cases hsent : (setup.transport.send message shell.transport).1 with
    | some e => exact ⟨some e, by simp, rfl⟩
    | none =>
        dsimp only
        split_ifs
        · obtain ⟨hreturned, htrace⟩ := adoptCommId_trace setup ({ shell with
            transport := (setup.transport.send message shell.transport).2 }.record
              (.sent message none))
          exact ⟨none, by simp [hreturned], htrace⟩
        · exact ⟨none, by simp, rfl⟩
  refine ⟨hend, pays_record _ htrace ?_⟩
  simp only [RExchange.weight]
  split_ifs <;> rfl

/-- The first effect, and others that settle. -/
theorem pays_execEffects {n : Int} {effect : Effect} {effects : List Effect} {shell : RShell τ}
    (hone : Pays n shell (execOne setup callback effect shell).1
      (execOne setup callback effect shell).2)
    (heffects : ∀ effect ∈ effects, Across (Pays 0) (execOne setup callback effect)) :
    Pays n shell (execEffects setup callback (effect :: effects) shell).1
      (execEffects setup callback (effect :: effects) shell).2 := by
  rcases hend : execOne setup callback effect shell with ⟨outcome, shell'⟩
  rw [hend] at hone
  simp only [execEffects, hend]
  cases outcome with
  | returned =>
      have hrest := hone.andThen (by simp) (across_execEffects chains_pays heffects shell')
      rwa [add_zero] at hrest
  | raised e => exact hone
  | running => exact hone

/-- The message of an answer pays for the call of `get_state` that it was made with. -/
theorem pays_execute (hcallback : Across (Pays 0) callback)
    (h : Moves setup.capabilities phase event asks answer) (shell : RShell τ) :
    Pays (if asks then 1 else 0) shell (execute setup callback answer shell).1
      (execute setup callback answer shell).2 := by
  have hsingle : ∀ message phase, Pays (if message.aboutState then 1 else 0) shell
      (execEffects setup callback [.send message] { shell with phase }).1
      (execEffects setup callback [.send message] { shell with phase }).2 :=
    fun message phase => pays_execEffects
      (pays_send setup callback message { shell with phase }).2 (by simp)
  cases h with
  | @opens _ message _ htype =>
      have habout : message.aboutState = true := by simp [Send.aboutState, htype]
      have hsend := (pays_send setup callback message { shell with phase := .opened }).2
      rw [habout] at hsend
      refine pays_execEffects hsend fun effect heffect => ?_
      split_ifs at heffect
      · cases List.mem_singleton.mp heffect
        exact pays_listen hcallback
      · cases heffect
  | @sends _ message _ _ _ habout => exact habout ▸ hsingle message .opened
  | @closes message _ habout =>
      have hpays := hsingle message .closed
      rwa [habout] at hpays
  | stays heffects =>
      exact across_execEffects chains_pays (fun effect heffect =>
        pays_execOne hcallback (heffects effect heffect)) { shell with phase }

theorem pays_executeWith (hevent : ∀ id, event ≠ .commIdAssigned id)
    (hasked : Across (Pays 0) host.asked) (hcallback : Across (Pays 0) host.callback) :
    Across (Pays 0) (executeWith setup host event) := by
  intro shell
  have hask : Pays (-1) shell .returned (shell.record .asked) := pays_record .asked rfl rfl
  have hanswered := hask.andThen (by simp) (hasked (shell.record .asked))
  rcases executeWith_cases hevent host shell with ⟨e, heq⟩ | ⟨answer, hmoves, heq⟩ |
    ⟨hrunning, heq⟩ | ⟨hended, e, heq⟩ | ⟨hreturned, answer, hmoves, heq⟩
  · rw [heq]
    exact chains_pays.ends _ shell
  · rw [heq]
    exact pays_execute hcallback hmoves shell
  · rw [heq, hrunning]
    exact ⟨by have := hanswered.1; omega, fun h => absurd rfl h⟩
  · rw [heq]
    have hbalked : Pays 1 (host.asked (shell.record .asked)).2 (.raised e)
        ((host.asked (shell.record .asked)).2.record .balked) := pays_record .balked rfl rfl
    exact hanswered.andThen hended hbalked
  · rw [heq]
    exact hanswered.andThen (by simp [hreturned]) (pays_execute hcallback hmoves _)

theorem Script.all_true (script : Script) : script.All (fun _ => True) fun _ => True := by
  induction script with
  | ret | stop e | wait => trivial
  | call request asked getState callback next hasked hcallback hnext =>
      exact ⟨trivial, trivial, hasked, hcallback, hnext⟩

theorem pays_run (script : Script) : Across (Pays 0) (run setup script) :=
  across_run (P := fun _ => True) chains_pays (fun _ _ => trivial)
    (fun _ call _ _ hasked hcallback => pays_executeWith call.event_ne hasked hcallback)
    script.all_true

/-! ### Runs -/

/-- How often `get_state` was called. -/
def timesAsked (trace : List RExchange) : Nat :=
  trace.countP fun
    | .asked => true
    | _ => false

/-- How often such a call, or what was made of its answer, stopped. -/
def timesBalked (trace : List RExchange) : Nat :=
  trace.countP fun
    | .balked => true
    | _ => false

/-- How many messages about the state were handed to the transport. -/
def timesTold (trace : List RExchange) : Nat :=
  trace.countP fun
    | .sent message _ => message.aboutState
    | _ => false

theorem debt_eq (trace : List RExchange) :
    debt trace = timesAsked trace - (timesTold trace + timesBalked trace : Nat) := by
  induction trace with
  | nil => rfl
  | cons exchange trace ih =>
      have hcons : debt (exchange :: trace) = exchange.weight + debt trace := by
        simp [debt]
      simp only [timesAsked, timesBalked, timesTold] at ih ⊢
      rw [hcons, ih]
      cases exchange with
      | sent message stopped =>
          simp only [RExchange.weight, List.countP_cons]
          split_ifs <;> simp <;> omega
      | asked | balked | listened | applied _ | invoked _ _ =>
          simp [RExchange.weight] <;> omega

/-- Each call of `get_state` is for one message about the state, unless it stops, or what is made
of its answer does; a run that is still in such a call has it yet to answer for. -/
theorem asks_for_messages (setup : Setup τ) (script : Script) (transport : τ) (modelId : String) :
    let outcome := (run setup script (start transport modelId)).1
    let trace := (run setup script (start transport modelId)).2.trace
    timesTold trace + timesBalked trace ≤ timesAsked trace ∧
      (outcome ≠ .running → timesAsked trace = timesTold trace + timesBalked trace) := by
  intro outcome trace
  have hpays : Pays 0 (start transport modelId) outcome _ :=
    pays_run script (start transport modelId)
  have hle : 0 ≤ debt trace + 0 := hpays.1
  have heq : outcome ≠ .running → 0 = debt trace + 0 := hpays.2
  rw [debt_eq] at hle heq
  refine ⟨by omega, fun hended => ?_⟩
  have := heq hended
  omega

/-- While no `comm_open` and no `comm_close` fails and `get_state` neither opens nor closes the
shell, every run sends a prefix of sessions, is open exactly while the last one is, and outside
of them stops at a send without a call of `get_state`. -/
theorem shell_sends_sessions (hsteady : setup.Steady) {script : Script} (hcalm : script.Calm)
    (transport : τ) (modelId : String) :
    let shell := (run setup script (start transport modelId)).2
    (∃ word ∈ Session.words MsgType.commOpen .commMsg .commClose,
      handedTypes shell.trace <+: word) ∧
    (shell.phase = .opened ↔
      (handedTypes shell.trace).count .commOpen =
        (handedTypes shell.trace).count .commClose + 1) ∧
    (shell.phase ≠ .opened → ∀ host,
      (∀ include?, ∃ message, invoke setup host (.sendState include?) shell =
        (.raised (.effect message), shell)) ∧
      ∀ content buffers, ∃ message, invoke setup host (.sendCustom content buffers) shell =
        (.raised (.effect message), shell)) := by
  intro shell
  have hstep : shell.InStep := keepsStep_run hsteady hcalm (start transport modelId)
    Session.Log.nil
  refine ⟨hstep.prefix_word, ?_, fun hphase host => ⟨fun include? => ?_, fun content buffers => ?_⟩⟩
  · rw [Session.Log.count (by decide) (by decide) (by decide) hstep]
    by_cases hphase : shell.phase = .opened <;> simp [hphase]
  · simp only [invoke, executeWith, reduce, reduceSendState, if_pos hphase, execute, execEffects,
      execOne]
    exact ⟨_, rfl⟩
  · simp only [invoke, executeWith, reduce, reduceSendCustom, if_pos hphase, execute, execEffects,
      execOne]
    exact ⟨_, rfl⟩

namespace RShellWitness

/-- A transport that takes everything and gives out one comm id. -/
def taking : Setup Unit where
  transport := { send := fun _ t => (none, t), onMessage := id, commId := fun _ => "comm" }

def state : Value := .dict [(.str "value", .int 1)]

/-- A widget is opened; a custom message comes in, on which the host sends the state, and its
`get_state` sends a message first.  Then the widget is closed. -/
def session : Script :=
  .call .openComm .ret state .ret
    (.call (.inbound (Value.dict (Protocol.buildCustom (.str "click"))).toR []) .ret state
      (.call (.sendState none) (.call (.sendCustom (.str "busy") []) .ret state .ret .ret) state
        .ret .ret)
      (.call .closeComm .ret state .ret .ret))

/-- A `get_state` that closes the shell which asks. -/
def closing : Script :=
  .call .openComm .ret state .ret
    (.call (.sendState none) (.call .closeComm .ret state .ret .ret) state .ret .ret)

theorem calm_session : session.Calm := by
  simp [session, Script.Calm, Script.Quiet, Script.All, Call.event, Event.isMild]

end RShellWitness

open RShellWitness in
theorem shell_sends_sessions_click :
    (run taking session (start () "")).2.phase ≠ .opened ∧
      (handedTypes (run taking session (start () "")).2.trace).count .commOpen ≠
        (handedTypes (run taking session (start () "")).2.trace).count .commClose + 1 := by
  have hclosed : (run taking session (start () "")).2.phase ≠ .opened := by decide +kernel
  have hsteady : taking.Steady := fun _ _ _ => rfl
  have hsessions := shell_sends_sessions hsteady calm_session () ""
  exact ⟨hclosed, fun hcount => hclosed (hsessions.2.1.mpr hcount)⟩

open RShellWitness in
/-- Without that condition the update goes out after the `comm_close`, and the shell is open
again. -/
theorem closing_get_state : (run taking closing (start () "")).2.phase = .opened ∧
    handedTypes (run taking closing (start () "")).2.trace =
      [.commOpen, .commClose, .commMsg] := by
  decide +kernel

end RShell

end Cositos
