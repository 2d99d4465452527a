/-
What every run of a shell keeps: its sends are sessions of one `comm_open`,
updates and one `comm_close`, and it is open exactly while the last session is,
as long as no `comm_open` and no `comm_close` fails on the way, and no `get_state` opens or
closes the shell behind the reducer's back.
-/
import Cositos.Shell
import Cositos.Session

namespace Cositos

/-- The type of a message handed to `transport.send`, whether or not it raised. -/
def Exchange.handed {ε : Type} : Exchange ε → Option MsgType
  | .sent message _ => some message.msgType
  | _ => none

/-- The answer is stored over a comm that is open exactly if it was when the phase was
read. -/
def Execution.Settled (execution : Execution) : Prop :=
  execution.read = .opened ↔ execution.found = .opened

instance : DecidablePred Execution.Settled := fun execution =>
  inferInstanceAs (Decidable (execution.read = .opened ↔ execution.found = .opened))

namespace Shell

variable {ε τ : Type}

/-- The message types handed to `transport.send`. -/
def handedTypes (trace : List (Exchange ε)) : List MsgType :=
  trace.filterMap Exchange.handed

theorem handedTypes_append (trace trace' : List (Exchange ε)) :
    handedTypes (trace ++ trace') = handedTypes trace ++ handedTypes trace' :=
  List.filterMap_append

/-- Log of sessions, read off message types. -/
abbrev Sessions : List MsgType → Bool → Prop :=
  Session.Log .commOpen .commMsg .commClose

/-- The phase is open exactly while the last session is. -/
def InStep (shell : Shell ε τ) : Prop :=
  Sessions (handedTypes shell.trace) (decide (shell.phase = .opened))

/-- No `comm_open` and no `comm_close` failed. -/
def HandshakesDelivered (trace : List (Exchange ε)) : Prop :=
  ∀ message raised, .sent message raised ∈ trace → message.msgType ≠ .commMsg → raised = none

/-- No handshake failed, and no answer was stored over a comm opened or closed meanwhile. -/
structure Orderly (shell : Shell ε τ) : Prop where
  delivered : HandshakesDelivered shell.trace
  settled : ∀ execution ∈ shell.overtaken, execution.Settled

variable (setup : Setup ε τ)

/-- A record continued: every send in the new part carries the transport's answer. -/
def Extends (trace trace' : List (Exchange ε)) : Prop :=
  ∃ added, trace' = trace ++ added ∧
    ∀ message raised, .sent message raised ∈ added →
      ∃ transport, (setup.transport.send message transport).1 = raised

variable {setup}

theorem Extends.refl (trace : List (Exchange ε)) : Extends setup trace trace :=
  ⟨[], by simp, by simp⟩

theorem Extends.trans {trace trace' trace'' : List (Exchange ε)}
    (h : Extends setup trace trace') (h' : Extends setup trace' trace'') :
    Extends setup trace trace'' := by
  obtain ⟨added, rfl, hadded⟩ := h
  obtain ⟨added', rfl, hadded'⟩ := h'
  refine ⟨added ++ added', by simp, fun message raised hmem => ?_⟩
  rcases List.mem_append.mp hmem with hleft | hright
  · exact hadded message raised hleft
  · exact hadded' message raised hright

theorem Extends.sent (setup : Setup ε τ) (trace : List (Exchange ε)) (message : Send)
    (transport : τ) :
    Extends setup trace
      (trace ++ [.sent message (setup.transport.send message transport).1]) :=
  ⟨_, rfl, fun message' raised hmem => ⟨transport, by simp_all⟩⟩

theorem Extends.other (setup : Setup ε τ) (trace : List (Exchange ε)) {exchange : Exchange ε}
    (hexchange : ∀ message raised, exchange ≠ .sent message raised) :
    Extends setup trace (trace ++ [exchange]) :=
  ⟨_, rfl, fun message raised hmem =>
    absurd (List.mem_singleton.mp hmem).symm (hexchange message raised)⟩

/-- The records continued; each execution added to them is such as `P` says. -/
structure Grows (setup : Setup ε τ) (P : Execution → Prop) (shell shell' : Shell ε τ) :
    Prop where
  trace : Extends setup shell.trace shell'.trace
  overtaken : ∃ added, shell'.overtaken = shell.overtaken ++ added ∧ ∀ execution ∈ added,
    P execution

variable {P : Execution → Prop}

/-- Whatever leaves the executions as they are adds none. -/
theorem Grows.of_trace {shell shell' : Shell ε τ} (h : Extends setup shell.trace shell'.trace)
    (hsame : shell'.overtaken = shell.overtaken) : Grows setup P shell shell' :=
  ⟨h, [], by simp [hsame], by simp⟩

theorem Grows.refl (shell : Shell ε τ) : Grows setup P shell shell :=
  .of_trace (Extends.refl _) rfl

theorem Grows.trans {shell shell' shell'' : Shell ε τ} (h : Grows setup P shell shell')
    (h' : Grows setup P shell' shell'') : Grows setup P shell shell'' := by
  obtain ⟨added, heq, hadded⟩ := h.overtaken
  obtain ⟨added', heq', hadded'⟩ := h'.overtaken
  refine ⟨h.trace.trans h'.trace, added ++ added', ?_, ?_⟩
  · rw [heq', heq, List.append_assoc]
  · exact List.forall_mem_append.mpr ⟨hadded, hadded'⟩

/-- An orderly shell has been orderly before. -/
theorem Orderly.mono {shell shell' : Shell ε τ} (h : shell'.Orderly)
    (hgrows : Grows setup P shell shell') : shell.Orderly := by
  obtain ⟨added, htrace, -⟩ := hgrows.trace
  obtain ⟨added', hovertaken, -⟩ := hgrows.overtaken
  constructor
  · intro message raised hmem
    exact h.delivered message raised (by simp [htrace, hmem])
  · intro execution hmem
    exact h.settled execution (by simp [hovertaken, hmem])

/-- Code that only adds to the records, and keeps phase and sessions in step
unless something disorderly happens in it. -/
structure Keeps (setup : Setup ε τ) (P : Execution → Prop) (f : Code ε τ) : Prop where
  grows : ∀ shell, Grows setup P shell (f shell).2
  inStep : ∀ shell, shell.InStep → (f shell).2.Orderly → (f shell).2.InStep

variable (setup) {host : Code ε τ}

/-! ### One effect -/

theorem record_trace (shell : Shell ε τ) (exchange : Exchange ε) :
    (shell.record exchange).trace = shell.trace ++ [exchange] := rfl

/-- Recording anything but a message keeps the step. -/
theorem InStep.record (shell : Shell ε τ) (h : shell.InStep) {exchange : Exchange ε}
    (hexchange : exchange.handed = none) : (shell.record exchange).InStep := by
  rw [InStep, record_trace, handedTypes_append, handedTypes, handedTypes, List.filterMap_cons,
    hexchange, List.filterMap_nil, List.append_nil]
  exact h

/-- The feedback stores the id, if there is one, and leaves the shell open. -/
theorem adoptCommId_eq {shell : Shell ε τ} (hphase : shell.phase = .opened) :
    adoptCommId setup shell = (.returned, { shell with
      modelId := if setup.transport.commId shell.transport = "" then shell.modelId
        else setup.transport.commId shell.transport }) := by
  unfold adoptCommId
  dsimp only
  split_ifs
  · rfl
  · rw [Port.reduce_commIdAssigned, ← hphase]

theorem adoptCommId_trace (shell : Shell ε τ) :
    (adoptCommId setup shell).2.trace = shell.trace := by
  unfold adoptCommId
  dsimp only
  split_ifs
  · rfl
  · rw [Port.reduce_commIdAssigned]

theorem adoptCommId_overtaken (shell : Shell ε τ) :
    (adoptCommId setup shell).2.overtaken = shell.overtaken := by
  unfold adoptCommId
  dsimp only
  split_ifs
  · rfl
  · rw [Port.reduce_commIdAssigned]

/-- A send that is not a `comm_open` changes the transport and the record. -/
theorem execOne_send (host : Code ε τ) {message : Send} (htype : message.msgType ≠ .commOpen)
    (shell : Shell ε τ) :
    ∃ outcome, execOne setup host (.send message) shell =
      (outcome, { shell with transport := (setup.transport.send message shell.transport).2 }.record
        (.sent message (setup.transport.send message shell.transport).1)) := by
  simp only [execOne]
  cases (setup.transport.send message shell.transport).1 with
  | some e => exact ⟨_, rfl⟩
  | none => exact ⟨_, by simp [htype]; rfl⟩

theorem execOne_grows (hhost : Keeps setup P host) (effect : Effect) (shell : Shell ε τ) :
    Grows setup P shell (execOne setup host effect shell).2 := by
  cases effect with
  | send message =>
      have hsent := Extends.sent setup shell.trace message shell.transport
      simp only [execOne]
      cases hraised : (setup.transport.send message shell.transport).1 with
      | some e => exact .of_trace (by simpa [record, hraised] using hsent) rfl
      | none =>
          dsimp only
          split_ifs
          · exact .of_trace (by simpa [adoptCommId_trace, record, hraised] using hsent)
              (by rw [adoptCommId_overtaken]; rfl)
          · exact .of_trace (by simpa [record, hraised] using hsent) rfl
  | listen =>
      simp only [execOne]
      split_ifs
      · exact Grows.refl _
      · have hlistened : Grows setup P shell (Shell.record { shell with
            transport := setup.transport.onMessage shell.transport } .listened) :=
          .of_trace (Extends.other setup shell.trace (by simp)) rfl
        have hgrows := hlistened.trans (hhost.grows _)
        split
        · next heq =>
            rw [heq] at hgrows
            exact ⟨hgrows.trace, hgrows.overtaken⟩
        · exact hgrows
  | applyState state =>
      simp only [execOne]
      split_ifs
      · have hrecorded : Grows setup P shell (shell.record (.applied state)) :=
          .of_trace (Extends.other setup shell.trace (by simp)) rfl
        exact hrecorded.trans (hhost.grows _)
      · exact Grows.refl _
  | invokeCustom content buffers =>
      simp only [execOne]
      split_ifs
      · have hrecorded : Grows setup P shell (shell.record (.invoked content buffers)) :=
          .of_trace (Extends.other setup shell.trace (by simp)) rfl
        exact hrecorded.trans (hhost.grows _)
      · exact Grows.refl _
  | error message => exact Grows.refl _

theorem execEffects_grows (hhost : Keeps setup P host) (effects : List Effect)
    (shell : Shell ε τ) : Grows setup P shell (execEffects setup host effects shell).2 := by
  induction effects generalizing shell with
  | nil => exact Grows.refl _
  | cons effect effects ih =>
      have hone := execOne_grows setup hhost effect shell
      simp only [execEffects]
      split
      · next shell' heq =>
          rw [heq] at hone
          exact hone.trans (ih shell')
      · exact hone

theorem execOne_before (hhost : Keeps setup P host) (effect : Effect) (effects : List Effect)
    (shell : Shell ε τ) :
    Grows setup P (execOne setup host effect shell).2
      (execEffects setup host (effect :: effects) shell).2 := by
  simp only [execEffects]
  split
  · next shell' heq =>
      rw [heq]
      exact execEffects_grows setup hhost effects shell'
  · exact Grows.refl _

theorem execEffects_singleton (effect : Effect) (shell : Shell ε τ) :
    execEffects setup host [effect] shell = execOne setup host effect shell := by
  simp only [execEffects]
  split
  · next heq => exact heq.symm
  · rfl

/-- The effects that are no messages keep the step if the host does. -/
theorem keeps_execOne (hhost : Keeps setup P host) {effect : Effect}
    (heffect : ∀ message, effect ≠ .send message) : Keeps setup P (execOne setup host effect) := by
  refine ⟨execOne_grows setup hhost effect, fun shell hstep horderly => ?_⟩
  cases effect with
  | send message => exact absurd rfl (heffect message)
  | listen =>
      simp only [execOne] at horderly ⊢
      split_ifs at horderly ⊢
      · exact hstep
      · have hrecorded : ({ shell with
            transport := setup.transport.onMessage shell.transport }.record .listened).InStep :=
          InStep.record _ hstep rfl
        have hafter := hhost.inStep _ hrecorded
        generalize host _ = ended at hafter horderly ⊢
        obtain ⟨outcome, after⟩ := ended
        cases outcome <;> exact hafter ⟨horderly.delivered, horderly.settled⟩
  | applyState state =>
      simp only [execOne] at horderly ⊢
      split_ifs at horderly ⊢
      · exact hhost.inStep _ (InStep.record shell hstep rfl) horderly
      · exact hstep
  | invokeCustom content buffers =>
      simp only [execOne] at horderly ⊢
      split_ifs at horderly ⊢
      · exact hhost.inStep _ (InStep.record shell hstep rfl) horderly
      · exact hstep
  | error message => exact hstep

/-- A message extends the sessions by its type. -/
theorem inStep_of_sent (shell : Shell ε τ) {shell' : Shell ε τ} {message : Send}
    {raised : Option ε} (htrace : shell'.trace = shell.trace ++ [.sent message raised])
    (h : Sessions (handedTypes shell.trace ++ [message.msgType])
      (decide (shell'.phase = .opened))) : shell'.InStep := by
  rw [InStep, htrace, handedTypes_append]
  exact h

theorem sent_mem_execOne {message : Send} {shell : Shell ε τ} :
    .sent message (setup.transport.send message shell.transport).1 ∈
      (execOne setup host (.send message) shell).2.trace := by
  simp only [execOne]
  cases (setup.transport.send message shell.transport).1 with
  | some e => simp [record_trace]
  | none =>
      dsimp only
      split_ifs <;> simp [adoptCommId_trace, record_trace]

theorem keeps_execEffects (hhost : Keeps setup P host) {effects : List Effect}
    (heffects : ∀ effect ∈ effects, ∀ message, effect ≠ .send message) :
    Keeps setup P (execEffects setup host effects) := by
  refine ⟨execEffects_grows setup hhost effects, ?_⟩
  induction effects with
  | nil => exact fun shell hstep _ => hstep
  | cons effect effects ih =>
      intro shell hstep horderly
      have hone := (keeps_execOne setup hhost (heffects effect List.mem_cons_self)).inStep shell
        hstep (horderly.mono (execOne_before setup hhost effect effects shell))
      simp only [execEffects] at horderly ⊢
      split at horderly
      · next shell' heq =>
          rw [heq] at hone
          exact ih (fun e he => heffects e (List.mem_cons_of_mem _ he)) shell' hone horderly
      · exact hone

/-- A handshake that does not fail is recorded as delivered. -/
theorem execOne_sent_trace {message : Send} (htype : message.msgType ≠ .commMsg)
    {shell : Shell ε τ}
    (hdelivered : HandshakesDelivered (execOne setup host (.send message) shell).2.trace) :
    (execOne setup host (.send message) shell).2.trace =
      shell.trace ++ [.sent message none] := by
  have hnone := hdelivered message _ (sent_mem_execOne setup) htype
  simp only [execOne, hnone]
  split_ifs
  · rw [adoptCommId_trace, record_trace]
  · rfl

/-- Opening: once the `comm_open` is delivered a session has started. -/
theorem inStep_opens (hhost : Keeps setup P host) {shell : Shell ε τ} (hstep : shell.InStep)
    (hphase : shell.phase ≠ .opened) {message : Send} (htype : message.msgType = .commOpen)
    {effects : List Effect} (heffects : ∀ effect ∈ effects, ∀ message, effect ≠ .send message)
    (horderly :
      (execEffects setup host (.send message :: effects) { shell with phase := .opened }).2.Orderly) :
    (execEffects setup host (.send message :: effects)
      { shell with phase := .opened }).2.InStep := by
  have hfirst := horderly.mono (execOne_before setup hhost (.send message) effects _)
  have htrace := execOne_sent_trace setup (by simp [htype]) hfirst.delivered
  have hopen : (execOne setup host (.send message) { shell with phase := .opened }).2.phase =
      .opened := by
    simp only [execOne]
    cases (setup.transport.send message shell.transport).1 with
    | some e => rfl
    | none => simp [htype, adoptCommId_eq, record]
  have hone : (execOne setup host (.send message) { shell with phase := .opened }).2.InStep := by
    refine inStep_of_sent shell htrace ?_
    rw [htype, hopen]
    rw [InStep, decide_eq_false hphase] at hstep
    exact hstep.opens
  simp only [execEffects] at horderly ⊢
  split at horderly
  · next shell' heq =>
      rw [heq] at hone
      exact (keeps_execEffects setup hhost heffects).inStep shell' hone horderly
  · exact hone

/-- Closing: once the `comm_close` is delivered the session is over. -/
theorem inStep_closes {shell : Shell ε τ} (hstep : shell.InStep)
    (hphase : shell.phase = .opened) {message : Send} (htype : message.msgType = .commClose)
    (hdelivered : HandshakesDelivered
      (execOne setup host (.send message) { shell with phase := .closed }).2.trace) :
    (execOne setup host (.send message) { shell with phase := .closed }).2.InStep := by
  have htrace := execOne_sent_trace setup (by simp [htype]) hdelivered
  have hnotOpen : message.msgType ≠ .commOpen := by simp [htype]
  obtain ⟨outcome, heq⟩ := execOne_send setup host hnotOpen { shell with phase := .closed }
  rw [heq] at htrace ⊢
  refine inStep_of_sent shell htrace ?_
  rw [htype]
  rw [InStep, decide_eq_true hphase] at hstep
  exact hstep.closes

/-- An update or custom message on an open comm keeps the step, sent or not. -/
theorem inStep_sends (shell : Shell ε τ) (hstep : shell.InStep)
    (hphase : shell.phase = .opened) {message : Send} (htype : message.msgType = .commMsg) :
    (execOne setup host (.send message) shell).2.InStep := by
  have hnotOpen : message.msgType ≠ .commOpen := by simp [htype]
  obtain ⟨outcome, heq⟩ := execOne_send setup host hnotOpen shell
  rw [heq]
  refine inStep_of_sent shell rfl ?_
  rw [htype]
  rw [InStep, decide_eq_true hphase] at hstep
  exact (decide_eq_true hphase).symm ▸ hstep.passes

/-- An answer of the reducer to a phase that is open exactly if the shell is. -/
theorem inStep_answer (hhost : Keeps setup P host) {event : Event}
    (hevent : ∀ id, event ≠ .commIdAssigned id) {currentState : Bindings} {read phase : Phase}
    {effects : List Effect}
    (hreduce : setup.port.reduce read event currentState setup.capabilities =
      .ok (phase, effects)) {shell : Shell ε τ} (hstep : shell.InStep)
    (hread : read = .opened ↔ shell.phase = .opened)
    (horderly : (execEffects setup host effects { shell with phase }).2.Orderly) :
    (execEffects setup host effects { shell with phase }).2.InStep := by
  have hsame : ({ shell with phase := read } : Shell ε τ).InStep := by
    rw [InStep, decide_eq_decide.mpr hread]
    exact hstep
  cases Port.reduce_moves hreduce with
  | opens hphase htype =>
      refine inStep_opens setup hhost hstep (fun h => hphase (hread.mpr h)) htype ?_ horderly
      cases setup.capabilities.supportsReceive <;> simp
  | closes htype =>
      rw [execEffects_singleton] at horderly ⊢
      exact inStep_closes setup hstep (hread.mp rfl) htype horderly.delivered
  | sends hevent htype =>
      rw [execEffects_singleton]
      exact inStep_sends setup { shell with phase := .opened } hsame rfl htype
  | applies | invokes =>
      exact (keeps_execEffects setup hhost (by simp)).inStep _ hsame horderly
  | refuses hevent => exact hsame
  | skips _ _ _ => exact hsame
  | adopts => exact absurd rfl (hevent _)

/-- One answer of the reducer, executed. -/
theorem keeps_execute (hhost : Keeps setup P host) {event : Event}
    (hevent : ∀ id, event ≠ .commIdAssigned id) (currentState : Bindings) :
    Keeps setup P (execute setup host event currentState) := by
  constructor
  · intro shell
    simp only [execute]
    split
    · exact Grows.refl _
    · next phase effects _ =>
        have hstored : Grows setup P shell { shell with phase } := .of_trace (.refl _) rfl
        exact hstored.trans (execEffects_grows setup hhost effects _)
  · intro shell hstep horderly
    simp only [execute] at horderly ⊢
    split at horderly
    · exact hstep
    · next phase effects heq =>
        exact inStep_answer setup hhost hevent heq hstep Iff.rfl horderly

/-- `get_state` moves the phase only as `P` says. -/
def Moves (P : Execution → Prop) (event : Event) (asked : Code ε τ) : Prop :=
  ∀ shell, (asked shell).2.phase ≠ shell.phase → P ⟨event, shell.phase, (asked shell).2.phase⟩

theorem store_grows {event : Event} {read : Phase} {shell : Shell ε τ}
    (hmoves : shell.phase ≠ read → P ⟨event, read, shell.phase⟩) (phase : Phase) :
    Grows setup P shell (store event read phase shell) := by
  by_cases hphase : shell.phase = read
  · refine .of_trace (.refl _) ?_
    rw [store, if_pos hphase]
  · refine ⟨.refl _, [⟨event, read, shell.phase⟩], ?_, ?_⟩
    · rw [store, if_neg hphase]
    · simpa using hmoves hphase

/-- An answer that is stored in an orderly way was given to a phase that is open exactly if
the shell is. -/
theorem settled_of_store {event : Event} {read phase : Phase} {shell : Shell ε τ}
    (h : (store event read phase shell).Orderly) : read = .opened ↔ shell.phase = .opened := by
  by_cases hphase : shell.phase = read
  · rw [hphase]
  · refine h.settled ⟨event, read, shell.phase⟩ ?_
    rw [store, if_neg hphase]
    simp

/-- A call either ends with `get_state` or has the reducer's answer carried out. -/
theorem executeWith_cases (host : Host ε τ) (event : Event) (shell : Shell ε τ) :
    (∃ outcome, executeWith setup host event shell = (outcome, (host.asked shell).2)) ∨
      ∃ currentState phase effects,
        setup.port.reduce shell.phase event currentState setup.capabilities =
          .ok (phase, effects) ∧
        executeWith setup host event shell = execEffects setup host.callback effects
          (store event shell.phase phase (host.asked shell).2) := by
  simp only [executeWith]
  split
  · next after heq =>
      rw [heq]
      cases host.getState with
      | error e => exact .inl ⟨_, rfl⟩
      | ok currentState =>
          cases hreduce : setup.port.reduce shell.phase event currentState setup.capabilities with
          | error e => exact .inl ⟨.raised e, by simp only [hreduce]⟩
          | ok answer =>
              obtain ⟨phase, effects⟩ := answer
              exact .inr ⟨currentState, phase, effects, hreduce, by simp only [hreduce]⟩
  · next heq => exact .inl ⟨(host.asked shell).1, rfl⟩

theorem keeps_executeWith {host : Host ε τ} (hasked : Keeps setup P host.asked)
    (hcallback : Keeps setup P host.callback) {event : Event}
    (hevent : ∀ id, event ≠ .commIdAssigned id) (hmoves : Moves P event host.asked) :
    Keeps setup P (executeWith setup host event) := by
  constructor
  · intro shell
    rcases executeWith_cases setup host event shell with ⟨outcome, heq⟩ | ⟨_, phase, _, _, heq⟩
    · rw [heq]
      exact hasked.grows shell
    · rw [heq]
      exact ((hasked.grows shell).trans (store_grows setup (hmoves shell) phase)).trans
        (execEffects_grows setup hcallback _ _)
  · intro shell hstep horderly
    rcases executeWith_cases setup host event shell with
      ⟨outcome, heq⟩ | ⟨currentState, phase, effects, hreduce, heq⟩
    · rw [heq] at horderly ⊢
      exact hasked.inStep shell hstep horderly
    · rw [heq] at horderly ⊢
      have hstored : (store event shell.phase phase (host.asked shell).2).Orderly :=
        horderly.mono (execEffects_grows setup hcallback effects _)
      have hafter : (host.asked shell).2.InStep :=
        hasked.inStep shell hstep (hstored.mono (store_grows setup (hmoves shell) phase))
      -- the executions recorded play no part in the step
      have hbefore : ({ store event shell.phase phase (host.asked shell).2 with
          phase := (host.asked shell).2.phase } : Shell ε τ).InStep := hafter
      have hread : shell.phase = .opened ↔ (host.asked shell).2.phase = .opened :=
        settled_of_store hstored
      exact inStep_answer setup hcallback hevent hreduce hbefore hread horderly

/-- Code that does nothing but end. -/
theorem keeps_end (outcome : Outcome ε) : Keeps setup P fun shell => (outcome, shell) :=
  ⟨fun _ => Grows.refl _, fun _ hstep _ => hstep⟩

theorem Keeps.ite {f g : Code ε τ} (p : Shell ε τ → Prop) [DecidablePred p]
    (hf : Keeps setup P f) (hg : Keeps setup P g) :
    Keeps setup P fun shell => if p shell then f shell else g shell := by
  constructor
  · intro shell
    by_cases hp : p shell
    · simpa [hp] using hf.grows shell
    · simpa [hp] using hg.grows shell
  · intro shell
    by_cases hp : p shell
    · simpa [hp] using hf.inStep shell
    · simpa [hp] using hg.inStep shell

section Calls

variable {host : Host ε τ} (hasked : Keeps setup P host.asked)
  (hcallback : Keeps setup P host.callback) (hmoves : ∀ event, Moves P event host.asked)

include hasked hcallback hmoves

theorem keeps_openComm : Keeps setup P (openComm setup host) :=
  Keeps.ite setup _ (keeps_end setup .returned)
    (keeps_executeWith setup hasked hcallback (by simp) (hmoves _))

theorem keeps_handleInbound (data : Value) (buffers : List Binary) :
    Keeps setup P (handleInbound setup host data buffers) := by
  have hexecute : Keeps setup P (executeWith setup host (.inbound data buffers)) :=
    keeps_executeWith setup hasked hcallback (by simp) (hmoves _)
  have hcases : (∃ outcome, handleInbound setup host data buffers =
        fun shell => (outcome, shell)) ∨
      handleInbound setup host data buffers = executeWith setup host (.inbound data buffers) := by
    unfold handleInbound
    cases setup.port.parseMessage data with
    | error e => exact Or.inl ⟨.raised e, rfl⟩
    | ok message =>
        cases message with
        | ignored method => exact Or.inl ⟨.returned, rfl⟩
        | update _ _ | custom _ | requestState => exact Or.inr rfl
  rcases hcases with ⟨outcome, heq⟩ | heq
  · rw [heq]
    exact keeps_end setup outcome
  · rw [heq]
    exact hexecute

/-- Every call keeps the step if the host code it calls does. -/
theorem keeps_invoke (call : Call) : Keeps setup P (invoke setup host call) := by
  cases call with
  | openComm => exact keeps_openComm setup hasked hcallback hmoves
  | sendState include? => exact keeps_executeWith setup hasked hcallback (by simp) (hmoves _)
  | sendCustom content buffers =>
      exact keeps_executeWith setup hasked hcallback (by simp) (hmoves _)
  | closeComm => exact keeps_execute setup hcallback (by simp) []
  | reprMimebundle =>
      exact Keeps.ite setup _ (keeps_openComm setup hasked hcallback hmoves)
        (keeps_end setup .returned)
  | inbound data buffers => exact keeps_handleInbound setup hasked hcallback hmoves data buffers

end Calls

/-- Code, and unless it is still running more code. -/
theorem Keeps.andThen {first next code : Code ε τ} (hfirst : Keeps setup P first)
    (hnext : Keeps setup P next)
    (hgoes : ∀ shell, (∃ outcome, code shell = (outcome, (first shell).2)) ∨
      code shell = next (first shell).2) : Keeps setup P code := by
  constructor
  · intro shell
    rcases hgoes shell with ⟨outcome, heq⟩ | heq
    · rw [heq]
      exact hfirst.grows shell
    · rw [heq]
      exact (hfirst.grows shell).trans (hnext.grows _)
  · intro shell hstep horderly
    rcases hgoes shell with ⟨outcome, heq⟩ | heq
    · rw [heq] at horderly ⊢
      exact hfirst.inStep shell hstep horderly
    · rw [heq] at horderly ⊢
      exact hnext.inStep _ (hfirst.inStep shell hstep (horderly.mono (hnext.grows _))) horderly

theorem run_call (call : Call) (asked : Script ε) (getState : Except ε Bindings)
    (callback next : Script ε) (shell : Shell ε τ) :
    let invoked := invoke setup ⟨run setup asked, getState, run setup callback⟩ call shell
    (∃ outcome, run setup (.call call asked getState callback next) shell =
        (outcome, invoked.2)) ∨
      run setup (.call call asked getState callback next) shell = run setup next invoked.2 := by
  intro invoked
  simp only [run]
  split
  · next heq => exact Or.inl ⟨.running, by simp only [invoked, heq]⟩
  · next heq => exact Or.inr (by simp only [invoked, heq])

/-- Every run keeps phase and sessions in step unless something disorderly happens in it:
by induction on the script, `get_state` and a callback being shorter scripts. -/
theorem keeps_run (script : Script ε) : Keeps setup (fun _ => True) (run setup script) := by
  induction script with
  | ret => exact keeps_end setup .returned
  | raise e => exact keeps_end setup (.raised e)
  | wait => exact keeps_end setup .running
  | call call asked getState callback next hasked hcallback hnext =>
      have hinvoke : Keeps setup (fun _ => True)
          (invoke setup ⟨run setup asked, getState, run setup callback⟩ call) :=
        keeps_invoke setup hasked hcallback (fun _ _ _ => trivial) call
      exact Keeps.andThen setup hinvoke hnext (run_call setup call asked getState callback next)

/-- Where `get_state` only answers, no answer is stored over another phase. -/
theorem keeps_run_plain {script : Script ε} (hplain : script.Plain) :
    Keeps setup (fun _ => False) (run setup script) := by
  induction script with
  | ret => exact keeps_end setup .returned
  | raise e => exact keeps_end setup (.raised e)
  | wait => exact keeps_end setup .running
  | call call asked getState callback next _ hcallback hnext =>
      obtain ⟨rfl, hplainCallback, hplainNext⟩ := hplain
      have hinvoke : Keeps setup (fun _ => False)
          (invoke setup ⟨run setup .ret, getState, run setup callback⟩ call) :=
        keeps_invoke setup (keeps_end setup .returned) (hcallback hplainCallback)
          (fun _ _ hmoved => hmoved rfl) call
      exact Keeps.andThen setup hinvoke (hnext hplainNext)
        (run_call setup call .ret getState callback next)

end Shell

end Cositos
