/-
Runs of the Python shell from an unopened widget: over a transport that never
fails they send sessions; over one that may fail, the failures of `comm_open` and
`comm_close` put the phase out of step, and so does a `get_state` that opens or closes the
shell.
-/
import Cositos.ShellRuns

namespace Cositos

namespace Shell

variable {ε τ : Type}

/-- A shell as `__init__` leaves it. -/
def start (transport : τ) (modelId : String) : Shell ε τ := { transport, modelId }

/-- The Python `WidgetShell`. -/
def pythonSetup (transport : Transport PyError τ) (capabilities : TransportCapabilities)
    (hasSetState hasOnCustom : Bool) : Setup PyError τ :=
  { port := Lifecycle.python, transport, capabilities, hasSetState, hasOnCustom }

theorem inStep_start (transport : τ) (modelId : String) :
    (start transport modelId : Shell ε τ).InStep := Session.Log.nil

variable (setup : Setup ε τ)

/-- Every reached shell that is orderly is in step. -/
theorem inStep_run (script : Script ε) (transport : τ) (modelId : String)
    (horderly : (run setup script (start transport modelId)).2.Orderly) :
    (run setup script (start transport modelId)).2.InStep :=
  (keeps_run setup script).inStep _ (inStep_start transport modelId) horderly

/-- A `get_state` that only answers lets every answer be stored over the phase it was
given to. -/
theorem overtaken_run {script : Script ε} (hplain : script.Plain) (transport : τ)
    (modelId : String) : (run setup script (start transport modelId)).2.overtaken = [] := by
  obtain ⟨added, hadded, hnone⟩ :=
    ((keeps_run_plain setup hplain).grows (start transport modelId)).overtaken
  rw [hadded, List.eq_nil_iff_forall_not_mem.mpr hnone]
  rfl

/-- All sends of a run got their answer from the transport. -/
theorem sent_of_run (script : Script ε) (transport : τ) (modelId : String) {message : Send}
    {raised : Option ε}
    (hmem : .sent message raised ∈ (run setup script (start transport modelId)).2.trace) :
    ∃ before, (setup.transport.send message before).1 = raised := by
  obtain ⟨added, htrace, hadded⟩ :=
    ((keeps_run setup script).grows (start transport modelId)).trace
  rw [htrace] at hmem
  exact hadded message raised hmem

theorem InStep.phase_iff {shell : Shell ε τ} (h : shell.InStep) :
    shell.phase = .opened ↔
      (handedTypes shell.trace).count .commOpen =
        (handedTypes shell.trace).count .commClose + 1 := by
  rw [Session.Log.count (by decide) (by decide) (by decide) h]
  by_cases hphase : shell.phase = .opened <;> simp [hphase]

/-- Outside an open comm a refused event raises and changes nothing. -/
theorem executeWith_refused (callback : Code ε τ) {event : Event}
    (hevent : Port.requiresOpen event = true) (getState : Except ε Bindings)
    {shell : Shell ε τ} (hphase : shell.phase ≠ .opened) :
    ∃ e, executeWith setup (.plain callback getState) event shell = (.raised e, shell) := by
  rw [executeWith_plain]
  cases getState with
  | error e => exact ⟨e, rfl⟩
  | ok currentState =>
      simp only [execute]
      split
      · exact ⟨_, rfl⟩
      · next phase effects heq =>
          have hmoves := Port.reduce_moves heq
          generalize hbefore : shell.phase = before at hmoves hphase
          cases hmoves with
          | opens | applies | invokes | closes | adopts => simp [Port.requiresOpen] at hevent
          | sends => exact absurd rfl hphase
          | skips hskips => simp [hskips] at hevent
          | refuses _ =>
              subst hbefore
              exact ⟨_, rfl⟩

/-- Over a transport that never raises, and with a `get_state` that only answers, every run
sends a prefix of sessions, is open exactly while the last one is, and refuses to send
outside of them. -/
theorem run_sends_sessions (transport : Transport PyError τ)
    (hsend : ∀ message before, (transport.send message before).1 = none)
    (capabilities : TransportCapabilities) (hasSetState hasOnCustom : Bool)
    (script : Script PyError) (hplain : script.Plain) (before : τ) (modelId : String) :
    let setup := pythonSetup transport capabilities hasSetState hasOnCustom
    let shell := (run setup script (start before modelId)).2
    (∃ word ∈ Session.words MsgType.commOpen .commMsg .commClose,
      handedTypes shell.trace <+: word) ∧
    (shell.phase = .opened ↔
      (handedTypes shell.trace).count .commOpen =
        (handedTypes shell.trace).count .commClose + 1) ∧
    (shell.phase ≠ .opened → ∀ (callback : Code PyError τ) getState,
      (∀ include?, ∃ e,
        sendState setup (.plain callback getState) include? shell = (.raised e, shell)) ∧
      ∀ content buffers, ∃ e,
        sendCustom setup (.plain callback getState) content buffers shell =
          (.raised e, shell)) := by
  intro setup shell
  have hdelivered : HandshakesDelivered shell.trace := by
    intro message raised hmem _
    obtain ⟨between, rfl⟩ := sent_of_run setup script before modelId hmem
    exact hsend message between
  have hsettled : ∀ execution ∈ shell.overtaken, execution.Settled := by
    simp [shell, overtaken_run setup hplain]
  have hstep : shell.InStep := inStep_run setup script before modelId ⟨hdelivered, hsettled⟩
  exact ⟨hstep.prefix_word, hstep.phase_iff, fun hphase callback getState =>
    ⟨fun _ => executeWith_refused setup callback rfl getState hphase,
      fun _ _ => executeWith_refused setup callback rfl getState hphase⟩⟩

/-! ### Transports that fail -/

/-- The messages of one type that went out without an exception. -/
def delivered (msgType : MsgType) (trace : List (Exchange ε)) : Nat :=
  trace.countP fun
    | .sent message .none => message.msgType = msgType
    | _ => false

/-- Where no handshake fails, all that are handed over are delivered. -/
theorem delivered_eq_count {msgType : MsgType} (htype : msgType ≠ .commMsg)
    {trace : List (Exchange ε)} (h : HandshakesDelivered trace) :
    delivered msgType trace = (handedTypes trace).count msgType := by
  induction trace with
  | nil => rfl
  | cons exchange trace ih =>
      have htrace := ih fun message raised hmem => h message raised (List.mem_cons_of_mem _ hmem)
      rw [delivered] at htrace ⊢
      cases exchange with
      | sent message raised =>
          by_cases hmessage : message.msgType = msgType
          · have hnone : raised = none :=
              h message raised List.mem_cons_self (by rw [hmessage]; exact htype)
            subst hnone hmessage
            simp [handedTypes, Exchange.handed, htrace]
          · cases raised <;> simp [handedTypes, Exchange.handed, hmessage, htrace]
      | listened | applied _ | invoked _ _ =>
          simpa [handedTypes, List.filterMap_cons, Exchange.handed] using htrace

/-- A message is handed over only after a `comm_open` was delivered. -/
theorem InStep.opening_delivered {shell : Shell ε τ} (h : shell.InStep)
    (hdelivered : HandshakesDelivered shell.trace) {front back : List (Exchange ε)}
    {message : Send} {raised : Option ε} (htype : message.msgType = .commMsg)
    (htrace : shell.trace = front ++ .sent message raised :: back) :
    ∃ opening, .sent opening none ∈ front ∧ opening.msgType = .commOpen := by
  have hpre : handedTypes front ++ [.commMsg] <+: handedTypes shell.trace := by
    refine ⟨handedTypes back, ?_⟩
    rw [htrace, handedTypes_append]
    simp [handedTypes, Exchange.handed, htype]
  have hmem := Session.Log.opening_before_inner (by decide) (by decide) h hpre
  obtain ⟨exchange, hexchange, heq⟩ := List.mem_filterMap.mp hmem
  cases exchange with
  | sent opening raised' =>
      have hopening : opening.msgType = .commOpen := Option.some.inj heq
      have hnone : raised' = none := hdelivered opening raised'
        (by rw [htrace]; exact List.mem_append_left _ hexchange) (by simp [hopening])
      subst hnone
      exact ⟨opening, hexchange, hopening⟩
  | listened | applied _ | invoked _ _ => cases heq

/-- A first message that raises ends the call. -/
theorem execEffects_send_fails (callback : Code ε τ) {message : Send} (effects : List Effect)
    (shell : Shell ε τ) {e : ε}
    (hsend : (setup.transport.send message shell.transport).1 = some e) :
    execEffects setup callback (.send message :: effects) shell =
      (.raised e, { shell with
        transport := (setup.transport.send message shell.transport).2 }.record
          (.sent message (some e))) := by
  simp only [execEffects, execOne, hsend]

/-- While no `comm_open` and no `comm_close` fails, and no `get_state` opens or closes the
shell before an answer is stored, the phase tells what has been delivered, and no message
goes out before a delivered `comm_open`.  When one of the two does fail, `open()` or
`close()` raises in the new phase, and calling it again sends nothing. -/
theorem phase_tells_deliveries (transport : Transport PyError τ)
    (capabilities : TransportCapabilities) (hasSetState hasOnCustom : Bool) :
    let setup := pythonSetup transport capabilities hasSetState hasOnCustom
    (∀ script before modelId,
      let shell := (run setup script (start before modelId)).2
      HandshakesDelivered shell.trace → (∀ execution ∈ shell.overtaken, execution.Settled) →
        (shell.phase = .opened ↔
          delivered .commClose shell.trace < delivered .commOpen shell.trace) ∧
        ∀ front message raised back, shell.trace = front ++ .sent message raised :: back →
          message.msgType = .commMsg →
            ∃ opening, .sent opening none ∈ front ∧ opening.msgType = .commOpen) ∧
    (∀ (host : Host PyError τ) currentState shell asked message effects e,
      shell.phase ≠ .opened → host.asked shell = (.returned, asked) →
      host.getState = .ok currentState →
      Lifecycle.reduceOpen shell.phase currentState capabilities =
        .ok (.opened, .send message :: effects) →
      (transport.send message asked.transport).1 = some e →
        ∃ after, openComm setup host shell = (.raised e, after) ∧ after.phase ≠ shell.phase ∧
          ∀ again, openComm setup again after = (.returned, after)) ∧
    ∀ (callback : Code PyError τ) shell message effects e, shell.phase = .opened →
      Lifecycle.reduceClose shell.phase = .ok (.closed, .send message :: effects) →
      (transport.send message shell.transport).1 = some e →
        ∃ after, closeComm setup callback shell = (.raised e, after) ∧
          after.phase ≠ shell.phase ∧ closeComm setup callback after = (.returned, after) := by
  intro setup
  refine ⟨?_, ?_, ?_⟩
  · intro script before modelId shell hdelivered hsettled
    have hstep : shell.InStep := inStep_run setup script before modelId ⟨hdelivered, hsettled⟩
    refine ⟨?_, fun front message raised back htrace htype =>
      hstep.opening_delivered hdelivered htype htrace⟩
    have hcount := Session.Log.count (by decide) (by decide) (by decide) hstep
    rw [delivered_eq_count (by decide) hdelivered, delivered_eq_count (by decide) hdelivered,
      hcount]
    by_cases hphase : shell.phase = .opened <;> simp [hphase]
  · intro host currentState shell asked message effects e hphase hasked hstate hreduce hsend
    have hport : setup.port.reduce shell.phase .openComm currentState setup.capabilities =
        .ok (.opened, .send message :: effects) := hreduce
    have hfails := execEffects_send_fails setup host.callback effects
      (store .openComm shell.phase .opened asked) hsend
    have hopen : openComm setup host shell = execEffects setup host.callback
        (.send message :: effects) (store .openComm shell.phase .opened asked) := by
      rw [openComm, if_neg hphase]
      simp only [executeWith, hasked, hstate, hport]
    exact ⟨_, hopen.trans hfails, fun h => hphase h.symm, fun again => rfl⟩
  · intro callback shell message effects e hphase hreduce hsend
    have hport : setup.port.reduce shell.phase .closeComm [] setup.capabilities =
        .ok (.closed, .send message :: effects) := hreduce
    have hfails := execEffects_send_fails setup callback effects
      { shell with phase := .closed } hsend
    have hclose : closeComm setup callback shell = execEffects setup callback
        (.send message :: effects) { shell with phase := .closed } := by
      simp only [closeComm, execute, hport]
    exact ⟨_, hclose.trans hfails, by simp [hphase, record], rfl⟩

namespace SessionsWitness

/-- A transport that never fails. -/
def steady : Transport PyError Unit where
  send _ _ := (none, ())
  onMessage := id
  commId _ := "c1"

/-- A transport whose first send fails. -/
def flaky : Transport PyError Bool where
  send _ up := (if up then none else some (.host 0), true)
  onMessage := id
  commId up := if up then "c1" else ""

/-- Open, update, and close while the update is being answered. -/
def openSendClose : Script PyError :=
  .call .openComm .ret (.ok []) .ret <|
    .call (.sendState none) .ret (.ok [(.str "k", .int 1)]) .ret <|
      .call (.inbound (.dict [(.str "method", .str "update"),
        (.str "state", .dict [(.str "k", .int 2)])]) []) .ret (.ok [])
          (.call .closeComm .ret (.ok []) .ret (.raise (.host 1))) .ret

/-- A `get_state` that closes the widget while its state is sent. -/
def closing : Script PyError :=
  .call .openComm .ret (.ok []) .ret <|
    .call (.sendState none) (.call .closeComm .ret (.ok []) .ret .ret) (.ok []) .ret .ret

end SessionsWitness

theorem run_sends_sessions_steady :
    let shell := (run (pythonSetup SessionsWitness.steady {} true true)
      SessionsWitness.openSendClose (start () "")).2
    shell.phase ≠ .opened ∧
      (handedTypes shell.trace).count .commOpen ≠
        (handedTypes shell.trace).count .commClose + 1 := by
  intro shell
  have hphase : shell.phase ≠ .opened := by decide +kernel
  exact ⟨hphase, fun hcount => hphase ((run_sends_sessions SessionsWitness.steady
    (fun _ _ => rfl) {} true true SessionsWitness.openSendClose
    ⟨rfl, trivial, rfl, trivial, rfl, ⟨rfl, trivial, trivial⟩, trivial⟩ () "").2.1.mpr hcount)⟩

theorem phase_tells_deliveries_flaky :
    ∃ e after, openComm (pythonSetup SessionsWitness.flaky {} true true)
        (.plain idle (.ok [])) (start false "") = (.raised e, after) ∧
      after.phase ≠ .unopened := by
  obtain ⟨after, hopen, hphase, _⟩ :=
    (phase_tells_deliveries SessionsWitness.flaky {} true true).2.1
      (.plain idle (.ok [])) [] (start false "") _ _ _ (.host 0) (by simp [start]) rfl rfl rfl rfl
  exact ⟨.host 0, after, hopen, hphase⟩

/-- The first `open()` fails, and the shell believes itself open; and so it does, over a
transport that never fails, when `get_state` closes it while its state is sent. -/
theorem failed_open_counts_as_open :
    (¬ ∀ (transport : Transport PyError Bool) (script : Script PyError),
      let shell := (run (pythonSetup transport {} true true) script (start false "")).2
      shell.phase = .opened ↔
        delivered .commClose shell.trace < delivered .commOpen shell.trace) ∧
    ¬ ∀ script : Script PyError,
      let shell := (run (pythonSetup SessionsWitness.steady {} true true) script (start () "")).2
      shell.phase = .opened ↔
        delivered .commClose shell.trace < delivered .commOpen shell.trace := by
  constructor
  · intro h
    have hopen := h SessionsWitness.flaky (.call .openComm .ret (.ok []) .ret .ret)
    revert hopen
    decide +kernel
  · intro h
    have hclosing := h SessionsWitness.closing
    revert hclosing
    decide +kernel

end Shell

end Cositos
