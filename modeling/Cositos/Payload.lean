/-
What the messages of the reducer carry: the host state under the anywidget
identity fields, split into a stripped state and its binary leaves.
-/
import Cositos.Json
import Cositos.Lifecycle

namespace Cositos

namespace Value

/-! ### Updating a dict -/

theorem wf_dict_update {d e : Bindings} (hd : (Value.dict d).Wf) (he : (Value.dict e).Wf) :
    (Value.dict (Dict.update d e)).Wf := by
  obtain ⟨hkeys, hvalues⟩ := wf_dict_iff.mp hd
  refine wf_dict_iff.mpr ⟨Dict.nodup_keys_update hkeys e, fun kc hkc => ?_⟩
  rcases Dict.mem_update hkc with h | h
  · exact hvalues kc h
  · exact (wf_dict_iff.mp he).2 kc h

theorem wf_dict_filter {kvs : Bindings} (h : (Value.dict kvs).Wf) (p : Key × Value → Bool) :
    (Value.dict (kvs.filter p)).Wf := by
  obtain ⟨hkeys, hvalues⟩ := wf_dict_iff.mp h
  exact wf_dict_iff.mpr ⟨hkeys.sublist (Dict.keys_filter_sublist p kvs),
    fun kc hkc => hvalues kc (List.mem_filter.mp hkc).1⟩

/-- A property of scalars holds throughout an update of a dict of scalars
exactly when it holds throughout the update's right side. -/
theorem forall_mem_update_iff {P : Value → Prop} {d e : Bindings}
    (he : (Dict.keys e).Nodup) (hd : ∀ kc ∈ d, P kc.2) :
    (∀ kc ∈ Dict.update d e, P kc.2) ↔ ∀ kc ∈ e, P kc.2 := by
  constructor
  · rintro h ⟨k, c⟩ hkc
    refine h (k, c) (Dict.mem_of_lookup ?_)
    rw [Dict.lookup_update d he, (Dict.lookup_eq_some_iff he).mpr hkc, Option.some_or]
  · intro h kc hkc
    rcases Dict.mem_update hkc with hleft | hright
    · exact hd kc hleft
    · exact h kc hright

theorem nesting_dict_le_iff {kvs : Bindings} {n : Nat} :
    (Value.dict kvs).nesting ≤ n ↔ ∀ kc ∈ kvs, kc.2.height ≤ n := by
  rw [nesting_le_iff, height_le_succ_iff]
  rfl

theorem nesting_filter_le (kvs : Bindings) (p : Key × Value → Bool) :
    (Value.dict (kvs.filter p)).nesting ≤ (Value.dict kvs).nesting :=
  nesting_dict_le_iff.mpr fun kc hkc =>
    nesting_dict_le_iff.mp le_rfl kc (List.mem_filter.mp hkc).1

theorem json_filter {kvs : Bindings} (h : (Value.dict kvs).json = true)
    (p : Key × Value → Bool) : (Value.dict (kvs.filter p)).json = true :=
  json_dict_iff.mpr fun kc hkc => json_dict_iff.mp h kc (List.mem_filter.mp hkc).1

end Value

namespace Lifecycle

open Value Buffers

/-! ### The identity fields -/

/-- The two copies of the identity tables agree. -/
theorem immutableFields_eq_protocol :
    Protocol.immutableFields Protocol.anywidgetModuleVersion = immutableFields := rfl

/-- The seven fields by which a frontend finds model and view class. -/
theorem immutableFields_eq :
    immutableFields = [
      (.str "_model_module", .str "anywidget"),
      (.str "_model_name", .str "AnyModel"),
      (.str "_model_module_version", .str "~0.11.*"),
      (.str "_view_module", .str "anywidget"),
      (.str "_view_name", .str "AnyView"),
      (.str "_view_module_version", .str "~0.11.*"),
      (.str "_view_count", .none)] := rfl

theorem wf_immutableFields : (Value.dict immutableFields).Wf := by decide

theorem immutableFields_scalar {P : Value → Prop} (hP : ∀ s, P (.scalar s)) :
    ∀ kc ∈ immutableFields, P kc.2 := by
  intro kc hkc
  rw [immutableFields_eq] at hkc
  simp only [List.mem_cons, List.not_mem_nil, or_false] at hkc
  rcases hkc with rfl | rfl | rfl | rfl | rfl | rfl | rfl <;> exact hP _

/-- `{**_immutable_fields(), **current_state}`. -/
abbrev fullState (currentState : Bindings) : Bindings :=
  Dict.update immutableFields currentState

variable (state : HostState)

theorem nodup_keys_fields : (Dict.keys state.fields).Nodup := (wf_dict_iff.mp state.wf).1

theorem wf_fullState : (Value.dict (fullState state.fields)).Wf :=
  wf_dict_update wf_immutableFields state.wf

theorem nesting_fullState_le_iff {n : Nat} :
    (Value.dict (fullState state.fields)).nesting ≤ n ↔
      (Value.dict state.fields).nesting ≤ n := by
  rw [nesting_dict_le_iff, nesting_dict_le_iff]
  exact forall_mem_update_iff (P := fun v => v.height ≤ n) (nodup_keys_fields state)
    (immutableFields_scalar (P := fun v => v.height ≤ n) fun _ => Nat.zero_le n)

theorem binaries_fullState_eq_nil_iff :
    (Value.dict (fullState state.fields)).binaries = [] ↔
      (Value.dict state.fields).binaries = [] := by
  rw [binaries_dict_eq_nil_iff, binaries_dict_eq_nil_iff]
  exact forall_mem_update_iff (P := fun v => v.binaries = []) (nodup_keys_fields state)
    (immutableFields_scalar (P := fun v => v.binaries = []) fun _ => rfl)

theorem json_fullState (hjson : (Value.dict state.fields).json = true) :
    (Value.dict (fullState state.fields)).json = true := by
  refine json_dict_iff.mpr fun kc hkc => ?_
  rcases Dict.mem_update hkc with hleft | hright
  · rw [immutableFields_eq] at hleft
    simp only [List.mem_cons, List.not_mem_nil, or_false] at hleft
    rcases hleft with rfl | rfl | rfl | rfl | rfl | rfl | rfl <;> exact ⟨⟨_, rfl⟩, rfl⟩
  · exact json_dict_iff.mp hjson kc hright

/-- The part of the host state that `include` selects. -/
abbrev included (keys : List Key) (currentState : Bindings) : Bindings :=
  currentState.filter fun kv => keys.contains kv.1

/-! ### Building the messages -/

/-- The `state` and `buffer_paths` fields of a message about a state. -/
def payload (state : Bindings) : Bindings :=
  [(.str "state", (Value.dict state).strip),
    (.str "buffer_paths",
      Protocol.bufferPathsField ((Value.dict state).binaries.map Prod.fst))]

/-- The buffers of a message about a state. -/
def payloadBuffers (state : Bindings) : List Binary :=
  (Value.dict state).binaries.map Prod.snd

variable {state}

theorem buildUpdate_ok {fields : Bindings} (hwf : (Value.dict fields).Wf)
    (hnesting : (Value.dict fields).nesting ≤ maxDepth) :
    Protocol.buildUpdate fields =
      .ok ((.str "method", .str "update") :: payload fields, payloadBuffers fields) := by
  rw [Protocol.buildUpdate, removeBuffers_container hwf rfl hnesting]
  rfl

theorem buildUpdate_too_deep {fields : Bindings} (hwf : (Value.dict fields).Wf)
    (hnesting : maxDepth < (Value.dict fields).nesting) :
    ∃ path, Protocol.buildUpdate fields = .error (.nesting path) := by
  obtain ⟨path, h⟩ := removeBuffers_too_deep hwf hnesting
  exact ⟨path, by rw [Protocol.buildUpdate, h]; rfl⟩

/-- The identity fields merged in twice are the identity fields merged in once. -/
theorem buildCommOpen_full (state : HostState) :
    Protocol.buildCommOpen (fullState state.fields) = do
      let (stripped, bufferPaths, buffers) ←
        removeBuffers (.dict (fullState state.fields))
      return ([(.str "state", stripped),
        (.str "buffer_paths", Protocol.bufferPathsField bufferPaths)], buffers,
        [(.str "version", .str Protocol.version)]) := by
  rw [Protocol.buildCommOpen, immutableFields_eq_protocol,
    Dict.update_update_self (wf_dict_iff.mp wf_immutableFields).1]

theorem buildCommOpen_ok (hnesting : (Value.dict state.fields).nesting ≤ maxDepth) :
    Protocol.buildCommOpen (fullState state.fields) =
      .ok (payload (fullState state.fields), payloadBuffers (fullState state.fields),
        [(.str "version", .str Protocol.version)]) := by
  rw [buildCommOpen_full, removeBuffers_container (wf_fullState state) rfl
    ((nesting_fullState_le_iff state).mpr hnesting)]
  rfl

theorem buildCommOpen_too_deep (hnesting : maxDepth < (Value.dict state.fields).nesting) :
    ∃ path, Protocol.buildCommOpen (fullState state.fields) = .error (.nesting path) := by
  have hfull : maxDepth < (Value.dict (fullState state.fields)).nesting := by
    by_contra hle
    have := (nesting_fullState_le_iff state).mp (Nat.le_of_not_lt hle)
    omega
  obtain ⟨path, h⟩ := removeBuffers_too_deep (wf_fullState state) hfull
  exact ⟨path, by rw [buildCommOpen_full, h]; rfl⟩

/-! ### Full and filtered sends -/

/-- Opening a comm sends the full state and then listens. -/
theorem reduceOpen_ok {phase : Phase} (hphase : phase ≠ .opened)
    (hnesting : (Value.dict state.fields).nesting ≤ maxDepth)
    (capabilities : TransportCapabilities) :
    reduceOpen phase state.fields capabilities =
      .ok (.opened, .send {
        msgType := .commOpen
        data := payload (fullState state.fields)
        buffers := payloadBuffers (fullState state.fields)
        metadata := some [(.str "version", .str Protocol.version)] } ::
          if capabilities.supportsReceive then [.listen] else []) := by
  have hbuild : python.buildCommOpen (Dict.update python.immutableFields state.fields) = _ :=
    buildCommOpen_ok hnesting
  cases phase with
  | opened => exact absurd rfl hphase
  | unopened | closed =>
      simp only [reduceOpen, Port.reduceOpen, hbuild]
      cases capabilities.supportsReceive <;> rfl

theorem reduceOpen_too_deep {phase : Phase} (hphase : phase ≠ .opened)
    (hnesting : maxDepth < (Value.dict state.fields).nesting)
    (capabilities : TransportCapabilities) :
    ∃ path, reduceOpen phase state.fields capabilities = .error (.nesting path) := by
  obtain ⟨path, h⟩ := buildCommOpen_too_deep hnesting
  have hbuild : python.buildCommOpen (Dict.update python.immutableFields state.fields) = _ := h
  refine ⟨path, ?_⟩
  cases phase with
  | opened => exact absurd rfl hphase
  | unopened | closed =>
      simp only [reduceOpen, Port.reduceOpen, hbuild]
      rfl

/-- The state that `send_state(include)` reads off the host state. -/
def selected (include? : Option (List Key)) (currentState : Bindings) : Bindings :=
  match include? with
  | none => fullState currentState
  | some keys => included keys currentState

theorem wf_selected (include? : Option (List Key)) :
    (Value.dict (selected include? state.fields)).Wf := by
  cases include? with
  | none => exact wf_fullState state
  | some keys => exact wf_dict_filter state.wf _

theorem reduceSendState_opened (include? : Option (List Key)) (currentState : Bindings) :
    reduceSendState .opened include? currentState = do
      let (data, buffers) ← Protocol.buildUpdate (selected include? currentState)
      return (.opened, [.send { msgType := .commMsg, data, buffers }]) := by
  cases include? <;> rfl

theorem reduceSendState_ok (state : HostState) (include? : Option (List Key))
    (hnesting : (Value.dict (selected include? state.fields)).nesting ≤ maxDepth) :
    reduceSendState .opened include? state.fields =
      .ok (.opened, [.send {
        msgType := .commMsg
        data := (.str "method", .str "update") :: payload (selected include? state.fields)
        buffers := payloadBuffers (selected include? state.fields) }]) := by
  rw [reduceSendState_opened, buildUpdate_ok (wf_selected include?) hnesting]
  rfl

theorem reduceSendState_too_deep (state : HostState) (include? : Option (List Key))
    (hnesting : maxDepth < (Value.dict (selected include? state.fields)).nesting) :
    ∃ path, reduceSendState .opened include? state.fields = .error (.nesting path) := by
  obtain ⟨path, h⟩ := buildUpdate_too_deep (wf_selected include?) hnesting
  exact ⟨path, by rw [reduceSendState_opened, h]; rfl⟩

/-! ### The payload of a send -/

/-- A state merged back from its payload. -/
theorem putBuffers_payload {fields : Bindings} (hwf : (Value.dict fields).Wf)
    (hjson : (Value.dict fields).json = true) :
    ∃ merged, putBuffers (Value.dict fields).strip
        (((Value.dict fields).binaries.map Prod.fst).map Path.toValue)
        (payloadBuffers fields) = .ok merged ∧ merged ≈ .dict fields := by
  obtain ⟨merged, hput, hmerged⟩ := putBuffers_strip hwf rfl
  rw [listed_of_json hjson] at hmerged
  exact ⟨merged, by rw [List.map_map]; exact hput, hmerged⟩

theorem lookup_fullState (state : HostState) (key : Key) :
    (fullState state.fields).lookup key =
      (state.fields.lookup key).or (immutableFields.lookup key) :=
  Dict.lookup_update immutableFields (nodup_keys_fields state) key

theorem lookup_included (keys : List Key) (currentState : Bindings) (key : Key) :
    (included keys currentState).lookup key =
      if key ∈ keys then currentState.lookup key else none := by
  rw [included, Dict.lookup_filter fun k => keys.contains k]
  simp only [List.contains_iff_mem]

/-- Opening, `send_state()` and the answer to `request_state` carry one payload,
the identity fields overridden by the host state; a filtered send carries the
selected keys of the host state and nothing else. -/
theorem sends_carry_host_state (state : HostState)
    (hjson : (Value.dict state.fields).json = true)
    (hnesting : (Value.dict state.fields).nesting ≤ maxDepth) :
    (∃ stripped bufferPaths buffers metadata merged,
      let data := [(.str "state", stripped),
        (.str "buffer_paths", Protocol.bufferPathsField bufferPaths)]
      let opening := Except.ok (Phase.opened,
        [.send { msgType := .commOpen, data, buffers, metadata }, .listen])
      let update := Except.ok (Phase.opened,
        [.send { msgType := .commMsg, data := (.str "method", .str "update") :: data, buffers }])
      reduce .unopened .openComm state.fields {} = opening ∧
      reduce .closed .openComm state.fields {} = opening ∧
      reduce .opened (.sendState none) state.fields {} = update ∧
      (∀ message received, Protocol.parseMessage message = .requestState →
        reduce .opened (.inbound message received) state.fields {} = update) ∧
      putBuffers stripped (bufferPaths.map Path.toValue) buffers = .ok merged ∧
      merged ≈ .dict (fullState state.fields) ∧
      ∀ key, (fullState state.fields).lookup key =
        (state.fields.lookup key).or (immutableFields.lookup key)) ∧
    ∀ keys, ∃ stripped bufferPaths buffers merged,
      let data := [(.str "method", .str "update"), (.str "state", stripped),
        (.str "buffer_paths", Protocol.bufferPathsField bufferPaths)]
      reduce .opened (.sendState (some keys)) state.fields {} =
        .ok (.opened, [.send { msgType := .commMsg, data, buffers }]) ∧
      putBuffers stripped (bufferPaths.map Path.toValue) buffers = .ok merged ∧
      merged ≈ .dict (included keys state.fields) ∧
      ∀ key, (included keys state.fields).lookup key =
        if key ∈ keys then state.fields.lookup key else none := by
  constructor
  · obtain ⟨merged, hput, hmerged⟩ :=
      putBuffers_payload (wf_fullState state) (json_fullState state hjson)
    have hopen : ∀ phase, phase ≠ .opened → reduce phase .openComm state.fields {} = _ :=
      fun phase hphase => reduceOpen_ok hphase hnesting {}
    have hupdate : reduce .opened (.sendState none) state.fields {} = _ :=
      reduceSendState_ok state none ((nesting_fullState_le_iff state).mpr hnesting)
    refine ⟨_, _, _, _, merged, hopen .unopened (by simp), hopen .closed (by simp), hupdate,
      fun message received hmessage => ?_, hput, hmerged, lookup_fullState state⟩
    exact (reduceInbound_requestState hmessage received state.fields rfl).trans hupdate
  · intro keys
    obtain ⟨merged, hput, hmerged⟩ :=
      putBuffers_payload (wf_dict_filter state.wf _) (json_filter hjson _)
    have hupdate : reduce .opened (.sendState (some keys)) state.fields {} = _ :=
      reduceSendState_ok state (some keys) ((nesting_filter_le state.fields _).trans hnesting)
    exact ⟨_, _, _, merged, hupdate, hput, hmerged, lookup_included keys state.fields⟩

namespace PayloadWitness

/-- `{"_view_name": "Chart", "image": {"png": b"A"}}`. -/
def chart : HostState where
  fields := [
    (.str "_view_name", .str "Chart"),
    (.str "image", .dict [(.str "png", .bin ⟨.bytes, [65]⟩)])]
  wf := by decide

end PayloadWitness

theorem sends_carry_host_state_chart :
    ∃ stripped bufferPaths buffers merged,
      reduce .opened (.sendState none) PayloadWitness.chart.fields {} =
        .ok (.opened, [.send {
          msgType := .commMsg
          data := [(.str "method", .str "update"), (.str "state", stripped),
            (.str "buffer_paths", Protocol.bufferPathsField bufferPaths)]
          buffers }]) ∧
      putBuffers stripped (bufferPaths.map Path.toValue) buffers = .ok merged ∧
      merged ≈ .dict (fullState PayloadWitness.chart.fields) := by
  obtain ⟨stripped, bufferPaths, buffers, _, merged, _, _, hupdate, _, hput, hmerged, _⟩ :=
    (sends_carry_host_state PayloadWitness.chart (by decide) (by decide)).1
  exact ⟨stripped, bufferPaths, buffers, merged, hupdate, hput, hmerged⟩

/-! ### Transports without buffers -/

/-- A message that brings buffers along, or says where buffers belong. -/
def CarriesBuffers (message : Send) : Prop :=
  message.buffers ≠ [] ∨
    ∃ bufferPaths, message.data.lookup (.str "buffer_paths") = some bufferPaths ∧
      bufferPaths ≠ .list []

/-- No message among the effects of a reduction carries buffers. -/
def NoBuffers (reduction : Except PyError (Phase × List Effect)) : Prop :=
  ∀ phase effects, reduction = .ok (phase, effects) →
    ∀ message, .send message ∈ effects → ¬ CarriesBuffers message

theorem noBuffers_error (e : PyError) : NoBuffers (.error e) := by
  intro phase effects h
  cases h

theorem noBuffers_ok_iff {phase : Phase} {effects : List Effect} :
    NoBuffers (.ok (phase, effects)) ↔
      ∀ message, .send message ∈ effects → ¬ CarriesBuffers message := by
  constructor
  · exact fun h => h phase effects rfl
  · intro h phase' effects' heq
    cases heq
    exact h

theorem carriesBuffers_payload_iff {message : Send} {fields : Bindings}
    (hdata : message.data.lookup (.str "buffer_paths") =
      (payload fields).lookup (.str "buffer_paths"))
    (hbuffers : message.buffers = payloadBuffers fields) :
    CarriesBuffers message ↔ (Value.dict fields).binaries ≠ [] := by
  have hpaths : (payload fields).lookup (.str "buffer_paths") =
      some (Protocol.bufferPathsField ((Value.dict fields).binaries.map Prod.fst)) := rfl
  rw [CarriesBuffers, hdata, hbuffers, hpaths, payloadBuffers, Protocol.bufferPathsField]
  simp

/-- The part of the host state that an event puts on the wire. -/
def published (phase : Phase) (event : Event) (currentState : Bindings)
    (capabilities : TransportCapabilities) : Option Bindings :=
  match event with
  | .openComm => if phase = .opened then none else some currentState
  | .sendState none => if phase = .opened then some currentState else none
  | .sendState (some keys) =>
      if phase = .opened then some (included keys currentState) else none
  | .inbound message _ =>
      match Protocol.parseMessage message with
      | .requestState =>
          if phase = .opened ∧ capabilities.supportsRequestState = true then
            some currentState
          else none
      | _ => none
  | .sendCustom _ _ | .closeComm | .commIdAssigned _ => none

/-- A state that can be published without buffers: it holds no binary value, or
it nests so deep that the split raises. -/
def Bufferless (fields : Bindings) : Prop :=
  (Value.dict fields).binaries = [] ∨ maxDepth < (Value.dict fields).nesting

theorem noBuffers_reduceOpen {phase : Phase} (hphase : phase ≠ .opened)
    (capabilities : TransportCapabilities) :
    NoBuffers (reduceOpen phase state.fields capabilities) ↔ Bufferless state.fields := by
  by_cases hnesting : (Value.dict state.fields).nesting ≤ maxDepth
  · rw [reduceOpen_ok hphase hnesting, noBuffers_ok_iff, Bufferless,
      ← binaries_fullState_eq_nil_iff]
    have hcarries : CarriesBuffers {
        msgType := .commOpen
        data := payload (fullState state.fields)
        buffers := payloadBuffers (fullState state.fields)
        metadata := some [(.str "version", .str Protocol.version)] } ↔ _ :=
      carriesBuffers_payload_iff rfl rfl
    cases capabilities.supportsReceive <;> simp [hcarries, hnesting.not_gt]
  · obtain ⟨path, h⟩ := reduceOpen_too_deep hphase (Nat.lt_of_not_le hnesting) capabilities
    rw [h]
    exact iff_of_true (noBuffers_error _) (Or.inr (Nat.lt_of_not_le hnesting))

theorem noBuffers_reduceSendState (include? : Option (List Key)) :
    NoBuffers (reduceSendState .opened include? state.fields) ↔
      Bufferless (selected include? state.fields) := by
  by_cases hnesting : (Value.dict (selected include? state.fields)).nesting ≤ maxDepth
  · have hcarries : CarriesBuffers {
        msgType := .commMsg
        data := (.str "method", .str "update") :: payload (selected include? state.fields)
        buffers := payloadBuffers (selected include? state.fields) } ↔ _ :=
      carriesBuffers_payload_iff rfl rfl
    rw [reduceSendState_ok state include? hnesting, noBuffers_ok_iff, Bufferless]
    simp [hcarries, hnesting.not_gt]
  · obtain ⟨path, h⟩ := reduceSendState_too_deep state include? (Nat.lt_of_not_le hnesting)
    rw [h]
    exact iff_of_true (noBuffers_error _) (Or.inr (Nat.lt_of_not_le hnesting))

theorem bufferless_fullState (state : HostState) :
    Bufferless (fullState state.fields) ↔ Bufferless state.fields := by
  rw [Bufferless, binaries_fullState_eq_nil_iff, ← Nat.not_le, nesting_fullState_le_iff,
    Nat.not_le, Bufferless]

theorem noBuffers_reduceSendCustom (phase : Phase) (content : Value) (buffers : List Binary)
    {capabilities : TransportCapabilities} (hcaps : capabilities.supportsBuffers = false) :
    NoBuffers (reduceSendCustom phase content buffers capabilities) := by
  unfold reduceSendCustom Port.reduceSendCustom
  split_ifs with hphase hcustom hbuffers
  · simp [noBuffers_ok_iff]
  · simp [noBuffers_ok_iff]
  · simp [noBuffers_ok_iff]
  · have hempty : buffers = [] := by simpa [hcaps] using hbuffers
    subst hempty
    have hlookup : (Protocol.buildCustom content).lookup (.str "buffer_paths") = none := rfl
    rw [noBuffers_ok_iff]
    simp [CarriesBuffers, hlookup]

theorem noBuffers_reduceInbound (message : Value) (buffers : List Binary)
    (capabilities : TransportCapabilities)
    (hrequest : Protocol.parseMessage message ≠ .requestState ∨
      capabilities.supportsRequestState = false) (phase : Phase) :
    NoBuffers (reduceInbound phase message buffers state.fields capabilities) := by
  by_cases hphase : phase = .opened
  · subst hphase
    cases hmessage : Protocol.parseMessage message with
    | update fields bufferPaths =>
        intro phase effects heq
        rw [reduceInbound_update hmessage] at heq
        obtain ⟨merged, _, heq⟩ := Port.bind_eq_ok_iff.mp heq
        cases heq
        simp
    | requestState =>
        have hcaps : capabilities.supportsRequestState = false := by
          simpa [hmessage] using hrequest
        simp [reduceInbound_opened, Port.answer, hmessage, hcaps, noBuffers_ok_iff]
    | custom content => simp [reduceInbound_opened, Port.answer, hmessage, noBuffers_ok_iff]
    | ignored method => simp [reduceInbound_opened, Port.answer, hmessage, noBuffers_ok_iff]
  · rw [reduceInbound_closed hphase]
    simp [noBuffers_ok_iff]

/-- Over a transport without buffers a step keeps buffers off the wire exactly
when the state it publishes, if it publishes any, can do without them: only
`send_custom` consults the capability. -/
theorem reduce_noBuffers_iff (phase : Phase) (event : Event) (state : HostState)
    (capabilities : TransportCapabilities) (hcaps : capabilities.supportsBuffers = false) :
    NoBuffers (reduce phase event state.fields capabilities) ↔
      ∀ fields, published phase event state.fields capabilities = some fields →
        Bufferless fields := by
  rw [reduce_eq]
  cases event with
  | openComm =>
      by_cases hphase : phase = .opened
      · subst hphase
        simp [published, reduceOpen_opened, noBuffers_ok_iff]
      · simp [published, hphase, noBuffers_reduceOpen]
  | sendState include? =>
      by_cases hphase : phase = .opened
      · subst hphase
        rw [noBuffers_reduceSendState]
        cases include? with
        | none => simp [published, selected, bufferless_fullState]
        | some keys => simp [published, selected]
      · cases include? <;> simp [published, reduceSendState_closed, hphase, noBuffers_ok_iff]
  | sendCustom content buffers =>
      simp [published, noBuffers_reduceSendCustom phase content buffers hcaps]
  | inbound message buffers =>
      by_cases hrequest : Protocol.parseMessage message ≠ .requestState ∨
          capabilities.supportsRequestState = false
      · have hnone : published phase (.inbound message buffers) state.fields capabilities =
            none := by
          cases hmessage : Protocol.parseMessage message <;> simp_all [published]
        rw [hnone]
        simp [noBuffers_reduceInbound message buffers capabilities hrequest phase]
      · simp only [not_or, not_not, Bool.not_eq_false] at hrequest
        obtain ⟨hmessage, hcaps'⟩ := hrequest
        by_cases hphase : phase = .opened
        · subst hphase
          have hreply : reduceInbound .opened message buffers state.fields capabilities = _ :=
            reduceInbound_requestState hmessage buffers state.fields hcaps'
          simp only [hreply, noBuffers_reduceSendState, selected, bufferless_fullState]
          simp [published, hmessage, hcaps']
        · simp [published, reduceInbound_closed, hmessage, hphase, noBuffers_ok_iff]
  | closeComm =>
      by_cases hphase : phase = .opened <;>
        simp [published, reduceClose, Port.reduceClose, hphase, noBuffers_ok_iff,
          CarriesBuffers]
  | commIdAssigned id => simp [published, noBuffers_ok_iff]

theorem not_bufferless_chart : ¬ Bufferless PayloadWitness.chart.fields := by
  have hleaves : (Value.dict PayloadWitness.chart.fields).binaries ≠ [] := by simp [binaries,
    PayloadWitness.chart, binariesEntries]
  have hnesting : (Value.dict PayloadWitness.chart.fields).nesting ≤ maxDepth := by decide
  rintro (h | h)
  · exact hleaves h
  · omega

theorem reduce_noBuffers_iff_chart :
    ¬ NoBuffers (reduce .opened (.sendState none) PayloadWitness.chart.fields
      { supportsBuffers := false }) := by
  have h := reduce_noBuffers_iff .opened (.sendState none) PayloadWitness.chart
    { supportsBuffers := false } rfl
  rw [h]
  exact fun hall => not_bufferless_chart (hall _ rfl)

/-- The update of a state with one binary value brings its buffer along. -/
theorem reduce_sends_buffers :
    ¬ ∀ phase event (state : HostState) (capabilities : TransportCapabilities),
      capabilities.supportsBuffers = false →
        NoBuffers (reduce phase event state.fields capabilities) := by
  intro h
  have hupdate : NoBuffers (reduceSendState .opened none PayloadWitness.chart.fields) :=
    h .opened (.sendState none) PayloadWitness.chart { supportsBuffers := false } rfl
  rw [noBuffers_reduceSendState, selected, bufferless_fullState] at hupdate
  exact not_bufferless_chart hupdate

end Lifecycle

end Cositos
