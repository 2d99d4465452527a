/-
The Julia reducer does what the Python reducer does: the same phase and the same
effects, for host states and messages that read the same.
-/
import Cositos.Alike
import Cositos.Payload

namespace Cositos

open Value Buffers

/-! ### States, events and effects that are the same -/

/-- A host state in Python and in Julia.  A Julia tuple is no container. -/
structure SameState (v w : Bindings) : Prop where
  left : (Value.dict v).Wf
  right : (Value.dict w).Wf
  untupled : (Value.dict w).Untupled
  equiv : (Value.dict v).plain ≈ (Value.dict w).plain

/-- The bytes of a message's buffers. -/
abbrev raws (buffers : List Binary) : List (List UInt8) := buffers.map Binary.raw

/-- A JSON object from the wire as two JSON readers hand it over: its state, if any,
is an object, and its paths use strings for objects and indices in range for arrays. -/
structure SameMessage (data data' : Bindings) : Prop where
  left : (Value.dict data).Untupled
  right : (Value.dict data').Untupled
  equiv : (Value.dict data).plain ≈ (Value.dict data').plain
  state : ∃ kvs, Protocol.get data "state" (.dict []) = .dict kvs
  bufferPaths : ∃ paths, Protocol.get data "buffer_paths" (.list []) = .list paths ∧
    ∀ path ∈ paths, ∃ segments, path = .list segments ∧
      Follows (Protocol.get data "state" (.dict [])) segments

/-- The same event for both hosts. -/
inductive SameEvent : Event → Event → Prop
  | openComm : SameEvent .openComm .openComm
  | sendState (include? : Option (List Key)) : SameEvent (.sendState include?) (.sendState include?)
  | sendCustom {content content' : Value} {buffers buffers' : List Binary}
      (hcontent : content.plain ≈ content'.plain) (hbuffers : raws buffers = raws buffers') :
      SameEvent (.sendCustom content buffers) (.sendCustom content' buffers')
  | inbound {data data' : Bindings} {buffers buffers' : List Binary}
      (hmessage : SameMessage data data') (hbuffers : raws buffers = raws buffers') :
      SameEvent (.inbound (.dict data) buffers) (.inbound (.dict data') buffers')
  | closeComm : SameEvent .closeComm .closeComm
  | commIdAssigned (id : String) : SameEvent (.commIdAssigned id) (.commIdAssigned id)

/-- The key of a message's paths. -/
abbrev pathsKey : Key := .str "buffer_paths"

/-- The same data and the same buffers: in the same order, or each under the same
path where the data lists a path for each buffer. -/
inductive SamePayload (data data' : Bindings) (buffers buffers' : List Binary) : Prop
  | whole (hdata : (Value.dict data).plain ≈ (Value.dict data').plain)
      (hbuffers : raws buffers = raws buffers')
  | split {bufferPaths bufferPaths' : List Path}
      (hdata : (Value.dict (Dict.erase data pathsKey)).plain ≈
        (Value.dict (Dict.erase data' pathsKey)).plain)
      (hpaths : data.lookup pathsKey = some (Protocol.bufferPathsField bufferPaths))
      (hpaths' : data'.lookup pathsKey = some (Protocol.bufferPathsField bufferPaths'))
      (hlength : bufferPaths.length = buffers.length)
      (hlength' : bufferPaths'.length = buffers'.length)
      (hperm : (bufferPaths.zip (raws buffers)).Perm (bufferPaths'.zip (raws buffers')))

/-- The same effect with equal contents. -/
inductive SameEffect : Effect → Effect → Prop
  | send {message message' : Send} (htype : message.msgType = message'.msgType)
      (hmetadata : message.metadata = message'.metadata)
      (hpayload : SamePayload message.data message'.data message.buffers message'.buffers) :
      SameEffect (.send message) (.send message')
  | listen : SameEffect .listen .listen
  | applyState {state state' : Bindings}
      (hstate : (Value.dict state).plain ≈ (Value.dict state').plain) :
      SameEffect (.applyState state) (.applyState state')
  | invokeCustom {content content' : Value} {buffers buffers' : List Binary}
      (hcontent : content.plain ≈ content'.plain) (hbuffers : raws buffers = raws buffers') :
      SameEffect (.invokeCustom content buffers) (.invokeCustom content' buffers')
  | error (text : String) : SameEffect (.error text) (.error text)

/-- The same answer: one phase, and the same effects in the same order. -/
structure SameAnswer (answer answer' : Phase × List Effect) : Prop where
  phase : answer.1 = answer'.1
  effects : List.Forall₂ SameEffect answer.2 answer'.2

/-! ### Objects that read the same -/

namespace Value

variable {d e : Bindings}

theorem untupled_dict (h : ∀ kc ∈ d, kc.2.Untupled) : (Value.dict d).Untupled := by
  intro path n hlook
  cases path with
  | nil => simp [look, label] at hlook
  | cons k path =>
      obtain ⟨c, hc, hlook⟩ := Option.bind_eq_some_iff.mp hlook
      rw [child_dict] at hc
      exact h _ (Dict.mem_of_lookup hc) path n hlook

theorem untupled_scalar (s : Scalar) : (Value.scalar s).Untupled := by
  intro path n hlook
  cases path <;> simp [look, label] at hlook

theorem untupled_get (h : (Value.dict d).Untupled) (name : String) {default : Value}
    (hdefault : default.Untupled) : (Protocol.get d name default).Untupled := by
  unfold Protocol.get
  cases hlookup : d.lookup (.str name) with
  | none => exact hdefault
  | some v => exact h.below (k := .str name) (by rw [child_dict]; exact hlookup)

end Value

namespace SameState

variable {v w : Bindings}

theorem update (h : SameState v w) :
    SameState (Dict.update Lifecycle.immutableFields v)
      (Dict.update Lifecycle.immutableFields w) where
  left := wf_dict_update Lifecycle.wf_immutableFields h.left
  right := wf_dict_update Lifecycle.wf_immutableFields h.right
  untupled := by
    apply untupled_dict
    intro kc hkc
    rcases Dict.mem_update hkc with hfield | hstate
    · exact Lifecycle.immutableFields_scalar (P := Untupled) untupled_scalar kc hfield
    · exact h.untupled.child h.right hstate
  equiv := dict_update_alike (wf_dict_iff.mp h.left).1 (wf_dict_iff.mp h.right).1 h.equiv

theorem filter (h : SameState v w) (keys : List Key) :
    SameState (v.filter fun kv => keys.contains kv.1) (w.filter fun kv => keys.contains kv.1) where
  left := wf_dict_filter h.left _
  right := wf_dict_filter h.right _
  untupled := untupled_dict fun _ hkc => h.untupled.child h.right (List.mem_filter.mp hkc).1
  equiv := dict_filter_alike keys.contains h.equiv

end SameState

/-! ### Sends -/

/-- The same stripped state, and the same bytes at the same paths. -/
structure SameSplit (split split' : Split Value) : Prop where
  stripped : split.1.plain ≈ split'.1.plain
  length : split.2.1.length = split.2.2.length
  length' : split'.2.1.length = split'.2.2.length
  found : (found split).Perm (found split')

theorem nodup_found {v : Value} (hv : v.Wf) (hcontainer : v.isContainer = true) :
    (found v.split).Nodup := by
  have hpaths : ((found v.split).map Prod.fst).Nodup := by
    rw [found_split hcontainer, List.map_map]
    exact nodup_paths_binaries (wf_plain hv)
  exact hpaths.of_map

theorem SameState.removeBuffers {v w : Bindings} (h : SameState v w) :
    Matches SameSplit (Buffers.removeBuffers (.dict v)) (Julia.removeBuffers (.dict w)) := by
  have hpython := Language.removeBuffers_tree (fun _ _ => true) .python
    (v := .dict v) ⟨h.left, by simp⟩
  have hjulia := Language.removeBuffers_tree (fun _ _ => true) .julia
    (v := .dict w) ⟨h.right, fun _ => h.untupled⟩
  have hnesting : (Value.dict v).nesting = (Value.dict w).nesting := by
    rw [← nesting_plain (.dict v), ← nesting_plain (.dict w)]
    exact nesting_of_equiv (wf_plain h.left) (wf_plain h.right) h.equiv
  rw [← hnesting] at hjulia
  by_cases hdeep : (Value.dict v).nesting ≤ maxDepth
  · obtain ⟨hstripped, hmem, _⟩ := split_equiv h.left h.right h.equiv
    have hok : Buffers.removeBuffers (.dict v) = .ok (Value.dict v).split := hpython.1 hdeep
    have hok' : Julia.removeBuffers (.dict w) = .ok (Value.dict w).split := hjulia.1 hdeep
    rw [hok, hok']
    exact .returns ⟨hstripped, length_split _, length_split _,
      (List.perm_ext_iff_of_nodup (nodup_found h.left rfl) (nodup_found h.right rfl)).mpr hmem⟩
  · obtain ⟨p, hp⟩ := hpython.2 (not_le.mp hdeep)
    obtain ⟨p', hp'⟩ := hjulia.2 (not_le.mp hdeep)
    have herror : Buffers.removeBuffers (.dict v) = .error (.nesting p) := hp
    have herror' : Julia.removeBuffers (.dict w) = .error (.nesting p') := hp'
    rw [herror, herror']
    exact .raises _ _

theorem SameSplit.payload {split split' : Split Value} (h : SameSplit split split')
    (fields : Bindings) (hfields : pathsKey ∉ Dict.keys fields) :
    SamePayload
      (fields ++ [(.str "state", split.1), (pathsKey, Protocol.bufferPathsField split.2.1)])
      (fields ++ [(.str "state", split'.1), (pathsKey, Protocol.bufferPathsField split'.2.1)])
      split.2.2 split'.2.2 := by
  have hkeys : ∀ stripped : Value,
      pathsKey ∉ Dict.keys (fields ++ [(.str "state", stripped)]) := by
    intro stripped
    simp [hfields]
  have hlookup : ∀ stripped field : Value,
      (fields ++ [(.str "state", stripped), (pathsKey, field)]).lookup pathsKey = some field := by
    intro stripped field
    rw [List.append_cons, List.lookup_append, Dict.lookup_eq_none_iff.mpr (hkeys stripped)]
    simp
  have herase : ∀ stripped field : Value,
      Dict.erase (fields ++ [(.str "state", stripped), (pathsKey, field)]) pathsKey =
        fields ++ [(.str "state", stripped)] := by
    intro stripped field
    simpa using Dict.erase_middle (e := []) (hkeys stripped) field
  apply SamePayload.split _ (hlookup _ _) (hlookup _ _) h.length h.length' h.found
  rw [herase, herase]
  exact dict_append_alike fields (dict_cons_alike h.stripped (Setoid.refl _))

theorem SameState.buildUpdate {v w : Bindings} (h : SameState v w) :
    Matches (fun built built' => SamePayload built.1 built'.1 built.2 built'.2)
      (Protocol.buildUpdate v) (Julia.buildUpdate w) := by
  apply Matches.bind h.removeBuffers
  intro split split' hsplit
  exact .returns (hsplit.payload [(.str "method", .str "update")] (by decide))

theorem SameState.buildCommOpen {v w : Bindings} (h : SameState v w) :
    Matches (fun built built' => SamePayload built.1 built'.1 built.2.1 built'.2.1 ∧
        built.2.2 = built'.2.2)
      (Protocol.buildCommOpen v) (Julia.buildCommOpen w) := by
  apply Matches.bind h.update.removeBuffers
  intro split split' hsplit
  exact .returns ⟨hsplit.payload [] (by decide), rfl⟩

/-! ### The reducers -/

theorem reduceOpen_same {v w : Bindings} (h : SameState v w) (phase : Phase)
    (capabilities : TransportCapabilities) :
    Matches SameAnswer (Lifecycle.reduceOpen phase v capabilities)
      (Julia.reduceOpen phase w capabilities) := by
  have hopened : Matches SameAnswer
      (Lifecycle.reduceOpen .unopened v capabilities)
      (Julia.reduceOpen .unopened w capabilities) := by
    apply Matches.bind h.update.buildCommOpen
    rintro ⟨data, buffers, metadata⟩ ⟨data', buffers', metadata'⟩ ⟨hpayload, hmetadata⟩
    have hsend : SameEffect (.send { msgType := .commOpen, data, buffers, metadata })
        (.send { msgType := .commOpen, data := data', buffers := buffers',
                 metadata := metadata' }) :=
      .send rfl (congrArg some hmetadata) hpayload
    cases hreceive : capabilities.supportsReceive with
    | true =>
        simp only [if_true]
        exact .returns ⟨rfl, .cons hsend (.cons .listen .nil)⟩
    | false =>
        simp only [Bool.false_eq_true, if_false]
        exact .returns ⟨rfl, .cons hsend .nil⟩
  cases phase with
  | opened => exact .returns ⟨rfl, .nil⟩
  | unopened | closed => exact hopened

theorem reduceSendState_same {v w : Bindings} (h : SameState v w) (phase : Phase)
    (include? : Option (List Key)) :
    Matches SameAnswer (Lifecycle.reduceSendState phase include? v)
      (Julia.reduceSendState phase include? w) := by
  by_cases hphase : phase = .opened
  · subst hphase
    have hsend : ∀ built built' : Bindings × List Binary,
        SamePayload built.1 built'.1 built.2 built'.2 → Matches SameAnswer
          (.ok (ε := PyError) (.opened, [.send {
            msgType := .commMsg, data := built.1, buffers := built.2 }]))
          (.ok (ε := JuliaError) (.opened, [.send {
            msgType := .commMsg, data := built'.1, buffers := built'.2 }])) :=
      fun _ _ hpayload => .returns ⟨rfl, .cons (.send rfl rfl hpayload) .nil⟩
    cases include? with
    | none => exact Matches.bind h.update.buildUpdate hsend
    | some keys => exact Matches.bind (h.filter keys).buildUpdate hsend
  · have hjulia : Julia.reduceSendState phase include? w =
        .ok (phase, [.error "send_state() requires an open comm; call open() first"]) :=
      if_pos hphase
    rw [Lifecycle.reduceSendState_closed hphase, hjulia]
    exact .returns ⟨rfl, .cons (.error _) .nil⟩

theorem reduceSendCustom_same {content content' : Value} {buffers buffers' : List Binary}
    (hcontent : content.plain ≈ content'.plain) (hbuffers : raws buffers = raws buffers')
    (phase : Phase) (capabilities : TransportCapabilities) :
    Matches SameAnswer (Lifecycle.reduceSendCustom phase content buffers capabilities)
      (.ok (ε := JuliaError) (Julia.reduceSendCustom phase content' buffers' capabilities)) := by
  have hempty : buffers.isEmpty = buffers'.isEmpty := by
    have hlength := congrArg List.isEmpty hbuffers
    simpa using hlength
  unfold Lifecycle.reduceSendCustom Port.reduceSendCustom Julia.reduceSendCustom
  rw [hempty]
  split_ifs
  · exact .returns ⟨rfl, .cons (.error _) .nil⟩
  · exact .returns ⟨rfl, .cons (.error _) .nil⟩
  · exact .returns ⟨rfl, .cons (.error _) .nil⟩
  · have hdata := dict_cons_alike (k := .str "method") (Setoid.refl (Value.str "custom").plain)
      (dict_cons_alike (k := .str "content") hcontent (Setoid.refl (Value.dict []).plain))
    exact .returns ⟨rfl, .cons (.send rfl rfl (.whole hdata hbuffers)) .nil⟩

section Messages

variable {data : Bindings}

theorem parseMessage_update (h : Protocol.get data "method" .none = .str "update") :
    Protocol.parseMessage (.dict data) = .update (Protocol.get data "state" (.dict []))
      (Protocol.get data "buffer_paths" (.list [])) := by
  simp [Protocol.parseMessage, h]

theorem parseMessage_requestState (h : Protocol.get data "method" .none = .str "request_state") :
    Protocol.parseMessage (.dict data) = .requestState := by
  simp [Protocol.parseMessage, h]

theorem parseMessage_custom (h : Protocol.get data "method" .none = .str "custom") :
    Protocol.parseMessage (.dict data) = .custom (Protocol.get data "content" .none) := by
  simp [Protocol.parseMessage, h]

theorem parseMessage_ignored (hupdate : Protocol.get data "method" .none ≠ .str "update")
    (hrequest : Protocol.get data "method" .none ≠ .str "request_state")
    (hcustom : Protocol.get data "method" .none ≠ .str "custom") :
    Protocol.parseMessage (.dict data) = .ignored (Protocol.get data "method" .none) := by
  simp only [Protocol.parseMessage]

end Messages

theorem SameMessage.method_iff {data data' : Bindings} (h : SameMessage data data')
    (text : String) : Protocol.get data "method" .none = .str text ↔
      Protocol.get data' "method" .none = .str text := by
  have halike := get_alike h.equiv "method" .none
  constructor
  · intro heq
    rw [heq] at halike
    exact eq_scalar_of_plain (Setoid.symm halike)
  · intro heq
    rw [heq] at halike
    exact eq_scalar_of_plain halike

/-- The merges of an inbound update. -/
theorem mergeUpdate_same {data data' : Bindings} (h : SameMessage data data')
    {buffers buffers' : List Binary} (hbuffers : raws buffers = raws buffers') :
    Matches (fun merged merged' => (Value.dict merged).plain ≈ (Value.dict merged').plain)
      (Lifecycle.mergeUpdate (Protocol.get data "state" (.dict []))
        (Protocol.get data "buffer_paths" (.list [])) buffers)
      (Julia.mergeUpdate (Protocol.get data' "state" (.dict []))
        (Protocol.get data' "buffer_paths" (.list [])) buffers') := by
  have hstate := get_alike h.equiv "state" (.dict [])
  have hleft := untupled_get h.left "state" (untupled_of_json (v := .dict []) rfl)
  have hright := untupled_get h.right "state" (untupled_of_json (v := .dict []) rfl)
  have hpaths := get_alike h.equiv "buffer_paths" (.list [])
  have hright' := untupled_get h.right "buffer_paths" (untupled_of_json (v := .list []) rfl)
  obtain ⟨paths, heq, hfollows⟩ := h.bufferPaths
  obtain ⟨kvs, hkvs⟩ := h.state
  rw [hkvs] at hstate hleft hfollows ⊢
  obtain ⟨kvs', hkvs'⟩ := exists_dict_of_plain (Setoid.symm hstate)
  rw [hkvs'] at hstate hright ⊢
  rw [heq] at hpaths ⊢
  obtain ⟨paths', hseq, halike⟩ := exists_seq_of_plain (Setoid.symm hpaths)
  have hlist : Protocol.get data' "buffer_paths" (.list []) = .list paths' := by
    rcases hseq with hlist | htuple
    · exact hlist
    · exact absurd (by rw [htuple]; rfl) (hright' [] paths'.length)
  rw [hlist]
  apply Matches.bind
    (putBuffers_alike (AlikeSeq.symm halike) hbuffers ⟨hleft, hright, hstate⟩ hfollows)
  intro merged merged' hmerged
  have hdict : ∃ d, merged = .dict d := by
    have hlabel := hmerged.left
    cases merged <;> simp [label] at hlabel
    exact ⟨_, rfl⟩
  obtain ⟨d, rfl⟩ := hdict
  obtain ⟨e, rfl⟩ := exists_dict_of_plain (Setoid.symm hmerged.alike.equiv)
  exact .returns hmerged.alike.equiv

/-- Messages that read the same are the same event. -/
theorem reduceInbound_same {v w : Bindings} (h : SameState v w) {data data' : Bindings}
    (hmessage : SameMessage data data') {buffers buffers' : List Binary}
    (hbuffers : raws buffers = raws buffers') (phase : Phase)
    (capabilities : TransportCapabilities) :
    Matches SameAnswer (Lifecycle.reduceInbound phase (.dict data) buffers v capabilities)
      (Julia.reduceInbound phase (.dict data') buffers' w capabilities) := by
  rw [Julia.reduceInbound_eq]
  by_cases hphase : phase = .opened
  · subst hphase
    have hjulia : Julia.julia.parseMessage (.dict data') =
        .ok (Protocol.parseMessage (.dict data')) := rfl
    rw [Lifecycle.reduceInbound_opened, Julia.julia.reduceInbound_opened hjulia]
    by_cases hupdate : Protocol.get data "method" .none = .str "update"
    · rw [parseMessage_update hupdate, parseMessage_update ((hmessage.method_iff _).mp hupdate)]
      apply Matches.bind (mergeUpdate_same hmessage hbuffers)
      intro merged merged' hmerged
      exact .returns ⟨rfl, .cons (.applyState hmerged) .nil⟩
    by_cases hrequest : Protocol.get data "method" .none = .str "request_state"
    · rw [parseMessage_requestState hrequest,
        parseMessage_requestState ((hmessage.method_iff _).mp hrequest)]
      cases hcaps : capabilities.supportsRequestState with
      | false =>
          simp only [Port.answer, hcaps, Bool.not_false, if_true]
          exact .returns ⟨rfl, .nil⟩
      | true =>
          simp only [Port.answer, hcaps, Bool.not_true, Bool.false_eq_true, if_false]
          exact reduceSendState_same h .opened none
    by_cases hcustom : Protocol.get data "method" .none = .str "custom"
    · rw [parseMessage_custom hcustom, parseMessage_custom ((hmessage.method_iff _).mp hcustom)]
      have hcontent := get_alike hmessage.equiv "content" .none
      exact .returns ⟨rfl, .cons (.invokeCustom hcontent hbuffers) .nil⟩
    · rw [parseMessage_ignored hupdate hrequest hcustom, parseMessage_ignored
        (fun heq => hupdate ((hmessage.method_iff _).mpr heq))
        (fun heq => hrequest ((hmessage.method_iff _).mpr heq))
        (fun heq => hcustom ((hmessage.method_iff _).mpr heq))]
      exact .returns ⟨rfl, .nil⟩
  · rw [Lifecycle.reduceInbound_closed hphase, Port.reduceInbound_closed _ hphase]
    exact .returns ⟨rfl, .nil⟩

/-- The Julia reducer refines the Python reducer. -/
theorem julia_refines_python {v w : Bindings} (hstate : SameState v w) {event event' : Event}
    (hevent : SameEvent event event') (phase : Phase) (capabilities : TransportCapabilities) :
    Matches SameAnswer (Lifecycle.reduce phase event v capabilities)
      (Julia.reduce phase event' w capabilities) := by
  rw [Lifecycle.reduce_eq]
  cases hevent with
  | openComm => exact reduceOpen_same hstate phase capabilities
  | sendState include? => exact reduceSendState_same hstate phase include?
  | sendCustom hcontent hbuffers =>
      exact reduceSendCustom_same hcontent hbuffers phase capabilities
  | inbound hmessage hbuffers =>
      exact reduceInbound_same hstate hmessage hbuffers phase capabilities
  | closeComm =>
      by_cases hphase : phase = .opened
      · subst hphase
        exact .returns ⟨rfl, .cons (.send rfl rfl (.whole (Setoid.refl _) rfl)) .nil⟩
      · simp only [Lifecycle.reduceClose, Port.reduceClose, Julia.reduce, Julia.reduceClose, hphase,
          if_false]
        exact .returns ⟨rfl, .nil⟩
  | commIdAssigned id => exact .returns ⟨rfl, .nil⟩

namespace ReducersWitness

/-- `{"n": 1, "image": b"A"}`. -/
def picture : Bindings := [(.str "n", .int 1), (.str "image", .bin ⟨.bytes, [65]⟩)]

/-- The same in another order. -/
def pictured : Bindings := [(.str "image", .bin ⟨.bytearray, [65]⟩), (.str "n", .int 1)]

/-- An update of `{"xs": [null]}` with a buffer for `xs[0]`. -/
def update : Bindings := [
  (.str "method", .str "update"),
  (.str "state", .dict [(.str "xs", .list [.none])]),
  (.str "buffer_paths", .list [.list [.str "xs", .int 0]])]

theorem sameState : SameState picture pictured where
  left := by decide
  right := by decide
  untupled := untupled_of_json (by decide)
  equiv := dict_equiv_of_perm (by decide) (List.Perm.swap _ _ [])

theorem follows_update :
    Follows (.dict [(.str "xs", .list [.none])]) [.str "xs", .int 0] := by
  intro front key rest heq
  match front, heq with
  | [], heq =>
      obtain ⟨rfl, -⟩ := List.cons.inj heq
      exact ⟨"xs", rfl⟩
  | [k], heq =>
      obtain ⟨hk, heq⟩ := List.cons.inj heq
      obtain ⟨rfl, -⟩ := List.cons.inj heq
      rw [key_of_str hk.symm]
      exact ⟨0, rfl, by decide⟩
  | _ :: _ :: _, heq => simp at heq

theorem sameMessage : SameMessage update update where
  left := untupled_of_json (by decide)
  right := untupled_of_json (by decide)
  equiv := Setoid.refl _
  state := ⟨_, rfl⟩
  bufferPaths := by
    refine ⟨[.list [.str "xs", .int 0]], rfl, fun path hpath => ?_⟩
    obtain rfl := List.mem_singleton.mp hpath
    exact ⟨_, rfl, follows_update⟩

end ReducersWitness

open ReducersWitness in
theorem julia_refines_python_update :
    Matches SameAnswer
      (Lifecycle.reduce .opened (.inbound (.dict update) [⟨.memoryview, [66]⟩]) picture {})
      (Julia.reduce .opened (.inbound (.dict update) [⟨.bytes, [66]⟩]) pictured {}) :=
  have hraws : raws [⟨.memoryview, [66]⟩] = raws [⟨.bytes, [66]⟩] := rfl
  julia_refines_python sameState (.inbound sameMessage hraws) .opened {}

end Cositos
