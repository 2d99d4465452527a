/-
Updates travel between the languages and the front end: what one sends, any other takes in
as the same state, whatever order its JSON reader gives the keys of an object.
-/
import Cositos.Clay
import Cositos.CSharpReducer

namespace Cositos

open Value Buffers Protocol

/-! ### Sending and taking in -/

/-- The state that an answer hands to the host, and nothing else. -/
def handed {ε : Type} : Except ε (Phase × List Effect) → Option Value
  | .ok (.opened, [.applyState state]) => some (.dict state)
  | _ => none

namespace Language

/-- `build_update` of each. -/
def buildUpdate (same : Path → Path → Bool) :
    (language : Language) → Bindings → Except language.Error (Bindings × List Binary)
  | .python, state => Protocol.buildUpdate state
  | .julia, state => Julia.buildUpdate state
  | .csharp, state => CSharp.buildUpdate state
  | .clojure, state => Clojure.buildUpdate same (.dict state)

/-- The state that each makes of an inbound message while a comm is open. -/
def applied (language : Language) (msg : Value) (buffers : List Binary)
    (currentState : Bindings) (capabilities : TransportCapabilities) : Option Value :=
  match language with
  | .python => handed (Lifecycle.reduce .opened (.inbound msg buffers) currentState capabilities)
  | .julia => handed (Julia.reduce .opened (.inbound msg buffers) currentState capabilities)
  | .csharp => handed (CSharp.reduce .opened (.inbound msg buffers) currentState capabilities)
  | .clojure =>
      match Clojure.applyInbound ⟨.none, msg, buffers⟩ with
      | .ok (.update state _) => some state
      | _ => none

end Language

/-- Buffers off a wire. -/
def received (buffers : List Binary) : List Binary := buffers.map fun b => ⟨.bytes, b.raw⟩

/-- JavaScript can hold the state: no key is `__proto__`, its integers are doubles, and its
arrays have a length that is allowed. -/
structure FrontHolds (fields : Bindings) : Prop where
  proto : ∀ path, Front.protoKey ∈ path → (Value.dict fields).look path = none
  doubles : Front.AllInts IsDouble (.dict fields)
  light : ∀ path label, (Value.dict fields).plain.look path = some label → Front.Light label

/-- The message is JSON, every language that reads it takes in the state, and so does
every `Model` of the front end, where JavaScript can hold the state. -/
structure Carries (data : Bindings) (buffers : List Binary) (fields : Bindings) : Prop where
  text : ∃ text, (Value.dict data).reload = .ok text ∧
    (∀ (receiver : Language) (read : Bindings), receiver.Reads text (.dict read) →
      ∀ currentState capabilities, ∃ w,
        receiver.applied (.dict read) (received buffers) currentState capabilities = some w ∧
          w ≈ (Value.dict fields).plain) ∧
    (FrontHolds fields → ∀ model : Front.Model, ∃ model' emitted,
      model.receive (Front.parsed text) (received buffers) = .ok (model', emitted) ∧
        model'.dirty = model.dirty ∧
        ∀ key, Front.Agree (model'.state.lookup key)
          (((plainEntries fields).lookup key).or (model.state.lookup key)))

/-! ### The message on the wire -/

theorem received_payloadBuffers (fields : Bindings) :
    received (Lifecycle.payloadBuffers fields) = Lifecycle.payloadBuffers (plainEntries fields) := by
  have hbinaries := binaries_plain (.dict fields)
  rw [plain] at hbinaries
  rw [received, Lifecycle.payloadBuffers, Lifecycle.payloadBuffers, hbinaries, List.map_map,
    List.map_map]
  rfl

theorem plain_path (path : Path) : path.toValue.plain = path.toValue := by
  rw [Path.toValue, plain, plainSeq_eq, List.map_map]
  exact congrArg Value.list (List.map_congr_left fun k _ => plain_key k)

theorem plain_updateData (fields : Bindings) :
    (Value.dict (Front.updateData fields)).plain =
      .dict (Front.updateData (plainEntries fields)) := by
  have hstrip : (Value.dict fields).strip.plain = (Value.dict (plainEntries fields)).strip :=
    plain_strip (.dict fields)
  have hbinaries : (Value.dict (plainEntries fields)).binaries.map Prod.fst =
      (Value.dict fields).binaries.map Prod.fst := by
    have hplain := binaries_plain (.dict fields)
    rw [plain] at hplain
    rw [hplain, List.map_map]
    rfl
  have hpaths : (bufferPathsField ((Value.dict fields).binaries.map Prod.fst)).plain =
      bufferPathsField ((Value.dict (plainEntries fields)).binaries.map Prod.fst) := by
    rw [hbinaries, bufferPathsField, plain, plainSeq_eq, List.map_map]
    exact congrArg Value.list (List.map_congr_left fun path _ => plain_path path)
  simp only [Front.updateData, Lifecycle.payload, plain, plainEntries, ← hstrip, ← hpaths]

theorem portable_key {v : Value} {path : Path} (hjson : v.jsonWith true = true) {b : Binary}
    (hleaf : (path, b) ∈ v.binaries) : Serialize.Portable path.toValue := by
  refine ⟨json_path hjson hleaf, ?_⟩
  rw [Path.toValue, binaries_eq_items rfl, List.flatMap_eq_nil_iff]
  intro kc hkc
  rw [Value.items, enumItems_map] at hkc
  obtain ⟨⟨_, k⟩, _, rfl⟩ := List.mem_map.mp hkc
  cases k <;> rfl

/-- The message of an update is JSON. -/
theorem reload_updateData {fields : Bindings} (hjson : (Value.dict fields).jsonWith true = true) :
    (Value.dict (Front.updateData fields)).reload =
      .ok (.dict (Front.updateData (plainEntries fields))) := by
  have hstrip : Serialize.Portable (Value.dict fields).strip :=
    ⟨json_strip hjson, binaries_strip _⟩
  have hpath : ∀ x ∈ ((Value.dict fields).binaries.map Prod.fst).map Path.toValue,
      Serialize.Portable x := by
    intro x hx
    obtain ⟨path, hpath, rfl⟩ := List.mem_map.mp hx
    obtain ⟨⟨_, b⟩, hleaf, rfl⟩ := List.mem_map.mp hpath
    exact portable_key hjson hleaf
  have hpaths : Serialize.Portable
      (bufferPathsField ((Value.dict fields).binaries.map Prod.fst)) :=
    ⟨json_list_iff.mpr fun x hx => (hpath x hx).1,
      binaries_list_eq_nil_iff.mpr fun x hx => (hpath x hx).2⟩
  have hdata : Serialize.Portable (.dict (Front.updateData fields)) := by
    apply Serialize.portable_dict_iff.mpr
    simp only [Front.updateData, Lifecycle.payload, List.forall_mem_cons]
    exact ⟨⟨⟨_, rfl⟩, rfl, rfl⟩, ⟨⟨_, rfl⟩, hstrip⟩, ⟨⟨_, rfl⟩, hpaths⟩, by simp⟩
  rw [reload_ok hdata.1 hdata.2, plain_updateData]

/-! ### Taking an update in -/

/-- A message that reads as an update about the state. -/
structure UpdateOf (v : Value) (data : Bindings) : Prop where
  method : get data "method" .none = .str "update"
  state : ∃ stripped, get data "state" (.dict []) = .dict stripped ∧ .dict stripped ≈ v.strip
  paths : get data "buffer_paths" (.list []) = bufferPathsField (v.binaries.map Prod.fst)

theorem updateOf_reads {fields data : Bindings}
    (h : Value.dict data ≈ .dict (Front.updateData fields)) : UpdateOf (.dict fields) data := by
  obtain ⟨method, hmethod, hmethodequiv⟩ :=
    exists_lookup_of_equiv h (k := .str "method") (y := .str "update") rfl
  obtain ⟨state, hstate, hstateequiv⟩ :=
    exists_lookup_of_equiv h (k := .str "state") (y := (Value.dict fields).strip) rfl
  obtain ⟨paths, hpaths, hpathsequiv⟩ := exists_lookup_of_equiv h (k := .str "buffer_paths")
    (y := bufferPathsField ((Value.dict fields).binaries.map Prod.fst)) rfl
  obtain ⟨stripped, rfl⟩ := exists_dict_of_equiv hstateequiv
  refine ⟨?_, ⟨stripped, ?_, hstateequiv⟩, ?_⟩
  · simp [Protocol.get, hmethod, eq_scalar_of_equiv hmethodequiv]
  · simp [Protocol.get, hstate]
  · simp [Protocol.get, hpaths, Clojure.paths_of_equiv hpathsequiv]

/-- The merge of each hands the state to the host. -/
theorem handed_inbound {ε : Type} {port : Port ε} {msg state bufferPaths : Value}
    {buffers : List Binary} {merged : Bindings}
    (hparse : port.parseMessage msg = .ok (.update state bufferPaths))
    (hmerge : port.mergeUpdate state bufferPaths buffers = .ok merged) (currentState : Bindings)
    (capabilities : TransportCapabilities) :
    handed (port.reduce .opened (.inbound msg buffers) currentState capabilities) =
      some (.dict merged) := by
  rw [Port.reduce, port.reduceInbound_opened hparse, Port.answer, hmerge]
  rfl

theorem map_toValue (v : Value) : (v.binaries.map Prod.fst).map Path.toValue =
    v.binaries.map fun leaf => leaf.1.toValue := by
  rw [List.map_map]
  rfl

section Merges

variable {fields data : Bindings}

theorem UpdateOf.parse (h : UpdateOf (.dict fields) data) {stripped : Bindings}
    (hstate : get data "state" (.dict []) = .dict stripped) :
    Protocol.parseMessage (.dict data) = .update (.dict stripped)
      (bufferPathsField ((Value.dict fields).binaries.map Prod.fst)) := by
  rw [parseMessage_update h.method, hstate, h.paths]

theorem UpdateOf.python (h : UpdateOf (.dict fields) data) (hv : Plain (.dict fields))
    (currentState : Bindings) (capabilities : TransportCapabilities) :
    ∃ w, handed (Lifecycle.reduce .opened (.inbound (.dict data)
        (Lifecycle.payloadBuffers fields)) currentState capabilities) = some w ∧
      w ≈ .dict fields := by
  obtain ⟨stripped, hstate, hequiv⟩ := h.state
  obtain ⟨w, hput, hw⟩ := Serialize.putBuffers_equiv_strip hv.wf hv.container hequiv
  rw [listed_of_json hv.json] at hw
  obtain ⟨merged, rfl⟩ := exists_dict_of_equiv hw
  have hparse : Lifecycle.python.parseMessage (.dict data) = .ok (.update (.dict stripped)
      (bufferPathsField ((Value.dict fields).binaries.map Prod.fst))) :=
    congrArg Except.ok (h.parse hstate)
  have hmerge : Lifecycle.python.mergeUpdate (.dict stripped)
      (bufferPathsField ((Value.dict fields).binaries.map Prod.fst))
      (Lifecycle.payloadBuffers fields) = .ok merged := by
    simp only [Lifecycle.python, Lifecycle.mergeUpdate, dictOf, bufferPathsField, iterate,
      map_toValue,
      Lifecycle.payloadBuffers, bind, Except.bind, hput, pure, Except.pure]
    rfl
  exact ⟨_, handed_inbound hparse hmerge currentState capabilities, hw⟩

theorem UpdateOf.julia (h : UpdateOf (.dict fields) data) (hv : Plain (.dict fields))
    (currentState : Bindings) (capabilities : TransportCapabilities) :
    ∃ w, handed (Julia.reduce .opened (.inbound (.dict data)
        (Lifecycle.payloadBuffers fields)) currentState capabilities) = some w ∧
      w ≈ .dict fields := by
  obtain ⟨stripped, hstate, hequiv⟩ := h.state
  obtain ⟨w, hput, hw⟩ := foldlM_plain Julia.standard_merger (fun s => ⟨s, rfl⟩) hv hequiv
    (fun _ _ _ => trivial)
  obtain ⟨merged, rfl⟩ := exists_dict_of_equiv hw
  have hparse : Julia.julia.parseMessage (.dict data) = .ok (.update (.dict stripped)
      (bufferPathsField ((Value.dict fields).binaries.map Prod.fst))) :=
    congrArg Except.ok (h.parse hstate)
  rw [← Julia.putBuffers_eq_foldlM] at hput
  have hmerge : Julia.julia.mergeUpdate (.dict stripped)
      (bufferPathsField ((Value.dict fields).binaries.map Prod.fst))
      (Lifecycle.payloadBuffers fields) = .ok merged := by
    simp only [Julia.julia, Julia.mergeUpdate, Julia.dictOf, bufferPathsField, map_toValue,
      Lifecycle.payloadBuffers, bind, Except.bind, hput, pure, Except.pure]
    rfl
  rw [Julia.reduce_eq]
  exact ⟨_, handed_inbound hparse hmerge currentState capabilities, hw⟩

theorem putEach_toValue (state : Value) (paths : List Path) (buffers : List Binary) :
    CSharp.putEach state (paths.map Path.toValue) buffers =
      CSharp.putBuffers state paths buffers := by
  induction paths generalizing state buffers with
  | nil => rfl
  | cons path paths ih =>
      cases buffers with
      | nil => rfl
      | cons b buffers =>
          simp only [List.map_cons, Path.toValue, CSharp.putEach, CSharp.putBuffers,
            CSharp.putAt, segments_toValue]
          exact congrArg _ (funext fun w => ih w buffers)

theorem UpdateOf.csharp (h : UpdateOf (.dict fields) data) (hv : Plain (.dict fields))
    (hfits : (Value.dict data).ListsFit) (currentState : Bindings)
    (capabilities : TransportCapabilities) :
    ∃ w, handed (CSharp.reduce .opened (.inbound (.dict data)
        (Lifecycle.payloadBuffers fields)) currentState capabilities) = some w ∧
      w ≈ .dict fields := by
  obtain ⟨stripped, hstate, hequiv⟩ := h.state
  obtain ⟨w, hput, hw⟩ := foldlM_plain CSharp.standard_merger (fun s => ⟨s, rfl⟩) hv hequiv
    (CSharp.listsFit_get hfits hstate)
  obtain ⟨merged, rfl⟩ := exists_dict_of_equiv hw
  have hmap : ((Value.dict fields).binaries.map Prod.fst).map Path.toValue =
      (((Value.dict fields).binaries.map Prod.fst).map (List.map Key.toValue)).map Value.list := by
    simp only [List.map_map]
    rfl
  have hpaths : get data "buffer_paths" (.list []) = .list
      ((((Value.dict fields).binaries.map Prod.fst).map (List.map Key.toValue)).map
        Value.list) := by
    rw [h.paths, bufferPathsField, hmap]
  have hparse : CSharp.csharp.parseMessage (.dict data) = .ok (.update (.dict stripped)
      (.list (((Value.dict fields).binaries.map Prod.fst).map Path.toValue))) := by
    rw [hmap]
    exact CSharp.parseMessage_update h.method hstate hpaths
  rw [← CSharp.putBuffers_eq_foldlM, ← putEach_toValue] at hput
  have hmerge : CSharp.csharp.mergeUpdate (.dict stripped)
      (.list (((Value.dict fields).binaries.map Prod.fst).map Path.toValue))
      (Lifecycle.payloadBuffers fields) = .ok merged := by
    simp only [CSharp.csharp, CSharp.mergeUpdate, CSharp.castDictionary,
      Lifecycle.payloadBuffers, bind, Except.bind, hput, pure, Except.pure]
    rfl
  rw [CSharp.reduce_eq]
  exact ⟨_, handed_inbound hparse hmerge currentState capabilities, hw⟩

theorem UpdateOf.clojure (h : UpdateOf (.dict fields) data) (hv : Plain (.dict fields))
    (hfits : (Value.dict data).ListsFit) :
    ∃ w, Clojure.applyInbound ⟨.none, .dict data, Lifecycle.payloadBuffers fields⟩ =
      .ok (.update w (bufferPathsField ((Value.dict fields).binaries.map Prod.fst))) ∧
      w ≈ .dict fields := by
  obtain ⟨stripped, hstate, hequiv⟩ := h.state
  obtain ⟨w, hput, hw⟩ := foldlM_plain Clojure.standard_merger (fun _ => trivial) hv hequiv
    (CSharp.listsFit_get hfits hstate)
  -- there is a buffer for each path, so that every path is read
  have htake : (((Value.dict fields).binaries.map Prod.fst).map Path.toValue).take
      ((Value.dict fields).binaries.map Prod.snd).length =
        ((Value.dict fields).binaries.map Prod.fst).map Path.toValue := by
    rw [List.take_of_length_le (by simp)]
  have hread : (((Value.dict fields).binaries.map Prod.fst).map Path.toValue).mapM
      Clojure.elements =
        .ok (((Value.dict fields).binaries.map Prod.fst).map fun path =>
          path.map Key.toValue) := by
    apply mapM_of_forall₂
    rw [List.forall₂_map_left_iff, List.forall₂_same]
    exact fun path _ => rfl
  have hsegments : (((Value.dict fields).binaries.map Prod.fst).map fun path =>
      path.map Key.toValue).map (fun path => path.map Value.segment) =
        (Value.dict fields).binaries.map Prod.fst := by
    rw [List.map_map]
    exact List.map_id'' (fun path => segments_toValue path) _
  rw [← Clojure.putBuffers_eq_foldlM] at hput
  refine ⟨w, ?_, hw⟩
  simp only [Clojure.applyInbound, h.parse hstate, bufferPathsField, Clojure.elements, bind,
    Except.bind, htake, hread, hsegments, Lifecycle.payloadBuffers, hput, pure, Except.pure]

/-- Every language takes in the state that an update is about. -/
theorem UpdateOf.applied (h : UpdateOf (.dict fields) data) (hv : Plain (.dict fields))
    (receiver : Language)
    (hfits : receiver = .csharp ∨ receiver = .clojure → (Value.dict data).ListsFit)
    (currentState : Bindings) (capabilities : TransportCapabilities) :
    ∃ w, receiver.applied (.dict data) (Lifecycle.payloadBuffers fields) currentState
      capabilities = some w ∧ w ≈ .dict fields := by
  cases receiver with
  | python => exact h.python hv currentState capabilities
  | julia => exact h.julia hv currentState capabilities
  | csharp => exact h.csharp hv (hfits (Or.inl rfl)) currentState capabilities
  | clojure =>
      obtain ⟨w, happly, hw⟩ := h.clojure hv (hfits (Or.inr rfl))
      exact ⟨w, by rw [Language.applied, happly], hw⟩

end Merges

/-! ### From any side to any other -/

theorem jsonWith_of_json {v : Value} (h : v.json = true) : v.jsonWith true = true := by
  induction v using tree_induction with
  | scalar s => cases s <;> first | rfl | cases h
  | bin b => rfl
  | list xs ih => exact json_list_iff.mpr fun x hx => ih x hx (json_list_iff.mp h x hx)
  | tuple xs ih => exact absurd (json_tuple_iff.mp h).1 (by simp)
  | dict kvs ih =>
      exact json_dict_iff.mpr fun kc hkc =>
        ⟨(json_dict_iff.mp h kc hkc).1, ih kc hkc (json_dict_iff.mp h kc hkc).2⟩

theorem onWire_plain {fields : Bindings} (hwf : (Value.dict fields).Wf)
    (hjson : (Value.dict fields).jsonWith true = true) (h : FrontHolds fields) :
    Front.OnWire (.dict (plainEntries fields)) where
  wf := wf_plain hwf
  json := json_plain hjson
  proto path hpath := by
    have hplain := look_plain (.dict fields) path
    rwa [h.proto path hpath] at hplain
  light := h.light

theorem allInts_plain {p : Int → Prop} {v : Value} (h : Front.AllInts p v) :
    Front.AllInts p v.plain := by
  intro path i hi
  rw [look_plain] at hi
  obtain ⟨label, hlabel, hplain⟩ := Option.map_eq_some_iff.mp hi
  apply h path i
  cases label <;> cases hplain
  exact hlabel

/-- The front end takes in the state that an update is about, and leaves the rest. -/
theorem receive_update {fields : Bindings} (h : Front.OnWire (.dict fields))
    (hdoubles : Front.AllInts IsDouble (.dict fields)) (model : Front.Model) :
    ∃ model' emitted, model.receive (Front.parsed (.dict (Front.updateData fields)))
        (Lifecycle.payloadBuffers fields) = .ok (model', emitted) ∧
      model'.dirty = model.dirty ∧
      ∀ key, Front.Agree (model'.state.lookup key)
        ((fields.lookup key).or (model.state.lookup key)) := by
  obtain ⟨entries, hincoming, hentries, hread⟩ := Front.incoming_updateData h
  have hequiv : Value.dict entries ≈ .dict fields :=
    Setoid.trans hread (Front.number_equiv hdoubles)
  refine ⟨_, _, Front.receive_updateData model hincoming, rfl, fun key => ?_⟩
  rw [Front.lookup_foldl_assign hentries key]
  have hagree := Front.dict_equiv_iff.mp hequiv key
  cases hleft : entries.lookup key with
  | none =>
      cases hright : fields.lookup key with
      | none => exact Front.agree_refl _
      | some value => rw [hleft, hright] at hagree; cases hagree
  | some value =>
      cases hright : fields.lookup key with
      | none => rw [hleft, hright] at hagree; cases hagree
      | some value' => rwa [hleft, hright] at hagree

/-- An update about a state carries it, to every language and to the front end. -/
theorem carries_updateData {fields : Bindings} (hwf : (Value.dict fields).Wf)
    (hjson : (Value.dict fields).jsonWith true = true) :
    Carries (Front.updateData fields) (Lifecycle.payloadBuffers fields) fields := by
  have hplain : Plain (.dict (plainEntries fields)) := plain_of_state hwf hjson
  refine ⟨_, reload_updateData hjson, ?_, fun hholds model => ?_⟩
  · intro receiver read hread currentState capabilities
    rw [received_payloadBuffers]
    exact (updateOf_reads hread.equiv).applied hplain receiver hread.lists currentState
      capabilities
  · rw [received_payloadBuffers]
    exact receive_update (onWire_plain hwf hjson hholds) (allInts_plain hholds.doubles) model

/-- Each language sends the same message about a state. -/
theorem Language.buildUpdate_eq (same : Path → Path → Bool) (sender : Language)
    {fields : Bindings} (htree : sender.IsTree (.dict fields))
    (hnesting : (Value.dict fields).nesting ≤ maxDepth) :
    sender.buildUpdate same fields =
      .ok (Front.updateData fields, Lifecycle.payloadBuffers fields) := by
  have hsplit : sender.removeBuffers same (.dict fields) = .ok (Value.dict fields).split :=
    (Language.removeBuffers_tree same sender htree).1 hnesting
  have hcontainer : (Value.dict fields).isContainer = true := rfl
  rw [Value.split, if_pos hcontainer] at hsplit
  cases sender with
  | python =>
      have hsplit' : Buffers.removeBuffers (.dict fields) = _ := hsplit
      rw [buildUpdate, Protocol.buildUpdate, hsplit']
      rfl
  | julia =>
      have hsplit' : Julia.removeBuffers (.dict fields) = _ := hsplit
      rw [buildUpdate, Julia.buildUpdate, hsplit']
      rfl
  | csharp =>
      have hsplit' : CSharp.removeBuffers (.dict fields) = _ := hsplit
      rw [buildUpdate, CSharp.buildUpdate, hsplit']
      rfl
  | clojure =>
      have hsplit' : Clojure.removeBuffers same (.dict fields) = _ := hsplit
      rw [buildUpdate, Clojure.buildUpdate, hsplit']
      rfl

/-- What a model saves about integers that JavaScript spells in full is read as it is. -/
theorem stringified_saved {model : Front.Model} (hready : model.Ready)
    (hexact : Front.AllInts Exact (.dict model.dirtyState)) :
    Front.stringified (.dict (Front.updateData model.dirtyState)) =
      .dict (Front.updateData model.dirtyState) := by
  have hwire := Front.Model.onWire_dirtyState hready
  have hsame : Front.spelledFields model.dirtyState = model.dirtyState :=
    Value.dict.inj (Front.withInts_eq_self (fun _ hi => congrArg _ hi.2) hwire.wf hexact)
  rw [Front.stringified_updateData hwire, hsame]

/-- Whoever sends an update, be it one of the four languages or a saving `Model`, whoever
takes it in has the values that were sent. -/
theorem updates_portable :
    (∀ (same : Path → Path → Bool) (sender : Language) (fields : Bindings),
      sender.IsTree (.dict fields) → (Value.dict fields).jsonWith true = true →
      (Value.dict fields).nesting ≤ maxDepth →
      ∃ data buffers, sender.buildUpdate same fields = .ok (data, buffers) ∧
        Carries data buffers fields) ∧
    ∀ model : Front.Model, model.Ready → Front.AllInts Exact (.dict model.dirtyState) →
      model.dirty ≠ [] →
      ∃ data buffers, model.saveChanges.2 = some (data, buffers) ∧
        Front.stringified (.dict data) = .dict data ∧ Carries data buffers model.dirtyState := by
  refine ⟨fun same sender fields htree hjson hnesting => ?_,
    fun model hready hexact hdirty => ?_⟩
  · exact ⟨_, _, sender.buildUpdate_eq same htree hnesting, carries_updateData htree.1 hjson⟩
  · have hwire := Front.Model.onWire_dirtyState hready
    rw [Front.Model.saveChanges_eq hready hdirty]
    exact ⟨_, _, rfl, stringified_saved hready hexact,
      carries_updateData hwire.wf (jsonWith_of_json hwire.json)⟩

open PortabilityWitness in
theorem updates_portable_slide :
    (∃ data buffers, Language.clojure.buildUpdate (fun _ _ => true) slide.fields =
        .ok (data, buffers) ∧ Carries data buffers slide.fields) ∧
      ∃ data buffers, ((Front.Model.new []).set "n" (.int 1)).1.saveChanges.2 =
        some (data, buffers) ∧ Front.stringified (.dict data) = .dict data ∧
          Carries data buffers ((Front.Model.new []).set "n" (.int 1)).1.dirtyState := by
  have htree : Language.clojure.IsTree (.dict slide.fields) :=
    ⟨slide.wf, fun _ => untupled_of_json (by decide)⟩
  have hready : ((Front.Model.new []).set "n" (.int 1)).1.Ready := by
    have hone : Front.OnWire (.int 1) := Front.onWire_leaf rfl rfl (by decide)
    have hsets : ∀ kv ∈ [("n", Value.int 1)], kv.1 ≠ "__proto__" ∧ Front.OnWire kv.2 := by
      simp [hone]
    have hnew : (Front.Model.new []).dirty = [] := rfl
    exact (Front.Model.ready_setAll hnew hsets).1
  have hexact : Front.AllInts Exact
      (.dict ((Front.Model.new []).set "n" (.int 1)).1.dirtyState) :=
    Front.allInts_dict_iff.mpr fun key value hvalue => by
      cases List.mem_singleton.mp (Dict.mem_of_lookup hvalue)
      exact Front.allInts_leaf rfl (by
        rintro i ⟨⟩
        exact exact_of_lt (by decide))
  exact ⟨updates_portable.1 _ .clojure slide.fields htree storable_slide.json
      storable_slide.nesting, updates_portable.2 _ hready hexact (by decide)⟩

end Cositos
