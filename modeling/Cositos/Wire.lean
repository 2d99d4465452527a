/-
Updates on the wire: what the Python core sends the front end takes in, and
what the front end saves the Python core applies, with the same values.
-/
import Cositos.FrontBuffers
import Cositos.Payload

namespace Cositos

namespace Front

open Value

/-! ### From the core to the front end -/

/-- The data of an update about a state. -/
def updateData (fields : Bindings) : Bindings :=
  (.str "method", .str "update") :: Lifecycle.payload fields

variable {fields : Bindings}

theorem nodup_keys_updateData (fields : Bindings) : (Dict.keys (updateData fields)).Nodup := by
  have hkeys : Dict.keys (updateData fields) =
      [.str "method", .str "state", .str "buffer_paths"] := rfl
  rw [hkeys]
  decide

/-- A property of a message that came off the wire. -/
theorem getProp_parsed {data : Bindings} (hdata : (Dict.keys data).Nodup) {name : String}
    {value : Value} (hvalue : data.lookup (.str name) = some value) :
    getProp (parsed (.dict data)) (.str name) = .ok (parsed value) := by
  have hchild := child_parsed_dict hdata (.str name)
  rw [parsed, child_dict, hvalue] at hchild
  rw [parsed, getProp, text, hchild]
  rfl

/-- The places of the binary values of a wire value. -/
abbrev binaryPaths (fields : Bindings) : Value :=
  Protocol.bufferPathsField ((Value.dict fields).binaries.map Prod.fst)

theorem index_lt_of_mem_binaries (h : OnWire (.dict fields)) {path : Path}
    (hpath : path ∈ (Value.dict fields).binaries.map Prod.fst) {i : Int} (hi : Key.int i ∈ path) :
    i.natAbs < 2 ^ 53 := by
  obtain ⟨⟨path, b⟩, hleaf, rfl⟩ := List.mem_map.mp hpath
  exact h.index_lt ((mem_binaries_iff h.wf).mp hleaf) hi

theorem parsed_binaryPaths (h : OnWire (.dict fields)) :
    parsed (binaryPaths fields) = binaryPaths fields := by
  have hkey : ∀ path ∈ (Value.dict fields).binaries.map Prod.fst, ∀ k ∈ path,
      parsed k.toValue = k.toValue := by
    intro path hpath k hk
    cases k with
    | int i =>
        have hi := isDouble_of_lt (index_lt_of_mem_binaries h hpath hk)
        rw [Key.toValue, parsed, number_eq hi]
    | _ => rfl
  simp only [binaryPaths, Protocol.bufferPathsField, parsed, parsedSeq_eq, List.map_map]
  refine congrArg _ (List.map_congr_left fun leaf hleaf => ?_)
  simp only [Function.comp_apply, Path.toValue, parsed, parsedSeq_eq, List.map_map]
  exact congrArg _ (List.map_congr_left (hkey leaf.1 (List.mem_map_of_mem hleaf)))

/-- The front end's values as the core reads them. -/
abbrev spelledFields (fields : Bindings) : Bindings :=
  withIntsEntries (fun i => .int (spelled i)) fields

theorem onWire_spelledFields (h : OnWire (.dict fields)) : OnWire (.dict (spelledFields fields)) :=
  h.withInts keepsLight_spelled

theorem stringified_binaryPaths (h : OnWire (.dict fields)) :
    stringified (binaryPaths fields) = binaryPaths fields := by
  have hkey : ∀ path ∈ (Value.dict fields).binaries.map Prod.fst, ∀ k ∈ path,
      stringified k.toValue = k.toValue := by
    intro path hpath k hk
    cases k with
    | int i =>
        have hi := exact_of_lt (index_lt_of_mem_binaries h hpath hk)
        rw [Key.toValue, stringified, withInts, hi.2]
    | _ => rfl
  simp only [binaryPaths, Protocol.bufferPathsField, stringified, withInts, withIntsSeq_eq,
    List.map_map]
  refine congrArg _ (List.map_congr_left fun leaf hleaf => ?_)
  simp only [Function.comp_apply, Path.toValue, withInts, withIntsSeq_eq, List.map_map]
  exact congrArg _ (List.map_congr_left (hkey leaf.1 (List.mem_map_of_mem hleaf)))

/-- What the front end sends about some fields is read as an update about them. -/
theorem stringified_updateData (h : OnWire (.dict fields)) :
    stringified (.dict (updateData fields)) = .dict (updateData (spelledFields fields)) := by
  have hpaths := stringified_binaryPaths h
  have hbinaries : (Value.dict (spelledFields fields)).binaries = (Value.dict fields).binaries :=
    binaries_withInts (.dict fields)
  have hstrip : (Value.dict (spelledFields fields)).strip = stringified (Value.dict fields).strip :=
    strip_withInts (.dict fields)
  rw [updateData, updateData, Lifecycle.payload, Lifecycle.payload, hstrip, hbinaries]
  rw [stringified] at hpaths
  simp only [stringified, withInts, withIntsEntries, hpaths]

theorem payloadBuffers_spelledFields (fields : Bindings) :
    Lifecycle.payloadBuffers (spelledFields fields) = Lifecycle.payloadBuffers fields := by
  have hbinaries : (Value.dict (spelledFields fields)).binaries = (Value.dict fields).binaries :=
    binaries_withInts (.dict fields)
  rw [Lifecycle.payloadBuffers, Lifecycle.payloadBuffers, hbinaries]

/-- What is ≈ to a dict is a dict. -/
theorem exists_dict_of_equiv {w : Value} {kvs : Bindings} (h : w ≈ .dict kvs) :
    ∃ entries, w = .dict entries := by
  have hlabel := (equiv_iff_child.mp h).1
  cases w <;> first | exact ⟨_, rfl⟩ | simp [label] at hlabel

/-- The front end takes in the state that an update is about. -/
theorem incoming_updateData (h : OnWire (.dict fields)) :
    ∃ entries, Model.incoming (parsed (.dict (updateData fields)))
        (Lifecycle.payloadBuffers fields) = .ok entries ∧
      OnWire (.dict entries) ∧ Value.dict entries ≈ withInts number (.dict fields) := by
  have hequiv : parsed (Value.dict fields).strip ≈ (withInts number (.dict fields)).strip := by
    rw [strip_withInts]
    exact parsed_equiv (wf_strip h.wf) (json_strip h.json)
  obtain ⟨own, hown⟩ : ∃ own, parsed (Value.dict fields).strip = .dict own := ⟨_, rfl⟩
  rw [hown] at hequiv
  have hread := h.withInts keepsLight_number
  obtain ⟨w, hput, hw⟩ := putBuffers_strip hread rfl hequiv
  rw [binaries_withInts] at hput
  obtain ⟨entries, rfl⟩ := exists_dict_of_equiv hw
  have hwf : (Value.dict entries).Wf := wf_putBuffers (hown ▸ wf_parsed _) hput
  refine ⟨entries, ?_, hread.of_equiv hwf hw, hw⟩
  have hstate : getProp (parsed (.dict (updateData fields))) (.str "state") = .ok (.dict own) := by
    rw [getProp_parsed (nodup_keys_updateData fields) rfl, hown]
  have hpaths : getProp (parsed (.dict (updateData fields))) (.str "buffer_paths") =
      .ok (binaryPaths fields) := by
    rw [getProp_parsed (nodup_keys_updateData fields) rfl, parsed_binaryPaths h]
  rw [Model.incoming, hstate, hpaths]
  simp only [bind, Except.bind, orElse, spread, binaryPaths, Protocol.bufferPathsField]
  simp only [Protocol.bufferPathsField] at hput
  rw [Lifecycle.payloadBuffers, hput]
  rfl

/-- Receiving an update assigns what it brings and reports each key. -/
theorem receive_updateData (model : Model) {buffers : List Binary} {entries : Bindings}
    (h : Model.incoming (parsed (.dict (updateData fields))) buffers = .ok entries) :
    model.receive (parsed (.dict (updateData fields))) buffers =
      .ok ({ model with
          state := entries.foldl (fun own kv => assign own kv.1 kv.2) model.state },
        entries.map fun kv => .change kv.1 kv.2) := by
  have hlookup : (updateData fields).lookup (.str "method") = some (.str "update") := rfl
  have hmethod : getProp (parsed (.dict (updateData fields))) (.str "method") =
      .ok (.str "update") := getProp_parsed (nodup_keys_updateData fields) hlookup
  rw [Model.receive, hmethod]
  simp only [bind, Except.bind, h]
  rfl

theorem lookup_foldl_assign {own entries : Bindings} (h : OnWire (.dict entries)) (key : Key) :
    (entries.foldl (fun own kv => assign own kv.1 kv.2) own).lookup key =
      (entries.lookup key).or (own.lookup key) := by
  obtain ⟨hkeys, hvalues⟩ := onWire_dict_iff.mp h
  rw [Dict.lookup_foldl_put rfl fun own kv hkv => lookup_assign (hvalues kv hkv).2.1 key,
    Dict.lookup_update _ hkeys]

/-! ### From the front end to the core -/

namespace Model

/-- A model whose dirty keys are bound to wire values. -/
def Ready (model : Model) : Prop :=
  ∀ key ∈ model.dirty, (∃ s, key = .str s) ∧ key ≠ protoKey ∧
    ∃ value, model.state.lookup key = some value ∧ OnWire value

theorem lookup_dirtyState {model : Model} (h : model.Ready) (key : Key) :
    model.dirtyState.lookup key = if key ∈ model.dirty then model.state.lookup key else none := by
  have hfold : model.dirtyState = (model.dirty.map fun key => (key, model.get key)).foldl
      (fun own kv => assign own kv.1 kv.2) [] := by
    rw [dirtyState, List.foldl_map]
  have hput : ∀ own : Bindings, ∀ kv ∈ model.dirty.map fun key => (key, model.get key),
      (assign own kv.1 kv.2).lookup key = if key = kv.1 then some kv.2 else own.lookup key := by
    intro own kv hkv
    obtain ⟨k, hk, rfl⟩ := List.mem_map.mp hkv
    exact lookup_assign (h k hk).2.1 key
  have hlookup := Dict.lookup_foldl_put (rfl : [].lookup key = [].lookup key) hput
  rw [hfold, hlookup, Dict.lookup_update_map]
  split_ifs with hkey
  · obtain ⟨_, _, value, hvalue, _⟩ := h key hkey
    simp [get, hvalue]
  · rfl

theorem onWire_dirtyState {model : Model} (h : model.Ready) :
    OnWire (.dict model.dirtyState) := by
  have hkeys := model.nodup_keys_dirtyState
  refine onWire_dict_iff.mpr ⟨hkeys, ?_⟩
  rintro ⟨key, value⟩ hkv
  have hlookup := (Dict.lookup_eq_some_iff hkeys).mpr hkv
  rw [lookup_dirtyState h] at hlookup
  split_ifs at hlookup with hkey
  obtain ⟨hname, hproto, value', hvalue, hwire⟩ := h key hkey
  rw [hvalue] at hlookup
  cases hlookup
  exact ⟨hname, hproto, hwire⟩

/-- Saving sends an update about the dirty keys. -/
theorem saveChanges_eq {model : Model} (h : model.Ready) (hdirty : model.dirty ≠ []) :
    model.saveChanges = ({ model with dirty := [] },
      some (updateData model.dirtyState, Lifecycle.payloadBuffers model.dirtyState)) := by
  have hwire := onWire_dirtyState h
  rw [saveChanges, if_neg hdirty, removeBuffers_eq hwire.wf hwire.json rfl]
  rfl

end Model

/-! ### Well-formed results of the core's merge -/

theorem wf_seqItem {xs : List Value} (hxs : ∀ x ∈ xs, x.Wf) {key c : Value}
    (h : seqItem xs key = .ok c) : c.Wf := by
  obtain ⟨n, _, h⟩ := Port.bind_eq_ok_iff.mp h
  cases hn : xs[n]? with
  | none => simp [hn] at h
  | some x =>
      simp only [hn] at h
      cases h
      exact hxs _ (List.mem_of_getElem? hn)

theorem wf_getItem {v key c : Value} (hv : v.Wf) (h : v.getItem key = .ok c) : c.Wf := by
  cases v with
  | dict kvs =>
      obtain ⟨k, _, h⟩ := Port.bind_eq_ok_iff.mp h
      cases hlookup : kvs.lookup k with
      | none => simp [hlookup] at h
      | some x =>
          simp only [hlookup] at h
          cases h
          exact (wf_dict_iff.mp hv).2 _ (Dict.mem_of_lookup hlookup)
  | list xs => exact wf_seqItem (wf_list_iff.mp hv) h
  | tuple xs => exact wf_seqItem (wf_list_iff.mp hv) h
  | bin b =>
      have hbytes : ∀ x ∈ byteInts b, x.Wf := by
        intro x hx
        obtain ⟨byte, _, rfl⟩ := List.mem_map.mp hx
        rfl
      exact wf_seqItem hbytes h
  | scalar s =>
      cases s with
      | str s =>
          exact wf_seqItem (wf_chars s) h
      | _ => cases h

theorem wf_setItem {v key c w : Value} (hv : v.Wf) (hc : c.Wf) (h : v.setItem key c = .ok w) :
    w.Wf := by
  cases v with
  | dict kvs =>
      obtain ⟨k, _, h⟩ := Port.bind_eq_ok_iff.mp h
      cases h
      obtain ⟨hkeys, hvalues⟩ := wf_dict_iff.mp hv
      refine wf_dict_iff.mpr ⟨Dict.nodup_keys_set hkeys k c, fun kc hkc => ?_⟩
      rcases Dict.mem_set hkc with rfl | hmem
      · exact hc
      · exact hvalues kc hmem
  | list xs =>
      obtain ⟨n, _, h⟩ := Port.bind_eq_ok_iff.mp h
      cases h
      exact wf_list_iff.mpr (wf_set (wf_list_iff.mp hv) hc n)
  | _ => cases h

theorem wf_withItem {v key c w : Value} (hv : v.Wf) (hc : c.Wf) (h : v.withItem key c = .ok w) :
    w.Wf := by
  cases v with
  | tuple xs =>
      obtain ⟨n, _, h⟩ := Port.bind_eq_ok_iff.mp h
      cases h
      exact wf_list_iff.mpr (wf_set (wf_list_iff.mp hv) hc n)
  | _ => exact wf_setItem hv hc (show setItem _ key c = .ok w from h)

theorem wf_corePutAt {b : Binary} {v w : Value} {path : List Value} (hv : v.Wf)
    (h : Buffers.putAt b v path = .ok w) : w.Wf := by
  induction path generalizing v w with
  | nil => cases h
  | cons key path ih =>
      by_cases hpath : path = []
      · subst hpath
        exact wf_setItem hv (show (Value.bin b).Wf from rfl) h
      · rw [Buffers.putAt_cons hpath] at h
        obtain ⟨c, hget, h⟩ := Port.bind_eq_ok_iff.mp h
        obtain ⟨c', hput, hwith⟩ := Port.bind_eq_ok_iff.mp h
        exact wf_withItem hv (ih (wf_getItem hv hget) hput) hwith

theorem wf_corePutBuffers {v w : Value} {bufferPaths : List Value} {buffers : List Binary}
    (hv : v.Wf) (h : Buffers.putBuffers v bufferPaths buffers = .ok w) : w.Wf := by
  revert hv
  refine Buffers.putBuffers_run (fun _ hv => hv) ?_ h
  intro v path paths b buffers segments v' w _ hput ih hv
  exact ih (wf_corePutAt hv hput)

/-- The core applies the state that an update is about. -/
theorem mergeUpdate_updateData (h : OnWire (.dict fields)) :
    ∃ merged, Lifecycle.mergeUpdate (Value.dict fields).strip
        (Protocol.bufferPathsField ((Value.dict fields).binaries.map Prod.fst))
        (Lifecycle.payloadBuffers fields) = .ok merged ∧
      OnWire (.dict merged) ∧ Value.dict merged ≈ .dict fields := by
  obtain ⟨w, hput, hw⟩ := Lifecycle.putBuffers_payload h.wf h.json
  obtain ⟨merged, rfl⟩ := exists_dict_of_equiv hw
  have hwf : (Value.dict merged).Wf := wf_corePutBuffers (wf_strip h.wf) hput
  refine ⟨merged, ?_, h.of_equiv hwf hw, hw⟩
  have hunfold : Lifecycle.mergeUpdate (Value.dict fields).strip
      (Protocol.bufferPathsField ((Value.dict fields).binaries.map Prod.fst))
      (Lifecycle.payloadBuffers fields) = do
    let w ← Buffers.putBuffers (Value.dict fields).strip
      (((Value.dict fields).binaries.map Prod.fst).map Path.toValue)
      (Lifecycle.payloadBuffers fields)
    return w.bindings := rfl
  rw [hunfold, hput]
  rfl

theorem parseMessage_updateData (fields : Bindings) :
    Protocol.parseMessage (.dict (updateData fields)) =
      .update (Value.dict fields).strip
        (Protocol.bufferPathsField ((Value.dict fields).binaries.map Prod.fst)) := rfl

/-! ### The wire in both directions -/

namespace Model

/-- A sequence of `set` calls. -/
def setAll (model : Model) (sets : List (String × Value)) : Model :=
  sets.foldl (fun model kv => (model.set kv.1 kv.2).1) model

/-- The keys that are set, each with the value it is set to last. -/
def lastValues (sets : List (String × Value)) : Bindings :=
  Dict.update [] (sets.map fun kv => (.str kv.1, kv.2))

variable {model : Model} {sets : List (String × Value)}

theorem mem_dirty_set {key : String} {value : Value} {k : Key} :
    k ∈ (model.set key value).1.dirty ↔ k = .str key ∨ k ∈ model.dirty := by
  simp only [set]
  split_ifs with hmem
  · constructor
    · exact Or.inr
    · rintro (rfl | h)
      · exact hmem
      · exact h
  · rw [List.mem_append, List.mem_singleton, or_comm]

theorem mem_dirty_setAll {k : Key} :
    k ∈ (model.setAll sets).dirty ↔ k ∈ Dict.keys (lastValues sets) ∨ k ∈ model.dirty := by
  rw [lastValues, Dict.mem_keys_update]
  induction sets generalizing model with
  | nil => simp [setAll]
  | cons head tail ih =>
      rw [setAll, List.foldl_cons]
      refine ih.trans ?_
      rw [mem_dirty_set, List.map_cons, Dict.keys_cons, List.mem_cons]
      tauto

theorem lookup_setAll (hsets : ∀ kv ∈ sets, kv.1 ≠ "__proto__") (k : Key) :
    (model.setAll sets).state.lookup k =
      ((lastValues sets).lookup k).or (model.state.lookup k) := by
  have hstate : (model.setAll sets).state = (sets.map fun kv => (Key.str kv.1, kv.2)).foldl
      (fun own kv => assign own kv.1 kv.2) model.state := by
    rw [List.foldl_map]
    induction sets generalizing model with
    | nil => rfl
    | cons head tail ih => exact ih fun kv hkv => hsets kv (List.mem_cons_of_mem _ hkv)
  have hput : ∀ own : Bindings, ∀ kv ∈ sets.map fun kv => (Key.str kv.1, kv.2),
      (assign own kv.1 kv.2).lookup k = if k = kv.1 then some kv.2 else own.lookup k := by
    intro own kv hkv
    obtain ⟨kx, hkx, rfl⟩ := List.mem_map.mp hkv
    have hproto : Key.str kx.1 ≠ protoKey := fun h => hsets kx hkx (Key.str.inj h)
    exact lookup_assign hproto k
  rw [hstate, Dict.lookup_foldl_put rfl hput, Dict.lookup_update_or, lastValues]

/-- A binding of the last values was set. -/
theorem mem_lastValues {k : Key} {value : Value} (h : (lastValues sets).lookup k = some value) :
    ∃ kv ∈ sets, k = .str kv.1 ∧ value = kv.2 := by
  have hmem : (k, value) ∈ Dict.update [] (sets.map fun kv => (Key.str kv.1, kv.2)) :=
    Dict.mem_of_lookup h
  rcases Dict.mem_update hmem with hnil | hsets
  · simp at hnil
  · obtain ⟨kv, hkv, heq⟩ := List.mem_map.mp hsets
    exact ⟨kv, hkv, (Prod.ext_iff.mp heq).1.symm, (Prod.ext_iff.mp heq).2.symm⟩

/-- Right after a save, setting keys makes a model ready that saves their last
values. -/
theorem ready_setAll (hsaved : model.dirty = [])
    (hsets : ∀ kv ∈ sets, kv.1 ≠ "__proto__" ∧ OnWire kv.2) :
    (model.setAll sets).Ready ∧
      Value.dict (model.setAll sets).dirtyState ≈ .dict (lastValues sets) := by
  have hdirty : ∀ k, k ∈ (model.setAll sets).dirty ↔ k ∈ Dict.keys (lastValues sets) := by
    intro k
    simp [mem_dirty_setAll, hsaved]
  have hlookup : ∀ k, (model.setAll sets).state.lookup k =
      ((lastValues sets).lookup k).or (model.state.lookup k) :=
    lookup_setAll fun kv hkv => (hsets kv hkv).1
  have hready : (model.setAll sets).Ready := by
    intro k hk
    obtain ⟨value, hvalue⟩ := Dict.exists_lookup_of_mem_keys ((hdirty k).mp hk)
    obtain ⟨kv, hkv, rfl, rfl⟩ := mem_lastValues hvalue
    refine ⟨⟨_, rfl⟩, fun h => (hsets kv hkv).1 (Key.str.inj h), kv.2, ?_, (hsets kv hkv).2⟩
    rw [hlookup, hvalue, Option.some_or]
  refine ⟨hready, dict_equiv_iff.mpr fun k => ?_⟩
  rw [lookup_dirtyState hready, hlookup]
  by_cases hk : k ∈ Dict.keys (lastValues sets)
  · obtain ⟨value, hvalue⟩ := Dict.exists_lookup_of_mem_keys hk
    rw [if_pos ((hdirty k).mpr hk), hvalue, Option.some_or]
    exact agree_refl _
  · rw [if_neg fun h => hk ((hdirty k).mp h), Dict.lookup_eq_none_iff.mpr hk]
    exact agree_refl _

end Model

theorem perm_keys_of_equiv {d e : Bindings} (hd : (Dict.keys d).Nodup) (he : (Dict.keys e).Nodup)
    (h : Value.dict d ≈ .dict e) : (Dict.keys d).Perm (Dict.keys e) := by
  refine (List.perm_ext_iff_of_nodup hd he).mpr fun k => ?_
  rw [← Dict.lookup_isSome_iff, ← Dict.lookup_isSome_iff, (dict_equiv_iff.mp h k).isSome_eq]

section Directions

open Lifecycle Model

theorem onWire_immutableFields : OnWire (.dict immutableFields) := by
  refine onWire_dict_iff.mpr ⟨(wf_dict_iff.mp wf_immutableFields).1, fun kv hkv => ?_⟩
  rw [immutableFields_eq] at hkv
  simp only [List.mem_cons, List.not_mem_nil, or_false] at hkv
  rcases hkv with rfl | rfl | rfl | rfl | rfl | rfl | rfl <;>
    exact ⟨⟨_, rfl⟩, by decide, onWire_leaf rfl rfl trivial⟩

theorem onWire_selected {state : Bindings} (h : OnWire (.dict state))
    (include? : Option (List Key)) : OnWire (.dict (selected include? state)) := by
  cases include? with
  | none => exact onWire_update onWire_immutableFields h
  | some keys =>
      obtain ⟨hkeys, hvalues⟩ := onWire_dict_iff.mp h
      exact onWire_dict_iff.mpr ⟨hkeys.sublist (Dict.keys_filter_sublist _ _),
        fun kc hkc => hvalues kc (List.mem_filter.mp hkc).1⟩

/-- What `send_state` sends the model takes in, key by key and with one change
event for each key, and nothing else changes. -/
theorem receive_sendState (state : HostState) (include? : Option (List Key))
    (capabilities : TransportCapabilities) (model : Model)
    (hwire : OnWire (.dict state.fields))
    (hnesting : (Value.dict state.fields).nesting ≤ Buffers.maxDepth) :
    ∃ data buffers model', ∃ changes : Bindings,
      reduce .opened (.sendState include?) state.fields capabilities =
        .ok (.opened, [.send { msgType := .commMsg, data, buffers }]) ∧
      model.receive (parsed (.dict data)) buffers =
        .ok (model', changes.map fun kv => .change kv.1 kv.2) ∧
      (Dict.keys changes).Nodup ∧
      (Dict.keys changes).Perm (Dict.keys (selected include? state.fields)) ∧
      (∀ key value, (selected include? state.fields).lookup key = some value →
        ∃ received, model'.state.lookup key = some received ∧
          received ≈ withInts number value ∧ (AllInts IsDouble value → received ≈ value) ∧
          (key, received) ∈ changes) ∧
      (∀ key, (selected include? state.fields).lookup key = none →
        model'.state.lookup key = model.state.lookup key) ∧
      model'.dirty = model.dirty := by
  have hselected : (Value.dict (selected include? state.fields)).nesting ≤ Buffers.maxDepth := by
    cases include? with
    | none => exact (nesting_fullState_le_iff state).mpr hnesting
    | some keys => exact (nesting_filter_le state.fields _).trans hnesting
  have hsent := onWire_selected hwire include?
  obtain ⟨entries, hincoming, hentries, hequiv⟩ := incoming_updateData hsent
  obtain ⟨hkeys, -⟩ := onWire_dict_iff.mp hentries
  have hreads : ∀ key, Agree (entries.lookup key)
      (((selected include? state.fields).lookup key).map (withInts number)) := by
    intro key
    rw [← lookup_withIntsEntries]
    exact dict_equiv_iff.mp hequiv key
  have hperm := perm_keys_of_equiv hkeys (onWire_dict_iff.mp
    (hsent.withInts keepsLight_number)).1 hequiv
  rw [keys_withIntsEntries] at hperm
  refine ⟨_, _, _, entries, reduceSendState_ok state include? hselected,
    receive_updateData model hincoming, hkeys, hperm, ?_, ?_, rfl⟩
  · intro key value hvalue
    have hagree := hreads key
    rw [hvalue] at hagree
    cases hentry : entries.lookup key with
    | none =>
        rw [hentry] at hagree
        cases hagree
    | some received =>
        rw [hentry] at hagree
        cases hagree with
        | some h =>
            refine ⟨received, ?_, h, fun hints => Setoid.trans h (number_equiv hints),
              Dict.mem_of_lookup hentry⟩
            simp [lookup_foldl_assign hentries, hentry]
  · intro key hnone
    have hagree := hreads key
    rw [hnone] at hagree
    have hentry : entries.lookup key = none := by
      simpa using hagree.isSome_eq
    simp [lookup_foldl_assign hentries, hentry]

/-- What the model saves after setting some keys the core applies: exactly those keys with
their last values, as far as JavaScript spells their integers in full. -/
theorem reduce_saveChanges (model : Model) (sets : List (String × Value))
    (currentState : Bindings) (capabilities : TransportCapabilities) (hsaved : model.dirty = [])
    (hsets : sets ≠ []) (hvalues : ∀ kv ∈ sets, kv.1 ≠ "__proto__" ∧ OnWire kv.2) :
    ∃ data buffers merged,
      (model.setAll sets).saveChanges =
        ({ model.setAll sets with dirty := [] }, some (data, buffers)) ∧
      reduce .opened (.inbound (stringified (.dict data)) buffers) currentState capabilities =
        .ok (.opened, [.applyState merged]) ∧
      Value.dict merged ≈ stringified (.dict (lastValues sets)) ∧
      ∀ key value, (lastValues sets).lookup key = some value → AllInts Exact value →
        Agree (merged.lookup key) (some value) := by
  obtain ⟨hready, hlast⟩ := ready_setAll hsaved hvalues
  have hdirty : (model.setAll sets).dirty ≠ [] := by
    obtain ⟨kv, hkv⟩ := List.exists_mem_of_ne_nil sets hsets
    have hmem : Key.str kv.1 ∈ Dict.keys (lastValues sets) := by
      rw [lastValues, Dict.mem_keys_update]
      exact Or.inr (List.mem_map.mpr ⟨(.str kv.1, kv.2), List.mem_map.mpr ⟨kv, hkv, rfl⟩, rfl⟩)
    exact List.ne_nil_of_mem (mem_dirty_setAll.mpr (Or.inl hmem))
  have hwire := onWire_dirtyState hready
  obtain ⟨merged, hmerge, -, hmerged⟩ := mergeUpdate_updateData (onWire_spelledFields hwire)
  have hspelled : Value.dict merged ≈ stringified (.dict (lastValues sets)) :=
    Setoid.trans hmerged (withInts_congr hlast)
  refine ⟨_, _, merged, saveChanges_eq hready hdirty, ?_, hspelled, fun key value hvalue hints => ?_⟩
  · rw [stringified_updateData hwire, ← payloadBuffers_spelledFields]
    refine (reduceInbound_update (parseMessage_updateData _) _ currentState capabilities).trans ?_
    rw [hmerge]
    rfl
  · have hagree := dict_equiv_iff.mp hspelled key
    rw [lookup_withIntsEntries, hvalue] at hagree
    exact hagree.trans (.some (stringified_equiv hints))

/-- Both directions of the wire carry wire values faithfully, but for integers: those from the
core come in as the nearest doubles, and those from the front end as their digits there. -/
theorem wire_carries_values :
    (∀ (state : HostState) (include? : Option (List Key))
      (capabilities : TransportCapabilities) (model : Model),
      OnWire (.dict state.fields) → (Value.dict state.fields).nesting ≤ Buffers.maxDepth →
      ∃ data buffers model', ∃ changes : Bindings,
        reduce .opened (.sendState include?) state.fields capabilities =
          .ok (.opened, [.send { msgType := .commMsg, data, buffers }]) ∧
        model.receive (parsed (.dict data)) buffers =
          .ok (model', changes.map fun kv => .change kv.1 kv.2) ∧
        (Dict.keys changes).Nodup ∧
        (Dict.keys changes).Perm (Dict.keys (selected include? state.fields)) ∧
        (∀ key value, (selected include? state.fields).lookup key = some value →
          ∃ received, model'.state.lookup key = some received ∧
            received ≈ withInts number value ∧ (AllInts IsDouble value → received ≈ value) ∧
            (key, received) ∈ changes) ∧
        (∀ key, (selected include? state.fields).lookup key = none →
          model'.state.lookup key = model.state.lookup key) ∧
        model'.dirty = model.dirty) ∧
    ∀ (model : Model) (sets : List (String × Value)) (currentState : Bindings)
      (capabilities : TransportCapabilities),
      model.dirty = [] → sets ≠ [] → (∀ kv ∈ sets, kv.1 ≠ "__proto__" ∧ OnWire kv.2) →
      ∃ data buffers merged,
        (model.setAll sets).saveChanges =
          ({ model.setAll sets with dirty := [] }, some (data, buffers)) ∧
        reduce .opened (.inbound (stringified (.dict data)) buffers) currentState capabilities =
          .ok (.opened, [.applyState merged]) ∧
        Value.dict merged ≈ stringified (.dict (lastValues sets)) ∧
        ∀ key value, (lastValues sets).lookup key = some value → AllInts Exact value →
          Agree (merged.lookup key) (some value) := by
  constructor
  · intro state include? capabilities model hwire hnesting
    exact receive_sendState state include? capabilities model hwire hnesting
  · intro model sets currentState capabilities hsaved hsets hvalues
    exact reduce_saveChanges model sets currentState capabilities hsaved hsets hvalues

namespace WireWitness

/-- `{"image": {"png": b"A"}}`. -/
def picture : HostState where
  fields := [(.str "image", .dict [(.str "png", .bin ⟨.bytes, [65]⟩)])]
  wf := by decide

theorem onWire_picture : OnWire (.dict picture.fields) := by
  have hpng : OnWire (.bin ⟨.bytes, [65]⟩) := onWire_leaf rfl rfl trivial
  have himage : OnWire (.dict [(.str "png", .bin ⟨.bytes, [65]⟩)]) :=
    onWire_dict_iff.mpr ⟨by decide, by simp [hpng]⟩
  exact onWire_dict_iff.mpr ⟨by decide, by simp [picture, himage]⟩

end WireWitness

theorem wire_carries_values_picture :
    (∃ data buffers model', ∃ changes : Bindings,
      reduce .opened (.sendState none) WireWitness.picture.fields {} =
        .ok (.opened, [.send { msgType := .commMsg, data, buffers }]) ∧
      (Model.new []).receive (parsed (.dict data)) buffers =
        .ok (model', changes.map fun kv => .change kv.1 kv.2)) ∧
    ∃ data buffers merged,
      ((Model.new []).setAll [("value", .int 1), ("value", .int 2)]).saveChanges.2 =
        some (data, buffers) ∧
      reduce .opened (.inbound (stringified (.dict data)) buffers) [] {} =
        .ok (.opened, [.applyState merged]) ∧
      Value.dict merged ≈ stringified (.dict [(.str "value", .int 2)]) := by
  have hone : OnWire (.int 1) := onWire_leaf rfl rfl (by decide)
  have htwo : OnWire (.int 2) := onWire_leaf rfl rfl (by decide)
  constructor
  · obtain ⟨data, buffers, model', changes, hreduce, hreceive, _⟩ :=
      wire_carries_values.1 WireWitness.picture none {} (Model.new [])
        WireWitness.onWire_picture (by decide)
    exact ⟨data, buffers, model', changes, hreduce, hreceive⟩
  · obtain ⟨data, buffers, merged, hsave, hreduce, hmerged, -⟩ :=
      wire_carries_values.2 (Model.new []) [("value", .int 1), ("value", .int 2)] [] {} rfl
        (by simp) (by simp [hone, htwo])
    exact ⟨data, buffers, merged, by rw [hsave], hreduce, hmerged⟩

namespace WireWitness

/-- `{"n": 2 ** 53 + 1}`. -/
def large : HostState where
  fields := [(.str "n", .int 9007199254740993)]
  wf := by decide

theorem onWire_large : OnWire (.dict large.fields) := by
  have hlarge : OnWire (.int 9007199254740993) := onWire_leaf rfl rfl (by decide)
  exact onWire_dict_iff.mpr ⟨by decide, by simp [large, hlarge]⟩

end WireWitness

/-- An integer that no double holds comes in as another one. -/
theorem wire_rounds_integer :
    ¬ ∀ (state : HostState) (include? : Option (List Key))
      (capabilities : TransportCapabilities) (model : Model),
      OnWire (.dict state.fields) → (Value.dict state.fields).nesting ≤ Buffers.maxDepth →
      ∃ data buffers model', ∃ changes : Bindings,
        reduce .opened (.sendState include?) state.fields capabilities =
          .ok (.opened, [.send { msgType := .commMsg, data, buffers }]) ∧
        model.receive (parsed (.dict data)) buffers =
          .ok (model', changes.map fun kv => .change kv.1 kv.2) ∧
        ∀ key value, (selected include? state.fields).lookup key = some value →
          ∃ received, model'.state.lookup key = some received ∧ received ≈ value := by
  intro h
  obtain ⟨data, buffers, model', _, hreduce, hreceive, hkept⟩ :=
    h WireWitness.large none {} (Model.new []) WireWitness.onWire_large (by decide)
  obtain ⟨data', buffers', model'', _, hreduce', hreceive', -, -, hread, -⟩ :=
    receive_sendState WireWitness.large none {} (Model.new []) WireWitness.onWire_large (by decide)
  have hsame := hreduce.symm.trans hreduce'
  simp only [Except.ok.injEq, Prod.mk.injEq, List.cons.injEq, Effect.send.injEq, Send.mk.injEq,
    true_and, and_true] at hsame
  obtain ⟨rfl, rfl⟩ := hsame
  have hmodel := hreceive.symm.trans hreceive'
  simp only [Except.ok.injEq, Prod.mk.injEq] at hmodel
  obtain ⟨rfl, -⟩ := hmodel
  obtain ⟨received, hreceived, hsent⟩ := hkept (.str "n") (.int 9007199254740993) rfl
  obtain ⟨received', hreceived', hrounded, -⟩ := hread (.str "n") (.int 9007199254740993) rfl
  cases Option.some.inj (hreceived.symm.trans hreceived')
  have hlabel := (hsent []).symm.trans (hrounded [])
  exact absurd hlabel (by decide)

end Directions

end Front

end Cositos
