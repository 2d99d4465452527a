/-
The Widget State JSON document (`serialize.py`): the base64 codec of the buffers,
one record for each model, and the envelope around the records.
-/
import Cositos.Base64
import Cositos.Json
import Cositos.Protocol

namespace Cositos

namespace Serialize

open Buffers Protocol

/-- `STATE_VERSION_MAJOR`. -/
def stateVersionMajor : Int := 2

/-- `STATE_VERSION_MINOR`. -/
def stateVersionMinor : Int := 0

/-! ### Buffers -/

/-- `_b64encode`. -/
def b64encode (buf : Binary) : String := String.ofList (Base64.encode buf.raw)

/-- `binascii.a2b_base64`. -/
def a2bBase64 (chars : List Char) : Except PyError (List UInt8) :=
  match Base64.decode chars with
  | some raw => .ok raw
  | none => .error (.valueError "Incorrect padding")

/-- `base64.b64decode`. -/
def base64Decode : Value → Except PyError (List UInt8)
  | .str s =>
      if s.toList.all fun c => c.toNat < 128 then a2bBase64 s.toList
      else .error (.valueError "string argument should contain only ASCII characters")
  | .bin b => a2bBase64 (b.raw.map fun byte => Char.ofNat byte.toNat)
  | _ => .error .typeError

/-- `_b64decode`. -/
def b64decode : Value → Except PyError Binary
  | .dict entry =>
      match get entry "encoding" .none with
      | .str "base64" => do
          let data ← (Value.dict entry).getItem (.str "data")
          let raw ← base64Decode data
          return ⟨.bytes, raw⟩
      | encoding => .error (.unsupportedEncoding encoding)
  | _ => .error .attributeError

/-- The record of one buffer. -/
def bufferRecord (path : Path) (buf : Binary) : Value :=
  .dict [(.str "path", path.toValue), (.str "encoding", .str "base64"),
    (.str "data", .str (b64encode buf))]

/-- `encode_buffers_base64`. -/
def encodeBuffersBase64 : Split Value → Except PyError (Value × List Value)
  | (stripped, bufferPaths, buffers) =>
      if bufferPaths.length = buffers.length then
        .ok (stripped, List.zipWith bufferRecord bufferPaths buffers)
      else
        .error (.valueError "zip() arguments have different lengths")

/-- One turn of the loop in `decode_buffers_base64`. -/
def decodeEntry (entry : Value) : Except PyError (Value × Binary) := do
  let path ← entry.getItem (.str "path")
  let buf ← b64decode entry
  return (path, buf)

/-- `decode_buffers_base64`. -/
def decodeBuffersBase64 (stripped entries : Value) :
    Except PyError (Value × List Value × List Binary) := do
  let entries ← entries.iterate
  let decoded ← entries.mapM decodeEntry
  return (stripped, decoded.map Prod.fst, decoded.map Prod.snd)

/-! ### Models -/

/-- `dump_model`. -/
def dumpModel (entry : String × Bindings)
    (anywidgetVersion : String := anywidgetModuleVersion) :
    Except PyError (String × Bindings) := do
  let (modelId, state) := entry
  let (stripped, bufferPaths, buffers) ← removeBuffers (.dict state)
  let (_, entries) ← encodeBuffersBase64 (stripped, bufferPaths, buffers)
  let record := [
    (.str "model_name", get state "_model_name" (.str "AnyModel")),
    (.str "model_module", get state "_model_module" (.str "anywidget")),
    (.str "model_module_version", get state "_model_module_version" (.str anywidgetVersion)),
    (.str "state", stripped)]
  return (modelId,
    if entries.isEmpty then record else Dict.set record (.str "buffers") (.list entries))

/-- `load_model`.  The deep copy of a tree is the tree. -/
def loadModel (item : Key × Value) : Except PyError (Key × Value) := do
  let (modelId, record) := item
  let state ← record.getItem (.str "state")
  let (_, bufferPaths, buffers) ←
    decodeBuffersBase64 state (get record.bindings "buffers" (.list []))
  let state ← putBuffers state bufferPaths buffers
  return (modelId, state)

/-! ### Documents -/

/-- One turn of the loop in `dump_document`. -/
def dumpEntry (anywidgetVersion : String) (state : Bindings) (entry : String × Bindings) :
    Except PyError Bindings := do
  let (modelId, record) ← dumpModel entry anywidgetVersion
  if modelId = "" then
    .error (.valueError "model_id must be a non-empty string (it is the document key)")
  else if .str modelId ∈ Dict.keys state then
    .error (.duplicateModelId modelId)
  else
    return Dict.set state (.str modelId) (.dict record)

/-- `dump_document`. -/
def dumpDocument (entries : List (String × Bindings))
    (anywidgetVersion : String := anywidgetModuleVersion) : Except PyError Bindings := do
  let state ← entries.foldlM (dumpEntry anywidgetVersion) []
  return [
    (.str "version_major", .int stateVersionMajor),
    (.str "version_minor", .int stateVersionMinor),
    (.str "state", .dict state)]

/-- `value == STATE_VERSION_MAJOR`. -/
def isStateVersion : Value → Bool
  | .scalar s => s.key = .int stateVersionMajor
  | _ => false

/-- `load_document`. -/
def loadDocument (doc : Bindings) : Except PyError (List (Key × Value)) :=
  match doc.lookup (.str "state") with
  | none => .error (.valueError "invalid widget-state document: missing 'state' key")
  | some state =>
      let versionMajor := get doc "version_major" .none
      if !isStateVersion versionMajor then
        .error (.unsupportedVersion versionMajor)
      else
        match state with
        | .dict records => records.mapM loadModel
        | _ => .error (.stateNotMapping state)

/-! ### The codec on what it writes -/

open Value

/-- The buffer records of a state. -/
def bufferRecords (fields : Bindings) : List Value :=
  (Value.dict fields).binaries.map fun leaf => bufferRecord leaf.1 leaf.2

/-- The record `dump_model` makes of a state. -/
def modelRecord (anywidgetVersion : String) (fields : Bindings) : Bindings :=
  [(.str "model_name", get fields "_model_name" (.str "AnyModel")),
    (.str "model_module", get fields "_model_module" (.str "anywidget")),
    (.str "model_module_version",
      get fields "_model_module_version" (.str anywidgetVersion)),
    (.str "state", (Value.dict fields).strip)] ++
  if (bufferRecords fields).isEmpty then [] else [(.str "buffers", .list (bufferRecords fields))]

theorem dumpModel_ok {state : HostState}
    (hnesting : (Value.dict state.fields).nesting ≤ maxDepth) (modelId : String)
    (anywidgetVersion : String) :
    dumpModel (modelId, state.fields) anywidgetVersion =
      .ok (modelId, modelRecord anywidgetVersion state.fields) := by
  have hzip : List.zipWith bufferRecord ((Value.dict state.fields).binaries.map Prod.fst)
      ((Value.dict state.fields).binaries.map Prod.snd) = bufferRecords state.fields := by
    simp [bufferRecords, List.zipWith_map, List.zipWith_self]
  rw [dumpModel, removeBuffers_container state.wf rfl hnesting]
  simp only [encodeBuffersBase64, List.length_map, if_true, hzip, bind, Except.bind, pure,
    Except.pure, modelRecord]
  by_cases hempty : (bufferRecords state.fields).isEmpty = true
  · simp [hempty]
  · simp [hempty, Dict.set]

theorem base64Decode_b64encode (buf : Binary) :
    base64Decode (.str (b64encode buf)) = .ok buf.raw := by
  have hascii : (b64encode buf).toList.all (fun c => c.toNat < 128) = true := by
    simp only [b64encode, String.toList_ofList, List.all_eq_true, decide_eq_true_eq]
    exact Base64.encode_ascii buf.raw
  rw [base64Decode, if_pos hascii, b64encode, String.toList_ofList, a2bBase64,
    Base64.decode_encode]

theorem decodeEntry_bufferRecord (path : Path) (buf : Binary) :
    decodeEntry (bufferRecord path buf).plain = .ok (path.toValue, ⟨.bytes, buf.raw⟩) := by
  have hplain : (bufferRecord path buf).plain = bufferRecord path buf := by
    simp [bufferRecord, plain, plainEntries, plain_path]
  have hdecode : b64decode (bufferRecord path buf) = do
      let raw ← base64Decode (.str (b64encode buf))
      return ⟨.bytes, raw⟩ := rfl
  rw [base64Decode_b64encode] at hdecode
  rw [hplain, decodeEntry, hdecode]
  rfl

theorem decodeBuffersBase64_bufferRecords (stripped : Value) (fields : Bindings) :
    decodeBuffersBase64 stripped (.list ((bufferRecords fields).map plain)) =
      .ok (stripped, (Value.dict fields).binaries.map fun leaf => leaf.1.toValue,
        (Value.dict fields).binaries.map fun leaf => ⟨.bytes, leaf.2.raw⟩) := by
  have hmapM : ((bufferRecords fields).map plain).mapM decodeEntry =
      Except.ok ((Value.dict fields).binaries.map fun leaf =>
        (leaf.1.toValue, (⟨.bytes, leaf.2.raw⟩ : Binary))) := by
    rw [bufferRecords]
    induction (Value.dict fields).binaries with
    | nil => rfl
    | cons leaf leaves ih =>
        rw [List.map_cons, List.map_cons, List.mapM_cons, decodeEntry_bufferRecord, ih]
        rfl
  rw [decodeBuffersBase64, iterate]
  simp only [hmapM, bind, Except.bind, pure, Except.pure, List.map_map]
  rfl

/-- A record read back from JSON holds the state it was made of. -/
theorem loadModel_plain {fields : Bindings} (hwf : (Value.dict fields).Wf)
    (anywidgetVersion : String) (key : Key) :
    ∃ w, loadModel (key, (Value.dict (modelRecord anywidgetVersion fields)).plain) =
        .ok (key, w) ∧ w ≈ (Value.dict fields).plain := by
  obtain ⟨w, hput, hw⟩ := putBuffers_plain hwf rfl
  refine ⟨w, ?_, hw⟩
  have hstate : (Value.dict (modelRecord anywidgetVersion fields)).plain.getItem (.str "state") =
      .ok (Value.dict fields).strip.plain := rfl
  have hbuffers : get (Value.dict (modelRecord anywidgetVersion fields)).plain.bindings "buffers"
      (.list []) = .list ((bufferRecords fields).map plain) := by
    by_cases hempty : bufferRecords fields = []
    · rw [modelRecord, hempty]
      rfl
    · have hnot : (bufferRecords fields).isEmpty = false := by simpa using hempty
      rw [modelRecord, hnot, ← plainSeq_eq]
      rfl
  rw [loadModel, hstate, hbuffers]
  simp only [bind, Except.bind, decodeBuffersBase64_bufferRecords, hput, pure, Except.pure]

/-! ### Documents of JSON states -/

/-- The keys under which a record repeats values of the state. -/
def identityKeys : List Key :=
  [.str "_model_name", .str "_model_module", .str "_model_module_version"]

/-- A state that can be dumped: JSON values and binary values, tuples allowed,
within the depth cap, and no binary value within what a record repeats. -/
structure Dumpable (fields : Bindings) : Prop where
  json : (Value.dict fields).jsonWith true = true
  nesting : (Value.dict fields).nesting ≤ maxDepth
  identity : ∀ key ∈ identityKeys, ∀ value, fields.lookup key = some value →
    value.binaries = []

/-- JSON text can carry the value. -/
def Portable (v : Value) : Prop := v.jsonWith true = true ∧ v.binaries = []

theorem portable_dict_iff {kvs : Bindings} :
    Portable (.dict kvs) ↔ ∀ kc ∈ kvs, (∃ s, kc.1 = .str s) ∧ Portable kc.2 := by
  rw [Portable, json_dict_iff, binaries_eq_items rfl, List.flatMap_eq_nil_iff]
  simp only [List.map_eq_nil_iff, Value.items, Portable]
  constructor
  · rintro ⟨hjson, hbin⟩ kc hkc
    exact ⟨(hjson kc hkc).1, (hjson kc hkc).2, hbin kc hkc⟩
  · intro h
    exact ⟨fun kc hkc => ⟨(h kc hkc).1, (h kc hkc).2.1⟩, fun kc hkc => (h kc hkc).2.2⟩

theorem portable_get {fields : Bindings} (h : Dumpable fields) (key : String)
    (hkey : .str key ∈ identityKeys) (text : String) :
    Portable (get fields key (.str text)) := by
  unfold Protocol.get
  cases hlookup : fields.lookup (.str key) with
  | none => exact ⟨rfl, rfl⟩
  | some value =>
      have hmem := Dict.mem_of_lookup hlookup
      exact ⟨(json_dict_iff.mp h.json _ hmem).2, h.identity _ hkey value hlookup⟩

theorem portable_bufferRecords {fields : Bindings} (h : Dumpable fields) :
    Portable (.list (bufferRecords fields)) := by
  have hrecord : ∀ x ∈ bufferRecords fields, Portable x := by
    intro x hx
    obtain ⟨leaf, hleaf, rfl⟩ := List.mem_map.mp hx
    have hpath : Portable leaf.1.toValue := by
      refine ⟨json_path h.json hleaf, ?_⟩
      rw [Path.toValue, binaries_eq_items rfl, List.flatMap_eq_nil_iff]
      intro kc hkc
      rw [Value.items, enumItems_map] at hkc
      obtain ⟨kx, _, rfl⟩ := List.mem_map.mp hkc
      obtain ⟨_, k⟩ := kx
      cases k <;> rfl
    apply portable_dict_iff.mpr
    simpa [Portable, jsonWith, binaries] using hpath
  refine ⟨json_list_iff.mpr fun x hx => (hrecord x hx).1, ?_⟩
  rw [binaries_eq_items rfl, List.flatMap_eq_nil_iff]
  rintro ⟨k, x⟩ hkc
  obtain ⟨n, _, hn⟩ := mem_enumItems_iff.mp hkc
  simp [(hrecord x (List.mem_of_getElem? hn)).2]

theorem portable_modelRecord {fields : Bindings} (h : Dumpable fields)
    (anywidgetVersion : String) : Portable (.dict (modelRecord anywidgetVersion fields)) := by
  have hstate : Portable (Value.dict fields).strip := ⟨json_strip h.json, binaries_strip _⟩
  have hname := portable_get h "_model_name" (by decide) "AnyModel"
  have hmodule := portable_get h "_model_module" (by decide) "anywidget"
  have hversion := portable_get h "_model_module_version" (by decide) anywidgetVersion
  have hbuffers := portable_bufferRecords h
  apply portable_dict_iff.mpr
  intro kc hkc
  rw [modelRecord, List.mem_append] at hkc
  rcases hkc with hfour | hlast
  · simp only [List.mem_cons, List.not_mem_nil, or_false] at hfour
    rcases hfour with rfl | rfl | rfl | rfl
    · exact ⟨⟨_, rfl⟩, hname⟩
    · exact ⟨⟨_, rfl⟩, hmodule⟩
    · exact ⟨⟨_, rfl⟩, hversion⟩
    · exact ⟨⟨_, rfl⟩, hstate⟩
  · split_ifs at hlast
    · simp at hlast
    · obtain rfl := List.mem_singleton.mp hlast
      exact ⟨⟨_, rfl⟩, hbuffers⟩

/-! ### The fold over the entries -/

/-- The entries with each state dumped. -/
def modelRecords (anywidgetVersion : String) (entries : List (String × HostState)) : Bindings :=
  entries.map fun entry =>
    (.str entry.1, .dict (modelRecord anywidgetVersion entry.2.fields))

/-- The entries as Python passes them. -/
def modelEntries (entries : List (String × HostState)) : List (String × Bindings) :=
  entries.map (Prod.map id HostState.fields)

variable {anywidgetVersion : String} {entries : List (String × HostState)}

theorem dumpEntry_eq (anywidgetVersion : String) (state : Bindings) {entry : String × HostState}
    (h : Dumpable entry.2.fields) :
    dumpEntry anywidgetVersion state (entry.1, entry.2.fields) =
      if entry.1 = "" then
        .error (.valueError "model_id must be a non-empty string (it is the document key)")
      else if .str entry.1 ∈ Dict.keys state then
        .error (.duplicateModelId entry.1)
      else
        .ok (Dict.set state (.str entry.1)
          (.dict (modelRecord anywidgetVersion entry.2.fields))) := by
  rw [dumpEntry, dumpModel_ok h.nesting]
  rfl

/-- The loop appends a record for each entry, as long as the ids are fresh. -/
theorem foldlM_dumpEntry_ok (anywidgetVersion : String)
    (hentries : ∀ entry ∈ entries, Dumpable entry.2.fields) (state : Bindings)
    (hnonempty : ∀ entry ∈ entries, entry.1 ≠ "")
    (hnodup : (entries.map Prod.fst).Nodup)
    (hfresh : ∀ entry ∈ entries, Key.str entry.1 ∉ Dict.keys state) :
    (modelEntries entries).foldlM (dumpEntry anywidgetVersion) state =
      .ok (state ++ modelRecords anywidgetVersion entries) := by
  induction entries generalizing state with
  | nil => simp [modelEntries, modelRecords, pure, Except.pure]
  | cons entry entries ih =>
      simp only [List.map_cons, List.nodup_cons, List.forall_mem_cons] at *
      have hkey : Key.str entry.1 ∉ Dict.keys state := hfresh.1
      have hstep := dumpEntry_eq anywidgetVersion state hentries.1
      rw [if_neg hnonempty.1, if_neg hkey, Dict.set_of_not_mem hkey] at hstep
      have hrest := ih hentries.2 (state ++ [(.str entry.1,
        .dict (modelRecord anywidgetVersion entry.2.fields))]) hnonempty.2 hnodup.2 (by
          intro other hother hmem
          rw [Dict.keys_append, List.mem_append] at hmem
          rcases hmem with hold | hnew
          · exact hfresh.2 other hother hold
          · have heq : other.1 = entry.1 := by simpa using hnew
            exact hnodup.1 (heq ▸ List.mem_map.mpr ⟨other, hother, rfl⟩))
      rw [modelEntries, List.map_cons, List.foldlM_cons]
      simp only [Prod.map, id, hstep, bind, Except.bind]
      refine hrest.trans ?_
      simp [modelRecords]

/-- An empty id, or one met before, stops the loop with a `ValueError`. -/
theorem foldlM_dumpEntry_error (anywidgetVersion : String)
    (hentries : ∀ entry ∈ entries, Dumpable entry.2.fields) (state : Bindings)
    (hbad : ¬ ((∀ entry ∈ entries, entry.1 ≠ "") ∧ (entries.map Prod.fst).Nodup ∧
      ∀ entry ∈ entries, Key.str entry.1 ∉ Dict.keys state)) :
    ∃ e, (modelEntries entries).foldlM (dumpEntry anywidgetVersion) state = .error e ∧
      e.isValueError = true := by
  induction entries generalizing state with
  | nil => simp at hbad
  | cons entry entries ih =>
      have hstep := dumpEntry_eq anywidgetVersion state
        (hentries entry List.mem_cons_self)
      rw [modelEntries, List.map_cons, List.foldlM_cons]
      simp only [Prod.map, id, hstep, bind, Except.bind]
      by_cases hempty : entry.1 = ""
      · exact ⟨_, by rw [if_pos hempty], rfl⟩
      by_cases hkey : Key.str entry.1 ∈ Dict.keys state
      · exact ⟨_, by rw [if_neg hempty, if_pos hkey], rfl⟩
      rw [if_neg hempty, if_neg hkey]
      refine ih (fun e he => hentries e (List.mem_cons_of_mem _ he)) _ fun hgood => hbad ?_
      obtain ⟨hnonempty, hnodup, hfresh⟩ := hgood
      simp only [Dict.mem_keys_set, not_or] at hfresh
      simp only [List.map_cons, List.nodup_cons, List.forall_mem_cons]
      refine ⟨⟨hempty, hnonempty⟩, ⟨?_, hnodup⟩, hkey, fun e he => (hfresh e he).2⟩
      intro hmem
      obtain ⟨other, hother, heq⟩ := List.mem_map.mp hmem
      exact (hfresh other hother).1 (by rw [heq])

/-- The ids of a document: non-empty and pairwise distinct. -/
def ProperIds (ids : List String) : Prop := (∀ id ∈ ids, id ≠ "") ∧ ids.Nodup

/-- The envelope around the records. -/
def document (anywidgetVersion : String) (entries : List (String × HostState)) : Bindings :=
  [(.str "version_major", .int stateVersionMajor),
    (.str "version_minor", .int stateVersionMinor),
    (.str "state", .dict (modelRecords anywidgetVersion entries))]

theorem dumpDocument_ok (hentries : ∀ entry ∈ entries, Dumpable entry.2.fields)
    (hids : ProperIds (entries.map Prod.fst)) (anywidgetVersion : String) :
    dumpDocument (modelEntries entries) anywidgetVersion =
      .ok (document anywidgetVersion entries) := by
  have hloop := foldlM_dumpEntry_ok anywidgetVersion hentries []
    (fun e he => hids.1 e.1 (List.mem_map.mpr ⟨e, he, rfl⟩)) hids.2 (by simp)
  rw [dumpDocument, hloop]
  rfl

theorem dumpDocument_error (hentries : ∀ entry ∈ entries, Dumpable entry.2.fields)
    (hids : ¬ ProperIds (entries.map Prod.fst)) (anywidgetVersion : String) :
    ∃ e, dumpDocument (modelEntries entries) anywidgetVersion = .error e ∧
      e.isValueError = true := by
  obtain ⟨e, hloop, he⟩ := foldlM_dumpEntry_error anywidgetVersion
    hentries [] fun hgood => hids ⟨by
      intro id hid
      obtain ⟨entry, hentry, rfl⟩ := List.mem_map.mp hid
      exact hgood.1 entry hentry, hgood.2.1⟩
  exact ⟨e, by rw [dumpDocument, hloop]; rfl, he⟩

theorem portable_document (hentries : ∀ entry ∈ entries, Dumpable entry.2.fields)
    (anywidgetVersion : String) : Portable (.dict (document anywidgetVersion entries)) := by
  have hrecords : Portable (.dict (modelRecords anywidgetVersion entries)) := by
    apply portable_dict_iff.mpr
    intro kc hkc
    obtain ⟨entry, hentry, rfl⟩ := List.mem_map.mp hkc
    exact ⟨⟨_, rfl⟩, portable_modelRecord (hentries entry hentry) anywidgetVersion⟩
  apply portable_dict_iff.mpr
  intro kc hkc
  simp only [document, List.mem_cons, List.not_mem_nil, or_false] at hkc
  rcases hkc with rfl | rfl | rfl
  · exact ⟨⟨_, rfl⟩, rfl, rfl⟩
  · exact ⟨⟨_, rfl⟩, rfl, rfl⟩
  · exact ⟨⟨_, rfl⟩, hrecords⟩

/-- Loading gives each model back under its id, in the order of the document. -/
theorem loadDocument_plain (anywidgetVersion : String) (entries : List (String × HostState)) :
    ∃ loaded,
      loadDocument (Value.dict (document anywidgetVersion entries)).plain.bindings =
        .ok loaded ∧
      List.Forall₂ (fun (entry : String × HostState) (model : Key × Value) =>
        model.1 = .str entry.1 ∧ model.2 ≈ (Value.dict entry.2.fields).plain) entries loaded := by
  have hload : loadDocument (Value.dict (document anywidgetVersion entries)).plain.bindings =
      (plainEntries (modelRecords anywidgetVersion entries)).mapM loadModel := rfl
  rw [hload]
  induction entries with
  | nil => exact ⟨[], rfl, .nil⟩
  | cons entry entries ih =>
      obtain ⟨loaded, hloaded, hrest⟩ := ih rfl
      obtain ⟨w, hw, hequiv⟩ := loadModel_plain entry.2.wf anywidgetVersion (.str entry.1)
      refine ⟨(.str entry.1, w) :: loaded, ?_, .cons ⟨rfl, hequiv⟩ hrest⟩
      rw [modelRecords, List.map_cons, plainEntries, List.mapM_cons, hw]
      simp only [bind, Except.bind]
      rw [modelRecords] at hloaded
      rw [hloaded]
      rfl

/-- Dumping succeeds exactly for non-empty, pairwise distinct ids; the document
holds no binary value, and loading it after a trip through JSON text gives every
model back in its place. -/
theorem loadDocument_dumpDocument (entries : List (String × HostState))
    (hentries : ∀ entry ∈ entries, Dumpable entry.2.fields) (anywidgetVersion : String) :
    let dumped := dumpDocument (modelEntries entries) anywidgetVersion
    ((∃ doc, dumped = .ok doc) ↔
      (∀ entry ∈ entries, entry.1 ≠ "") ∧ (entries.map Prod.fst).Nodup) ∧
    (∀ e, dumped = .error e → e.isValueError = true) ∧
    ∀ doc, dumped = .ok doc →
      (Value.dict doc).binaries = [] ∧
      ∃ reloaded loaded, (Value.dict doc).reload = .ok (.dict reloaded) ∧
        loadDocument reloaded = .ok loaded ∧
        List.Forall₂ (fun (entry : String × HostState) (model : Key × Value) =>
          model.1 = .str entry.1 ∧ model.2 ≈ (Value.dict entry.2.fields).plain)
          entries loaded := by
  have hproper : ProperIds (entries.map Prod.fst) ↔
      (∀ entry ∈ entries, entry.1 ≠ "") ∧ (entries.map Prod.fst).Nodup := by
    simp [ProperIds]
  intro dumped
  rw [← hproper]
  by_cases hids : ProperIds (entries.map Prod.fst)
  · have hok : dumped = .ok (document anywidgetVersion entries) :=
      dumpDocument_ok hentries hids anywidgetVersion
    obtain ⟨hjson, hbin⟩ := portable_document hentries anywidgetVersion
    obtain ⟨loaded, hload, hmodels⟩ := loadDocument_plain anywidgetVersion entries
    refine ⟨iff_of_true ⟨_, hok⟩ hids, ?_, ?_⟩
    · intro e he
      rw [hok] at he
      cases he
    · intro doc hdoc
      rw [hok] at hdoc
      cases hdoc
      exact ⟨hbin, _, loaded, reload_ok hjson hbin, hload, hmodels⟩
  · obtain ⟨e, herror, he⟩ := dumpDocument_error hentries hids anywidgetVersion
    have hdumped : dumped = .error e := herror
    refine ⟨iff_of_false ?_ hids, ?_, ?_⟩
    · rintro ⟨doc, hdoc⟩
      rw [hdumped] at hdoc
      cases hdoc
    · intro e' he'
      rw [hdumped] at he'
      cases he'
      exact he
    · intro doc hdoc
      rw [hdumped] at hdoc
      cases hdoc

namespace SerializeWitness

/-- `{"image": (b"A", None), "title": "x"}`. -/
def plot : HostState where
  fields := [
    (.str "image", .tuple [.bin ⟨.bytes, [65]⟩, .none]),
    (.str "title", .str "x")]
  wf := by decide

/-- `{"_model_name": [b"A"]}`. -/
def misnamed : HostState where
  fields := [(.str "_model_name", .list [.bin ⟨.bytes, [65]⟩])]
  wf := by decide

theorem dumpable_plot : Dumpable plot.fields where
  json := by decide
  nesting := by decide
  identity := by
    intro key hkey value hvalue
    simp only [identityKeys, List.mem_cons, List.not_mem_nil, or_false] at hkey
    rcases hkey with rfl | rfl | rfl <;> cases hvalue

end SerializeWitness

theorem loadDocument_dumpDocument_plot :
    ∃ doc reloaded loaded,
      dumpDocument (modelEntries [("a", SerializeWitness.plot), ("b", SerializeWitness.plot)]) =
        .ok doc ∧
      (Value.dict doc).reload = .ok (.dict reloaded) ∧ loadDocument reloaded = .ok loaded ∧
      loaded.map Prod.fst = [.str "a", .str "b"] := by
  obtain ⟨hids, _, hdoc⟩ := loadDocument_dumpDocument
    [("a", SerializeWitness.plot), ("b", SerializeWitness.plot)]
    (by simp [SerializeWitness.dumpable_plot]) anywidgetModuleVersion
  obtain ⟨doc, hdump⟩ := hids.mpr (by decide)
  obtain ⟨_, reloaded, loaded, hreload, hload, hmodels⟩ := hdoc doc hdump
  refine ⟨doc, reloaded, loaded, hdump, hreload, hload, ?_⟩
  cases hmodels with
  | cons hfirst hrest =>
      cases hrest with
      | cons hsecond hnil =>
          cases hnil
          simp [hfirst.1, hsecond.1]

/-- A list that holds a binary value, bound to `_model_name`, reaches the
document as it is. -/
theorem dumpDocument_keeps_binary :
    ¬ ∀ entries : List (String × HostState),
      (∀ entry ∈ entries, (Value.dict entry.2.fields).jsonWith true = true ∧
        (Value.dict entry.2.fields).nesting ≤ maxDepth ∧
        ∀ key ∈ identityKeys, ∀ value, entry.2.fields.lookup key = some value →
          value.isBinary = false) →
      ∀ doc, dumpDocument (modelEntries entries) = .ok doc → (Value.dict doc).binaries = [] := by
  intro h
  have hnesting : (Value.dict SerializeWitness.misnamed.fields).nesting ≤ maxDepth := by decide
  have hdump : dumpDocument (modelEntries [("m", SerializeWitness.misnamed)]) =
      .ok (document anywidgetModuleVersion [("m", SerializeWitness.misnamed)]) := by
    simp only [dumpDocument, modelEntries, List.map_cons, List.map_nil, List.foldlM_cons,
      dumpEntry, Prod.map, id, dumpModel_ok hnesting]
    rfl
  have hbin := h [("m", SerializeWitness.misnamed)] (by
    simp only [List.mem_singleton, forall_eq]
    refine ⟨by decide, hnesting, ?_⟩
    intro key hkey value hvalue
    simp only [identityKeys, List.mem_cons, List.not_mem_nil, or_false] at hkey
    rcases hkey with rfl | rfl | rfl <;> cases hvalue
    rfl) _ hdump
  exact absurd hbin (by decide +kernel)

end Serialize

end Cositos
