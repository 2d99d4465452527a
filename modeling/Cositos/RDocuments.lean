/-
The writers of the R port (`dump_model`, `dump_document`): R loads the documents of the other
languages, and they load its own, where an R list tells the parts of a state apart.
-/
import Cositos.RUpdates

namespace Cositos

open Value Buffers Protocol

/-- What the writers stop with. -/
inductive RDumpError
  | core (e : RError)
  /-- `model_id must be a non-empty string (it is the document key)` -/
  | emptyModelId
  /-- `sprintf("duplicate model_id %s: document keys must be unique", deparse(model_id))` -/
  | duplicateModelId (modelId : String)

namespace R

/-! ### Writing -/

/-- `.get_or`. -/
def getOr (state : Value) (name : String) (default : Value) : Value :=
  if .str name ∈ names state then getElement state (.str name) else default

variable (encode : List UInt8 → String)

/-- The entry of a buffer, with the text of jsonlite's `base64_enc`. -/
def bufferEntry (path : Path) (buf : Binary) : Value :=
  .dict [(.str "path", path.toValue), (.str "encoding", .str "base64"),
    (.str "data", .str (encode buf.raw))]

/-- `dump_model`. -/
def dumpModel (anywidgetVersion : String) (entry : String × Value) :
    Except RError (String × Value) := do
  let (modelId, state) := entry
  let (stripped, paths, buffers) ← removeBuffers state
  let record := .dict [
    (.str "model_name", getOr state "_model_name" (.str "AnyModel")),
    (.str "model_module", getOr state "_model_module" (.str "anywidget")),
    (.str "model_module_version",
      getOr state "_model_module_version" (.str anywidgetVersion)),
    (.str "state", stripped)]
  return (modelId,
    if 0 < buffers.length then
      setElement record (.str "buffers")
        (.list (List.zipWith (bufferEntry encode) paths buffers))
    else record)

/-- One turn of the loop in `dump_document`; `list()` has no names. -/
def dumpEntry (anywidgetVersion : String) (state : Value) (entry : String × Value) :
    Except RDumpError Value :=
  match dumpModel encode anywidgetVersion entry with
  | .error e => .error (.core e)
  | .ok (modelId, record) =>
      if modelId = "" then .error .emptyModelId
      else if .str modelId ∈ names state then .error (.duplicateModelId modelId)
      else .ok (setElement state (.str modelId) record)

/-- `dump_document`. -/
def dumpDocument (anywidgetVersion : String) (entries : List (String × Value)) :
    Except RDumpError Bindings := do
  let state ← entries.foldlM (dumpEntry encode anywidgetVersion) (.list [])
  return [
    (.str "version_major", .int Serialize.stateVersionMajor),
    (.str "version_minor", .int Serialize.stateVersionMinor),
    (.str "state", state)]

/-- A list built up element by element. -/
def built : Bindings → Value
  | [] => .list []
  | records => .dict records

theorem names_built (records : Bindings) : names (built records) = Dict.keys records := by
  cases records <;> rfl

theorem setElement_built {records : Bindings} {key : Key} (hkey : key ∉ Dict.keys records)
    (fields : Bindings) :
    setElement (built records) key (.dict fields) = built (records ++ [(key, .dict fields)]) := by
  cases records with
  | nil => rfl
  | cons head records =>
      show Value.dict (Dict.set _ key (.dict fields)) = _
      rw [Dict.set_of_not_mem hkey]
      rfl

end R

/-- A state that R writes as the other languages do. -/
structure RStorable (fields : Bindings) : Prop where
  holds : RHolds (.dict fields)
  json : (Value.dict fields).json = true
  kept : (Value.dict fields).kept = true
  nesting : (Value.dict fields).nesting ≤ maxDepth
  identity : ∀ key ∈ Serialize.identityKeys, ∀ value, fields.lookup key = some value →
    ∃ s, value = .str s

theorem RStorable.storable {fields : Bindings} (h : RStorable fields) : Storable fields :=
  ⟨jsonWith_of_json h.json, h.nesting, h.identity⟩

namespace R

variable {encode : List UInt8 → String} {anywidgetVersion : String}
  {entries : List (String × HostState)}

theorem getOr_dict_eq {name : String} (hname : name ≠ "") (fields : Bindings) (default : Value) :
    getOr (.dict fields) name default = get fields name default := by
  rw [getOr, names, getElement, if_neg (fun h => hname (Key.str.inj h)), bindings,
    Protocol.get]
  cases hlookup : fields.lookup (.str name) with
  | none => rw [if_neg (Dict.lookup_eq_none_iff.mp hlookup)]; rfl
  | some value =>
      have hmem : Key.str name ∈ Dict.keys fields :=
        List.mem_map.mpr ⟨_, Dict.mem_of_lookup hlookup, rfl⟩
      rw [if_pos hmem]
      rfl

/-- The entries as R passes them. -/
def modelEntries (entries : List (String × HostState)) : List (String × Value) :=
  entries.map (Prod.map id fun state => .dict state.fields)

theorem bufferEntry_eq (hencode : ∀ raw, encode raw = String.ofList (Base64.encode raw)) :
    bufferEntry encode = Serialize.bufferRecord := by
  funext path buf
  rw [bufferEntry, hencode]
  rfl

theorem dumpModel_ok (hencode : ∀ raw, encode raw = String.ofList (Base64.encode raw))
    {state : HostState} (h : RStorable state.fields) (anywidgetVersion modelId : String) :
    dumpModel encode anywidgetVersion (modelId, .dict state.fields) =
      .ok (modelId, .dict (Serialize.modelRecord anywidgetVersion state.fields)) := by
  have hzip : List.zipWith Serialize.bufferRecord
      ((Value.dict state.fields).binaries.map Prod.fst)
      ((Value.dict state.fields).binaries.map Prod.snd) =
        Serialize.bufferRecords state.fields := by
    simp [Serialize.bufferRecords, List.zipWith_map, List.zipWith_self]
  have hlength : ((Value.dict state.fields).binaries.map Prod.snd).length =
      (Serialize.bufferRecords state.fields).length := by
    simp [Serialize.bufferRecords]
  have hsplit : (Value.dict state.fields).split = ((Value.dict state.fields).strip,
    (Value.dict state.fields).binaries.map Prod.fst,
    (Value.dict state.fields).binaries.map Prod.snd) := rfl
  rw [dumpModel, bufferEntry_eq hencode, removeBuffers_kept state.wf h.json h.kept h.nesting, hsplit]
  simp only [bind, Except.bind, pure, Except.pure, hzip, hlength,
    getOr_dict_eq (show "_model_name" ≠ "" by decide),
    getOr_dict_eq (show "_model_module" ≠ "" by decide),
    getOr_dict_eq (show "_model_module_version" ≠ "" by decide), Serialize.modelRecord]
  by_cases hbuffers : Serialize.bufferRecords state.fields = []
  · simp [hbuffers]
  · have hpos : 0 < (Serialize.bufferRecords state.fields).length :=
      List.length_pos_iff.mpr hbuffers
    rw [if_pos hpos, List.isEmpty_eq_false_iff.mpr hbuffers]
    simp [setElement, Dict.set]

/-- The loop adds a record for each entry, as long as the ids are fresh. -/
theorem foldlM_dumpEntry_ok (hencode : ∀ raw, encode raw = String.ofList (Base64.encode raw))
    (hentries : ∀ entry ∈ entries, RStorable entry.2.fields)
    (records : Bindings) (hnonempty : ∀ entry ∈ entries, entry.1 ≠ "")
    (hnodup : (entries.map Prod.fst).Nodup)
    (hfresh : ∀ entry ∈ entries, Key.str entry.1 ∉ Dict.keys records) :
    (modelEntries entries).foldlM (dumpEntry encode anywidgetVersion) (built records) =
      .ok (built (records ++ Serialize.modelRecords anywidgetVersion entries)) := by
  induction entries generalizing records with
  | nil => simp [modelEntries, Serialize.modelRecords, pure, Except.pure]
  | cons entry entries ih =>
      simp only [List.map_cons, List.nodup_cons, List.forall_mem_cons] at *
      have hstep : dumpEntry encode anywidgetVersion (built records) (entry.1, .dict entry.2.fields) =
          .ok (built (records ++ [(.str entry.1,
            .dict (Serialize.modelRecord anywidgetVersion entry.2.fields))])) := by
        rw [dumpEntry, dumpModel_ok hencode hentries.1]
        simp only [names_built]
        rw [if_neg hnonempty.1, if_neg hfresh.1, setElement_built hfresh.1]
      have hnext : ∀ other ∈ entries, Key.str other.1 ∉ Dict.keys (records ++ [(Key.str entry.1,
          Value.dict (Serialize.modelRecord anywidgetVersion entry.2.fields))]) := by
        intro other hother hmem
        rw [Dict.keys_append, List.mem_append] at hmem
        rcases hmem with hold | hnew
        · exact hfresh.2 other hother hold
        · have heq : other.1 = entry.1 := by simpa using hnew
          exact hnodup.1 (heq ▸ List.mem_map.mpr ⟨other, hother, rfl⟩)
      have hrest := ih hentries.2 _ hnonempty.2 hnodup.2 hnext
      rw [modelEntries, List.map_cons, List.foldlM_cons]
      simp only [Prod.map, id, hstep, bind, Except.bind]
      refine hrest.trans ?_
      simp [Serialize.modelRecords]

/-- R writes the document that the others write, about states that it loses nothing of. -/
theorem dumpDocument_built (hencode : ∀ raw, encode raw = String.ofList (Base64.encode raw))
    (hentries : ∀ entry ∈ entries, RStorable entry.2.fields)
    (hids : Serialize.ProperIds (entries.map Prod.fst)) (anywidgetVersion : String) :
    dumpDocument encode anywidgetVersion (modelEntries entries) = .ok [
      (.str "version_major", .int Serialize.stateVersionMajor),
      (.str "version_minor", .int Serialize.stateVersionMinor),
      (.str "state", built (Serialize.modelRecords anywidgetVersion entries))] := by
  have hnonempty : ∀ entry ∈ entries, entry.1 ≠ "" := fun e he =>
    hids.1 e.1 (List.mem_map.mpr ⟨e, he, rfl⟩)
  have hloop : (modelEntries entries).foldlM (dumpEntry encode anywidgetVersion) (built []) =
      .ok (built ([] ++ Serialize.modelRecords anywidgetVersion entries)) :=
    foldlM_dumpEntry_ok hencode hentries [] hnonempty hids.2 (by simp)
  rw [dumpDocument, show Value.list [] = built [] from rfl, hloop]
  rfl

theorem dumpDocument_ok (hencode : ∀ raw, encode raw = String.ofList (Base64.encode raw))
    (hentries : ∀ entry ∈ entries, RStorable entry.2.fields)
    (hids : Serialize.ProperIds (entries.map Prod.fst)) (hsome : entries ≠ [])
    (anywidgetVersion : String) :
    dumpDocument encode anywidgetVersion (modelEntries entries) =
      .ok (Serialize.document anywidgetVersion entries) := by
  rw [dumpDocument_built hencode hentries hids]
  cases entries with
  | nil => exact absurd rfl hsome
  | cons entry entries => rfl

variable {decode : String → Option (List UInt8)}

theorem decodeBuffer_encodes
    (hdecode : ∀ raw, decode (String.ofList (Base64.encode raw)) = some raw)
    {entry : Value} {leaf : Path × Binary} (h : Encodes entry leaf) :
    getOne entry.toR (.name "path") = .ok leaf.1.toValue.toR ∧
      decodeBuffer decode entry.toR = .ok ⟨.bytes, leaf.2.raw⟩ := by
  obtain ⟨fields, rfl, hpath, hencoding, hdata⟩ := h
  have hone : ∀ {name : String} {v : Value}, name ≠ "" → fields.lookup (.str name) = some v →
      getOne (Value.dict fields).toR (.name name) = .ok v.toR := by
    intro name v hname hlookup
    rw [getOne_dict hname, hlookup]
    rfl
  have hbase64 : getOne (Value.dict fields).toR (.name "encoding") =
      .ok (.atom (.str "base64")) := hone (by decide) hencoding
  have htext : getOne (Value.dict fields).toR (.name "data") =
      .ok (.atom (.str (Serialize.b64encode leaf.2))) := hone (by decide) hdata
  refine ⟨hone (by decide) hpath, ?_⟩
  simp only [decodeBuffer, hbase64, htext, bind, Except.bind, base64Dec, Serialize.b64encode,
    hdecode]
  rfl

/-- `load_model` on any record of a state. -/
theorem loadModel_recordOf
    (hdecode : ∀ raw, decode (String.ofList (Base64.encode raw)) = some raw) {v record : Value}
    (hv : Plain v) (hfits : RFits v) (hrecord : RecordOf v record) (modelId : Key) :
    ∃ w : Value, loadModel decode (modelId, record.toR) = .ok (modelId, w.toR) ∧ w ≈ v := by
  obtain ⟨fields, state, entries, rfl, hstate, hstrip, hbuffers, hentries⟩ := hrecord
  obtain ⟨w, hput, hw⟩ := putBuffers_plain hv hfits hstrip
  refine ⟨w, ?_, hw⟩
  have hget : getOne (Value.dict fields).toR (.name "state") = .ok state.toR := by
    rw [getOne_dict (by decide), hstate]
    rfl
  have hpaths : (entries.map toR).mapM (fun entry => getOne entry (.name "path")) =
      .ok (v.binaries.map fun leaf => leaf.1.toValue.toR) := by
    apply mapM_of_forall₂
    rw [List.forall₂_map_left_iff]
    exact hentries.imp fun _ _ h => (decodeBuffer_encodes hdecode h).1
  have hbinaries : (entries.map toR).mapM (decodeBuffer decode) =
      .ok (v.binaries.map Prod.snd) := by
    rw [← hv.buffers]
    apply mapM_of_forall₂
    rw [List.forall₂_map_left_iff]
    exact hentries.imp fun _ _ h => (decodeBuffer_encodes hdecode h).2
  have hsegments : (v.binaries.map fun leaf => leaf.1.toValue.toR).map pathOf =
      v.binaries.map Prod.fst := by
    rw [List.map_map]
    refine List.map_congr_left fun leaf hleaf => pathOf_toR ?_
    exact plainly_of_leaf hv.json ((mem_binaries_iff hv.wf).mp hleaf)
  have hname : hasName (Value.dict fields).toR "buffers" =
      (fields.lookup (.str "buffers")).isSome := hasName_dict (by decide) fields
  rw [loadModel]
  rcases hbuffers with hsome | ⟨hnone, rfl⟩
  · have hfield : getOne (Value.dict fields).toR (.name "buffers") =
        .ok (Value.list entries).toR := by
      rw [getOne_dict (by decide), hsome]
      rfl
    simp only [hget, hname, hsome, Option.isSome_some, if_true, hfield, elements_list, hpaths,
      hbinaries, hsegments, hput, bind, Except.bind, pure, Except.pure]
  · have hempty : elements (.list []) = ([] : List Value).map toR := rfl
    simp only [hget, hname, hnone, Option.isSome_none, Bool.false_eq_true, if_false, hempty,
      hpaths, hbinaries, hsegments, hput, bind, Except.bind, pure, Except.pure]

end R

variable {decode : String → Option (List UInt8)} {entries : List (String × HostState)}

/-- Under each id the model of its entry was loaded. -/
theorem entry_loaded (hnodup : (entries.map Prod.fst).Nodup) {loaded : Bindings}
    (hperm : (Dict.keys loaded).Perm (entries.map fun entry => .str entry.1))
    (hall : ∀ kv ∈ loaded, ∃ entry ∈ entries, kv.1 = .str entry.1 ∧
      kv.2 ≈ (Value.dict entry.2.fields).plain) :
    ∀ entry ∈ entries, ∃ w, (.str entry.1, w) ∈ loaded ∧
      w ≈ (Value.dict entry.2.fields).plain := by
  intro entry hentry
  have hmem : Key.str entry.1 ∈ Dict.keys loaded :=
    hperm.mem_iff.mpr (List.mem_map.mpr ⟨entry, hentry, rfl⟩)
  obtain ⟨kv, hkv, hkey⟩ := List.mem_map.mp hmem
  obtain ⟨entry', hentry', hkey', hequiv⟩ := hall kv hkv
  have hsame : entry' = entry :=
    List.inj_on_of_nodup_map hnodup hentry' hentry (Key.str.inj (hkey'.symm.trans hkey))
  refine ⟨kv.2, ?_, hsame ▸ hequiv⟩
  rw [← hkey]
  exact hkv

/-- The language loads the document as the models of the entries. -/
def Language.Loads (reader : Language) (doc : Bindings) (entries : List (String × HostState)) :
    Prop :=
  ∃ text, (Value.dict doc).reload = .ok text ∧
    ∀ decoders : Decoders, decoders.Lossless → ∀ read, reader.Reads text (.dict read) →
      ∃ loaded : Bindings, reader.loadDocument decoders read = .ok loaded ∧
        (Dict.keys loaded).Perm (entries.map fun entry => .str entry.1) ∧
        ∀ entry ∈ entries, ∃ w, (.str entry.1, w) ∈ loaded ∧
          w ≈ (Value.dict entry.2.fields).plain

theorem Language.loads_document (reader : Language)
    (hstates : ∀ entry ∈ entries, Storable entry.2.fields)
    (hids : Serialize.ProperIds (entries.map Prod.fst)) (anywidgetVersion : String) :
    reader.Loads (Serialize.document anywidgetVersion entries) entries := by
  obtain ⟨hjson, hbin⟩ := Serialize.portable_document
    (fun entry h => (hstates entry h).dumpable) anywidgetVersion
  refine ⟨_, reload_ok hjson hbin, fun decoders hlossless read hread => ?_⟩
  obtain ⟨loaded, hloaded, hperm, hall⟩ :=
    Language.loadDocument_reads hlossless reader hstates hids.2 hread
  exact ⟨loaded, hloaded, hperm, entry_loaded hids.2 hperm hall⟩

/-- Without a model in it the state of the document is an array, which Python refuses. -/
theorem empty_document_refused (encode : List UInt8 → String) (anywidgetVersion : String) :
    ∃ doc, R.dumpDocument encode anywidgetVersion [] = .ok doc ∧
      ∃ e, Serialize.loadDocument doc = .error e :=
  ⟨_, rfl, _, rfl⟩

namespace RDocumentsWitness

open PortabilityWitness RUpdatesWitness

/-- `base64_dec`, on well-formed text. -/
def base64 (s : String) : Option (List UInt8) := Base64.decode s.toList

end RDocumentsWitness

end Cositos
