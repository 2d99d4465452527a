/-
Saving again what was loaded: `dump_document` on the result of `load_document`.
A document comes back as it was exactly when no dict of its states lists a binary
value before a value that contains binary values.
-/
import Cositos.Portability
import Cositos.Restored

namespace Cositos

/-- `bool(key)`. -/
def Key.truthy : Key → Bool
  | .none => false
  | .int i => i ≠ 0
  | .str s => s ≠ ""
  | .frac _ | .other _ => true

namespace Serialize

open Value Buffers Protocol

/-! ### Dumping what was loaded -/

/-- `dump_model` on what `load_model` returns: any key, and a state that may be no
dict, in which case `state.get` fails. -/
def redumpModel (anywidgetVersion : String) : Key × Value → Except PyError (Key × Bindings)
  | (modelId, .dict state) => do
      let (_, record) ← dumpModel ("", state) anywidgetVersion
      return (modelId, record)
  | (_, state) => do
      let _ ← removeBuffers state
      .error .attributeError

/-- One turn of the loop in `dump_document`. -/
def redumpEntry (anywidgetVersion : String) (state : Bindings) (item : Key × Value) :
    Except PyError Bindings := do
  let (modelId, record) ← redumpModel anywidgetVersion item
  if !modelId.truthy then
    .error (.valueError "model_id must be a non-empty string (it is the document key)")
  else if modelId ∈ Dict.keys state then
    .error (.valueError "duplicate model_id: document keys must be unique")
  else
    return Dict.set state modelId (.dict record)

/-- `dump_document` on what `load_document` returns. -/
def redumpDocument (anywidgetVersion : String) (items : List (Key × Value)) :
    Except PyError Bindings := do
  let state ← items.foldlM (redumpEntry anywidgetVersion) []
  return [
    (.str "version_major", .int stateVersionMajor),
    (.str "version_minor", .int stateVersionMinor),
    (.str "state", .dict state)]

/-- What is dumped again: the id is one, and the state a dict within the cap. -/
def Redumps (item : Key × Value) : Prop :=
  item.1.truthy = true ∧ ∃ fields, item.2 = .dict fields ∧ (Value.dict fields).nesting ≤ maxDepth

/-- The records of what is dumped again. -/
def redumpRecords (anywidgetVersion : String) (items : List (Key × Value)) : Bindings :=
  items.map fun item => (item.1, .dict (modelRecord anywidgetVersion item.2.bindings))

variable {anywidgetVersion : String} {entries : List (String × HostState)}

theorem dumpModel_too_deep {fields : Bindings} (hwf : (Value.dict fields).Wf)
    (hdeep : maxDepth < (Value.dict fields).nesting) (modelId : String)
    (anywidgetVersion : String) :
    ∃ path, dumpModel (modelId, fields) anywidgetVersion = .error (.nesting path) := by
  obtain ⟨path, h⟩ := removeBuffers_too_deep hwf hdeep
  exact ⟨path, by rw [dumpModel, h]; rfl⟩

/-- One entry is dumped again exactly when it can be. -/
theorem redumpEntry_ok_iff {item : Key × Value} (hwf : item.2.Wf) {state state' : Bindings} :
    redumpEntry anywidgetVersion state item = .ok state' ↔
      Redumps item ∧ item.1 ∉ Dict.keys state ∧
        state' = state ++ redumpRecords anywidgetVersion [item] := by
  obtain ⟨modelId, v⟩ := item
  have hnot : (∀ fields, v ≠ .dict fields) → redumpEntry anywidgetVersion state (modelId, v) ≠
      .ok state' := by
    intro h
    have hmodel : ∃ e, redumpModel anywidgetVersion (modelId, v) = .error e := by
      cases v with
      | dict fields => exact absurd rfl (h fields)
      | scalar s | bin b | list xs | tuple xs =>
          unfold redumpModel
          simp only [bind, Except.bind]
          split <;> exact ⟨_, rfl⟩
    obtain ⟨e, he⟩ := hmodel
    simp [redumpEntry, he, bind, Except.bind]
  by_cases hdict : ∃ fields, v = .dict fields
  · obtain ⟨fields, rfl⟩ := hdict
    by_cases hnesting : (Value.dict fields).nesting ≤ maxDepth
    · have hdump := @dumpModel_ok ⟨fields, hwf⟩ hnesting "" anywidgetVersion
      have hmodel : redumpModel anywidgetVersion (modelId, .dict fields) =
          .ok (modelId, modelRecord anywidgetVersion fields) := by
        simp only [redumpModel, hdump, bind, Except.bind, pure, Except.pure]
      have hredumps : Redumps (modelId, .dict fields) ↔ modelId.truthy = true := by
        simp [Redumps, hnesting]
      rw [redumpEntry, hmodel, hredumps]
      simp only [bind, Except.bind, redumpRecords, List.map_singleton, Value.bindings]
      cases htruthy : modelId.truthy with
      | false => simp
      | true =>
          by_cases hmem : modelId ∈ Dict.keys state
          · simp [hmem]
          · simp [hmem, Dict.set_of_not_mem, pure, Except.pure, eq_comm]
    · obtain ⟨path, hdump⟩ := dumpModel_too_deep hwf (not_le.mp hnesting) "" anywidgetVersion
      have hmodel : redumpModel anywidgetVersion (modelId, .dict fields) =
          .error (.nesting path) := by
        simp only [redumpModel, hdump, bind, Except.bind]
      rw [redumpEntry, hmodel]
      simp [Redumps, hnesting, bind, Except.bind]
  · have hnone : ∀ fields, v ≠ .dict fields := fun fields h => hdict ⟨fields, h⟩
    refine iff_of_false (hnot hnone) ?_
    rintro ⟨⟨_, fields, heq, _⟩, _⟩
    exact hnone fields heq

theorem keys_redumpRecords (anywidgetVersion : String) (items : List (Key × Value)) :
    Dict.keys (redumpRecords anywidgetVersion items) = items.map Prod.fst := by
  simp [redumpRecords, Dict.keys, Function.comp_def]

/-- The loop goes through exactly when every entry can be dumped and no id is met twice. -/
theorem foldlM_redumpEntry_ok_iff {items : List (Key × Value)} (hwf : ∀ item ∈ items, item.2.Wf)
    {state state' : Bindings} :
    items.foldlM (redumpEntry anywidgetVersion) state = .ok state' ↔
      (∀ item ∈ items, Redumps item) ∧ (items.map Prod.fst).Nodup ∧
        (∀ item ∈ items, item.1 ∉ Dict.keys state) ∧
        state' = state ++ redumpRecords anywidgetVersion items := by
  induction items generalizing state with
  | nil => simp [redumpRecords, pure, Except.pure, eq_comm]
  | cons item items ih =>
      rw [List.foldlM_cons, Port.bind_eq_ok_iff]
      simp only [redumpEntry_ok_iff (hwf item List.mem_cons_self),
        ih fun item h => hwf item (List.mem_cons_of_mem _ h), List.forall_mem_cons, List.map_cons,
        List.nodup_cons]
      have hfresh : ∀ other : Key × Value, other.1 ∉ Dict.keys
          (state ++ redumpRecords anywidgetVersion [item]) ↔
            other.1 ∉ Dict.keys state ∧ other.1 ≠ item.1 := by
        intro other
        simp [keys_redumpRecords]
      constructor
      · rintro ⟨_, ⟨hitem, hnew, rfl⟩, hall, hnodup, hrest, rfl⟩
        refine ⟨⟨hitem, hall⟩, ⟨fun hmem => ?_, hnodup⟩,
          ⟨hnew, fun other h => ((hfresh other).mp (hrest other h)).1⟩, ?_⟩
        · obtain ⟨other, hother, heq⟩ := List.mem_map.mp hmem
          exact ((hfresh other).mp (hrest other hother)).2 heq
        · simp [redumpRecords]
      · rintro ⟨⟨hitem, hall⟩, ⟨hnotin, hnodup⟩, ⟨hnew, hrest⟩, rfl⟩
        refine ⟨_, ⟨hitem, hnew, rfl⟩, hall, hnodup, fun other h => ?_, by simp [redumpRecords]⟩
        refine (hfresh other).mpr ⟨hrest other h, fun heq => hnotin ?_⟩
        exact List.mem_map.mpr ⟨other, h, heq⟩

theorem redumpDocument_ok_iff {items : List (Key × Value)} (hwf : ∀ item ∈ items, item.2.Wf)
    {doc : Bindings} : redumpDocument anywidgetVersion items = .ok doc ↔
      (∀ item ∈ items, Redumps item) ∧ (items.map Prod.fst).Nodup ∧
        doc = [(.str "version_major", .int stateVersionMajor),
          (.str "version_minor", .int stateVersionMinor),
          (.str "state", .dict (redumpRecords anywidgetVersion items))] := by
  rw [redumpDocument, Port.bind_eq_ok_iff]
  simp only [foldlM_redumpEntry_ok_iff hwf, pure, Except.pure, Except.ok.injEq, Dict.keys_nil,
    List.not_mem_nil, not_false_eq_true, implies_true, true_and, List.nil_append]
  constructor
  · rintro ⟨state, ⟨hall, hnodup, rfl⟩, rfl⟩
    exact ⟨hall, hnodup, rfl⟩
  · rintro ⟨hall, hnodup, rfl⟩
    exact ⟨_, ⟨hall, hnodup, rfl⟩, rfl⟩

/-! ### Loading what was dumped -/

/-- The state that comes back. -/
def restoredState (state : HostState) : HostState where
  fields := (Value.dict state.fields).restored.bindings
  wf := by
    have hwf := wf_restored state.wf
    rwa [restored_dict] at hwf ⊢

theorem dict_restoredState (state : HostState) :
    Value.dict (restoredState state).fields = (Value.dict state.fields).restored := by
  simp only [restoredState, restored, Value.bindings]

theorem bufferRecords_plain (fields : Bindings) :
    (bufferRecords fields).map plain = bufferRecords fields := by
  rw [bufferRecords, List.map_map]
  refine List.map_congr_left fun leaf _ => ?_
  simp [bufferRecord, plain, plainEntries, plain_path]

/-- Loading a record gives the restored state. -/
theorem loadModel_modelRecord (anywidgetVersion : String) (state : HostState) (key : Key) :
    loadModel (key, .dict (modelRecord anywidgetVersion state.fields)) =
      .ok (key, .dict (restoredState state).fields) := by
  have hstate : (Value.dict (modelRecord anywidgetVersion state.fields)).getItem (.str "state") =
      .ok (Value.dict state.fields).strip := rfl
  have hbuffers : get (Value.dict (modelRecord anywidgetVersion state.fields)).bindings "buffers"
      (.list []) = .list ((bufferRecords state.fields).map plain) := by
    rw [bufferRecords_plain]
    by_cases hempty : bufferRecords state.fields = []
    · rw [modelRecord, hempty]
      rfl
    · have hnot : (bufferRecords state.fields).isEmpty = false := by simpa using hempty
      rw [modelRecord, hnot]
      rfl
  have hput : putBuffers (Value.dict state.fields).strip
      ((Value.dict state.fields).binaries.map fun leaf => leaf.1.toValue)
      ((Value.dict state.fields).binaries.map fun leaf => ⟨.bytes, leaf.2.raw⟩) =
        .ok (.dict (restoredState state).fields) := by
    have hfold := Buffers.putBuffers_eq_foldlM (Value.dict state.fields).rawLeaves
      (Value.dict state.fields).strip
    rw [rawLeaves, List.map_map, List.map_map] at hfold
    rw [dict_restoredState]
    exact hfold.trans (restores state.wf rfl)
  rw [loadModel, hstate, hbuffers]
  simp only [bind, Except.bind, decodeBuffersBase64_bufferRecords, hput, pure, Except.pure]

/-- The entries of a document, loaded. -/
def loadedEntries (entries : List (String × HostState)) : List (Key × Value) :=
  entries.map fun entry => (.str entry.1, .dict (restoredState entry.2).fields)

theorem loadDocument_document (anywidgetVersion : String) (entries : List (String × HostState)) :
    loadDocument (document anywidgetVersion entries) = .ok (loadedEntries entries) := by
  have hload : loadDocument (document anywidgetVersion entries) =
      (modelRecords anywidgetVersion entries).mapM loadModel := rfl
  rw [hload, modelRecords, loadedEntries]
  induction entries with
  | nil => rfl
  | cons entry entries ih =>
      rw [List.map_cons, List.mapM_cons, loadModel_modelRecord, ih rfl]
      rfl

/-! ### A document that was saved, loaded and saved again -/

theorem dumpModel_eq (modelId : String) (fields : Bindings) (anywidgetVersion : String) :
    dumpModel (modelId, fields) anywidgetVersion = (do
      let (_, record) ← dumpModel ("", fields) anywidgetVersion
      return (modelId, record)) := by
  simp only [dumpModel]
  cases removeBuffers (.dict fields) with
  | error e => rfl
  | ok split =>
      simp only [bind, Except.bind]
      cases encodeBuffersBase64 (split.1, split.2.1, split.2.2) <;> rfl

/-- Dumping an entry is dumping it again. -/
theorem dumpEntry_ok_iff {entry : String × Bindings} {state state' : Bindings} :
    dumpEntry anywidgetVersion state entry = .ok state' ↔
      redumpEntry anywidgetVersion state (.str entry.1, .dict entry.2) = .ok state' := by
  obtain ⟨modelId, fields⟩ := entry
  rw [dumpEntry, redumpEntry, redumpModel, dumpModel_eq]
  cases dumpModel ("", fields) anywidgetVersion with
  | error e => simp [bind, Except.bind]
  | ok dumped =>
      by_cases hempty : modelId = ""
      · simp [bind, Except.bind, pure, Except.pure, Key.truthy, hempty]
      · by_cases hmem : Key.str modelId ∈ Dict.keys state <;>
          simp [bind, Except.bind, pure, Except.pure, Key.truthy, hempty, hmem]

theorem foldlM_dumpEntry_ok_iff {items : List (String × Bindings)} {state state' : Bindings} :
    items.foldlM (dumpEntry anywidgetVersion) state = .ok state' ↔
      (items.map fun item => (Key.str item.1, Value.dict item.2)).foldlM
        (redumpEntry anywidgetVersion) state = .ok state' := by
  induction items generalizing state with
  | nil => rfl
  | cons item items ih =>
      rw [List.foldlM_cons, List.map_cons, List.foldlM_cons, Port.bind_eq_ok_iff,
        Port.bind_eq_ok_iff]
      simp only [dumpEntry_ok_iff, ih]

/-- A document that `dump_document` returned. -/
theorem eq_document_of_dumpDocument {doc : Bindings}
    (h : dumpDocument (modelEntries entries) anywidgetVersion = .ok doc) :
    doc = document anywidgetVersion entries ∧ (entries.map Prod.fst).Nodup ∧
      ∀ entry ∈ entries, entry.1 ≠ "" ∧ (Value.dict entry.2.fields).nesting ≤ maxDepth := by
  obtain ⟨state, hloop, heq⟩ := Port.bind_eq_ok_iff.mp h
  rw [foldlM_dumpEntry_ok_iff, modelEntries, List.map_map, foldlM_redumpEntry_ok_iff] at hloop
  · obtain ⟨hall, hnodup, _, rfl⟩ := hloop
    cases heq
    refine ⟨?_, ?_, fun entry hentry => ?_⟩
    · simp [document, redumpRecords, modelRecords, Function.comp_def, Value.bindings]
    · rw [List.map_map] at hnodup
      exact (List.Nodup.of_map Key.str (by rwa [List.map_map]))
    · obtain ⟨htruthy, fields, heq, hnesting⟩ := hall _ (List.mem_map.mpr ⟨entry, hentry, rfl⟩)
      cases heq
      exact ⟨by simpa [Key.truthy] using htruthy, hnesting⟩
  · rw [List.forall_mem_map]
    exact fun entry _ => entry.2.wf

/-- Entries with distinct ids and states within the cap are dumped. -/
theorem dumpDocument_eq_document (hnodup : (entries.map Prod.fst).Nodup)
    (hentries : ∀ entry ∈ entries, entry.1 ≠ "" ∧
      (Value.dict entry.2.fields).nesting ≤ maxDepth) :
    dumpDocument (modelEntries entries) anywidgetVersion =
      .ok (document anywidgetVersion entries) := by
  have hwf : ∀ item ∈ entries.map fun entry => (Key.str entry.1, Value.dict entry.2.fields),
      item.2.Wf := by
    rw [List.forall_mem_map]
    exact fun entry _ => entry.2.wf
  have hloop : (modelEntries entries).foldlM (dumpEntry anywidgetVersion) [] =
      .ok (modelRecords anywidgetVersion entries) := by
    rw [foldlM_dumpEntry_ok_iff, modelEntries, List.map_map]
    refine (foldlM_redumpEntry_ok_iff hwf).mpr ⟨?_, ?_, by simp, ?_⟩
    · rw [List.forall_mem_map]
      intro entry hentry
      obtain ⟨hid, hnesting⟩ := hentries entry hentry
      exact ⟨by simpa [Key.truthy] using hid, _, rfl, hnesting⟩
    · have hmap := hnodup.map fun _ _ heq => Key.str.inj heq
      simpa [Function.comp_def] using hmap
    · simp [redumpRecords, modelRecords, Function.comp_def, Value.bindings]
  rw [dumpDocument, hloop]
  rfl

/-- The path and the text of the records of buffers. -/
theorem bufferRecords_restored {state : HostState} (h : (Value.dict state.fields).ordered = true) :
    bufferRecords (restoredState state).fields = bufferRecords state.fields := by
  rw [bufferRecords, dict_restoredState, binaries_restored h, rawLeaves, List.map_map]
  rfl

theorem path_of_encodes {path : Path} {b : Binary} {leaf : Path × Binary}
    (h : Encodes (bufferRecord path b) leaf) : path = leaf.1 := by
  obtain ⟨fields, heq, hpath, _⟩ := h
  cases heq
  have hsame : path.toValue = leaf.1.toValue := by
    simpa using hpath
  simp only [Path.toValue, Value.list.injEq] at hsame
  rw [← segments_toValue path, hsame, segments_toValue]

theorem lookup_buffers (anywidgetVersion : String) (fields : Bindings) :
    (plainEntries (modelRecord anywidgetVersion fields)).lookup (.str "buffers") =
      if (bufferRecords fields).isEmpty then none else some (.list (bufferRecords fields)) := by
  rw [modelRecord]
  split_ifs
  · rfl
  · have hplain : plainSeq (bufferRecords fields) = bufferRecords fields :=
      (plainSeq_eq _).trans (bufferRecords_plain fields)
    have hlast : some (Value.list (plainSeq (bufferRecords fields))) =
        some (.list (bufferRecords fields)) := by rw [hplain]
    exact hlast

theorem map_eq_of_forall₂ {α β γ : Type} {f : α → γ} {g : β → γ} {xs : List α} {ys : List β}
    (h : List.Forall₂ (fun x y => f x = g y) xs ys) : xs.map f = ys.map g := by
  induction h with
  | nil => rfl
  | cons hhead _ ih => rw [List.map_cons, List.map_cons, hhead, ih]

/-- The same record, apart from the order of its buffers. -/
theorem modelRecord_restored_iff (anywidgetVersion : String) (state : HostState) :
    (Value.dict (modelRecord anywidgetVersion (restoredState state).fields)).plain ≈
        (Value.dict (modelRecord anywidgetVersion state.fields)).plain ↔
      (Value.dict state.fields).ordered = true := by
  constructor
  · intro h
    apply ordered_of_paths state.wf
    rw [← dict_restoredState]
    obtain ⟨own, s, records, hown, _, _, hbuffers, hencodes⟩ := recordOf_of_equiv h
    cases hown
    have hrecords : records = bufferRecords (restoredState state).fields := by
      rw [lookup_buffers] at hbuffers
      split_ifs at hbuffers with hempty
      · rw [List.isEmpty_iff.mp hempty]
        simpa using hbuffers
      · simpa [eq_comm] using hbuffers
    rw [hrecords, bufferRecords, List.forall₂_map_left_iff, binaries_plain,
      List.forall₂_map_right_iff] at hencodes
    have hpaths := hencodes.imp fun _ _ h => path_of_encodes h
    exact map_eq_of_forall₂ hpaths
  · intro h
    have hequiv := restored_plain state.wf
    rw [← dict_restoredState] at hequiv
    rw [modelRecord, modelRecord, bufferRecords_restored h, dict_restoredState, strip_restored]
    have hget := get_alike hequiv
    exact dict_cons_alike (hget _ _) (dict_cons_alike (hget _ _) (dict_cons_alike (hget _ _)
      (Setoid.refl _)))

theorem document_alike_iff {anywidgetVersion : String}
    {entries entries' : List (String × HostState)} :
    (Value.dict (document anywidgetVersion entries)).plain ≈
        (Value.dict (document anywidgetVersion entries')).plain ↔
      (Value.dict (modelRecords anywidgetVersion entries)).plain ≈
        (Value.dict (modelRecords anywidgetVersion entries')).plain := by
  constructor
  · intro h
    have hagree := agree_plain_iff.mp h (.str "state")
    cases hagree with
    | some hequiv => exact hequiv
  · exact fun h => dict_cons_alike (Setoid.refl _) (dict_cons_alike (Setoid.refl _)
      (dict_cons_alike h (Setoid.refl _)))

theorem dict_map_alike_iff {α : Type} {xs : List α} {key : α → Key} {f g : α → Value}
    (hkeys : (xs.map key).Nodup) :
    (Value.dict (xs.map fun x => (key x, f x))).plain ≈
        (Value.dict (xs.map fun x => (key x, g x))).plain ↔
      ∀ x ∈ xs, (f x).plain ≈ (g x).plain := by
  have hlookup : ∀ (f : α → Value), ∀ x ∈ xs,
      (xs.map fun x => (key x, f x)).lookup (key x) = some (f x) := by
    intro f x hx
    rw [Dict.lookup_eq_some_iff (by simpa [Dict.keys, Function.comp_def] using hkeys)]
    exact List.mem_map.mpr ⟨x, hx, rfl⟩
  constructor
  · intro h x hx
    have hagree := agree_plain_iff.mp h (key x)
    rw [hlookup f x hx, hlookup g x hx] at hagree
    cases hagree with
    | some hequiv => exact hequiv
  · intro h
    clear hkeys hlookup
    induction xs with
    | nil => exact Setoid.refl _
    | cons x xs ih =>
        rw [List.forall_mem_cons] at h
        exact dict_cons_alike h.1 (ih h.2)

theorem nesting_restored {v : Value} (hv : v.Wf) : v.restored.nesting = v.nesting := by
  rw [← nesting_plain v.restored, ← nesting_plain v]
  exact nesting_of_equiv (wf_plain (wf_restored hv)) (wf_plain hv) (restored_plain hv)

/-- What is dumped again is the document of the restored states. -/
theorem redumpDocument_loadedEntries (hnodup : (entries.map Prod.fst).Nodup)
    (hentries : ∀ entry ∈ entries, entry.1 ≠ "" ∧
      (Value.dict entry.2.fields).nesting ≤ maxDepth) (anywidgetVersion : String) :
    redumpDocument anywidgetVersion (loadedEntries entries) =
      .ok (document anywidgetVersion (entries.map (Prod.map id restoredState))) := by
  have hwf : ∀ item ∈ loadedEntries entries, item.2.Wf := by
    rw [loadedEntries, List.forall_mem_map]
    exact fun entry _ => (restoredState entry.2).wf
  rw [redumpDocument_ok_iff hwf]
  refine ⟨?_, ?_, ?_⟩
  · rw [loadedEntries, List.forall_mem_map]
    intro entry hentry
    obtain ⟨hid, hnesting⟩ := hentries entry hentry
    refine ⟨by simpa [Key.truthy] using hid, _, rfl, ?_⟩
    rwa [dict_restoredState, nesting_restored entry.2.wf]
  · have hmap := hnodup.map (f := Key.str) (fun _ _ heq => Key.str.inj heq)
    simpa [loadedEntries, Function.comp_def] using hmap
  · simp [document, modelRecords, redumpRecords, loadedEntries, Function.comp_def, Value.bindings]

/-- The document of the restored states is the document itself, as long as every
state is ordered. -/
theorem document_restored_iff (hnodup : (entries.map Prod.fst).Nodup) (anywidgetVersion : String) :
    (Value.dict (document anywidgetVersion (entries.map (Prod.map id restoredState)))).plain ≈
        (Value.dict (document anywidgetVersion entries)).plain ↔
      ∀ entry ∈ entries, (Value.dict entry.2.fields).ordered = true := by
  have hkeys : (entries.map fun entry => Key.str entry.1).Nodup := by
    have hmap := hnodup.map (f := Key.str) (fun _ _ heq => Key.str.inj heq)
    rwa [List.map_map] at hmap
  rw [document_alike_iff, modelRecords, modelRecords, List.map_map]
  refine (dict_map_alike_iff hkeys).trans ?_
  exact forall₂_congr fun entry _ => modelRecord_restored_iff anywidgetVersion entry.2

/-- Saving again what was loaded gives the document back exactly when in every dict of
every state no binary value comes before a value that contains some. -/
theorem redumpDocument_loadDocument_iff (entries : List (String × HostState))
    (anywidgetVersion : String) {doc : Bindings}
    (hdump : dumpDocument (modelEntries entries) anywidgetVersion = .ok doc) :
    (∃ loaded redumped, loadDocument doc = .ok loaded ∧
        redumpDocument anywidgetVersion loaded = .ok redumped ∧
        (Value.dict redumped).plain ≈ (Value.dict doc).plain) ↔
      ∀ entry ∈ entries, (Value.dict entry.2.fields).ordered = true := by
  obtain ⟨rfl, hnodup, hentries⟩ := eq_document_of_dumpDocument hdump
  have hredump := redumpDocument_loadedEntries hnodup hentries anywidgetVersion
  rw [loadDocument_document, ← document_restored_iff hnodup anywidgetVersion]
  constructor
  · rintro ⟨loaded, redumped, hloaded, hredumped, h⟩
    cases hloaded
    rw [hredump] at hredumped
    cases hredumped
    exact h
  · exact fun h => ⟨_, _, rfl, hredump, h⟩

namespace RedumpWitness

/-- `{"data": {"x": b"A"}, "image": b"B"}`. -/
def tidy : HostState where
  fields := [(.str "data", .dict [(.str "x", .bin ⟨.bytes, [65]⟩)]),
    (.str "image", .bin ⟨.bytes, [66]⟩)]
  wf := by decide

/-- `{"image": b"B", "data": {"x": b"A"}}`. -/
def untidy : HostState where
  fields := [(.str "image", .bin ⟨.bytes, [66]⟩),
    (.str "data", .dict [(.str "x", .bin ⟨.bytes, [65]⟩)])]
  wf := by decide

theorem dumpDocument_one (state : HostState) (h : (Value.dict state.fields).nesting ≤ maxDepth) :
    dumpDocument (modelEntries [("m", state)]) =
      .ok (document anywidgetModuleVersion [("m", state)]) := by
  simp only [dumpDocument, modelEntries, List.map_cons, List.map_nil, List.foldlM_cons,
    dumpEntry, Prod.map, id, dumpModel_ok h]
  rfl

end RedumpWitness

theorem redumpDocument_loadDocument_iff_tidy :
    ∃ loaded redumped,
      loadDocument (document anywidgetModuleVersion [("m", RedumpWitness.tidy)]) = .ok loaded ∧
      redumpDocument anywidgetModuleVersion loaded = .ok redumped ∧
      (Value.dict redumped).plain ≈
        (Value.dict (document anywidgetModuleVersion [("m", RedumpWitness.tidy)])).plain := by
  have hdump := RedumpWitness.dumpDocument_one RedumpWitness.tidy (by decide)
  exact (redumpDocument_loadDocument_iff _ _ hdump).mpr (by decide)

/-- A binary value in front of a dict with another one: the second document lists the
two buffers the other way round. -/
theorem redumpDocument_swaps_buffers :
    ¬ ∀ entries : List (String × HostState),
      (∀ entry ∈ entries, (Value.dict entry.2.fields).jsonWith true = true ∧
        (Value.dict entry.2.fields).nesting ≤ maxDepth) →
      ∀ doc, dumpDocument (modelEntries entries) = .ok doc →
        ∃ loaded redumped, loadDocument doc = .ok loaded ∧
          redumpDocument anywidgetModuleVersion loaded = .ok redumped ∧
          (Value.dict redumped).plain ≈ (Value.dict doc).plain := by
  intro h
  have hnesting : (Value.dict RedumpWitness.untidy.fields).nesting ≤ maxDepth := by decide
  have hjson : (Value.dict RedumpWitness.untidy.fields).jsonWith true = true := by decide
  have hnodup : ([("m", RedumpWitness.untidy)].map Prod.fst).Nodup := by decide
  obtain ⟨loaded, redumped, hloaded, hredumped, hequiv⟩ := h [("m", RedumpWitness.untidy)]
    (by simpa using ⟨hjson, hnesting⟩) _ (RedumpWitness.dumpDocument_one _ hnesting)
  rw [loadDocument_document] at hloaded
  cases hloaded
  rw [redumpDocument_loadedEntries hnodup (by simpa using hnesting)] at hredumped
  cases hredumped
  have hordered := (document_restored_iff hnodup _).mp hequiv _ List.mem_cons_self
  exact absurd hordered (by decide)

end Serialize

end Cositos
