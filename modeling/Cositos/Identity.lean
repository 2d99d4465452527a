/-
Which documents keep the identity of their models when they are loaded and dumped
again.  An entry carries the state alone, so that a record's identity survives only
as far as the state repeats it.
-/
import Cositos.Redump
import Cositos.Targets
import Cositos.Wire

namespace Cositos

namespace Serialize

open Value Buffers Protocol Front

/-! ### Records and their identity -/

/-- The identity fields of a record: the key of the state that `dump_model` reads each
of them from, and what it writes where the state has no such key. -/
def identityFields (anywidgetVersion : String) : List (String × String × String) :=
  [("model_name", "_model_name", "AnyModel"),
    ("model_module", "_model_module", "anywidget"),
    ("model_module_version", "_model_module_version", anywidgetVersion)]

/-- The records of a document. -/
def recordsOf (doc : Bindings) : Bindings := (get doc "state" .none).bindings

/-- A field of the record under a model id. -/
def recordField (doc : Bindings) (modelId : Key) (name : String) : Option Value :=
  ((recordsOf doc).lookup modelId).bind fun record => record.child (.str name)

/-- Every record names its model in full. -/
def CarriesIdentity (doc : Bindings) : Prop :=
  ∀ modelId ∈ Dict.keys (recordsOf doc),
    ∀ name ∈ ["model_name", "model_module", "model_module_version"],
      (recordField doc modelId name).isSome = true

/-- The same model ids, and the same name, module and version for each of them. -/
structure SameIdentity (doc redumped : Bindings) : Prop where
  ids : ∀ modelId, modelId ∈ Dict.keys (recordsOf redumped) ↔ modelId ∈ Dict.keys (recordsOf doc)
  fields : ∀ modelId ∈ Dict.keys (recordsOf doc),
    ∀ name ∈ ["model_name", "model_module", "model_module_version"],
      Agree (recordField doc modelId name) (recordField redumped modelId name)

/-- The paths of the buffers of a record. -/
def bufferPathsOf (record : Value) : List Value :=
  match (get record.bindings "buffers" (.list [])).iterate with
  | .ok entries => entries.filterMap fun entry => (entry.getItem (.str "path")).toOption
  | .error _ => []

/-- The state repeats the identity of its record, and its buffers leave it alone; they
cover whatever is nested too deep to be split. -/
structure RepeatsIdentity (anywidgetVersion : String) (record : Value) (fields : Bindings) :
    Prop where
  state : record.child (.str "state") = some (.dict fields)
  covered : ∀ path l, (Value.dict fields).look path = some l → l.isContainer = true →
    maxDepth < path.length → ∃ t ∈ (Value.dict fields).targets (bufferPathsOf record), t <+: path
  repeated : ∀ field ∈ identityFields anywidgetVersion,
    Agree (record.child (.str field.1)) (some (get fields field.2.1 (.str field.2.2)))
  untouched : ∀ field ∈ identityFields anywidgetVersion,
    ∀ t ∈ (Value.dict fields).targets (bufferPathsOf record), t.head? ≠ some (.str field.2.1)

/-- A record whose identity survives. -/
def KeepsIdentity (anywidgetVersion : String) (item : Key × Value) : Prop :=
  item.1.truthy = true ∧ ∃ fields, RepeatsIdentity anywidgetVersion item.2 fields

/-! ### What a record loads as -/

theorem getItem_str {v c : Value} {name : String} (h : v.getItem (.str name) = .ok c) :
    ∃ kvs, v = .dict kvs ∧ kvs.lookup (.str name) = some c := by
  have hseq : ∀ xs : List Value, seqItem xs (.str name) ≠ .ok c := by
    intro xs hitem
    cases hitem
  cases v with
  | dict kvs =>
      obtain ⟨k, hk, h⟩ := Port.bind_eq_ok_iff.mp h
      cases hk
      cases hlookup : kvs.lookup (.str name) with
      | none => simp [Scalar.key, hlookup] at h
      | some x =>
          simp only [Scalar.key, hlookup] at h
          cases h
          exact ⟨kvs, rfl, hlookup⟩
  | list xs | tuple xs => exact absurd h (hseq xs)
  | bin b => exact absurd h (hseq _)
  | scalar s =>
      cases s with
      | str text => exact absurd h (hseq _)
      | _ => cases h

theorem paths_of_decoded {entries : List Value} {decoded : List (Value × Binary)}
    (h : entries.mapM decodeEntry = .ok decoded) :
    (entries.filterMap fun entry => (entry.getItem (.str "path")).toOption) =
      decoded.map Prod.fst := by
  induction entries generalizing decoded with
  | nil =>
      cases h
      rfl
  | cons entry entries ih =>
      rw [List.mapM_cons] at h
      obtain ⟨leaf, hleaf, h⟩ := Port.bind_eq_ok_iff.mp h
      obtain ⟨leaves, hleaves, h⟩ := Port.bind_eq_ok_iff.mp h
      cases h
      obtain ⟨path, hpath, hleaf⟩ := Port.bind_eq_ok_iff.mp hleaf
      obtain ⟨buf, _, hleaf⟩ := Port.bind_eq_ok_iff.mp hleaf
      cases hleaf
      have hhead : (entry.getItem (.str "path")).toOption = some path := by
        rw [hpath]
        rfl
      simp only [List.filterMap_cons, hhead, ih hleaves, List.map_cons]

/-- `load_model` writes the buffers of the record into its state. -/
theorem loadModel_inv {modelId : Key} {record : Value} {loaded : Key × Value}
    (h : loadModel (modelId, record) = .ok loaded) :
    loaded.1 = modelId ∧ ∃ state buffers, record.child (.str "state") = some state ∧
      putBuffers state (bufferPathsOf record) buffers = .ok loaded.2 := by
  obtain ⟨state, hstate, h⟩ := Port.bind_eq_ok_iff.mp h
  obtain ⟨_, hdecode, h⟩ := Port.bind_eq_ok_iff.mp h
  obtain ⟨entries, hentries, hdecode⟩ := Port.bind_eq_ok_iff.mp hdecode
  obtain ⟨decoded, hdecoded, hdecode⟩ := Port.bind_eq_ok_iff.mp hdecode
  cases hdecode
  obtain ⟨w, hput, h⟩ := Port.bind_eq_ok_iff.mp h
  cases h
  obtain ⟨kvs, rfl, hlookup⟩ := getItem_str hstate
  have hpaths : bufferPathsOf (.dict kvs) = decoded.map Prod.fst := by
    rw [bufferPathsOf, hentries]
    exact paths_of_decoded hdecoded
  exact ⟨rfl, state, decoded.map Prod.snd, by rw [child_dict, hlookup], by rw [hpaths]; exact hput⟩

theorem label_of_puts {v w : Value} {targets : List Path} (h : Puts v targets w)
    (hne : ∀ t ∈ targets, t ≠ []) : w.label = v.label := by
  have hroot := h.elsewhere [] fun t ht hpre => hne t ht (List.prefix_nil.mp hpre)
  simpa [look] using hroot

theorem targets_ne_nil {v : Value} {bufferPaths : List Value} {t : Path}
    (h : t ∈ v.targets bufferPaths) : t ≠ [] := by
  obtain ⟨path, _, h⟩ := List.mem_filterMap.mp h
  obtain ⟨segments, _, h⟩ := Option.bind_eq_some_iff.mp h
  exact target_ne_nil h

/-- What was loaded can be split again when the buffers cover what is nested too deep. -/
theorem nesting_of_puts {v w : Value} {targets : List Path} (hw : w.Wf) (h : Puts v targets w)
    {n : Nat} : w.nesting ≤ n ↔ ∀ path l, v.look path = some l → l.isContainer = true →
      n < path.length → ∃ t ∈ targets, t <+: path := by
  rw [nesting_le_iff_look hw]
  constructor
  · intro hcap path l hl hcontainer hdeep
    by_contra hnone
    have hsame := h.elsewhere path fun t ht hpre => hnone ⟨t, ht, hpre⟩
    have hshallow := hcap path l (by rw [hsame, hl]) hcontainer
    omega
  · intro hcover path l hl hcontainer
    by_contra hdeep
    obtain ⟨t, ht, hpre⟩ := hcover path l (h.thins path l hl hcontainer) hcontainer (by omega)
    obtain ⟨front, b, _, hfront, hlook⟩ := h.buffer t ht
    obtain ⟨rest, rfl⟩ := hfront.trans hpre
    rw [look_append_of_bin hlook, look_bin] at hl
    split_ifs at hl
    cases hl
    cases hcontainer

theorem agree_of_look {v w : Value} {k : Key}
    (h : ∀ path, v.look (k :: path) = w.look (k :: path)) : Agree (v.child k) (w.child k) := by
  cases hv : v.child k with
  | none =>
      cases hw : w.child k with
      | none => exact .none
      | some d => simpa [look, hv, hw] using h []
  | some c =>
      cases hw : w.child k with
      | none => simpa [look, hv, hw] using h []
      | some d =>
          refine .some fun path => ?_
          have hpath := h path
          rwa [look_cons_of_child hv, look_cons_of_child hw] at hpath

theorem get_agree {d e : Bindings} {name : String}
    (h : Agree (d.lookup (.str name)) (e.lookup (.str name))) (default : Value) :
    get d name default ≈ get e name default := by
  unfold Protocol.get
  generalize d.lookup (.str name) = x at h
  generalize e.lookup (.str name) = y at h
  cases h with
  | none => exact Setoid.refl _
  | some hequiv => exact hequiv

/-- A value of a record holds no binary value, so it is not what a buffer was written to. -/
theorem not_agree_of_touched {x : Option Value} (hx : ∀ c, x = some c → c.Wf ∧ c.binaries = [])
    {w c : Value} {key : Key} {path : Path} {b : Binary} (hc : w.child key = some c)
    (hlook : w.look (key :: path) = some (.bin b)) : ¬ Agree x (some c) := by
  intro h
  cases h with
  | @some y _ hequiv =>
      obtain ⟨hwf, hnone⟩ := hx y rfl
      rw [look_cons_of_child hc, ← hequiv path, ← mem_binaries_iff hwf, hnone] at hlook
      cases hlook

/-- One field is found again exactly when the state repeats it and no buffer goes below it. -/
theorem field_of_puts {x : Option Value} (hx : ∀ c, x = some c → c.Wf ∧ c.binaries = [])
    {fields loaded : Bindings} {targets : List Path}
    (h : Puts (.dict fields) targets (.dict loaded)) (hne : ∀ t ∈ targets, t ≠ [])
    (own default : String) :
    Agree x (some (get loaded own (.str default))) ↔
      Agree x (some (get fields own (.str default))) ∧
        ∀ t ∈ targets, t.head? ≠ some (.str own) := by
  by_cases htouched : ∃ t ∈ targets, t.head? = some (.str own)
  · obtain ⟨t, ht, hhead⟩ := htouched
    apply iff_of_false
    · obtain ⟨front, b, hfront, hpre, hlook⟩ := h.buffer t ht
      obtain ⟨key, path, rfl⟩ := List.exists_cons_of_ne_nil hfront
      obtain ⟨rest, rfl⟩ := hpre
      obtain rfl : key = .str own := by simpa using hhead
      obtain ⟨c, hc, _⟩ := Option.bind_eq_some_iff.mp hlook
      have hget : get loaded own (.str default) = c := by
        rw [child_dict] at hc
        simp [Protocol.get, hc]
      rw [hget]
      exact not_agree_of_touched hx hc hlook
    · exact fun hand => hand.2 t ht hhead
  · have huntouched : ∀ t ∈ targets, t.head? ≠ some (.str own) :=
      fun t ht hhead => htouched ⟨t, ht, hhead⟩
    have hlookup : Agree (fields.lookup (.str own)) (loaded.lookup (.str own)) := by
      rw [← child_dict, ← child_dict]
      apply agree_of_look
      intro path
      refine (h.elsewhere _ fun t ht hpre => huntouched t ht ?_).symm
      obtain ⟨key, rest, rfl⟩ := List.exists_cons_of_ne_nil (hne t ht)
      simp [(List.cons_prefix_cons.mp hpre).1]
    have hget : Agree (some (get fields own (.str default)))
        (some (get loaded own (.str default))) :=
      .some (get_agree hlookup _)
    exact ⟨fun hagree => ⟨hagree.trans hget.symm, huntouched⟩, fun hand => hand.1.trans hget⟩

/-! ### Documents -/

/-- What a record loads as, for a record that loads. -/
def loadedState (item : Key × Value) : Value :=
  match loadModel item with
  | .ok loaded => loaded.2
  | .error _ => .none

theorem mapM_loadModel {records : Bindings} {loaded : List (Key × Value)}
    (h : records.mapM loadModel = .ok loaded) :
    (∀ item ∈ records, loadModel item = .ok (item.1, loadedState item)) ∧
      loaded = records.map fun item => (item.1, loadedState item) := by
  induction records generalizing loaded with
  | nil =>
      cases h
      exact ⟨by simp, rfl⟩
  | cons item records ih =>
      rw [List.mapM_cons] at h
      obtain ⟨first, hfirst, h⟩ := Port.bind_eq_ok_iff.mp h
      obtain ⟨rest, hrest, h⟩ := Port.bind_eq_ok_iff.mp h
      cases h
      obtain ⟨hall, rfl⟩ := ih hrest
      have hitem : first = (item.1, loadedState item) := by
        have hid := (loadModel_inv hfirst).1
        rw [loadedState, hfirst, ← hid]
      rw [List.forall_mem_cons, List.map_cons, ← hitem]
      exact ⟨⟨hfirst, hall⟩, rfl⟩

theorem loadDocument_inv {doc : Bindings} {loaded : List (Key × Value)}
    (h : loadDocument doc = .ok loaded) :
    doc.lookup (.str "state") = some (.dict (recordsOf doc)) ∧
      (recordsOf doc).mapM loadModel = .ok loaded := by
  unfold loadDocument at h
  cases hstate : doc.lookup (.str "state") with
  | none => simp [hstate] at h
  | some state =>
      simp only [hstate] at h
      split at h
      · cases h
      · cases state with
        | dict records =>
            have hrecords : recordsOf doc = records := by
              simp [recordsOf, Protocol.get, hstate, Value.bindings]
            rw [hrecords]
            exact ⟨rfl, h⟩
        | _ => cases h

/-- One record: what it loads as can be dumped under the same identity exactly when it
keeps its identity. -/
theorem redumps_iff {anywidgetVersion : String} {item : Key × Value} (hwf : item.2.Wf)
    (hbinaries : item.2.binaries = [])
    (hload : loadModel item = .ok (item.1, loadedState item)) :
    (Redumps (item.1, loadedState item) ∧ ∀ field ∈ identityFields anywidgetVersion,
      Agree (item.2.child (.str field.1))
        (some (get (loadedState item).bindings field.2.1 (.str field.2.2)))) ↔
      KeepsIdentity anywidgetVersion item := by
  obtain ⟨modelId, record⟩ := item
  generalize loadedState (modelId, record) = w at *
  obtain ⟨-, state, buffers, hstate, hput⟩ := loadModel_inv hload
  obtain ⟨-, hputs⟩ := putBuffers_puts hput
  have hne : ∀ t ∈ state.targets (bufferPathsOf record), t ≠ [] := fun t => targets_ne_nil
  have hw : w.Wf := wf_corePutBuffers (hwf.child (hwf.child_iff.mp hstate)) hput
  have hlabel : w.label = state.label := label_of_puts hputs hne
  have hfield : ∀ name c, record.child (.str name) = some c → c.Wf ∧ c.binaries = [] := by
    intro name c hc
    have hmem := hwf.child_iff.mp hc
    exact ⟨hwf.child hmem, binaries_item_eq_nil hbinaries hmem⟩
  constructor
  · rintro ⟨⟨htruthy, loaded, rfl, hnesting⟩, hfields⟩
    cases state with
    | dict fields =>
        have hfield' := fun (field : String × String × String) =>
          field_of_puts (hfield field.1) hputs hne field.2.1 field.2.2
        refine ⟨htruthy, fields, hstate, (nesting_of_puts hw hputs).mp hnesting, ?_, ?_⟩
        · exact fun field hmem => ((hfield' field).mp (hfields field hmem)).1
        · exact fun field hmem => ((hfield' field).mp (hfields field hmem)).2
    | scalar s | bin b | list xs | tuple xs => cases hlabel
  · rintro ⟨htruthy, fields, hrepeats⟩
    obtain rfl : state = .dict fields := Option.some.inj (hstate.symm.trans hrepeats.state)
    cases w with
    | dict loaded =>
        refine ⟨⟨htruthy, loaded, rfl, (nesting_of_puts hw hputs).mpr hrepeats.covered⟩, ?_⟩
        intro field hmem
        apply (field_of_puts (hfield field.1) hputs hne field.2.1 field.2.2).mpr
        exact ⟨hrepeats.repeated field hmem, hrepeats.untouched field hmem⟩
    | scalar s | bin b | list xs | tuple xs => cases hlabel

theorem child_modelRecord (anywidgetVersion : String) (fields : Bindings)
    {field : String × String × String} (h : field ∈ identityFields anywidgetVersion) :
    (Value.dict (modelRecord anywidgetVersion fields)).child (.str field.1) =
      some (get fields field.2.1 (.str field.2.2)) := by
  simp only [identityFields, List.mem_cons, List.not_mem_nil, or_false] at h
  rcases h with rfl | rfl | rfl <;> rfl

theorem sameIdentity_iff {anywidgetVersion : String} {doc redumped records : Bindings}
    {state : Key × Value → Value} (hrecords : recordsOf doc = records)
    (hnodup : (Dict.keys records).Nodup)
    (hredumped : recordsOf redumped =
      redumpRecords anywidgetVersion (records.map fun item => (item.1, state item))) :
    SameIdentity doc redumped ↔ ∀ item ∈ records, ∀ field ∈ identityFields anywidgetVersion,
      Agree (item.2.child (.str field.1))
        (some (get (state item).bindings field.2.1 (.str field.2.2))) := by
  have hkeys : Dict.keys (recordsOf redumped) = Dict.keys records := by
    rw [hredumped, keys_redumpRecords, List.map_map]
    rfl
  have hlookup : ∀ item ∈ records, (recordsOf redumped).lookup item.1 =
      some (.dict (modelRecord anywidgetVersion (state item).bindings)) := by
    intro item hitem
    rw [Dict.lookup_eq_some_iff (hkeys ▸ hnodup), hredumped, redumpRecords, List.map_map]
    exact List.mem_map.mpr ⟨item, hitem, rfl⟩
  have hfield : ∀ item ∈ records, ∀ field ∈ identityFields anywidgetVersion,
      recordField doc item.1 field.1 = item.2.child (.str field.1) ∧
      recordField redumped item.1 field.1 =
        some (get (state item).bindings field.2.1 (.str field.2.2)) := by
    intro item hitem field hmem
    rw [recordField, recordField, hrecords, (Dict.lookup_eq_some_iff hnodup).mpr hitem,
      hlookup item hitem]
    exact ⟨rfl, child_modelRecord anywidgetVersion _ hmem⟩
  have hnames : ["model_name", "model_module", "model_module_version"] =
      (identityFields anywidgetVersion).map Prod.fst := rfl
  constructor
  · intro h item hitem field hmem
    obtain ⟨hdoc, hnew⟩ := hfield item hitem field hmem
    rw [← hdoc, ← hnew]
    apply h.fields
    · rw [hrecords]
      exact List.mem_map.mpr ⟨item, hitem, rfl⟩
    · rw [hnames]
      exact List.mem_map.mpr ⟨field, hmem, rfl⟩
  · intro h
    refine ⟨fun modelId => by rw [hkeys, hrecords], fun modelId hid name hname => ?_⟩
    rw [hrecords] at hid
    rw [hnames] at hname
    obtain ⟨item, hitem, rfl⟩ := List.mem_map.mp hid
    obtain ⟨field, hmem, rfl⟩ := List.mem_map.mp hname
    obtain ⟨hdoc, hnew⟩ := hfield item hitem field hmem
    rw [hdoc, hnew]
    exact h item hitem field hmem

/-- A document keeps the identity of its models exactly when each of its states repeats
it, away from the buffers. -/
theorem redumpDocument_sameIdentity_iff {doc : Bindings} (hwf : (Value.dict doc).Wf)
    (hbinaries : (Value.dict doc).binaries = []) {loaded : List (Key × Value)}
    (hload : loadDocument doc = .ok loaded) (anywidgetVersion : String) :
    (∃ redumped, redumpDocument anywidgetVersion loaded = .ok redumped ∧
      SameIdentity doc redumped) ↔
      ∀ item ∈ recordsOf doc, KeepsIdentity anywidgetVersion item := by
  obtain ⟨hstate, hmapM⟩ := loadDocument_inv hload
  obtain ⟨hall, rfl⟩ := mapM_loadModel hmapM
  have hmem := Dict.mem_of_lookup hstate
  obtain ⟨hnodup, hrecords⟩ := wf_dict_iff.mp ((wf_dict_iff.mp hwf).2 _ hmem)
  have hnone := binaries_dict_eq_nil_iff.mp (binaries_dict_eq_nil_iff.mp hbinaries _ hmem)
  have hone : ∀ item ∈ recordsOf doc, (Redumps (item.1, loadedState item) ∧
      ∀ field ∈ identityFields anywidgetVersion, Agree (item.2.child (.str field.1))
        (some (get (loadedState item).bindings field.2.1 (.str field.2.2)))) ↔
        KeepsIdentity anywidgetVersion item :=
    fun item hitem => redumps_iff (hrecords item hitem) (hnone item hitem) (hall item hitem)
  have hitems : ∀ item ∈ (recordsOf doc).map fun item => (item.1, loadedState item),
      item.2.Wf := by
    rw [List.forall_mem_map]
    intro item hitem
    obtain ⟨-, state, buffers, hchild, hput⟩ := loadModel_inv (hall item hitem)
    have hrecord := hrecords item hitem
    exact wf_corePutBuffers (hrecord.child (hrecord.child_iff.mp hchild)) hput
  have hids : (((recordsOf doc).map fun item => (item.1, loadedState item)).map
      Prod.fst).Nodup := by
    rw [List.map_map]
    exact hnodup
  rw [← forall₂_congr hone]
  simp only [redumpDocument_ok_iff hitems, List.forall_mem_map]
  constructor
  · rintro ⟨_, ⟨hredumps, -, rfl⟩, hsame⟩ item hitem
    exact ⟨hredumps item hitem, (sameIdentity_iff rfl hnodup rfl).mp hsame item hitem⟩
  · intro h
    refine ⟨_, ⟨fun item hitem => (h item hitem).1, hids, rfl⟩, ?_⟩
    exact (sameIdentity_iff rfl hnodup rfl).mpr fun item hitem => (h item hitem).2

namespace IdentityWitness

/-- The document of one slider, with the given state. -/
def slider (state : Bindings) : Bindings :=
  [(.str "version_major", .int 2), (.str "version_minor", .int 0),
    (.str "state", .dict [(.str "m", .dict [
      (.str "model_name", .str "IntSliderModel"),
      (.str "model_module", .str "@jupyter-widgets/controls"),
      (.str "model_module_version", .str "2.0.0"),
      (.str "state", .dict state)])])]

/-- The state with its identity repeated. -/
def named : Bindings :=
  [(.str "_model_name", .str "IntSliderModel"),
    (.str "_model_module", .str "@jupyter-widgets/controls"),
    (.str "_model_module_version", .str "2.0.0"), (.str "value", .int 7)]

/-- The state as a manager that drops the defaults saves it. -/
def bare : Bindings := [(.str "value", .int 7)]

theorem loadDocument_slider (state : Bindings) :
    loadDocument (slider state) = .ok [(.str "m", .dict state)] := rfl

/-- A shallow state without buffers only has to repeat the identity. -/
theorem repeatsIdentity_of_shallow {anywidgetVersion : String} {record : Value} {fields : Bindings}
    (hwf : (Value.dict fields).Wf) (hnesting : (Value.dict fields).nesting ≤ maxDepth)
    (hstate : record.child (.str "state") = some (.dict fields))
    (hnone : bufferPathsOf record = [])
    (hfields : ∀ field ∈ identityFields anywidgetVersion,
      record.child (.str field.1) = some (get fields field.2.1 (.str field.2.2))) :
    RepeatsIdentity anywidgetVersion record fields where
  state := hstate
  covered path l hl hcontainer hdeep := by
    have hshallow := (nesting_le_iff_look hwf).mp hnesting path l hl hcontainer
    omega
  repeated field hmem := by
    rw [hfields field hmem]
    exact agree_refl _
  untouched field hmem t ht := by
    rw [hnone] at ht
    cases ht

end IdentityWitness

theorem redumpDocument_sameIdentity_iff_slider :
    ∃ redumped, redumpDocument anywidgetModuleVersion
        [(.str "m", .dict IdentityWitness.named)] = .ok redumped ∧
      SameIdentity (IdentityWitness.slider IdentityWitness.named) redumped := by
  apply (redumpDocument_sameIdentity_iff (by decide) (by decide)
    (IdentityWitness.loadDocument_slider _) anywidgetModuleVersion).mpr
  intro item hitem
  obtain rfl := List.mem_singleton.mp hitem
  refine ⟨by decide, IdentityWitness.named, ?_⟩
  apply IdentityWitness.repeatsIdentity_of_shallow (by decide) (by decide) rfl rfl
  intro field hmem
  simp only [identityFields, List.mem_cons, List.not_mem_nil, or_false] at hmem
  rcases hmem with rfl | rfl | rfl <;> rfl

/-- A record whose state does not repeat its identity comes back as an anywidget. -/
theorem redumpDocument_renames :
    ¬ ∀ doc loaded, (Value.dict doc).Wf → (Value.dict doc).binaries = [] →
      loadDocument doc = .ok loaded → CarriesIdentity doc →
      ∃ redumped, redumpDocument anywidgetModuleVersion loaded = .ok redumped ∧
        SameIdentity doc redumped := by
  intro h
  have hcarries : CarriesIdentity (IdentityWitness.slider IdentityWitness.bare) := by
    intro modelId hid name hname
    obtain rfl := List.mem_singleton.mp hid
    simp only [List.mem_cons, List.not_mem_nil, or_false] at hname
    rcases hname with rfl | rfl | rfl <;> rfl
  obtain ⟨redumped, hredump, hsame⟩ := h _ _ (by decide) (by decide)
    (IdentityWitness.loadDocument_slider IdentityWitness.bare) hcarries
  have hitems : ∀ item ∈ [(Key.str "m", Value.dict IdentityWitness.bare)], item.2.Wf := by
    decide
  obtain ⟨-, -, rfl⟩ := (redumpDocument_ok_iff hitems).mp hredump
  have hname := hsame.fields (.str "m") (by decide) "model_name" (by decide)
  have hslider : (Value.str "IntSliderModel") ≈ Value.str "AnyModel" := by
    cases hname with
    | some hequiv => exact hequiv
  exact absurd (hslider []) (by decide)

end Serialize

end Cositos
