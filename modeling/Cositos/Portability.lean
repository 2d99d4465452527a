/-
Documents travel between the languages: what one writes, any other reads back as
the same models, whatever order its JSON reader gives the keys of an object.
-/
import Cositos.Documents
import Cositos.Wire

namespace Cositos

open Value Buffers Protocol

/-! ### Writing the same document -/

namespace Dumper

variable {ε : Type} {dumper : Dumper ε} {anywidgetVersion : String}
  {entries : List (String × HostState)}

/-- The state is split as every language splits it, and its identity read as it is. -/
structure Writes (dumper : Dumper ε) (fields : Bindings) : Prop where
  split : dumper.removeBuffers (.dict fields) = .ok (Value.dict fields).split
  field : ∀ name text, Key.str name ∈ Serialize.identityKeys →
    dumper.field fields name (.str text) = get fields name (.str text)

theorem dumpModel_ok {state : HostState} (h : dumper.Writes state.fields)
    (anywidgetVersion modelId : String) :
    dumper.dumpModel anywidgetVersion (modelId, state.fields) =
      .ok (modelId, Serialize.modelRecord anywidgetVersion state.fields) := by
  have hzip : List.zipWith Serialize.bufferRecord
      ((Value.dict state.fields).binaries.map Prod.fst)
      ((Value.dict state.fields).binaries.map Prod.snd) =
        Serialize.bufferRecords state.fields := by
    simp [Serialize.bufferRecords, List.zipWith_map, List.zipWith_self]
  have hsplit : (Value.dict state.fields).split = ((Value.dict state.fields).strip,
    (Value.dict state.fields).binaries.map Prod.fst,
    (Value.dict state.fields).binaries.map Prod.snd) := rfl
  have hempty : ((Value.dict state.fields).binaries.map Prod.snd).isEmpty =
      (Serialize.bufferRecords state.fields).isEmpty := by
    simp [Serialize.bufferRecords]
  rw [dumpModel, h.split, hsplit]
  simp only [bind, Except.bind, pure, Except.pure, hzip, hempty,
    h.field "_model_name" _ (by decide), h.field "_model_module" _ (by decide),
    h.field "_model_module_version" _ (by decide), Serialize.modelRecord]
  by_cases hbuffers : (Serialize.bufferRecords state.fields).isEmpty = true
  · simp [hbuffers]
  · simp [hbuffers, Dict.set]

/-- The loop appends a record for each entry, as long as the ids are fresh. -/
theorem foldlM_dumpEntry_ok (hentries : ∀ entry ∈ entries, dumper.Writes entry.2.fields)
    (state : Bindings) (hnonempty : ∀ entry ∈ entries, entry.1 ≠ "")
    (hnodup : (entries.map Prod.fst).Nodup)
    (hfresh : ∀ entry ∈ entries, Key.str entry.1 ∉ Dict.keys state) :
    (Serialize.modelEntries entries).foldlM (dumper.dumpEntry anywidgetVersion) state =
      .ok (state ++ Serialize.modelRecords anywidgetVersion entries) := by
  induction entries generalizing state with
  | nil => simp [Serialize.modelEntries, Serialize.modelRecords, pure, Except.pure]
  | cons entry entries ih =>
      simp only [List.map_cons, List.nodup_cons, List.forall_mem_cons] at *
      have hkey : Key.str entry.1 ∉ Dict.keys state := hfresh.1
      have hstep : dumper.dumpEntry anywidgetVersion state (entry.1, entry.2.fields) =
          .ok (state ++ [(.str entry.1,
            .dict (Serialize.modelRecord anywidgetVersion entry.2.fields))]) := by
        rw [dumpEntry, dumpModel_ok hentries.1]
        simp only [bind, Except.bind]
        rw [if_neg hnonempty.1, if_neg hkey, Dict.set_of_not_mem hkey]
        rfl
      have hnext : ∀ other ∈ entries, Key.str other.1 ∉ Dict.keys (state ++ [(Key.str entry.1,
          Value.dict (Serialize.modelRecord anywidgetVersion entry.2.fields))]) := by
        intro other hother hmem
        rw [Dict.keys_append, List.mem_append] at hmem
        rcases hmem with hold | hnew
        · exact hfresh.2 other hother hold
        · have heq : other.1 = entry.1 := by simpa using hnew
          exact hnodup.1 (heq ▸ List.mem_map.mpr ⟨other, hother, rfl⟩)
      have hrest := ih hentries.2 _ hnonempty.2 hnodup.2 hnext
      rw [Serialize.modelEntries, List.map_cons, List.foldlM_cons]
      simp only [Prod.map, id, hstep, bind, Except.bind]
      refine hrest.trans ?_
      simp [Serialize.modelRecords]

theorem dumpDocument_ok (hentries : ∀ entry ∈ entries, dumper.Writes entry.2.fields)
    (hids : Serialize.ProperIds (entries.map Prod.fst)) (anywidgetVersion : String) :
    dumper.dumpDocument anywidgetVersion (Serialize.modelEntries entries) =
      .ok (Serialize.document anywidgetVersion entries) := by
  have hnonempty : ∀ entry ∈ entries, entry.1 ≠ "" := fun e he =>
    hids.1 e.1 (List.mem_map.mpr ⟨e, he, rfl⟩)
  rw [dumpDocument, foldlM_dumpEntry_ok hentries [] hnonempty hids.2 (by simp)]
  rfl

end Dumper

/-! ### Reading off a document that reads the same -/

theorem eq_scalar_of_equiv {v : Value} {s : Scalar} (h : v ≈ .scalar s) : v = .scalar s := by
  have hlabel := (Front.equiv_iff_child.mp h).1
  cases v <;> simp [label] at hlabel
  rw [hlabel]

theorem exists_dict_of_equiv {v : Value} {e : Bindings} (h : v ≈ .dict e) : ∃ d, v = .dict d := by
  have hlabel := (Front.equiv_iff_child.mp h).1
  cases v <;> simp [label] at hlabel
  exact ⟨_, rfl⟩

theorem exists_list_of_equiv {v : Value} {ys : List Value} (h : v ≈ .list ys) :
    ∃ xs, v = .list xs ∧ List.Forall₂ (· ≈ ·) xs ys := by
  obtain ⟨hlabel, hchild⟩ := Front.equiv_iff_child.mp h
  cases v <;> simp [label] at hlabel
  rename_i xs
  refine ⟨xs, rfl, List.forall₂_iff_get.mpr ⟨hlabel, fun n hx hy => ?_⟩⟩
  have hagree := hchild (.int (n : Int))
  simp only [child, List.getElem?_eq_getElem hx, List.getElem?_eq_getElem hy] at hagree
  cases hagree with
  | some hequiv => exact hequiv

theorem exists_lookup_of_equiv {d e : Bindings} (h : Value.dict d ≈ .dict e) {k : Key} {y : Value}
    (he : e.lookup k = some y) : ∃ x, d.lookup k = some x ∧ x ≈ y := by
  have hagree := Front.dict_equiv_iff.mp h k
  rw [he] at hagree
  cases hd : d.lookup k with
  | none => rw [hd] at hagree; cases hagree
  | some x =>
      rw [hd] at hagree
      cases hagree with
      | some hequiv => exact ⟨x, rfl, hequiv⟩

theorem lookup_eq_none_of_equiv {d e : Bindings} (h : Value.dict d ≈ .dict e) {k : Key}
    (he : e.lookup k = none) : d.lookup k = none := by
  have hagree := Front.dict_equiv_iff.mp h k
  rw [he] at hagree
  cases hd : d.lookup k with
  | none => rfl
  | some x => rw [hd] at hagree; cases hagree

theorem keys_of_equiv {xs : List Value} {path : Path}
    (h : List.Forall₂ (· ≈ ·) xs (path.map Key.toValue)) : xs = path.map Key.toValue := by
  induction path generalizing xs with
  | nil => exact List.forall₂_nil_right_iff.mp h
  | cons k path ih =>
      obtain ⟨x, rest, hhead, htail, rfl⟩ := List.forall₂_cons_right_iff.mp h
      have hkey : x = k.toValue := by
        cases k <;> exact eq_scalar_of_equiv hhead
      rw [List.map_cons, hkey, ih htail]

theorem path_of_equiv {v : Value} {path : Path} (h : v ≈ path.toValue) : v = path.toValue := by
  obtain ⟨xs, rfl, hxs⟩ := exists_list_of_equiv h
  rw [Path.toValue, keys_of_equiv hxs]

/-- A record of the buffers array, whatever the order of its keys. -/
def Encodes (entry : Value) (leaf : Path × Binary) : Prop :=
  ∃ fields, entry = .dict fields ∧
    fields.lookup (.str "path") = some leaf.1.toValue ∧
    fields.lookup (.str "encoding") = some (.str "base64") ∧
    fields.lookup (.str "data") = some (.str (Serialize.b64encode leaf.2))

theorem encodes_of_equiv {entry : Value} {path : Path} {buf : Binary}
    (h : entry ≈ Serialize.bufferRecord path buf) : Encodes entry (path, buf) := by
  obtain ⟨fields, rfl⟩ := exists_dict_of_equiv h
  obtain ⟨p, hp, hpath⟩ := exists_lookup_of_equiv h (k := .str "path") rfl
  obtain ⟨e, he, hencoding⟩ := exists_lookup_of_equiv h (k := .str "encoding") rfl
  obtain ⟨d, hd, hdata⟩ := exists_lookup_of_equiv h (k := .str "data") rfl
  rw [path_of_equiv hpath] at hp
  rw [eq_scalar_of_equiv hencoding] at he
  rw [eq_scalar_of_equiv hdata] at hd
  exact ⟨fields, rfl, hp, he, hd⟩

/-- A record of a model whose state reads as `v`. -/
def RecordOf (v record : Value) : Prop :=
  ∃ fields state entries, record = .dict fields ∧
    fields.lookup (.str "state") = some state ∧ state ≈ v.strip ∧
    (fields.lookup (.str "buffers") = some (.list entries) ∨
      fields.lookup (.str "buffers") = none ∧ entries = []) ∧
    List.Forall₂ Encodes entries v.binaries

theorem encodes_bufferRecords {entries : List Value} {leaves : List (Path × Binary)}
    (h : List.Forall₂ (· ≈ ·) entries
      (leaves.map fun leaf => (Serialize.bufferRecord leaf.1 leaf.2).plain)) :
    List.Forall₂ Encodes entries (leaves.map (Prod.map id fun b => ⟨.bytes, b.raw⟩)) := by
  induction leaves generalizing entries with
  | nil => simpa using h
  | cons leaf leaves ih =>
      obtain ⟨entry, rest, hhead, htail, rfl⟩ := List.forall₂_cons_right_iff.mp h
      have hplain : (Serialize.bufferRecord leaf.1 leaf.2).plain =
          Serialize.bufferRecord leaf.1 ⟨.bytes, leaf.2.raw⟩ := by
        simp [Serialize.bufferRecord, plain, plainEntries, plain_path, Serialize.b64encode]
      have hentry : entry ≈ (Serialize.bufferRecord leaf.1 leaf.2).plain := hhead
      rw [hplain] at hentry
      exact .cons (encodes_of_equiv hentry) (ih htail)

/-- A record that reads as the one written is a record of the state. -/
theorem recordOf_of_equiv {record : Value} {fields : Bindings} {anywidgetVersion : String}
    (h : record ≈ (Value.dict (Serialize.modelRecord anywidgetVersion fields)).plain) :
    RecordOf (Value.dict fields).plain record := by
  obtain ⟨own, rfl⟩ := exists_dict_of_equiv h
  have hstate : (plainEntries (Serialize.modelRecord anywidgetVersion fields)).lookup
      (.str "state") = some (Value.dict fields).strip.plain := rfl
  obtain ⟨state, hlookup, hequiv⟩ := exists_lookup_of_equiv h hstate
  rw [plain_strip] at hequiv
  by_cases hempty : Serialize.bufferRecords fields = []
  · have hnone : (plainEntries (Serialize.modelRecord anywidgetVersion fields)).lookup
        (.str "buffers") = none := by
      rw [Serialize.modelRecord, hempty]
      rfl
    have hleaves : (Value.dict fields).binaries = [] := List.map_eq_nil_iff.mp hempty
    refine ⟨own, state, [], rfl, hlookup, hequiv,
      Or.inr ⟨lookup_eq_none_of_equiv h hnone, rfl⟩, ?_⟩
    rw [binaries_plain, hleaves]
    exact .nil
  · have hsome : (plainEntries (Serialize.modelRecord anywidgetVersion fields)).lookup
        (.str "buffers") = some (.list ((Serialize.bufferRecords fields).map plain)) := by
      have hnot : (Serialize.bufferRecords fields).isEmpty = false := by simpa using hempty
      rw [Serialize.modelRecord, hnot, ← plainSeq_eq]
      rfl
    obtain ⟨buffers, hbuffers, hequiv'⟩ := exists_lookup_of_equiv h hsome
    obtain ⟨entries, rfl, hentries⟩ := exists_list_of_equiv hequiv'
    refine ⟨own, state, entries, rfl, hlookup, hequiv, Or.inl hbuffers, ?_⟩
    rw [Serialize.bufferRecords, List.map_map] at hentries
    rw [binaries_plain]
    exact encodes_bufferRecords hentries

/-! ### Reading the buffers -/

theorem mapM_of_forall₂ {ε α β γ : Type} {f : α → Except ε β} {g : γ → β} {xs : List α}
    {ys : List γ} (h : List.Forall₂ (fun x y => f x = .ok (g y)) xs ys) :
    xs.mapM f = .ok (ys.map g) := by
  induction h with
  | nil => rfl
  | cons hhead _ ih => rw [List.mapM_cons, hhead, ih]; rfl

theorem segment_toValue (k : Key) : k.toValue.segment = k := by
  cases k with
  | frac q => simp [Key.toValue, Value.segment, Scalar.key, Key.ofRat, q.2]
  | _ => rfl

theorem segments_toValue (path : Path) : (path.map Key.toValue).map Value.segment = path := by
  simp [Function.comp_def, segment_toValue]

/-- A state as JSON text carries it. -/
structure Plain (v : Value) : Prop where
  wf : v.Wf
  json : v.json = true
  container : v.isContainer = true
  raw : ∀ leaf ∈ v.binaries, (⟨.bytes, leaf.2.raw⟩ : Binary) = leaf.2

theorem Plain.buffers {v : Value} (hv : Plain v) :
    (v.binaries.map fun leaf => (⟨.bytes, leaf.2.raw⟩ : Binary)) = v.binaries.map Prod.snd :=
  List.map_congr_left hv.raw

theorem json_plain {v : Value} (h : v.jsonWith true = true) : v.plain.json = true := by
  induction v using tree_induction with
  | scalar s => cases s <;> first | rfl | simp [jsonWith] at h
  | bin b => rfl
  | list xs ih =>
      rw [plain, plainSeq_eq, json_list_iff, List.forall_mem_map]
      exact fun x hx => ih x hx (json_list_iff.mp h x hx)
  | tuple xs ih =>
      rw [plain, plainSeq_eq, json_list_iff, List.forall_mem_map]
      exact fun x hx => ih x hx ((json_tuple_iff.mp h).2 x hx)
  | dict kvs ih =>
      rw [plain, plainEntries_eq, json_dict_iff, List.forall_mem_map]
      exact fun kc hkc => ⟨(json_dict_iff.mp h kc hkc).1, ih kc hkc (json_dict_iff.mp h kc hkc).2⟩

theorem plain_of_state {fields : Bindings} (hwf : (Value.dict fields).Wf)
    (hjson : (Value.dict fields).jsonWith true = true) : Plain (Value.dict fields).plain := by
  refine ⟨wf_plain hwf, json_plain hjson, rfl, ?_⟩
  rw [binaries_plain, List.forall_mem_map]
  exact fun leaf _ => rfl

namespace Serialize

theorem decodeEntry_encodes {entry : Value} {leaf : Path × Binary} (h : Encodes entry leaf) :
    decodeEntry entry = .ok (leaf.1.toValue, ⟨.bytes, leaf.2.raw⟩) := by
  obtain ⟨fields, rfl, hpath, hencoding, hdata⟩ := h
  have hget : (Value.dict fields).getItem (.str "path") = .ok leaf.1.toValue := by
    simp [getItem, hashKey, Scalar.key, bind, Except.bind, hpath, pure, Except.pure]
  have hget' : (Value.dict fields).getItem (.str "data") = .ok (.str (b64encode leaf.2)) := by
    simp [getItem, hashKey, Scalar.key, bind, Except.bind, hdata, pure, Except.pure]
  have hdecode : b64decode (.dict fields) = .ok ⟨.bytes, leaf.2.raw⟩ := by
    simp only [b64decode, Protocol.get, hencoding, Option.getD_some, hget', bind, Except.bind,
      base64Decode_b64encode]
    rfl
  rw [decodeEntry, hget, hdecode]
  rfl

/-- Merging a state's own buffers into anything that reads as its stripped form. -/
theorem putBuffers_equiv_strip {v s : Value} (hv : v.Wf) (hcontainer : v.isContainer = true)
    (hs : s ≈ v.strip) :
    ∃ w, putBuffers s (v.binaries.map fun leaf => leaf.1.toValue) (v.binaries.map Prod.snd) =
      .ok w ∧ w ≈ v.listed := by
  have hset : ∀ leaf ∈ v.binaries, s.Settable leaf.1 := by
    intro leaf hleaf
    obtain ⟨front, last, heq, hparent⟩ :=
      settable_strip hv hcontainer ((mem_binaries_iff hv).mp hleaf)
    exact ⟨front, last, heq, by simpa only [hs front] using hparent⟩
  obtain ⟨w, hput, hmerges⟩ := putBuffers_leaves v.binaries hset (incomparable_binaries hv)
  exact ⟨w, hput, hmerges.equiv_listed hv hs⟩

/-- `load_model` on any record of a state. -/
theorem loadModel_recordOf {v record : Value} (hv : Plain v) (hrecord : RecordOf v record)
    (modelId : Key) : ∃ w, loadModel (modelId, record) = .ok (modelId, w) ∧ w ≈ v := by
  obtain ⟨fields, state, entries, rfl, hstate, hstrip, hbuffers, hentries⟩ := hrecord
  obtain ⟨w, hput, hw⟩ := putBuffers_equiv_strip hv.wf hv.container hstrip
  rw [listed_of_json hv.json] at hw
  refine ⟨w, ?_, hw⟩
  have hget : (Value.dict fields).getItem (.str "state") = .ok state := by
    simp [getItem, hashKey, Scalar.key, bind, Except.bind, hstate, pure, Except.pure]
  have hfield : get fields "buffers" (.list []) = .list entries := by
    rcases hbuffers with h | ⟨h, rfl⟩ <;> simp [Protocol.get, h]
  have hmapM : entries.mapM decodeEntry = .ok (v.binaries.map fun leaf =>
      (leaf.1.toValue, (⟨.bytes, leaf.2.raw⟩ : Binary))) :=
    mapM_of_forall₂ (hentries.imp fun _ _ => decodeEntry_encodes)
  have hdecode : decodeBuffersBase64 state (.list entries) =
      .ok (state, v.binaries.map fun leaf => leaf.1.toValue, v.binaries.map Prod.snd) := by
    rw [decodeBuffersBase64, iterate, ← hv.buffers]
    simp only [bind, Except.bind, hmapM, pure, Except.pure, List.map_map]
    rfl
  rw [loadModel, hget]
  simp only [bind, Except.bind, Value.bindings, hfield, hdecode, hput, pure, Except.pure]

end Serialize

/-! ### The merges of the other languages -/

/-- An array of the state is an array of the stripped state. -/
theorem look_list_of_strip {v s : Value} (hv : Plain v) (hs : s ≈ v.strip) {path : Path} {n : Nat}
    (hlist : v.look path = some (.list n)) : s.look path = some (.list n) := by
  rw [hs path, look_strip_eq_listed hv.wf, listed_of_json hv.json, hlist]
  rintro front b hfront ⟨rest, rfl⟩
  rw [look_append_of_bin hfront, look_bin] at hlist
  split_ifs at hlist
  cases hlist

theorem holds_of_plain {v s : Value} (hv : Plain v) (hs : s ≈ v.strip) {admits : Key → Prop}
    {fits : Nat → Prop} (hadmits : ∀ s, admits (.str s))
    (hfits : ∀ path n, s.look path = some (.list n) → fits n) : Merger.Holds admits fits v := by
  refine ⟨hv.wf, fun front key l hlook => ?_⟩
  cases hlabel : v.look front with
  | none => trivial
  | some label =>
      cases label with
      | scalar s | bin b => trivial
      | tuple n => exact absurd hlabel (Front.look_ne_tuple hv.json front n)
      | list n => exact hfits front n (look_list_of_strip hv hs hlabel)
      | dict =>
          obtain ⟨s, rfl⟩ := Front.json_name hv.json hlabel hlook
          exact hadmits s

/-- What a merge makes of the stripped state and the state's own buffers. -/
theorem foldlM_plain {ε : Type} {merger : Merger ε} {admits : Key → Prop} {fits : Nat → Prop}
    (hstandard : merger.Standard admits fits) (hadmits : ∀ s, admits (.str s)) {v s : Value}
    (hv : Plain v) (hs : s ≈ v.strip)
    (hfits : ∀ path n, s.look path = some (.list n) → fits n) :
    ∃ w, v.binaries.foldlM (fun u leaf => merger.putAt leaf.2 u leaf.1) s = .ok w ∧ w ≈ v :=
  Merger.foldlM_strip hstandard (holds_of_plain hv hs hadmits hfits) (listed_of_json hv.json)
    hv.container hs

namespace Julia

/-- The steps of `put_buffers!`. -/
def merger : Merger JuliaError where
  getItem obj key := getIndex obj key.toValue
  setItem obj key v := setIndex obj key.toValue v
  withItem obj key v := withIndex obj key.toValue v
  emptyPath _ _ := .error .boundsError

theorem putAt_eq_merger (buf : Binary) (obj : Value) (path : Path) :
    putAt buf obj (path.map Key.toValue) = merger.putAt buf obj path := by
  induction path generalizing obj with
  | nil => rfl
  | cons key path ih =>
      cases path with
      | nil => rfl
      | cons next path =>
          simp only [List.map_cons, putAt, Merger.putAt]
          simp only [List.map_cons] at ih
          simp only [ih]
          rfl

theorem vectorIndex_ofNat {length n : Nat} (hn : n < length) :
    vectorIndex length (n : Int) = .ok n := by
  rw [vectorIndex, if_pos (by omega)]
  rfl

theorem standard_merger : merger.Standard (fun key => ∃ s, key = .str s) fun _ => True where
  get_dict := by
    rintro kvs _ c ⟨s, rfl⟩ hc
    simp [merger, Key.toValue, getIndex, integer?, hc]
  set_dict := by
    rintro kvs _ c ⟨s, rfl⟩
    exact ⟨_, rfl, assigns_dict kvs _ c⟩
  with_dict := by
    rintro kvs _ c ⟨s, rfl⟩
    exact ⟨_, rfl, assigns_dict kvs _ c⟩
  get_list := by
    intro xs n c _ hn
    obtain ⟨hlt, hget⟩ := List.getElem?_eq_some_iff.mp hn
    simp [merger, Key.toValue, getIndex, integer?, vectorIndex_ofNat hlt, bind, Except.bind, pure,
      Except.pure, hlt, hget]
  set_list := by
    intro xs n c _ hlt
    simp [merger, Key.toValue, setIndex, integer?, vectorIndex_ofNat hlt, bind, Except.bind, pure,
      Except.pure]
  with_list := by
    intro xs n c _ hlt
    simp [merger, Key.toValue, withIndex, integer?, vectorIndex_ofNat hlt, bind, Except.bind, pure,
      Except.pure]

theorem putBuffers_eq_foldlM (leaves : List (Path × Binary)) (v : Value) :
    putBuffers v (.list (leaves.map fun leaf => leaf.1.toValue)) (leaves.map Prod.snd) =
      leaves.foldlM (fun u leaf => merger.putAt leaf.2 u leaf.1) v := by
  have heach : ∀ v, putEach v (leaves.map fun leaf => (leaf.1.toValue, leaf.2)) =
      leaves.foldlM (fun u leaf => merger.putAt leaf.2 u leaf.1) v := by
    induction leaves with
    | nil => exact fun v => rfl
    | cons leaf leaves ih =>
        intro v
        simp only [List.map_cons, putEach, Path.toValue, segments, bind, Except.bind,
          putAt_eq_merger, List.foldlM_cons]
        cases merger.putAt leaf.2 v leaf.1 with
        | error e => rfl
        | ok w => exact ih w
  rw [putBuffers, elements]
  simp only [bind, Except.bind, List.length_map, ne_eq, not_true_eq_false, if_false]
  rw [List.zip_map', heach]

theorem decodeBuffer_encodes {decode : String → Option (List UInt8)}
    (hdecode : ∀ raw, decode (String.ofList (Base64.encode raw)) = some raw) {entry : Value}
    {leaf : Path × Binary} (h : Encodes entry leaf) :
    getIndex entry (.str "path") = .ok leaf.1.toValue ∧
      decodeBuffer decode entry = .ok ⟨.bytes, leaf.2.raw⟩ := by
  obtain ⟨fields, rfl, hpath, hencoding, hdata⟩ := h
  refine ⟨by simp [getIndex, integer?, hpath], ?_⟩
  have hget : getIndex (.dict fields) (.str "data") = .ok (.str (Serialize.b64encode leaf.2)) := by
    simp [getIndex, integer?, hdata]
  simp only [decodeBuffer, Protocol.get, hencoding, Option.getD_some, hget, bind, Except.bind,
    Serialize.b64encode, hdecode]

/-- `load_model` on any record of a state. -/
theorem loadModel_recordOf {decode : String → Option (List UInt8)}
    (hdecode : ∀ raw, decode (String.ofList (Base64.encode raw)) = some raw) {v record : Value}
    (hv : Plain v) (hrecord : RecordOf v record) (modelId : Key) :
    ∃ w, loadModel decode (modelId, record) = .ok (modelId, w) ∧ w ≈ v := by
  obtain ⟨fields, state, entries, rfl, hstate, hstrip, hbuffers, hentries⟩ := hrecord
  obtain ⟨w, hput, hw⟩ := foldlM_plain standard_merger (fun s => ⟨s, rfl⟩) hv hstrip
    (fun _ _ _ => trivial)
  refine ⟨w, ?_, hw⟩
  have hget : getIndex (.dict fields) (.str "state") = .ok state := by
    simp [getIndex, integer?, hstate]
  have hfield : get fields "buffers" (.list []) = .list entries := by
    rcases hbuffers with h | ⟨h, rfl⟩ <;> simp [Protocol.get, h]
  have hpaths : entries.mapM (fun entry => getIndex entry (.str "path")) =
      .ok (v.binaries.map fun leaf => leaf.1.toValue) :=
    mapM_of_forall₂ (hentries.imp fun _ _ h => (decodeBuffer_encodes hdecode h).1)
  have hbinaries : entries.mapM (decodeBuffer decode) =
      .ok (v.binaries.map fun leaf => (⟨.bytes, leaf.2.raw⟩ : Binary)) :=
    mapM_of_forall₂ (hentries.imp fun _ _ h => (decodeBuffer_encodes hdecode h).2)
  rw [hv.buffers] at hbinaries
  rw [← putBuffers_eq_foldlM] at hput
  rw [loadModel]
  simp only [hget, bind, Except.bind, Value.bindings, hfield, elements, hpaths, hbinaries, hput,
    pure, Except.pure]

end Julia

namespace CSharp

theorem index_dict {fields : Bindings} {s : String} {v : Value}
    (h : fields.lookup (.str s) = some v) : index (.dict fields) (.str s) = .ok v := by
  simp [index, castDictionary, deref, bind, Except.bind, h]

theorem loadEntry_encodes {decode : String → Option (List UInt8)}
    (hdecode : ∀ raw, decode (String.ofList (Base64.encode raw)) = some raw) {entry : Value}
    {leaf : Path × Binary} (h : Encodes entry leaf) :
    loadEntry decode entry = .ok (leaf.1, ⟨.bytes, leaf.2.raw⟩) := by
  obtain ⟨fields, rfl, hpath, hencoding, hdata⟩ := h
  have hbuffer : decodeBuffer decode (.dict fields) = .ok ⟨.bytes, leaf.2.raw⟩ := by
    simp only [decodeBuffer, Value.bindings, Protocol.get, hencoding, Option.getD_some,
      index_dict hdata, bind, Except.bind, Serialize.b64encode, hdecode]
  simp only [loadEntry, index_dict hpath, Path.toValue, hbuffer, bind, Except.bind, pure,
    Except.pure, segments_toValue]

/-- `LoadModel` on any record of a state. -/
theorem loadModel_recordOf {decode : String → Option (List UInt8)}
    (hdecode : ∀ raw, decode (String.ofList (Base64.encode raw)) = some raw) {v record : Value}
    (hv : Plain v) (hrecord : RecordOf v record)
    (hfits : ∀ path n, record.look path = some (.list n) → ListFits n) (modelId : Key) :
    ∃ w, loadModel decode (modelId, record) = .ok (modelId, w) ∧ w ≈ v := by
  obtain ⟨fields, state, entries, rfl, hstate, hstrip, hbuffers, hentries⟩ := hrecord
  have hstatefits : ∀ path n, state.look path = some (.list n) → ListFits n := by
    intro path n hlook
    apply hfits (.str "state" :: path) n
    rw [look, child_dict, hstate]
    exact hlook
  obtain ⟨w, hput, hw⟩ := foldlM_plain standard_merger (fun s => ⟨s, rfl⟩) hv hstrip hstatefits
  refine ⟨w, ?_, hw⟩
  have hentries' : bufferEntries fields = entries := by
    rcases hbuffers with h | ⟨h, rfl⟩ <;> simp [bufferEntries, Protocol.get, h]
  have hloaded : entries.mapM (loadEntry decode) =
      .ok (v.binaries.map fun leaf => (leaf.1, (⟨.bytes, leaf.2.raw⟩ : Binary))) :=
    mapM_of_forall₂ (hentries.imp fun _ _ => loadEntry_encodes hdecode)
  have hpaths : (v.binaries.map fun leaf => (leaf.1, (⟨.bytes, leaf.2.raw⟩ : Binary))).map
      Prod.fst = v.binaries.map Prod.fst := by simp
  have hraw : (v.binaries.map fun leaf => (leaf.1, (⟨.bytes, leaf.2.raw⟩ : Binary))).map
      Prod.snd = v.binaries.map Prod.snd := by
    rw [← hv.buffers, List.map_map]
    rfl
  rw [← putBuffers_eq_foldlM] at hput
  rw [loadModel]
  simp only [index_dict hstate, bind, Except.bind, Value.bindings, hentries', hloaded, hpaths, hraw,
    hput, pure, Except.pure]

end CSharp

namespace Clojure

theorem get_dict {fields : Bindings} {s : String} {v : Value}
    (h : fields.lookup (.str s) = some v) : get (.dict fields) (.str s) = v := by
  simp [get, h]

theorem decodeBuffer_encodes {decode : String → Option (List UInt8)}
    (hdecode : ∀ raw, decode (String.ofList (Base64.encode raw)) = some raw) {entry : Value}
    {leaf : Path × Binary} (h : Encodes entry leaf) :
    get entry (.str "path") = leaf.1.toValue ∧
      decodeBuffer decode entry = .ok ⟨.bytes, leaf.2.raw⟩ := by
  obtain ⟨fields, rfl, hpath, hencoding, hdata⟩ := h
  refine ⟨get_dict hpath, ?_⟩
  simp only [decodeBuffer, get_dict hencoding, get_dict hdata, Serialize.b64encode, hdecode]

/-- `load-model` on any record of a state. -/
theorem loadModel_recordOf {decode : String → Option (List UInt8)}
    (hdecode : ∀ raw, decode (String.ofList (Base64.encode raw)) = some raw) {v record : Value}
    (hv : Plain v) (hrecord : RecordOf v record)
    (hfits : ∀ path n, record.look path = some (.list n) → CSharp.ListFits n) (modelId : Key) :
    ∃ w, loadModel decode (modelId, record) = .ok (modelId, w) ∧ w ≈ v := by
  obtain ⟨fields, state, entries, rfl, hstate, hstrip, hbuffers, hentries⟩ := hrecord
  have hstatefits : ∀ path n, state.look path = some (.list n) → CSharp.ListFits n := by
    intro path n hlook
    apply hfits (.str "state" :: path) n
    rw [look, child_dict, hstate]
    exact hlook
  obtain ⟨w, hput, hw⟩ := foldlM_plain standard_merger (fun _ => trivial) hv hstrip hstatefits
  refine ⟨w, ?_, hw⟩
  have hfield : Protocol.get fields "buffers" (.list []) = .list entries := by
    rcases hbuffers with h | ⟨h, rfl⟩ <;> simp [Protocol.get, h]
  have hpaths : (entries.map fun entry => get entry (.str "path")).mapM elements =
      .ok (v.binaries.map fun leaf => leaf.1.map Key.toValue) := by
    apply mapM_of_forall₂
    rw [List.forall₂_map_left_iff]
    refine hentries.imp fun entry leaf h => ?_
    rw [(decodeBuffer_encodes hdecode h).1]
    rfl
  have hsegments : (v.binaries.map fun leaf => leaf.1.map Key.toValue).map
      (fun path => path.map Value.segment) = v.binaries.map Prod.fst := by
    rw [List.map_map]
    exact List.map_congr_left fun leaf _ => segments_toValue leaf.1
  have hbinaries : entries.mapM (decodeBuffer decode) =
      .ok (v.binaries.map fun leaf => (⟨.bytes, leaf.2.raw⟩ : Binary)) :=
    mapM_of_forall₂ (hentries.imp fun _ _ h => (decodeBuffer_encodes hdecode h).2)
  rw [hv.buffers] at hbinaries
  rw [← putBuffers_eq_foldlM] at hput
  rw [loadModel]
  simp only [get_dict hstate, bind, Except.bind, Value.bindings, hfield, elements, hpaths,
    hbinaries, hsegments, hput, pure, Except.pure]

end Clojure

/-! ### Documents -/

/-- A state that every language can write and read back: JSON values and binary
values within the depth cap, and text where a record repeats the state. -/
structure Storable (fields : Bindings) : Prop where
  json : (Value.dict fields).jsonWith true = true
  nesting : (Value.dict fields).nesting ≤ maxDepth
  identity : ∀ key ∈ Serialize.identityKeys, ∀ value, fields.lookup key = some value →
    ∃ s, value = .str s

theorem Storable.dumpable {fields : Bindings} (h : Storable fields) :
    Serialize.Dumpable fields := by
  refine ⟨h.json, h.nesting, fun key hkey value hvalue => ?_⟩
  obtain ⟨s, rfl⟩ := h.identity key hkey value hvalue
  rfl

/-- A loop that loads every record loads the document. -/
theorem mapM_records {ε : Type} {load : Key × Value → Except ε (Key × Value)}
    {P : Key → Value → Prop} {records : Bindings}
    (hload : ∀ kv ∈ records, ∃ w, load kv = .ok (kv.1, w) ∧ P kv.1 w) :
    ∃ loaded, records.mapM load = .ok loaded ∧ Dict.keys loaded = Dict.keys records ∧
      ∀ kv ∈ loaded, P kv.1 kv.2 := by
  induction records with
  | nil => exact ⟨[], rfl, rfl, by simp⟩
  | cons kv records ih =>
      obtain ⟨w, hw, hP⟩ := hload kv List.mem_cons_self
      obtain ⟨loaded, hloaded, hkeys, hall⟩ := ih fun kv h => hload kv (List.mem_cons_of_mem _ h)
      refine ⟨(kv.1, w) :: loaded, ?_, by simp [Dict.keys] at hkeys ⊢; exact hkeys, ?_⟩
      · rw [List.mapM_cons, hw, hloaded]
        rfl
      · exact List.forall_mem_cons.mpr ⟨hP, hall⟩

namespace Language

variable (same : Path → Path → Bool) {anywidgetVersion : String}
  {entries : List (String × HostState)}

theorem writes_of_split {ε : Type} {dumper : Dumper ε} {fields : Bindings}
    (hsplit : dumper.removeBuffers (.dict fields) = .ok (Value.dict fields).split)
    (hfield : dumper.field = Protocol.get) : dumper.Writes fields :=
  ⟨hsplit, fun name text _ => by rw [hfield]⟩

theorem field_csharp {fields : Bindings} (h : Storable fields) (name text : String)
    (hname : Key.str name ∈ Serialize.identityKeys) :
    CSharp.field fields name (.str text) = get fields name (.str text) := by
  unfold CSharp.field Protocol.get
  cases hlookup : fields.lookup (.str name) with
  | none => rfl
  | some value =>
      obtain ⟨s, rfl⟩ := h.identity _ hname value hlookup
      rfl

/-- Every language writes the same document. -/
theorem dumpDocument_ok (language : Language)
    (htree : ∀ entry ∈ entries, language.IsTree (.dict entry.2.fields))
    (hstates : ∀ entry ∈ entries, Storable entry.2.fields)
    (hids : Serialize.ProperIds (entries.map Prod.fst)) (anywidgetVersion : String) :
    language.dumpDocument same anywidgetVersion (Serialize.modelEntries entries) =
      .ok (Serialize.document anywidgetVersion entries) := by
  have hsplit : ∀ entry ∈ entries, language.removeBuffers same (.dict entry.2.fields) =
      .ok (Value.dict entry.2.fields).split := fun entry hentry =>
    (removeBuffers_tree same language (htree entry hentry)).1 (hstates entry hentry).nesting
  cases language with
  | python =>
      exact Serialize.dumpDocument_ok (fun entry h => (hstates entry h).dumpable) hids
        anywidgetVersion
  | julia =>
      exact Dumper.dumpDocument_ok (fun entry h => writes_of_split (hsplit entry h) rfl) hids
        anywidgetVersion
  | csharp =>
      exact Dumper.dumpDocument_ok
        (fun entry h => ⟨hsplit entry h, field_csharp (hstates entry h)⟩) hids anywidgetVersion
  | clojure =>
      exact Dumper.dumpDocument_ok (fun entry h => writes_of_split (hsplit entry h) rfl) hids
        anywidgetVersion

/-- The records of a document that reads as the one written. -/
theorem records_of_reads {language : Language} {doc : Bindings}
    (h : language.Reads (Value.dict (Serialize.document anywidgetVersion entries)).plain
      (.dict doc)) (hids : (entries.map Prod.fst).Nodup) :
    doc.lookup (.str "version_major") = some (.int Serialize.stateVersionMajor) ∧
      ∃ records, doc.lookup (.str "state") = some (.dict records) ∧
        (Dict.keys records).Perm (entries.map fun entry => .str entry.1) ∧
        ∀ kv ∈ records, (∃ entry ∈ entries, kv.1 = .str entry.1 ∧
          RecordOf (Value.dict entry.2.fields).plain kv.2) := by
  obtain ⟨version, hversion, hequiv⟩ :=
    exists_lookup_of_equiv h.equiv (k := .str "version_major") rfl
  rw [eq_scalar_of_equiv hequiv] at hversion
  obtain ⟨state, hstate, hequiv'⟩ := exists_lookup_of_equiv h.equiv (k := .str "state") rfl
  obtain ⟨records, rfl⟩ := exists_dict_of_equiv hequiv'
  have hwf : (Value.dict records).Wf := h.wf.child (Dict.mem_of_lookup hstate)
  have hkeys : Dict.keys (plainEntries (Serialize.modelRecords anywidgetVersion entries)) =
      entries.map fun entry => Key.str entry.1 := by
    simp [plainEntries_eq, Serialize.modelRecords, Dict.keys, Function.comp_def]
  have hnodup : (entries.map fun entry => Key.str entry.1).Nodup := by
    have hmap := hids.map (f := Key.str) (fun _ _ heq => Key.str.inj heq)
    rwa [List.map_map] at hmap
  refine ⟨hversion, records, hstate, ?_, ?_⟩
  · rw [← hkeys]
    exact Front.perm_keys_of_equiv (wf_dict_iff.mp hwf).1 (hkeys ▸ hnodup) hequiv'
  · intro kv hkv
    have hlookup := (Dict.lookup_eq_some_iff (wf_dict_iff.mp hwf).1).mpr
      (show (kv.1, kv.2) ∈ records from hkv)
    obtain ⟨record, hrecord, hread⟩ := exists_lookup_of_equiv (Setoid.symm hequiv') hlookup
    rw [plainEntries_eq] at hrecord
    obtain ⟨pair, hpair, heq⟩ := List.mem_map.mp (Dict.mem_of_lookup hrecord)
    obtain ⟨entry, hentry, rfl⟩ := List.mem_map.mp hpair
    obtain ⟨hkey, rfl⟩ := Prod.ext_iff.mp heq
    exact ⟨entry, hentry, hkey.symm, recordOf_of_equiv (Setoid.symm hread)⟩

/-- Every language loads every record of such a document. -/
theorem loadModel_reads {decoders : Decoders} (hlossless : decoders.Lossless) {v record : Value}
    (hv : Plain v) (hrecord : RecordOf v record) (modelId : Key) :
    (∃ w, Serialize.loadModel (modelId, record) = .ok (modelId, w) ∧ w ≈ v) ∧
    (∃ w, Julia.loadModel decoders.julia (modelId, record) = .ok (modelId, w) ∧ w ≈ v) ∧
    ((∀ path n, record.look path = some (.list n) → CSharp.ListFits n) →
      (∃ w, CSharp.loadModel decoders.csharp (modelId, record) = .ok (modelId, w) ∧ w ≈ v) ∧
      ∃ w, Clojure.loadModel decoders.clojure (modelId, record) = .ok (modelId, w) ∧ w ≈ v) :=
  ⟨Serialize.loadModel_recordOf hv hrecord modelId,
    Julia.loadModel_recordOf hlossless.julia hv hrecord modelId,
    fun hfits => ⟨CSharp.loadModel_recordOf hlossless.csharp hv hrecord hfits modelId,
      Clojure.loadModel_recordOf hlossless.clojure hv hrecord hfits modelId⟩⟩

/-- Loading a document that reads as the one written gives the models back. -/
theorem loadDocument_reads {decoders : Decoders} (hlossless : decoders.Lossless)
    (language : Language) (hstates : ∀ entry ∈ entries, Storable entry.2.fields)
    (hids : (entries.map Prod.fst).Nodup) {doc : Bindings}
    (h : language.Reads (Value.dict (Serialize.document anywidgetVersion entries)).plain
      (.dict doc)) :
    ∃ loaded, language.loadDocument decoders doc = .ok loaded ∧
      (Dict.keys loaded).Perm (entries.map fun entry => .str entry.1) ∧
      ∀ kv ∈ loaded, ∃ entry ∈ entries, kv.1 = .str entry.1 ∧
        kv.2 ≈ (Value.dict entry.2.fields).plain := by
  obtain ⟨hversion, records, hstate, hperm, hrecords⟩ := records_of_reads h hids
  have hfits : language = .csharp ∨ language = .clojure → ∀ kv ∈ records, ∀ path n,
      kv.2.look path = some (.list n) → CSharp.ListFits n := by
    intro hlanguage kv hkv path n hlook
    apply h.lists hlanguage (.str "state" :: kv.1 :: path) n
    have hwf : (Value.dict records).Wf := h.wf.child (Dict.mem_of_lookup hstate)
    have hlookup : records.lookup kv.1 = some kv.2 :=
      (Dict.lookup_eq_some_iff (wf_dict_iff.mp hwf).1).mpr hkv
    simpa [look, hstate, hlookup] using hlook
  -- the loop, whichever language's record loader it runs
  have hloop : ∀ {ε : Type} (load : Key × Value → Except ε (Key × Value)),
      (∀ kv ∈ records, ∀ v, Plain v → RecordOf v kv.2 →
        ∃ w, load (kv.1, kv.2) = .ok (kv.1, w) ∧ w ≈ v) →
      ∃ loaded, records.mapM load = .ok loaded ∧
        (Dict.keys loaded).Perm (entries.map fun entry => .str entry.1) ∧
        ∀ kv ∈ loaded, ∃ entry ∈ entries, kv.1 = .str entry.1 ∧
          kv.2 ≈ (Value.dict entry.2.fields).plain := by
    intro ε load hload
    have heach : ∀ kv ∈ records, ∃ w, load kv = .ok (kv.1, w) ∧ ∃ entry ∈ entries,
        kv.1 = .str entry.1 ∧ w ≈ (Value.dict entry.2.fields).plain := by
      intro kv hkv
      obtain ⟨entry, hentry, hkey, hrecord⟩ := hrecords kv hkv
      obtain ⟨w, hw, hequiv⟩ := hload kv hkv _
        (plain_of_state entry.2.wf (hstates entry hentry).json) hrecord
      exact ⟨w, hw, entry, hentry, hkey, hequiv⟩
    obtain ⟨loaded, hloaded, hkeys, hall⟩ := mapM_records (P := fun k w =>
      ∃ entry ∈ entries, k = .str entry.1 ∧ w ≈ (Value.dict entry.2.fields).plain) heach
    exact ⟨loaded, hloaded, hkeys ▸ hperm, hall⟩
  cases language with
  | python =>
      obtain ⟨loaded, hloaded, hrest⟩ := hloop Serialize.loadModel
        fun kv _ v hv hrecord => (loadModel_reads hlossless hv hrecord kv.1).1
      refine ⟨loaded, ?_, hrest⟩
      rw [← hloaded]
      simp [loadDocument, Serialize.loadDocument, hstate, Protocol.get, hversion,
        Serialize.isStateVersion, Scalar.key]
  | julia =>
      obtain ⟨loaded, hloaded, hrest⟩ := hloop (Julia.loadModel decoders.julia)
        fun kv _ v hv hrecord => (loadModel_reads hlossless hv hrecord kv.1).2.1
      refine ⟨loaded, ?_, hrest⟩
      rw [← hloaded]
      simp [loadDocument, Julia.loadDocument, hstate]
  | csharp =>
      obtain ⟨loaded, hloaded, hrest⟩ := hloop (CSharp.loadModel decoders.csharp)
        fun kv hkv v hv hrecord =>
          ((loadModel_reads hlossless hv hrecord kv.1).2.2 (hfits (Or.inl rfl) kv hkv)).1
      refine ⟨loaded, ?_, hrest⟩
      rw [← hloaded]
      simp [loadDocument, CSharp.loadDocument, hstate]
  | clojure =>
      obtain ⟨loaded, hloaded, hrest⟩ := hloop (Clojure.loadModel decoders.clojure)
        fun kv hkv v hv hrecord =>
          ((loadModel_reads hlossless hv hrecord kv.1).2.2 (hfits (Or.inr rfl) kv hkv)).2
      refine ⟨loaded, ?_, hrest⟩
      rw [← hloaded]
      simp [loadDocument, Clojure.loadDocument, hstate]

/-- What one language writes, any other reads back: the document passes through
JSON text, and loading it gives exactly one model for each entry, under its id
and with its state. -/
theorem documents_portable (writer reader : Language) (decoders : Decoders)
    (hlossless : decoders.Lossless) (entries : List (String × HostState))
    (htree : ∀ entry ∈ entries, writer.IsTree (.dict entry.2.fields))
    (hstates : ∀ entry ∈ entries, Storable entry.2.fields)
    (hnonempty : ∀ entry ∈ entries, entry.1 ≠ "") (hnodup : (entries.map Prod.fst).Nodup)
    (anywidgetVersion : String) :
    ∃ doc text,
      writer.dumpDocument same anywidgetVersion (Serialize.modelEntries entries) = .ok doc ∧
      (Value.dict doc).reload = .ok text ∧
      ∀ read : Bindings, reader.Reads text (.dict read) →
        ∃ loaded, reader.loadDocument decoders read = .ok loaded ∧
          (Dict.keys loaded).Perm (entries.map fun entry => .str entry.1) ∧
          ∀ entry ∈ entries, ∃ w, (.str entry.1, w) ∈ loaded ∧
            w ≈ (Value.dict entry.2.fields).plain := by
  have hids : Serialize.ProperIds (entries.map Prod.fst) :=
    ⟨List.forall_mem_map.mpr hnonempty, hnodup⟩
  obtain ⟨hjson, hbin⟩ := Serialize.portable_document
    (fun entry h => (hstates entry h).dumpable) anywidgetVersion
  refine ⟨_, _, dumpDocument_ok same writer htree hstates hids anywidgetVersion,
    reload_ok hjson hbin, fun read hread => ?_⟩
  obtain ⟨loaded, hloaded, hperm, hall⟩ :=
    loadDocument_reads hlossless reader hstates hnodup hread
  refine ⟨loaded, hloaded, hperm, fun entry hentry => ?_⟩
  have hmem : Key.str entry.1 ∈ Dict.keys loaded :=
    hperm.mem_iff.mpr (List.mem_map.mpr ⟨entry, hentry, rfl⟩)
  obtain ⟨kv, hkv, hkey⟩ := List.mem_map.mp hmem
  obtain ⟨entry', hentry', hkey', hequiv⟩ := hall kv hkv
  have hsame : entry' = entry :=
    List.inj_on_of_nodup_map hnodup hentry' hentry (Key.str.inj (hkey'.symm.trans hkey))
  refine ⟨kv.2, ?_, hsame ▸ hequiv⟩
  rw [← hkey]
  exact hkv

end Language

namespace PortabilityWitness

/-- The decoders of the libraries, on well-formed text. -/
def decoders : Language.Decoders where
  julia s := Base64.decode s.toList
  csharp s := Base64.decode s.toList
  clojure s := Base64.decode s.toList

theorem lossless : decoders.Lossless where
  julia raw := by simp [decoders, Base64.decode_encode]
  csharp raw := by simp [decoders, Base64.decode_encode]
  clojure raw := by simp [decoders, Base64.decode_encode]

/-- `{"title": "x", "image": [null, b"A"]}`. -/
def slide : HostState where
  fields := [(.str "title", .str "x"), (.str "image", .list [.none, .bin ⟨.bytes, [65]⟩])]
  wf := by decide

theorem storable_slide : Storable slide.fields where
  json := by decide
  nesting := by decide
  identity := by
    intro key hkey value hvalue
    have hmem := Dict.mem_of_lookup hvalue
    simp only [Serialize.identityKeys, List.mem_cons, List.not_mem_nil, or_false] at hkey
    rcases hkey with rfl | rfl | rfl <;> simp [slide] at hmem

end PortabilityWitness

namespace Language

open PortabilityWitness in
theorem documents_portable_slide :
    ∃ doc text,
      julia.dumpDocument (fun _ _ => true) "1" (Serialize.modelEntries [("a", slide)]) = .ok doc ∧
      (Value.dict doc).reload = .ok text ∧
      ∀ read : Bindings, csharp.Reads text (.dict read) →
        ∃ loaded, csharp.loadDocument decoders read = .ok loaded ∧
          (Dict.keys loaded).Perm [.str "a"] ∧
          ∀ entry ∈ [("a", slide)], ∃ w, (Key.str entry.1, w) ∈ loaded ∧
            w ≈ (Value.dict entry.2.fields).plain := by
  have huntupled : (Value.dict slide.fields).Untupled := untupled_of_json (by decide)
  have htree : ∀ entry ∈ [("a", slide)], julia.IsTree (.dict entry.2.fields) := by
    simpa using ⟨slide.wf, fun _ => huntupled⟩
  have hstates : ∀ entry ∈ [("a", slide)], Storable entry.2.fields := by
    simpa using storable_slide
  exact documents_portable (fun _ _ => true) .julia .csharp decoders lossless
    [("a", slide)] htree hstates (by simp) (by simp) "1"

end Language

end Cositos
