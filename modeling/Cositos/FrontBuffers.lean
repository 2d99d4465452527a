/-
The front end's split and merge compute what the Python core's do: the same
stripped state and leaves, and the same merged state up to the order of keys.
-/
import Cositos.Front
import Cositos.Json
import Cositos.Lifecycle

namespace Cositos

namespace Front

open Value

/-! ### Own properties -/

section Own

variable {own : Bindings} {key : Key} {value : Value}

theorem insertOwn_perm (own : Bindings) (key : Key) (value : Value) :
    (insertOwn own key value).Perm ((key, value) :: own) := by
  induction own with
  | nil => rfl
  | cons head tail ih =>
      unfold insertOwn
      split_ifs
      · rfl
      · exact (ih.cons head).trans (List.Perm.swap _ _ _)

theorem lookup_insertOwn (hkey : key ∉ Dict.keys own) (value : Value) (j : Key) :
    (insertOwn own key value).lookup j = if j = key then some value else own.lookup j := by
  induction own with
  | nil =>
      by_cases hj : j = key
      · subst hj
        simp [insertOwn]
      · simp [insertOwn, Dict.lookup_cons_ne hj, hj]
  | cons head tail ih =>
      obtain ⟨k', v'⟩ := head
      simp only [Dict.keys_cons, List.mem_cons, not_or] at hkey
      unfold insertOwn
      split_ifs with hbefore hj hj
      · subst hj
        simp
      · rw [Dict.lookup_cons_ne hj]
      · subst hj
        rw [Dict.lookup_cons_ne hkey.1, ih hkey.2, if_pos rfl]
      · by_cases hj' : j = k'
        · subst hj'
          simp
        · rw [Dict.lookup_cons_ne hj', Dict.lookup_cons_ne hj', ih hkey.2, if_neg hj]

theorem lookup_setOwn (own : Bindings) (key : Key) (value : Value) (j : Key) :
    (setOwn own key value).lookup j = if j = key then some value else own.lookup j := by
  unfold setOwn
  split_ifs with hmem
  · rw [Dict.lookup_set, if_pos ‹_›]
  · rw [Dict.lookup_set, if_neg ‹_›]
  · rw [lookup_insertOwn hmem, if_pos ‹_›]
  · rw [lookup_insertOwn hmem, if_neg ‹_›]

theorem nodup_keys_setOwn (hown : (Dict.keys own).Nodup) (key : Key) (value : Value) :
    (Dict.keys (setOwn own key value)).Nodup := by
  unfold setOwn
  split_ifs with hmem
  · exact Dict.nodup_keys_set hown key value
  · have hperm : (Dict.keys (insertOwn own key value)).Perm (key :: Dict.keys own) :=
      (insertOwn_perm own key value).map Prod.fst
    exact hperm.nodup_iff.mpr (List.nodup_cons.mpr ⟨hmem, hown⟩)

theorem mem_setOwn {kv : Key × Value} (h : kv ∈ setOwn own key value) :
    kv = (key, value) ∨ kv ∈ own := by
  unfold setOwn at h
  split_ifs at h
  · exact Dict.mem_set h
  · exact List.mem_cons.mp ((insertOwn_perm own key value).mem_iff.mp h)

theorem wf_setOwn (hown : (Value.dict own).Wf) (key : Key) (hvalue : value.Wf) :
    (Value.dict (setOwn own key value)).Wf := by
  obtain ⟨hkeys, hvalues⟩ := wf_dict_iff.mp hown
  refine wf_dict_iff.mpr ⟨nodup_keys_setOwn hkeys key value, fun kv hkv => ?_⟩
  rcases mem_setOwn hkv with rfl | hmem
  · exact hvalue
  · exact hvalues kv hmem

theorem assign_eq_setOwn (hkey : key ≠ protoKey) : assign own key value = setOwn own key value :=
  if_neg fun h => hkey h.1

theorem wf_assign (hown : (Value.dict own).Wf) (key : Key) (hvalue : value.Wf) :
    (Value.dict (assign own key value)).Wf := by
  unfold assign
  split_ifs
  · exact hown
  · exact wf_setOwn hown key hvalue

theorem nodup_keys_assign (hown : (Dict.keys own).Nodup) (key : Key) (value : Value) :
    (Dict.keys (assign own key value)).Nodup := by
  unfold assign
  split_ifs
  · exact hown
  · exact nodup_keys_setOwn hown key value

theorem Model.nodup_keys_dirtyState (model : Model) : (Dict.keys model.dirtyState).Nodup := by
  suffices hfold : ∀ own : Bindings, (Dict.keys own).Nodup →
      (Dict.keys (model.dirty.foldl (fun own key => assign own key (model.get key)) own)).Nodup
    from hfold [] (by simp)
  induction model.dirty with
  | nil => exact fun own hown => hown
  | cons key dirty ih => exact fun own hown => ih _ (nodup_keys_assign hown key _)

theorem lookup_assign (hkey : key ≠ protoKey) (j : Key) :
    (assign own key value).lookup j = if j = key then some value else own.lookup j := by
  rw [assign_eq_setOwn hkey, lookup_setOwn]

/-- Assigning an own property keeps the order. -/
theorem assign_eq_set (hkey : key ∈ Dict.keys own) :
    assign own key value = Dict.set own key value := by
  rw [assign, if_neg fun h => h.2 hkey, setOwn, if_pos hkey]

theorem lookup_ofEntries {entries : Bindings} (h : (Dict.keys entries).Nodup) (j : Key) :
    (ofEntries entries).lookup j = entries.lookup j := by
  have hfold : (ofEntries entries).lookup j = (Dict.update [] entries).lookup j :=
    Dict.lookup_foldl_put rfl fun own kv _ => lookup_setOwn own kv.1 kv.2 j
  rw [hfold, Dict.lookup_update [] h, List.lookup_nil, Option.or_none]

theorem wf_ofEntries {entries : Bindings} (h : ∀ kv ∈ entries, kv.2.Wf) :
    (Value.dict (ofEntries entries)).Wf := by
  suffices hfold : ∀ own : Bindings, (Value.dict own).Wf →
      (Value.dict (entries.foldl (fun own kv => setOwn own kv.1 kv.2) own)).Wf from
    hfold [] (by decide)
  induction entries with
  | nil => exact fun own hown => hown
  | cons head tail ih =>
      intro own hown
      exact ih (fun kv hkv => h kv (List.mem_cons_of_mem _ hkv)) _
        (wf_setOwn hown head.1 (h head List.mem_cons_self))

end Own

/-! ### Values on the wire -/

/-- A finite number for JavaScript, an array of a length that it allows, or no such thing. -/
def Light : Label → Prop
  | .scalar (.int i) => (toNumber i).isSome = true
  | .list length => length ≤ maxArrayLength
  | _ => True

instance : DecidablePred Light := fun label => by
  unfold Light
  split <;> infer_instance

/-- What both sides of the wire know: a tree of JSON values and binary values in
which no object binds a name twice or binds `__proto__`, and which JavaScript can hold. -/
structure OnWire (v : Value) : Prop where
  wf : v.Wf
  json : v.json = true
  proto : ∀ path, protoKey ∈ path → v.look path = none
  light : ∀ path label, v.look path = some label → Light label

/-- Two optional values are absent together or equal. -/
abbrev Agree : Option Value → Option Value → Prop := Option.Rel (· ≈ ·)

theorem agree_refl (x : Option Value) : Agree x x := by
  cases x with
  | none => exact .none
  | some v => exact .some (Setoid.refl v)

theorem Agree.symm {x y : Option Value} (h : Agree x y) : Agree y x := by
  cases h with
  | none => exact .none
  | some h => exact .some (Setoid.symm h)

theorem Agree.trans {x y z : Option Value} (h : Agree x y) (h' : Agree y z) : Agree x z := by
  cases h with
  | none => exact h'
  | some h =>
      cases h' with
      | some h' => exact .some (Setoid.trans h h')

theorem Agree.isSome_eq {x y : Option Value} (h : Agree x y) : x.isSome = y.isSome := by
  cases h <;> rfl

theorem Agree.bind_look {x y : Option Value} (h : Agree x y) (path : Path) :
    x.bind (fun c => c.look path) = y.bind fun c => c.look path := by
  cases h with
  | none => rfl
  | some h => exact h path

/-- States are equal when they have equal children under the same keys. -/
theorem equiv_iff_child {v w : Value} :
    v ≈ w ↔ v.label = w.label ∧ ∀ k, Agree (v.child k) (w.child k) := by
  constructor
  · intro h
    refine ⟨by simpa [look] using h [], fun k => ?_⟩
    have hlook : ∀ path, (v.child k).bind (fun c => c.look path) =
        (w.child k).bind fun c => c.look path := fun path => h (k :: path)
    have hnil := hlook []
    cases hv : v.child k with
    | none =>
        cases hw : w.child k with
        | none => exact .none
        | some d => simp [hv, hw, look] at hnil
    | some c =>
        cases hw : w.child k with
        | none => simp [hv, hw, look] at hnil
        | some d => exact .some fun path => by simpa [hv, hw] using hlook path
  · rintro ⟨hlabel, hchild⟩ path
    cases path with
    | nil => simp [look, hlabel]
    | cons k path =>
        exact (hchild k).bind_look path

theorem dict_equiv_iff {d e : Bindings} :
    Value.dict d ≈ Value.dict e ↔ ∀ k, Agree (d.lookup k) (e.lookup k) := by
  simp [equiv_iff_child, label]

/-- A JSON value is known by its positions. -/
theorem json_of_equiv {v w : Value} (hw : w.Wf) (hequiv : w ≈ v) (hv : v.json = true) :
    w.json = true := by
  induction w using items_induction generalizing v with
  | step w ih =>
      obtain ⟨hlabel, hchild⟩ := equiv_iff_child.mp hequiv
      have hitem : ∀ kc ∈ w.items, kc.2.json = true ∧ ∃ c, v.child kc.1 = some c := by
        intro kc hkc
        have hagree := hchild kc.1
        rw [hw.child_iff.mpr hkc] at hagree
        cases hc : v.child kc.1 with
        | none =>
            rw [hc] at hagree
            cases hagree
        | some c =>
            rw [hc] at hagree
            cases hagree with
            | some h =>
                exact ⟨ih kc hkc (hw.child hkc) h (json_child hv hc), c, rfl⟩
      cases w with
      | scalar s =>
          cases v <;> simp [label] at hlabel
          subst hlabel
          exact hv
      | bin b => rfl
      | list xs =>
          rw [json_list_iff]
          intro x hx
          obtain ⟨k, hk⟩ := mem_items_seq hx
          exact (hitem (k, x) hk).1
      | tuple xs =>
          cases v <;> simp [label] at hlabel
          simp [jsonWith] at hv
      | dict kvs =>
          rw [json_dict_iff]
          intro kc hkc
          obtain ⟨hjson, c, hc⟩ := hitem kc hkc
          refine ⟨?_, hjson⟩
          cases v <;> simp [label] at hlabel
          rw [child_dict] at hc
          exact (json_dict_iff.mp hv _ (Dict.mem_of_lookup hc)).1

theorem OnWire.of_equiv {v w : Value} (hv : OnWire v) (hw : w.Wf) (hequiv : w ≈ v) :
    OnWire w where
  wf := hw
  json := json_of_equiv hw hequiv hv.json
  proto path hpath := (hequiv path).trans (hv.proto path hpath)
  light path label hlabel := hv.light path label ((hequiv path).symm.trans hlabel)

theorem OnWire.child {v c : Value} (hv : OnWire v) {k : Key} (hc : v.child k = some c) :
    OnWire c where
  wf := hv.wf.child (hv.wf.child_iff.mp hc)
  json := json_child hv.json hc
  proto path hpath := by
    rw [← look_cons_of_child hc]
    exact hv.proto _ (List.mem_cons_of_mem _ hpath)
  light path label hlabel := by
    rw [← look_cons_of_child hc] at hlabel
    exact hv.light _ label hlabel

theorem look_leaf {v : Value} (hv : v.isContainer = false) {path : Path} (hpath : path ≠ []) :
    v.look path = none := by
  obtain ⟨k, path, rfl⟩ := List.exists_cons_of_ne_nil hpath
  cases v <;> first | rfl | simp [isContainer] at hv

theorem onWire_leaf {v : Value} (hv : v.isContainer = false) (hjson : v.json = true)
    (hlight : Light v.label) : OnWire v where
  wf := by cases v <;> first | rfl | simp [isContainer] at hv
  json := hjson
  proto path hpath := look_leaf hv (List.ne_nil_of_mem hpath)
  light path label hlabel := by
    by_cases hpath : path = []
    · subst hpath
      rwa [← Option.some.inj hlabel]
    · rw [look_leaf hv hpath] at hlabel
      cases hlabel

theorem OnWire.listed {v : Value} (hv : OnWire v) : v.listed = v := listed_of_json hv.json

/-- A dict of wire values under proper names is a wire value. -/
theorem onWire_dict_iff {kvs : Bindings} :
    OnWire (.dict kvs) ↔ (Dict.keys kvs).Nodup ∧
      ∀ kc ∈ kvs, (∃ s, kc.1 = .str s) ∧ kc.1 ≠ protoKey ∧ OnWire kc.2 := by
  constructor
  · intro h
    refine ⟨(wf_dict_iff.mp h.wf).1, fun kc hkc => ⟨(json_dict_iff.mp h.json kc hkc).1, ?_, ?_⟩⟩
    · intro heq
      have hnone := h.proto [kc.1] (by simp [heq])
      have hc : (Value.dict kvs).child kc.1 = some kc.2 := h.wf.child_iff.mpr hkc
      rw [look_cons_of_child hc] at hnone
      simp [look] at hnone
    · exact h.child (k := kc.1) (h.wf.child_iff.mpr hkc)
  · rintro ⟨hkeys, hvalues⟩
    refine ⟨wf_dict_iff.mpr ⟨hkeys, fun kc hkc => (hvalues kc hkc).2.2.wf⟩,
      json_dict_iff.mpr fun kc hkc => ⟨(hvalues kc hkc).1, (hvalues kc hkc).2.2.json⟩, ?_, ?_⟩
    · intro path hpath
      cases path with
      | nil => simp at hpath
      | cons k path =>
          rw [look, child_dict]
          cases hlookup : kvs.lookup k with
          | none => rfl
          | some c =>
              obtain ⟨_, hproto, hc⟩ := hvalues _ (Dict.mem_of_lookup hlookup)
              rcases List.mem_cons.mp hpath with heq | htail
              · exact absurd heq.symm hproto
              · exact hc.proto path htail
    · intro path label hlabel
      cases path with
      | nil =>
          cases hlabel
          trivial
      | cons k path =>
          obtain ⟨c, hc, hlabel⟩ := Option.bind_eq_some_iff.mp hlabel
          exact (hvalues _ (Dict.mem_of_lookup hc)).2.2.light path label hlabel

theorem onWire_set {own : Bindings} (hown : OnWire (.dict own)) {name : String}
    (hname : Key.str name ≠ protoKey) {value : Value} (hvalue : OnWire value) :
    OnWire (.dict (Dict.set own (.str name) value)) := by
  obtain ⟨hkeys, hvalues⟩ := onWire_dict_iff.mp hown
  refine onWire_dict_iff.mpr ⟨Dict.nodup_keys_set hkeys _ _, fun kv hkv => ?_⟩
  rcases Dict.mem_set hkv with rfl | hmem
  · exact ⟨⟨name, rfl⟩, hname, hvalue⟩
  · exact hvalues kv hmem

theorem onWire_update {d e : Bindings} (hd : OnWire (.dict d)) (he : OnWire (.dict e)) :
    OnWire (.dict (Dict.update d e)) := by
  obtain ⟨hkeys, hold⟩ := onWire_dict_iff.mp hd
  obtain ⟨-, hnew⟩ := onWire_dict_iff.mp he
  refine onWire_dict_iff.mpr ⟨Dict.nodup_keys_update hkeys e, fun kv hkv => ?_⟩
  rcases Dict.mem_update hkv with hmem | hmem
  · exact hold kv hmem
  · exact hnew kv hmem

/-! ### Off the wire -/

theorem parsedSeq_eq (xs : List Value) : parsedSeq xs = xs.map parsed := by
  induction xs with
  | nil => rfl
  | cons x xs ih => simp [parsedSeq, ih]

theorem parsedEntries_eq (kvs : Bindings) : parsedEntries kvs = kvs.map (Prod.map id parsed) := by
  induction kvs with
  | nil => rfl
  | cons head tail ih => simp [parsedEntries, ih, Prod.map]

theorem wf_parsed (v : Value) : (parsed v).Wf := by
  induction v using tree_induction with
  | scalar s => cases s <;> rfl
  | bin b => rfl
  | list xs ih | tuple xs ih =>
      rw [parsed, parsedSeq_eq, wf_list_iff, List.forall_mem_map]
      exact ih
  | dict kvs ih =>
      rw [parsed, parsedEntries_eq]
      apply wf_ofEntries
      rw [List.forall_mem_map]
      exact ih

theorem child_parsed_dict {kvs : Bindings} (h : (Dict.keys kvs).Nodup) (k : Key) :
    (parsed (.dict kvs)).child k = (kvs.lookup k).map parsed := by
  have hkeys : (Dict.keys (kvs.map (Prod.map id parsed))).Nodup := by
    simpa [Dict.keys, Function.comp_def] using h
  rw [parsed, parsedEntries_eq, child_dict, lookup_ofEntries hkeys, Dict.lookup_map_snd]

section WithInts

variable {f : Int → Scalar}

theorem withIntsSeq_eq (xs : List Value) : withIntsSeq f xs = xs.map (withInts f) := by
  induction xs with
  | nil => rfl
  | cons x xs ih => simp [withIntsSeq, ih]

theorem withIntsEntries_eq (kvs : Bindings) :
    withIntsEntries f kvs = kvs.map (Prod.map id (withInts f)) := by
  induction kvs with
  | nil => rfl
  | cons head tail ih => simp [withIntsEntries, ih, Prod.map]

theorem keys_withIntsEntries (kvs : Bindings) :
    Dict.keys (withIntsEntries f kvs) = Dict.keys kvs := by
  simp [withIntsEntries_eq, Dict.keys, Function.comp_def]

theorem lookup_withIntsEntries (kvs : Bindings) (key : Key) :
    (withIntsEntries f kvs).lookup key = (kvs.lookup key).map (withInts f) := by
  rw [withIntsEntries_eq, Dict.lookup_map_snd]

theorem isBinary_withInts (v : Value) : (withInts f v).isBinary = v.isBinary := by
  cases v with
  | scalar s => cases s <;> rfl
  | _ => rfl

theorem child_withInts (v : Value) (k : Key) :
    (withInts f v).child k = (v.child k).map (withInts f) := by
  cases v with
  | scalar s => cases s <;> rfl
  | bin b => rfl
  | list xs => rw [withInts, withIntsSeq_eq, child_list_map]
  | tuple xs => rw [withInts, withIntsSeq_eq, child_tuple, child_tuple, child_list_map]
  | dict kvs =>
      rw [withInts, withIntsEntries_eq, child_dict, child_dict, Dict.lookup_map_snd]

/-- What the value shows with other scalars in place of its integers. -/
def labelWithInts (f : Int → Scalar) : Label → Label
  | .scalar (.int i) => .scalar (f i)
  | label => label

theorem label_withInts (v : Value) : (withInts f v).label = labelWithInts f v.label := by
  cases v with
  | scalar s => cases s <;> rfl
  | _ => simp [withInts, withIntsSeq_eq, label, labelWithInts]

theorem look_withInts (v : Value) (path : Path) :
    (withInts f v).look path = (v.look path).map (labelWithInts f) := by
  induction path generalizing v with
  | nil => simp [look, label_withInts]
  | cons k path ih =>
      rw [look, look, child_withInts]
      cases v.child k with
      | none => rfl
      | some c => exact ih c

theorem withInts_congr {v w : Value} (h : v ≈ w) : withInts f v ≈ withInts f w := by
  intro path
  rw [look_withInts, look_withInts, h path]

theorem wf_withInts {v : Value} (hv : v.Wf) : (withInts f v).Wf := by
  induction v using tree_induction with
  | scalar s => cases s <;> rfl
  | bin b => rfl
  | list xs ih =>
      rw [withInts, withIntsSeq_eq, wf_list_iff, List.forall_mem_map]
      exact fun x hx => ih x hx (wf_list_iff.mp hv x hx)
  | tuple xs ih =>
      rw [withInts, withIntsSeq_eq]
      refine wf_list_iff.mpr (List.forall_mem_map.mpr fun x hx => ih x hx ?_)
      exact wf_list_iff.mp (show (Value.list xs).Wf from hv) x hx
  | dict kvs ih =>
      obtain ⟨hkeys, hvalues⟩ := wf_dict_iff.mp hv
      rw [withInts, wf_dict_iff, keys_withIntsEntries, withIntsEntries_eq, List.forall_mem_map]
      exact ⟨hkeys, fun kc hkc => ih kc hkc (hvalues kc hkc)⟩

theorem binaries_withInts (v : Value) : (withInts f v).binaries = v.binaries := by
  induction v using tree_induction with
  | scalar s => cases s <;> rfl
  | bin b => rfl
  | list xs ih | tuple xs ih =>
      have hseq : ∀ i, binariesSeq i (withIntsSeq f xs) = binariesSeq i xs := by
        induction xs with
        | nil => exact fun _ => rfl
        | cons x xs ihxs =>
            intro i
            rw [withIntsSeq, binariesSeq, binariesSeq, ih x List.mem_cons_self,
              ihxs fun y hy => ih y (List.mem_cons_of_mem _ hy)]
      exact hseq 0
  | dict kvs ih =>
      show binariesEntries (withIntsEntries f kvs) = binariesEntries kvs
      induction kvs with
      | nil => rfl
      | cons head tail ihtail =>
          rw [withIntsEntries, binariesEntries, binariesEntries, ih head List.mem_cons_self,
            ihtail fun kc hkc => ih kc (List.mem_cons_of_mem _ hkc)]

theorem strip_withInts (v : Value) : (withInts f v).strip = withInts f v.strip := by
  induction v using tree_induction with
  | scalar s => cases s <;> rfl
  | bin b => rfl
  | list xs ih =>
      simp only [withInts, strip, withIntsSeq_eq, stripSeq_eq, List.map_map]
      exact congrArg _ (List.map_congr_left ih)
  | tuple xs ih =>
      have hbinaries : binariesSeq 0 (withIntsSeq f xs) = binariesSeq 0 xs :=
        binaries_withInts (.tuple xs)
      simp only [withInts, strip, hbinaries]
      split_ifs
      · rfl
      · simp only [withInts, withIntsSeq_eq, stripSeq_eq, List.map_map]
        exact congrArg _ (List.map_congr_left ih)
  | dict kvs ih =>
      simp only [withInts, strip]
      congr 1
      induction kvs with
      | nil => rfl
      | cons head tail ihtail =>
          have htail := ihtail fun kc hkc => ih kc (List.mem_cons_of_mem _ hkc)
          by_cases hbin : head.2.isBinary = true
          · obtain ⟨k, x⟩ := head
            cases x <;> simp [isBinary] at hbin
            exact htail
          · have hbin' : head.2.isBinary = false := by simpa using hbin
            rw [withIntsEntries, stripEntries_cons_of_not_binary hbin',
              stripEntries_cons_of_not_binary (by rwa [isBinary_withInts]), htail,
              ih head List.mem_cons_self]
            rfl

end WithInts

/-- Parsing reorders the keys of objects and reads numbers. -/
theorem parsed_equiv {v : Value} (hv : v.Wf) (hjson : v.json = true) :
    parsed v ≈ withInts number v := by
  induction v using items_induction with
  | step v ih =>
      have hagree : ∀ k, Agree ((v.child k).map parsed) ((v.child k).map (withInts number)) := by
        intro k
        cases hc : v.child k with
        | none => exact .none
        | some c =>
            have hmem := hv.child_iff.mp hc
            exact .some (ih (k, c) hmem (hv.child hmem) (json_item hjson hmem).2)
      cases v with
      | scalar s => cases s <;> exact Setoid.refl _
      | bin b => exact Setoid.refl _
      | tuple xs => simp [jsonWith] at hjson
      | list xs =>
          refine equiv_iff_child.mpr
            ⟨by simp [parsed, parsedSeq_eq, withInts, withIntsSeq_eq, label], fun k => ?_⟩
          rw [parsed, parsedSeq_eq, child_list_map, child_withInts]
          exact hagree k
      | dict kvs =>
          refine equiv_iff_child.mpr ⟨by simp [parsed, withInts, label], fun k => ?_⟩
          rw [child_parsed_dict (wf_dict_iff.mp hv).1, child_withInts]
          simpa using hagree k

/-! ### Numbers -/

/-- Every integer in the value is one of these. -/
def AllInts (p : Int → Prop) (v : Value) : Prop := ∀ path i, v.look path = some (.scalar (.int i)) → p i

section Numbers

variable {p : Int → Prop} {v w : Value}

theorem AllInts.of_equiv (h : AllInts p v) (hequiv : w ≈ v) : AllInts p w :=
  fun path i hi => h path i ((hequiv path).symm.trans hi)

theorem AllInts.imp {q : Int → Prop} (h : AllInts p v) (himp : ∀ i, p i → q i) : AllInts q v :=
  fun path i hi => himp i (h path i hi)

theorem AllInts.child {c : Value} (h : AllInts p v) {k : Key} (hc : v.child k = some c) :
    AllInts p c := fun path i hi => h (k :: path) i (by rwa [look_cons_of_child hc])

theorem allInts_leaf (hv : v.isContainer = false) (hint : ∀ i, v = .int i → p i) : AllInts p v := by
  intro path i hi
  by_cases hpath : path = []
  · subst hpath
    apply hint
    cases v <;> simp_all [look, label]
  · rw [look_leaf hv hpath] at hi
    cases hi

theorem allInts_dict_iff {kvs : Bindings} : AllInts p (.dict kvs) ↔
    ∀ key value, kvs.lookup key = some value → AllInts p value := by
  constructor
  · exact fun h key value hvalue => h.child (k := key) (by rwa [child_dict])
  · intro h path i hi
    cases path with
    | nil => cases hi
    | cons key path =>
        obtain ⟨c, hc, hi⟩ := Option.bind_eq_some_iff.mp hi
        exact h key c (by rwa [child_dict] at hc) path i hi

/-- Integers that stay what they are leave the value as it is. -/
theorem withInts_equiv {f : Int → Scalar} (hf : ∀ i, p i → f i = .int i) (h : AllInts p v) :
    withInts f v ≈ v := by
  intro path
  rw [look_withInts]
  cases hlook : v.look path with
  | none => rfl
  | some label =>
      rw [Option.map_some]
      unfold labelWithInts
      split
      · rename_i i
        rw [hf i (h path i hlook)]
      · rfl

/-- In a state that binds no key twice even the order stays. -/
theorem withInts_eq_self {f : Int → Scalar} (hf : ∀ i, p i → f i = .int i) (hv : v.Wf)
    (h : AllInts p v) : withInts f v = v := by
  have hseq : ∀ xs : List Value, (∀ x ∈ xs, withInts f x = x) → withIntsSeq f xs = xs := by
    intro xs hxs
    rw [withIntsSeq_eq]
    exact (List.map_congr_left hxs).trans (List.map_id' xs)
  induction v using tree_induction with
  | scalar s =>
      cases s with
      | int i => exact congrArg Value.scalar (hf i (h [] i rfl))
      | _ => rfl
  | bin b => rfl
  | list xs ih =>
      refine congrArg Value.list (hseq xs fun x hx => ?_)
      obtain ⟨k, hk⟩ := mem_items_seq hx
      exact ih x hx (wf_list_iff.mp hv x hx) (h.child (child_seq_iff.mpr hk))
  | tuple xs ih =>
      refine congrArg Value.tuple (hseq xs fun x hx => ?_)
      obtain ⟨k, hk⟩ := mem_items_seq hx
      have hc : (Value.tuple xs).child k = some x := (child_tuple xs k).trans (child_seq_iff.mpr hk)
      exact ih x hx (wf_list_iff.mp (show (Value.list xs).Wf from hv) x hx) (h.child hc)
  | dict kvs ih =>
      obtain ⟨hkeys, hvalues⟩ := wf_dict_iff.mp hv
      refine congrArg Value.dict ?_
      rw [withIntsEntries_eq]
      refine (List.map_congr_left fun kc hkc => ?_).trans (List.map_id' kvs)
      have hc : AllInts p kc.2 :=
        allInts_dict_iff.mp h kc.1 kc.2 ((Dict.lookup_eq_some_iff hkeys).mpr hkc)
      exact Prod.ext rfl (ih kc hkc (hvalues kc hkc) hc)

theorem number_of_toNumber {i j : Int} (h : toNumber i = some j) : number i = .int j := by
  unfold number
  rw [h]

theorem number_eq {i : Int} (h : IsDouble i) : number i = .int i :=
  number_of_toNumber (toNumber_eq_self_iff.mpr h)

theorem number_equiv (h : AllInts IsDouble v) : withInts number v ≈ v :=
  withInts_equiv (fun _ => number_eq) h

theorem stringified_equiv (h : AllInts Exact v) : stringified v ≈ v :=
  withInts_equiv (fun _ hi => congrArg _ hi.2) h

/-- An integer that JavaScript can hold becomes another such. -/
def KeepsLight (f : Int → Scalar) : Prop :=
  ∀ i, (toNumber i).isSome = true → ∃ j, f i = .int j ∧ (toNumber j).isSome = true

theorem keepsLight_number : KeepsLight number := by
  intro i hi
  obtain ⟨j, hj⟩ := Option.isSome_iff_exists.mp hi
  have hself := toNumber_eq_self_iff.mpr (isDouble_of_toNumber hj)
  exact ⟨j, number_of_toNumber hj, by rw [hself, Option.isSome_some]⟩

theorem keepsLight_spelled : KeepsLight fun i => .int (spelled i) :=
  fun i hi => ⟨spelled i, rfl, by rwa [toNumber_spelled]⟩

theorem json_withInts {f : Int → Scalar} (hf : KeepsLight f) (h : OnWire v) :
    (withInts f v).json = true := by
  induction v using tree_induction with
  | scalar s =>
      cases s with
      | int i =>
          obtain ⟨j, hj, -⟩ := hf i (h.light [] _ rfl)
          rw [withInts, hj]
          rfl
      | _ => exact h.json
  | bin b => rfl
  | list xs ih =>
      rw [withInts, withIntsSeq_eq, json_list_iff, List.forall_mem_map]
      intro x hx
      obtain ⟨k, hk⟩ := mem_items_seq hx
      exact ih x hx (h.child (k := k) (child_seq_iff.mpr hk))
  | tuple xs => exact absurd h.json (by simp [jsonWith])
  | dict kvs ih =>
      rw [withInts, withIntsEntries_eq, json_dict_iff, List.forall_mem_map]
      intro kc hkc
      obtain ⟨hname, -, hc⟩ := (onWire_dict_iff.mp h).2 kc hkc
      exact ⟨hname, ih kc hkc hc⟩

theorem OnWire.withInts {f : Int → Scalar} (hf : KeepsLight f) (h : OnWire v) :
    OnWire (withInts f v) where
  wf := wf_withInts h.wf
  json := json_withInts hf h
  proto path hpath := by rw [look_withInts, h.proto path hpath, Option.map_none]
  light path label hlabel := by
    rw [look_withInts] at hlabel
    obtain ⟨before, hbefore, rfl⟩ := Option.map_eq_some_iff.mp hlabel
    have hlight := h.light path before hbefore
    unfold labelWithInts
    split
    · rename_i i
      obtain ⟨j, hj, hsome⟩ := hf i hlight
      rwa [hj]
    · exact hlight

/-- An index on the way to anything in a wire value has at most 53 bits. -/
theorem OnWire.index_lt (h : OnWire v) {path : Path} {label : Label}
    (hlook : v.look path = some label) {i : Int} (hi : Key.int i ∈ path) : i.natAbs < 2 ^ 53 := by
  induction path generalizing v with
  | nil => cases hi
  | cons k path ih =>
      obtain ⟨c, hc, hlook⟩ := Option.bind_eq_some_iff.mp hlook
      rcases List.mem_cons.mp hi with rfl | hi
      · cases v with
        | scalar s => simp at hc
        | bin b => simp at hc
        | tuple xs => exact absurd h.json (by simp [jsonWith])
        | list xs =>
            obtain ⟨n, hn, hx⟩ := mem_enumItems_iff.mp (child_seq_iff.mp hc)
            have hlength : xs.length ≤ maxArrayLength := h.light [] _ rfl
            have hlt := (List.getElem?_eq_some_iff.mp hx).1
            simp only [maxArrayLength, Key.int.injEq] at hlength hn
            omega
        | dict kvs =>
            rw [child_dict] at hc
            obtain ⟨⟨s, hs⟩, -⟩ := (onWire_dict_iff.mp h).2 _ (Dict.mem_of_lookup hc)
            cases hs
      · exact ih (h.child hc) hlook hi

end Numbers

/-! ### The split -/

/-- The clone of `v` half way through its entries: `done` is stripped, `rest` is
still as it was. -/
def halfStripped (v : Value) (done rest : Bindings) : Value :=
  match v with
  | .dict _ => .dict (stripEntries done ++ rest)
  | _ => .list (done.map (fun kc => strip kc.2) ++ rest.map Prod.snd)

section HalfStripped

variable {v x : Value} {done rest : Bindings} {key : Key}

theorem halfStripped_nil (hjson : v.json = true) (hv : v.isContainer = true) :
    halfStripped v [] v.items = clone v := by
  cases v with
  | scalar s => simp [isContainer] at hv
  | bin b => simp [isContainer] at hv
  | tuple xs => simp [jsonWith] at hjson
  | list xs =>
      have hvalues := Buffers.map_enumItems (id : Value → Value) 0 xs
      simpa [halfStripped, clone, items] using hvalues
  | dict kvs => simp [halfStripped, clone, items, stripEntries]

/-- An entry whose value is unchanged by stripping may be passed over. -/
theorem halfStripped_skip (v : Value) (done rest : Bindings) (key : Key)
    (hx : x.binaries = []) :
    halfStripped v done ((key, x) :: rest) = halfStripped v (done ++ [(key, x)]) rest := by
  have hbin := isBinary_of_binaries_eq_nil hx
  have hstrip := strip_eq_self hx
  cases v with
  | dict kvs =>
      simp only [halfStripped, stripEntries_append, stripEntries_cons_of_not_binary hbin, hstrip]
      simp [stripEntries]
  | _ => simp [halfStripped, hstrip]

theorem halfStripped_extract (hv : v.Wf) (hitems : v.items = done ++ (key, x) :: rest)
    (hx : x.isBinary = true) :
    extractBinary (halfStripped v done ((key, x) :: rest)) key =
      halfStripped v (done ++ [(key, x)]) rest := by
  have hstrip : x.strip = Value.none := by cases x <;> first | rfl | simp [isBinary] at hx
  by_cases hdict : ∃ kvs, v = .dict kvs
  · obtain ⟨kvs, rfl⟩ := hdict
    have hlast : stripEntries [(key, x)] = [] := by
      cases x <;> first | rfl | simp [isBinary] at hx
    simp only [halfStripped, extractBinary, stripEntries_append, hlast, List.append_nil]
    rw [Dict.erase_middle (Buffers.key_not_mem_stripEntries hv hitems)]
  · have hkey := Buffers.key_of_items_split (fun kvs hkvs => hdict ⟨kvs, hkvs⟩) hitems
    subst hkey
    cases v with
    | dict kvs => exact absurd ⟨kvs, rfl⟩ hdict
    | _ => simp [halfStripped, extractBinary, hstrip]

theorem halfStripped_setNested (hv : v.Wf) (hitems : v.items = done ++ (key, x) :: rest)
    (hx : x.isBinary = false) :
    setNested (halfStripped v done ((key, x) :: rest)) key x.strip =
      halfStripped v (done ++ [(key, x)]) rest := by
  by_cases hdict : ∃ kvs, v = .dict kvs
  · obtain ⟨kvs, rfl⟩ := hdict
    have hmem : key ∈ Dict.keys (stripEntries done ++ (key, x) :: rest) := by simp
    simp only [halfStripped, setNested, assign_eq_set hmem, stripEntries_append,
      stripEntries_cons_of_not_binary hx]
    rw [Dict.set_middle (Buffers.key_not_mem_stripEntries hv hitems)]
    simp [stripEntries]
  · have hkey := Buffers.key_of_items_split (fun kvs hkvs => hdict ⟨kvs, hkvs⟩) hitems
    subst hkey
    cases v with
    | dict kvs => exact absurd ⟨kvs, rfl⟩ hdict
    | _ => simp [halfStripped, setNested]

theorem halfStripped_items (hjson : v.json = true) (hv : v.isContainer = true) :
    halfStripped v v.items [] = v.strip := by
  cases v with
  | scalar s => simp [isContainer] at hv
  | bin b => simp [isContainer] at hv
  | tuple xs => simp [jsonWith] at hjson
  | list xs => simp [halfStripped, strip, stripSeq_eq, items, Buffers.map_enumItems strip]
  | dict kvs => simp [halfStripped, strip, items]

end HalfStripped

/-- What separating a JSON value at `path` gives: a stripped clone if the value
holds a binary below it, and its leaves. -/
def Separates (path : Path) (v : Value) (result : Separated) : Prop :=
  result = (if v.binaries = [] then none else some v.strip, Buffers.leavesAt path v)

/-- The loop on an entry that holds a container. -/
theorem separateEntries_container {recurse : Path → Value → Separated} (v : Value) {path : Path}
    {key : Key} {x : Value} (tail : Bindings) (out : Option Value) (hx : x.isContainer = true)
    {nested : Option Value} {inner : List (Path × Binary)}
    (hrecurse : recurse (path ++ [key]) x = (nested, inner)) :
    let rest := separateEntries recurse v path tail
      (nested.elim out fun nested => some (setNested (out.getD (clone v)) key nested))
    separateEntries recurse v path ((key, x) :: tail) out = (rest.1, inner ++ rest.2) := by
  cases x with
  | scalar s => simp [isContainer] at hx
  | bin b => simp [isContainer] at hx
  | list xs => cases nested <;> simp only [separateEntries, hrecurse] <;> rfl
  | tuple xs => cases nested <;> simp only [separateEntries, hrecurse] <;> rfl
  | dict kvs => cases nested <;> simp only [separateEntries, hrecurse] <;> rfl

theorem separateEntries_eq {v : Value} (hv : v.Wf) {path : Path}
    {recurse : Path → Value → Separated} (rest : Bindings)
    (hrecurse : ∀ kc ∈ rest, kc.2.isContainer = true →
      Separates (path ++ [kc.1]) kc.2 (recurse (path ++ [kc.1]) kc.2))
    (done : Bindings) (hitems : v.items = done ++ rest) (out : Option Value)
    (hout : out.getD (clone v) = halfStripped v done rest)
    (hnone : out = none ↔ ∀ kc ∈ done, kc.2.binaries = []) :
    ∃ result, separateEntries recurse v path rest out =
        (result, rest.flatMap fun kc => Buffers.leavesAt (path ++ [kc.1]) kc.2) ∧
      result.getD (clone v) = halfStripped v v.items [] ∧
      (result = none ↔ ∀ kc ∈ v.items, kc.2.binaries = []) := by
  induction rest generalizing done out with
  | nil =>
      rw [List.append_nil] at hitems
      subst hitems
      exact ⟨out, rfl, hout, hnone⟩
  | cons head tail ih =>
      obtain ⟨key, x⟩ := head
      have hrecurse' : ∀ kc ∈ tail, kc.2.isContainer = true →
          Separates (path ++ [kc.1]) kc.2 (recurse (path ++ [kc.1]) kc.2) := fun kc hkc =>
        hrecurse kc (List.mem_cons_of_mem _ hkc)
      have hitems' : v.items = (done ++ [(key, x)]) ++ tail := by simp [hitems]
      have hdone : (∀ kc ∈ done ++ [(key, x)], kc.2.binaries = []) ↔
          (∀ kc ∈ done, kc.2.binaries = []) ∧ x.binaries = [] := by
        rw [List.forall_mem_append, List.forall_mem_singleton]
      have hskip : x.binaries = [] → ∃ result, separateEntries recurse v path tail out =
            (result, tail.flatMap fun kc => Buffers.leavesAt (path ++ [kc.1]) kc.2) ∧
          result.getD (clone v) = halfStripped v v.items [] ∧
          (result = none ↔ ∀ kc ∈ v.items, kc.2.binaries = []) := fun hx =>
        ih hrecurse' _ hitems' out (hout.trans (halfStripped_skip v done tail key hx)) (by
          rw [hnone, hdone]
          simp [hx])
      by_cases hcontainer : x.isContainer = true
      · have hsub := hrecurse (key, x) List.mem_cons_self hcontainer
        rw [separateEntries_container v tail out hcontainer hsub, List.flatMap_cons]
        by_cases hleaf : x.binaries = []
        · obtain ⟨result, hresult, hfinal⟩ := hskip hleaf
          exact ⟨result, by simp [hleaf, hresult], hfinal⟩
        · have hbin : x.isBinary = false := by
            cases x <;> first | rfl | simp [isContainer] at hcontainer
          obtain ⟨result, hresult, hfinal⟩ := ih hrecurse' _ hitems'
            (some (setNested (out.getD (clone v)) key x.strip))
            (by rw [Option.getD_some, hout, halfStripped_setNested hv hitems hbin])
            (by rw [hdone]; simp [hleaf])
          exact ⟨result, by simp [hleaf, hresult], hfinal⟩
      · cases x with
        | scalar s =>
            obtain ⟨result, hresult, hfinal⟩ := hskip rfl
            exact ⟨result, by simpa [separateEntries, Buffers.leavesAt, binaries] using hresult,
              hfinal⟩
        | bin b =>
            obtain ⟨result, hresult, hfinal⟩ := ih hrecurse' _ hitems'
              (some (extractBinary (out.getD (clone v)) key))
              (by rw [Option.getD_some, hout, halfStripped_extract hv hitems rfl])
              (by rw [hdone]; simp [binaries])
            exact ⟨result, by simp [separateEntries, hresult, Buffers.leavesAt, binaries],
              hfinal⟩
        | _ => simp [isContainer] at hcontainer

theorem separates_separate (height : Nat) {v : Value} (hv : v.Wf) (hjson : v.json = true)
    (hcontainer : v.isContainer = true) (hheight : v.height ≤ height) (path : Path) :
    Separates path v (separate height path v) := by
  induction height generalizing v path with
  | zero =>
      have hpos := height_pos_iff.mpr hcontainer
      omega
  | succ height ih =>
      have hrecurse : ∀ kc ∈ v.items, kc.2.isContainer = true →
          Separates (path ++ [kc.1]) kc.2 (separate height (path ++ [kc.1]) kc.2) :=
        fun kc hkc hc => ih (hv.child hkc) (json_item hjson hkc).2 hc
          (height_le_succ_iff.mp hheight kc hkc) _
      obtain ⟨result, hresult, hgetD, hnone⟩ := separateEntries_eq hv v.items hrecurse [] rfl none
        (halfStripped_nil hjson hcontainer).symm (by simp)
      have hbin : v.isBinary = false := by
        cases v <;> first | rfl | simp [isContainer] at hcontainer
      have hleaves : v.binaries = [] ↔ ∀ kc ∈ v.items, kc.2.binaries = [] := by
        rw [binaries_eq_items hbin]
        simp [List.flatMap_eq_nil_iff]
      have hunfold : separate (height + 1) path v =
          separateEntries (separate height) v path v.items none := by
        cases v <;> rfl
      rw [Separates, hunfold, hresult, Buffers.leavesAt_items hcontainer]
      congr 1
      rw [halfStripped_items hjson hcontainer] at hgetD
      by_cases hleaf : v.binaries = []
      · rw [if_pos hleaf, hnone, ← hleaves]
        exact hleaf
      · rw [if_neg hleaf]
        cases result with
        | none => exact absurd (hleaves.mpr (hnone.mp rfl)) hleaf
        | some c => exact congrArg some hgetD

/-- The front end's split is the Python core's. -/
theorem removeBuffers_eq {v : Value} (hv : v.Wf) (hjson : v.json = true)
    (hcontainer : v.isContainer = true) :
    removeBuffers v = (v.strip, v.binaries.map Prod.fst, v.binaries.map Prod.snd) := by
  have hseparate := separates_separate v.height hv hjson hcontainer le_rfl []
  have hleaves : Buffers.leavesAt [] v = v.binaries :=
    (List.map_congr_left fun _ _ => rfl).trans (List.map_id v.binaries)
  have hvalue : (if v.binaries = [] then none else some v.strip).getD v = v.strip := by
    by_cases hleaf : v.binaries = []
    · simp [hleaf, strip_eq_self hleaf]
    · simp [hleaf]
  rw [removeBuffers, hseparate]
  simp only [hvalue, hleaves]

/-! ### The merge -/

/-- A position the front end's merge can write, below arrays and objects whose
properties have proper names. -/
structure Reaches (v : Value) (path : Path) : Prop where
  settable : v.Settable path
  names : ∀ front key rest, path = front ++ key :: rest → v.look front = some .dict →
    (∃ s, key = .str s) ∧ key ≠ protoKey
  lists : ∀ front, front <+: path → ∀ n, v.look front ≠ some (.tuple n)

theorem reaches_of_writes {v w : Value} {path path' : Path} {b : Binary}
    (hwrites : Buffers.Writes v path b w) (hno : ¬ path <+: path') (h : Reaches v path') :
    Reaches w path' := by
  have hlook : ∀ front, front <+: path' → w.look front = v.look front := fun front hfront =>
    hwrites.2 front fun hpre => hno (hpre.trans hfront)
  refine ⟨Buffers.settable_of_writes hwrites hno h.settable, ?_, ?_⟩
  · intro front key rest heq hdict
    apply h.names front key rest heq
    rw [← hlook front (heq ▸ List.prefix_append _ _)]
    exact hdict
  · intro front hfront n
    rw [hlook front hfront]
    exact h.lists front hfront n

theorem Reaches.child {v c : Value} {key : Key} {path : Path} (h : Reaches v (key :: path))
    (hpath : path ≠ []) (hc : v.child key = some c) : Reaches c path := by
  refine ⟨h.settable.child hpath hc, ?_, ?_⟩
  · intro front key' rest heq' hdict
    apply h.names (key :: front) key' rest (by simp [heq'])
    rw [look_cons_of_child hc]
    exact hdict
  · intro front hfront n
    rw [← look_cons_of_child hc]
    exact h.lists (key :: front) (by simpa using hfront) n

theorem text_str (s : String) : text (Key.str s).toValue = s := rfl

/-- A name that is not inherited is an own property, or is `undefined`. -/
theorem getProp_own (own : Bindings) (name : String)
    (h : name ∉ "constructor" :: "__proto__" :: Class.object.methods) :
    getProp (.dict own) (.str name) = .ok ((own.lookup (.str name)).getD undefined) := by
  simp only [List.mem_cons, not_or] at h
  have hnone : inherited (.dict own) (.str name) = undefined := by
    simp [inherited, classOf, Class.inherited, text, h]
  rw [getProp, hnone]
  rfl

theorem elementIndex?_ofNat (n : Nat) : elementIndex? (Key.int (n : Int)).toValue = some n := by
  simp [elementIndex?, Key.toValue]

/-- The key of a child that is a property of an object is a proper name. -/
theorem Reaches.key {v : Value} {key : Key} {rest : Path} (h : Reaches v (key :: rest))
    (hdict : v.label = .dict) : (∃ s, key = .str s) ∧ key ≠ protoKey :=
  h.names [] key rest rfl (by rw [look, hdict])

theorem getProp_of_child {v c : Value} {key : Key} {rest : Path}
    (h : Reaches v (key :: rest)) (hc : v.child key = some c) :
    getProp v key.toValue = .ok c := by
  cases v with
  | scalar s => simp at hc
  | bin b => simp at hc
  | dict own =>
      obtain ⟨⟨s, rfl⟩, -⟩ := h.key rfl
      rw [child_dict] at hc
      simp [getProp, text_str, hc]
  | list xs =>
      obtain ⟨n, rfl, hn⟩ := mem_enumItems_iff.mp (child_seq_iff.mp hc)
      simp [getProp, elementIndex?_ofNat, hn]
  | tuple xs =>
      rw [child_tuple] at hc
      obtain ⟨n, rfl, hn⟩ := mem_enumItems_iff.mp (child_seq_iff.mp hc)
      simp [getProp, elementIndex?_ofNat, hn]

theorem setProp_dict {own : Bindings} {key : Key} {rest : Path}
    (h : Reaches (.dict own) (key :: rest)) (c : Value) :
    ∃ w, setProp (.dict own) key.toValue c = .ok w ∧ (Value.dict own).Assigns key c w := by
  obtain ⟨⟨s, rfl⟩, hproto⟩ := h.key rfl
  exact ⟨_, rfl, rfl, fun j => by simp [text_str, lookup_assign hproto]⟩

theorem setProp_list {xs : List Value} {n : Nat} (hn : n < xs.length) (c : Value) :
    ∃ w, setProp (.list xs) (Key.int (n : Int)).toValue c = .ok w ∧
      (Value.list xs).Assigns (.int (n : Int)) c w := by
  refine ⟨.list (xs.set n c), ?_, assigns_list hn c⟩
  simp [setProp, elementIndex?_ofNat, setElement, hn]

theorem putAt_cons {b obj key : Value} {path : List Value} (hpath : path ≠ []) :
    putAt b obj (key :: path) =
      (do
        let child ← getProp obj key
        let changed ← putAt b child path
        putBack obj key child changed) := by
  cases path with
  | nil => exact absurd rfl hpath
  | cons head tail => rfl

theorem putBack_container {obj key found changed : Value} (h : found.isContainer = true) :
    putBack obj key found changed = setProp obj key changed := if_pos h

/-- The front end's merge can write every position it reaches. -/
theorem putAt_reaches {v : Value} {path : Path} (h : Reaches v path) (b : Binary) :
    ∃ w, putAt (.bin b) v (path.map Key.toValue) = .ok w ∧ Buffers.Writes v path b w := by
  induction path generalizing v with
  | nil => exact absurd h.settable not_settable_nil
  | cons key path ih =>
      rcases h.settable.cons with
        ⟨rfl, ⟨kvs, rfl⟩ | ⟨xs, n, rfl, rfl, hlt⟩⟩ | ⟨hpath, c, hc, -⟩
      · obtain ⟨w, hset, hw⟩ := setProp_dict h (.bin b)
        exact ⟨w, hset, Buffers.writes_singleton hw⟩
      · obtain ⟨w, hset, hw⟩ := setProp_list hlt (.bin b)
        exact ⟨w, hset, Buffers.writes_singleton hw⟩
      · obtain ⟨c', hput, hwrites⟩ := ih (h.child hpath hc)
        have hset : ∃ w, setProp v key.toValue c' = .ok w ∧ v.Assigns key c' w := by
          cases v with
          | scalar s => simp at hc
          | bin b => simp at hc
          | dict own => exact setProp_dict h c'
          | list xs =>
              obtain ⟨n, rfl, hn⟩ := mem_enumItems_iff.mp (child_seq_iff.mp hc)
              simpa using setProp_list (List.getElem?_eq_some_iff.mp hn).1 c'
          | tuple xs => exact absurd rfl (h.lists [] ⟨_, rfl⟩ xs.length)
        obtain ⟨w, hset, hw⟩ := hset
        refine ⟨w, ?_, Buffers.writes_cons hc hwrites hw⟩
        rw [List.map_cons, putAt_cons (by simpa using hpath), getProp_of_child h hc]
        simp only [bind, Except.bind]
        rw [hput]
        exact (putBack_container (h.child hpath hc).settable.isContainer).trans hset

theorem putEach_eq_foldlM (leaves : List (Path × Binary)) (before : List Binary) (v : Value) :
    putEach (before ++ leaves.map Prod.snd) before.length v
        (leaves.map fun leaf => leaf.1.toValue) =
      leaves.foldlM (fun v leaf => putAt (.bin leaf.2) v (leaf.1.map Key.toValue)) v := by
  induction leaves generalizing before v with
  | nil => rfl
  | cons head tail ih =>
      have hnext := ih (before ++ [head.2])
      simp only [List.length_append, List.length_singleton, List.append_assoc,
        List.singleton_append] at hnext
      simp only [List.map_cons, putEach, Path.toValue, segments, bind, Except.bind,
        List.foldlM_cons, List.getElem?_append_right, le_refl, Nat.sub_self,
        List.getElem?_cons_zero, Option.map_some, Option.getD_some]
      cases putAt (.bin head.2) v (head.1.map Key.toValue) with
      | error e => rfl
      | ok w => exact hnext w

theorem look_ne_tuple {v : Value} (hjson : v.json = true) (path : Path) (n : Nat) :
    v.look path ≠ some (.tuple n) := by
  induction path generalizing v with
  | nil => cases v <;> simp [look, label, jsonWith] at hjson ⊢
  | cons key path ih =>
      intro hlook
      obtain ⟨c, hc, hlook⟩ := Option.bind_eq_some_iff.mp hlook
      exact ih (json_child hjson hc) hlook

/-- Below an object of a JSON value the next segment is a name. -/
theorem json_name {v : Value} (hjson : v.json = true) {front rest : Path} {key : Key}
    (hdict : v.look front = some .dict) {l : Label}
    (hlook : v.look (front ++ key :: rest) = some l) : ∃ s, key = .str s := by
  induction front generalizing v with
  | nil =>
      obtain ⟨c, hc, _⟩ := Option.bind_eq_some_iff.mp hlook
      cases v <;> simp [look, label] at hdict
      rw [child_dict] at hc
      exact (json_dict_iff.mp hjson _ (Dict.mem_of_lookup hc)).1
  | cons k front ih =>
      obtain ⟨c, hc, hlook⟩ := Option.bind_eq_some_iff.mp hlook
      rw [look_cons_of_child hc] at hdict
      exact ih (json_child hjson hc) hdict hlook

/-- The leaves of a wire value can be written below its stripped form. -/
theorem reaches_strip {v s : Value} (hv : OnWire v) (hcontainer : v.isContainer = true)
    (hs : s ≈ v.strip) {path : Path} {b : Binary} (hleaf : v.look path = some (.bin b)) :
    Reaches s path := by
  obtain ⟨front, last, heq, hparent⟩ := Buffers.settable_strip hv.wf hcontainer hleaf
  refine ⟨⟨front, last, heq, by simpa only [hs front] using hparent⟩, ?_, ?_⟩
  · intro front' key rest heq' hdict
    constructor
    · have hsame : s.look front' = v.look front' := by
        rw [hs front', look_strip_above hv.wf hv.listed (heq' ▸ hleaf)]
      exact json_name hv.json (hsame.symm.trans hdict) (heq' ▸ hleaf)
    · intro hproto
      have hnone := hv.proto path (by simp [heq', hproto])
      rw [hnone] at hleaf
      cases hleaf
  · intro front' _ n
    rw [hs front']
    exact look_ne_tuple (json_strip hv.json) front' n

/-- The front end's merge restores a wire value from its stripped form. -/
theorem putBuffers_strip {v s : Value} (hv : OnWire v) (hcontainer : v.isContainer = true)
    (hs : s ≈ v.strip) :
    ∃ w, putBuffers s (Protocol.bufferPathsField (v.binaries.map Prod.fst))
        (v.binaries.map Prod.snd) = .ok w ∧ w ≈ v := by
  have hmerge : ∃ w, v.binaries.foldlM
      (fun u leaf => putAt (.bin leaf.2) u (leaf.1.map Key.toValue)) s = .ok w ∧
        Buffers.Merges s v.binaries w := by
    apply Buffers.foldlM_merges _ _ v.binaries _ (Buffers.incomparable_binaries hv.wf)
    · exact Reaches
    · exact fun u leaf h => putAt_reaches h leaf.2
    · exact fun u w path path' b => reaches_of_writes
    · exact fun leaf hleaf => reaches_strip hv hcontainer hs ((mem_binaries_iff hv.wf).mp hleaf)
  obtain ⟨w, hput, hmerges⟩ := hmerge
  refine ⟨w, ?_, ?_⟩
  · rw [Protocol.bufferPathsField, putBuffers, List.map_map]
    exact (putEach_eq_foldlM v.binaries [] s).trans hput
  · have hequiv := hmerges.equiv_listed hv.wf hs
    rwa [hv.listed] at hequiv

/-! ### Well-formed results -/

theorem wf_getProp {v key c : Value} (hv : v.Wf) (h : getProp v key = .ok c) : c.Wf := by
  have hseq : ∀ xs : List Value, (∀ x ∈ xs, x.Wf) → ∀ n : Nat,
      (xs[n]?.getD undefined).Wf := by
    intro xs hxs n
    cases hn : xs[n]? with
    | none => rfl
    | some x => exact hxs x (List.mem_of_getElem? hn)
  have hinherited : ∀ obj : Value, (inherited obj key).Wf := by
    intro obj
    obtain ⟨t, ht⟩ := Class.exists_scalar_of_inherited (classOf obj) (text key)
    exact (congrArg Value.Wf ht).mpr rfl
  have hnumber : ∀ (p : Prop) [Decidable p] (n : Int) (obj : Value),
      (if p then Value.int n else inherited obj key).Wf := by
    intro p _ n obj
    split_ifs
    · rfl
    · exact hinherited obj
  unfold getProp at h
  split at h
  · cases h
    cases hlookup : List.lookup (Key.str (text key)) ‹Bindings› with
    | none => exact hinherited _
    | some x => exact (wf_dict_iff.mp hv).2 _ (Dict.mem_of_lookup hlookup)
  · split at h <;> cases h
    · exact hseq _ (wf_list_iff.mp hv) _
    · exact hnumber _ _ _
  · split at h <;> cases h
    · exact hseq _ (wf_list_iff.mp hv) _
    · exact hnumber _ _ _
  · split at h <;> cases h
    · exact hseq _ (wf_chars _) _
    · exact hnumber _ _ _
  · cases h
    split_ifs
    · rfl
    · rfl
    · exact hinherited _
  · cases h
  · cases h
  · split at h
    · obtain ⟨t, rfl⟩ := Builtin.exists_scalar_of_get h
      rfl
    · cases h
      exact hinherited _

theorem wf_setProp {v key c w : Value} (hv : v.Wf) (hc : c.Wf) (h : setProp v key c = .ok w) :
    w.Wf := by
  have helement : ∀ xs : List Value, (∀ x ∈ xs, x.Wf) → ∀ n,
      (Value.list (setElement xs n c)).Wf := by
    intro xs hxs n
    apply wf_list_iff.mpr
    intro x hx
    unfold setElement at hx
    split_ifs at hx
    · exact wf_set hxs hc n x hx
    · simp only [List.mem_append, List.mem_replicate, List.mem_singleton] at hx
      rcases hx with (hx | ⟨-, rfl⟩) | rfl
      · exact hxs x hx
      · rfl
      · exact hc
    · exact hxs x hx
  have hlength : ∀ xs : List Value, (∀ x ∈ xs, x.Wf) →
      (if text key = "length" then .error .rangeError else .ok (.list xs)) =
        (Except.ok w : Except JsError Value) → w.Wf := by
    intro xs hxs hr
    split_ifs at hr
    cases hr
    exact wf_list_iff.mpr hxs
  unfold setProp at h
  split at h
  · cases h
    exact wf_assign hv _ hc
  · split at h
    · cases h
      exact helement _ (wf_list_iff.mp hv) _
    · exact hlength _ (wf_list_iff.mp hv) h
  · split at h
    · cases h
      exact helement _ (wf_list_iff.mp hv) _
    · exact hlength _ (wf_list_iff.mp hv) h
  · split_ifs at h
    cases h
    rfl
  · cases h
  · cases h
  · split at h
    · rw [Builtin.eq_of_set h]
      rfl
    · split_ifs at h
      cases h
      rfl

theorem wf_putBack {v key found c w : Value} (hv : v.Wf) (hc : c.Wf)
    (h : putBack v key found c = .ok w) : w.Wf := by
  unfold putBack at h
  split_ifs at h
  · exact wf_setProp hv hc h
  · cases h
    exact hv

theorem wf_putAt {b v w : Value} {path : List Value} (hb : b.Wf) (hv : v.Wf)
    (h : putAt b v path = .ok w) : w.Wf := by
  induction path generalizing v w with
  | nil => exact wf_setProp hv hb h
  | cons key path ih =>
      by_cases hpath : path = []
      · subst hpath
        exact wf_setProp hv hb h
      · rw [putAt_cons hpath] at h
        obtain ⟨c, hget, h⟩ := Port.bind_eq_ok_iff.mp h
        obtain ⟨c', hput, hset⟩ := Port.bind_eq_ok_iff.mp h
        exact wf_putBack hv (ih (wf_getProp hv hget) hput) hset

theorem wf_putEach {buffers : List Binary} {i : Nat} {v w : Value} {paths : List Value}
    (hv : v.Wf) (h : putEach buffers i v paths = .ok w) : w.Wf := by
  induction paths generalizing i v with
  | nil =>
      cases h
      exact hv
  | cons path paths ih =>
      obtain ⟨segments, _, h⟩ := Port.bind_eq_ok_iff.mp h
      obtain ⟨v', hput, hrest⟩ := Port.bind_eq_ok_iff.mp h
      refine ih (wf_putAt ?_ hv hput) hrest
      cases buffers[i]? <;> rfl

theorem wf_putBuffers {v w bufferPaths : Value} {buffers : List Binary} (hv : v.Wf)
    (h : putBuffers v bufferPaths buffers = .ok w) : w.Wf := by
  unfold putBuffers at h
  split at h
  · exact wf_putEach hv h
  · exact wf_putEach hv h
  · cases h

end Front

end Cositos
