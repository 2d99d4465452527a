/-
The catalog of real controls in Julia (`CositosControlsExt.jl`): its builders read the catalog
that Python reads, and a tree of calls makes the same models in both, so that what Julia writes
of it every language loads as what Python built.
-/
import Cositos.Controls
import Cositos.RDocuments

namespace Cositos

open Value

namespace JuliaControls

open Protocol Serialize Controls

/-! ### The builders -/

/-- What a builder throws. -/
inductive ControlsError
  | core (e : JuliaError)
  /-- `TypeError: in keyword argument, expected Integer` -/
  | typeError
deriving DecidableEq, Repr

/-- `_build`; `hex` is what `uuid4()` gives this call, less the dashes. -/
def build (catalogKey : String) (overrides : Bindings) (modelId : Option String) (hex : String) :
    Except ControlsError Entries :=
  match catalog.lookup catalogKey with
  | none => .error (.core .keyError)
  | some spec =>
      let rootId := modelId.getD hex
      let (state, companionEntries) :=
        spec.companions.foldl (addCompanion rootId) (spec.defaultState, [])
      let widgetState := Dict.update (identity spec) (Dict.update state overrides)
      .ok ((rootId, widgetState) :: companionEntries)

/-- `::Integer`. -/
def isInteger : Value → Bool
  | .scalar (.int _) | .scalar (.bool _) => true
  | _ => false

/-- `Cositos.int_slider`. -/
def intSlider (hex : String) (value min max : Value) (overrides : Bindings) :
    Except ControlsError Entries :=
  if isInteger value && isInteger min && isInteger max then
    build "int_slider"
      (Dict.update overrides [(.str "value", value), (.str "min", min), (.str "max", max)])
      none hex
  else
    .error .typeError

/-- What iterating over the options yields.  The pairs of a dict are opaque. -/
def iterate : Value → Except ControlsError (List Value)
  | .list vs | .tuple vs => .ok vs
  | .bin b => .ok (Value.byteInts b)
  | .dict kvs => .ok (kvs.map fun _ => .scalar (.other 0))
  | .str s => .ok (s.toList.map fun c => .str (String.ofList [c]))
  | .scalar .none | .scalar (.other _) => .error (.core .methodError)
  | number => .ok [number]

/-- `Cositos.dropdown`; `string` is the function of `Base`. -/
def dropdown (string : Value → String) (hex : String) (options value : Value)
    (overrides : Bindings) : Except ControlsError Entries := do
  let options ← iterate options
  let labels := options.map string
  let index := chosenIndex string labels (get overrides "index" .none) value
  build "dropdown"
    (Dict.update (Dict.erase overrides (.str "index"))
      [(.str "_options_labels", .list (labels.map Value.str)), (.str "index", index)])
    none hex

/-- `"IPY_MODEL_$(child[1][1])"`. -/
def childRef : Entries → Except ControlsError Value
  | (id, _) :: _ => .ok (.str (refHead ++ id))
  | [] => .error (.core .boundsError)

/-- `_box`. -/
def box (catalogKey hex : String) (children : List Entries) (overrides : Bindings) :
    Except ControlsError Entries := do
  let childRefs ← children.mapM childRef
  let own ← build catalogKey (Dict.set overrides (.str "children") (.list childRefs)) none hex
  return own ++ children.flatten

/-- `Cositos.vbox`. -/
def vbox (hex : String) (children : List Entries) (overrides : Bindings) :
    Except ControlsError Entries :=
  box "vbox" hex children overrides

/-- `Cositos.hbox`. -/
def hbox (hex : String) (children : List Entries) (overrides : Bindings) :
    Except ControlsError Entries :=
  box "hbox" hex children overrides

mutual

/-- What the tree of calls returns in Julia. -/
def entries (string : Value → String) : Call → Except ControlsError Entries
  | .intSlider hex value min max overrides => intSlider hex value min max overrides
  | .dropdown hex options value overrides => dropdown string hex options value overrides
  | .vbox hex children overrides => do
      let built ← entriesEach string children
      vbox hex built overrides
  | .hbox hex children overrides => do
      let built ← entriesEach string children
      hbox hex built overrides

def entriesEach (string : Value → String) : List Call → Except ControlsError (List Entries)
  | [] => .ok []
  | call :: calls => do
      let first ← entries string call
      let rest ← entriesEach string calls
      return first :: rest

end

/-! ### One call -/

/-- A call that means the same in both: integers for a slider, options whose labels both
languages spell alike, and no override that only one of them lets the caller make. -/
def Portable (str string : Value → String) : Call → Prop
  | .intSlider _ value min max overrides =>
      (isInteger value = true ∧ isInteger min = true ∧ isInteger max = true) ∧
        (Dict.keys overrides).Nodup ∧
        ∀ name ∈ ["value", "min", "max"], Key.str name ∉ Dict.keys overrides
  | .dropdown _ options value overrides =>
      (∃ items, options = .list items ∧ ∀ item ∈ items, string item = str item) ∧
        (value ≠ .none → string value = str value) ∧
        ∀ name ∈ ["options", "value", "_options_labels"], Key.str name ∉ Dict.keys overrides
  | .vbox _ _ overrides | .hbox _ _ overrides => Key.str "catalog_key" ∉ Dict.keys overrides

/-- What JSON text carries, under names that are not of the identity. -/
structure Saveable (overrides : Bindings) : Prop where
  json : ∀ kv ∈ overrides, (∃ s, kv.1 = .str s) ∧ kv.2.json = true
  identity : ∀ key ∈ identityKeys, key ∉ Dict.keys overrides

/-- The same entry, but for the order of the keys; Julia's is one that can be saved. -/
structure Twin (entry entry' : String × Bindings) : Prop where
  id : entry.1 = entry'.1
  lookup : ∀ key, entry.2.lookup key = entry'.2.lookup key
  wf : (Value.dict entry.2).Wf
  json : (Value.dict entry.2).json = true
  storable : Storable entry.2

theorem lookup_update_comm {d e : Bindings} (hd : (Dict.keys d).Nodup) (he : (Dict.keys e).Nodup)
    (hdisjoint : ∀ key ∈ Dict.keys d, key ∉ Dict.keys e) (key : Key) :
    (Dict.update d e).lookup key = (Dict.update e d).lookup key := by
  rw [Dict.lookup_update d he, Dict.lookup_update e hd]
  by_cases hkey : key ∈ Dict.keys d
  · rw [Dict.lookup_eq_none_iff.mpr (hdisjoint key hkey), Option.none_or, Option.or_none]
  · rw [Dict.lookup_eq_none_iff.mpr hkey, Option.none_or, Option.or_none]

section OneCall

variable {spec : Spec} {hex : String} {overrides overrides' : Bindings} {ids : List String}

theorem mem_of_same_lookup (hnodup : (Dict.keys overrides).Nodup)
    (hsame : ∀ key, overrides.lookup key = overrides'.lookup key) {kv : Key × Value}
    (hkv : kv ∈ overrides) : kv ∈ overrides' := by
  have hlookup : overrides.lookup kv.1 = some kv.2 := (Dict.lookup_eq_some_iff hnodup).mpr hkv
  rw [hsame] at hlookup
  exact Dict.mem_of_lookup hlookup

theorem Saveable.update {base : Bindings} (h : Saveable base) (h' : Saveable overrides) :
    Saveable (Dict.update base overrides) where
  json kv hkv := (Dict.mem_update hkv).elim (h.json kv) (h'.json kv)
  identity key hkey hmem :=
    (Dict.mem_keys_update.mp hmem).elim (h.identity key hkey) (h'.identity key hkey)

theorem Saveable.erase (h : Saveable overrides) (key : Key) :
    Saveable (Dict.erase overrides key) where
  json kv hkv := h.json kv (Dict.mem_of_mem_erase hkv)
  identity key hkey hmem := h.identity key hkey (Dict.mem_of_mem_keys_erase hmem)

theorem saveable_singleton {name : String} (hname : Key.str name ∉ identityKeys) {v : Value}
    (hv : v.json = true) : Saveable [(.str name, v)] where
  json := List.forall_mem_singleton.mpr ⟨⟨name, rfl⟩, hv⟩
  identity key hkey hmem := by
    have heq : key = .str name := List.mem_singleton.mp hmem
    exact hname (heq ▸ hkey)

theorem json_strings (strings : List String) :
    (Value.list (strings.map Value.str)).json = true := by
  rw [json, json_list_iff, List.forall_mem_map]
  exact fun _ _ => rfl

theorem json_chosenIndex (str : Value → String) (labels : List String) {index : Value}
    (hindex : index.json = true) (value : Value) :
    (chosenIndex str labels index value).json = true := by
  have hlabel : ∀ label, (labelIndex labels label).json = true := by
    intro label
    unfold labelIndex
    cases labels.findIdx? fun other => other == label <;> rfl
  unfold chosenIndex
  split
  · rfl
  · exact hlabel _
  · exact hindex

/-- What every widget of the catalog leaves to the identity. -/
structure PlainSpec (spec : Spec) : Prop where
  json : (Value.dict spec.defaultState).json = true
  identity : ∀ key ∈ identityKeys, key ∉ Dict.keys spec.defaultState
  companions : ∀ companion ∈ spec.companions, (Value.dict (companionState companion)).json = true

theorem plain_catalog : ∀ entry ∈ catalog, PlainSpec entry.2 := by
  have hjson : ∀ entry ∈ catalog, (Value.dict entry.2.defaultState).json = true := by decide
  have hidentity : ∀ entry ∈ catalog, ∀ key ∈ identityKeys,
      key ∉ Dict.keys entry.2.defaultState := by decide
  have hcompanions : ∀ entry ∈ catalog, ∀ companion ∈ entry.2.companions,
      (Value.dict (companionState companion)).json = true := by decide
  exact fun entry h => ⟨hjson entry h, hidentity entry h, hcompanions entry h⟩

theorem json_widgetState (htidy : spec.Tidy) (hplain : PlainSpec spec) (h : Saveable overrides) :
    (Value.dict (widgetState spec hex overrides)).json = true := by
  rw [json, json_dict_iff]
  intro kv hkv
  rcases mem_widgetState htidy hkv with hmem | hmem | hmem | ⟨hmem, -⟩
  · have hidentity : (Value.dict (identity spec)).jsonWith false = true := rfl
    exact json_dict_iff.mp hidentity kv hmem
  · exact h.json kv hmem
  · obtain ⟨companion, -, rfl⟩ := List.mem_map.mp hmem
    exact ⟨⟨_, rfl⟩, rfl⟩
  · exact json_dict_iff.mp hplain.json kv hmem

/-- The identity of a widget is text. -/
theorem identity_widgetState (htidy : spec.Tidy) (hplain : PlainSpec spec) (h : Saveable overrides)
    {key : Key} (hkey : key ∈ identityKeys) {value : Value}
    (hvalue : (widgetState spec hex overrides).lookup key = some value) :
    ∃ s, value = .str s := by
  rcases mem_widgetState htidy (Dict.mem_of_lookup hvalue) with hmem | hmem | hmem | ⟨hmem, -⟩
  · simp only [Controls.identity, List.mem_cons, Prod.mk.injEq, List.not_mem_nil, or_false] at hmem
    rcases hmem with ⟨-, rfl⟩ | ⟨-, rfl⟩ | ⟨-, rfl⟩ | ⟨-, rfl⟩ | ⟨-, rfl⟩ | ⟨-, rfl⟩ <;>
      exact ⟨_, rfl⟩
  · exact absurd (Dict.mem_keys_of_mem hmem) (h.identity key hkey)
  · obtain ⟨companion, -, heq⟩ := List.mem_map.mp hmem
    exact ⟨_, (Prod.ext_iff.mp heq).2.symm⟩
  · exact absurd (Dict.mem_keys_of_mem hmem) (hplain.identity key hkey)

/-- The widget of a call, with the values that Python hands on in another order. -/
theorem twin_widget (htidy : spec.Tidy) (hplain : PlainSpec spec)
    (hhanded : Controls.Handed ids overrides') (hsaveable : Saveable overrides')
    (hnodup : (Dict.keys overrides).Nodup)
    (hsame : ∀ key, overrides.lookup key = overrides'.lookup key) :
    Twin (hex, widgetState spec hex overrides) (hex, widgetState spec hex overrides') := by
  have hmem : ∀ kv ∈ overrides, kv ∈ overrides' := fun kv => mem_of_same_lookup hnodup hsame
  have hsaveable' : Saveable overrides := by
    refine ⟨fun kv hkv => hsaveable.json kv (hmem kv hkv), fun key hkey hkeys => ?_⟩
    obtain ⟨kv, hkv, rfl⟩ := List.mem_map.mp hkeys
    exact hsaveable.identity _ hkey (Dict.mem_keys_of_mem (hmem kv hkv))
  have hjson : (Value.dict (widgetState spec hex overrides)).json = true :=
    json_widgetState htidy hplain hsaveable'
  refine ⟨rfl, fun key => ?_, wf_widgetState htidy (fun kv hkv => hhanded.wf kv (hmem kv hkv)) hex,
    hjson, jsonWith_of_json hjson,
    nesting_widgetState htidy (fun kv hkv => hhanded.height kv (hmem kv hkv)) hex,
    fun key hkey value => identity_widgetState htidy hplain hsaveable' hkey⟩
  have hbase : (Dict.keys (Dict.update spec.defaultState (companionRefs spec hex))).Nodup :=
    Dict.nodup_keys_update htidy.nodup _
  simp only [widgetState]
  rw [Dict.lookup_update _ (Dict.nodup_keys_update hbase _),
    Dict.lookup_update _ (Dict.nodup_keys_update hbase _), Dict.lookup_update _ hnodup,
    Dict.lookup_update _ hhanded.nodup, hsame]

/-- A companion is the same in both. -/
theorem twin_companion (htidy : spec.Tidy) (hplain : PlainSpec spec) {entry : String × Bindings}
    (hentry : entry ∈ companionEntries spec hex) : Twin entry entry := by
  obtain ⟨companion, hcompanion, rfl⟩ := List.mem_map.mp hentry
  have hleaf := htidy.companions companion hcompanion
  have hjson := hplain.companions companion hcompanion
  refine ⟨rfl, fun _ => rfl, ?_, hjson, jsonWith_of_json hjson, ?_, fun key hkey value hvalue => ?_⟩
  · rw [wf_dict_iff]
    exact ⟨by simp [companionState], fun kv hkv => wf_of_isQuietLeaf (hleaf kv hkv)⟩
  · rw [nesting_le_iff, height_le_succ_iff]
    exact fun kv hkv => (height_of_isQuietLeaf (hleaf kv hkv)).trans (by decide)
  · have hmem := Dict.mem_of_lookup hvalue
    simp only [identityKeys, List.mem_cons, List.not_mem_nil, or_false] at hkey
    rcases hkey with rfl | rfl | rfl <;>
      simp only [companionState, List.mem_cons, Prod.mk.injEq, Key.str.injEq, List.not_mem_nil,
        or_false] at hmem <;> simp at hmem <;> exact ⟨_, hmem⟩

/-- What `_build` returns in both. -/
theorem twins_build {catalogKey : String} (hkey : catalogKey ∈ Dict.keys catalog)
    (hhanded : Controls.Handed ids overrides') (hsaveable : Saveable overrides')
    (hnodup : (Dict.keys overrides).Nodup)
    (hsame : ∀ key, overrides.lookup key = overrides'.lookup key) (hex : String) :
    ∃ own own', build catalogKey overrides none hex = .ok own ∧
      Controls.build catalogKey overrides' none hex = .ok own' ∧ List.Forall₂ Twin own own' ∧
      ∃ state rest, own = (hex, state) :: rest := by
  obtain ⟨spec, hspec⟩ := Dict.exists_lookup_of_mem_keys hkey
  have htidy : spec.Tidy := tidy_catalog _ (Dict.mem_of_lookup hspec)
  have hplain : PlainSpec spec := plain_catalog _ (Dict.mem_of_lookup hspec)
  have hbuild : build catalogKey overrides none hex =
      .ok ((hex, widgetState spec hex overrides) :: companionEntries spec hex) := by
    rw [build, hspec]
    simp only [foldl_addCompanion, List.nil_append]
    rfl
  exact ⟨_, _, hbuild, build_ok hspec overrides' hex,
    .cons (twin_widget htidy hplain hhanded hsaveable hnodup hsame)
      (List.forall₂_same.mpr fun _ => twin_companion htidy hplain), _, _, rfl⟩

/-- What a call gives to the state is JSON. -/
def Jsonable (call : Call) : Prop :=
  ∀ kv ∈ call.given, (∃ s, kv.1 = .str s) ∧ kv.2.json = true

/-- What the tree needs of each call. -/
structure Fit (str string : Value → String) (call : Call) : Prop where
  portable : Portable str string call
  allowed : call.Allowed str
  shallow : call.Shallow
  jsonable : Jsonable call

variable {str string : Value → String}

theorem Fit.saveable {call : Call} (h : Fit str string call) : Saveable call.given where
  json := h.jsonable
  identity key hkey := by
    have hreserved : key ∈ Call.reservedKeys := by
      simp only [identityKeys, List.mem_cons, List.not_mem_nil, or_false] at hkey
      rcases hkey with rfl | rfl | rfl <;> decide
    exact h.allowed.reserved key hreserved

theorem Fit.handed {call : Call} (h : Fit str string call) :
    Controls.Handed ids call.given :=
  Call.handed_given h.allowed h.shallow

/-- What a call returns in Julia and in Python. -/
structure Twins (call : Call) (own own' : Entries) : Prop where
  twins : List.Forall₂ Twin own own'
  root : ∃ state rest, own = (call.rootId, state) :: rest

theorem twins_intSlider {value min max : Value}
    (h : Fit str string (.intSlider hex value min max overrides)) :
    ∃ own own', intSlider hex value min max overrides = .ok own ∧
      Controls.intSlider hex value min max overrides = .ok own' ∧
      Twins (.intSlider hex value min max overrides) own own' := by
  obtain ⟨⟨hvalue, hmin, hmax⟩, hnodup, hnames⟩ := h.portable
  have hbase : (Dict.keys [(Key.str "value", value), (.str "min", min), (.str "max", max)]).Nodup :=
    by simp
  have hdisjoint : ∀ key ∈ Dict.keys overrides,
      key ∉ Dict.keys [(Key.str "value", value), (.str "min", min), (.str "max", max)] := by
    intro key hkey hmem
    simp only [Dict.keys_cons, Dict.keys_nil, List.mem_cons, List.not_mem_nil, or_false] at hmem
    rcases hmem with rfl | rfl | rfl <;> exact hnames _ (by simp) hkey
  have hhanded : Controls.Handed [] (Call.intSlider hex value min max overrides).given := h.handed
  obtain ⟨own, own', hown, hown', htwins, hroot⟩ :=
    twins_build (by decide : "int_slider" ∈ Dict.keys catalog) hhanded h.saveable
      (Dict.nodup_keys_update hnodup _) (lookup_update_comm hnodup hbase hdisjoint) hex
  refine ⟨own, own', ?_, hown', ⟨htwins, hroot⟩⟩
  rw [intSlider, hvalue, hmin, hmax]
  exact hown

theorem chosenIndex_congr {items : List Value} (hitems : ∀ item ∈ items, string item = str item)
    {index value : Value} (hvalue : value ≠ .none → string value = str value) :
    chosenIndex string (items.map string) index value =
      chosenIndex str (items.map str) index value := by
  rw [List.map_congr_left hitems]
  unfold chosenIndex
  split
  · rfl
  · rw [hvalue (by assumption)]
  · rfl

theorem twins_dropdown {options value : Value}
    (h : Fit str string (.dropdown hex options value overrides)) :
    ∃ own own', dropdown string hex options value overrides = .ok own ∧
      Controls.dropdown str hex options value overrides = .ok own' ∧
      Twins (.dropdown hex options value overrides) own own' := by
  obtain ⟨⟨items, rfl, hitems⟩, hvalue, hnames⟩ := h.portable
  have hgiven : Controls.Handed [] overrides := h.handed
  have hgivenSaveable : Saveable overrides := h.saveable
  have hindexJson : (get overrides "index" .none).json = true := by
    unfold Protocol.get
    cases hlookup : overrides.lookup (.str "index") with
    | none => rfl
    | some index => exact (hgivenSaveable.json _ (Dict.mem_of_lookup hlookup)).2
  let index := chosenIndex str (items.map str) (get overrides "index" .none) value
  let base : Bindings :=
    [(.str "_options_labels", .list ((items.map str).map Value.str)), (.str "index", index)]
  have hbase : Controls.Handed [] base := by
    have hstrings : Controls.Handed []
        [(.str "_options_labels", .list ((items.map str).map Value.str))] :=
      Call.handed_strings fun s hs hhead => absurd hhead (h.allowed.labels s hs)
    exact Call.handed_update hstrings (Call.handed_index hgiven str (items.map str) value)
  have hbaseSaveable : Saveable base := by
    have hstrings : Saveable [(.str "_options_labels", .list ((items.map str).map Value.str))] :=
      saveable_singleton (by decide) (json_strings _)
    have hindex : Saveable [(.str "index", index)] :=
      saveable_singleton (by decide) (json_chosenIndex str (items.map str) hindexJson value)
    exact hstrings.update hindex
  have hdisjoint : ∀ key ∈ Dict.keys (Dict.erase overrides (.str "index")),
      key ∉ Dict.keys base := by
    intro key hkey hmem
    simp only [base, Dict.keys_cons, Dict.keys_nil, List.mem_cons, List.not_mem_nil, or_false]
      at hmem
    rcases hmem with rfl | rfl
    · exact hnames _ (by simp) (Dict.mem_of_mem_keys_erase hkey)
    · refine absurd hkey (Dict.lookup_eq_none_iff.mp ?_)
      rw [Dict.lookup_erase hgiven.nodup, if_pos rfl]
  obtain ⟨own, own', hown, hown', htwins, hroot⟩ :=
    twins_build (by decide : "dropdown" ∈ Dict.keys catalog)
      (Call.handed_update hbase (Call.handed_erase hgiven (.str "index")))
      (hbaseSaveable.update (hgivenSaveable.erase (.str "index")))
      (Dict.nodup_keys_update (Dict.nodup_keys_erase hgiven.nodup _) base)
      (lookup_update_comm (Dict.nodup_keys_erase hgiven.nodup _) hbase.nodup hdisjoint) hex
  refine ⟨own, own', ?_, hown', ⟨htwins, hroot⟩⟩
  simp only [dropdown, iterate, bind, Except.bind]
  rw [chosenIndex_congr hitems hvalue, List.map_congr_left hitems]
  exact hown

/-! ### Trees of calls -/

/-- What the calls for the children of a box return in both. -/
structure TwinsEach (calls : List Call) (built built' : List Entries) : Prop where
  twins : List.Forall₂ Twin built.flatten built'.flatten
  refs : built.mapM childRef = .ok (calls.map fun child => .str (refHead ++ child.rootId))
  refs' : built'.mapM Controls.childRef =
    .ok (calls.map fun child => .str (refHead ++ child.rootId))

theorem twinsEach_nil : TwinsEach [] [] [] where
  twins := .nil
  refs := rfl
  refs' := rfl

theorem twinsEach_cons {call : Call} {calls : List Call} {own own' : Entries}
    {built built' : List Entries} (h : Twins call own own') (hrest : TwinsEach calls built built') :
    TwinsEach (call :: calls) (own :: built) (own' :: built') := by
  obtain ⟨state, rest, rfl⟩ := h.root
  obtain ⟨⟨id, state'⟩, rest', hhead, -, rfl⟩ := List.forall₂_cons_left_iff.mp h.twins
  obtain rfl : call.rootId = id := hhead.id
  refine ⟨?_, ?_, ?_⟩
  · rw [List.flatten_cons, List.flatten_cons]
    exact List.rel_append h.twins hrest.twins
  · rw [List.mapM_cons, hrest.refs]
    rfl
  · rw [List.mapM_cons, hrest.refs']
    rfl

theorem twins_box {catalogKey : String} (hkey : catalogKey ∈ Dict.keys catalog) {call : Call}
    (hallowed : Key.str "catalog_key" ∉ Dict.keys call.given) (h : Fit str string call)
    {children : List Call} {built built' : List Entries}
    (hbuilt : TwinsEach children built built') :
    ∃ own own', box catalogKey call.rootId built call.given = .ok own ∧
      Controls.box catalogKey call.rootId built' call.given = .ok own' ∧ Twins call own own' := by
  let refs := children.map fun child => Value.str (refHead ++ child.rootId)
  have hstrings : refs = (children.map fun child => refHead ++ child.rootId).map Value.str := by
    rw [List.map_map]
    rfl
  have hroots : Controls.Handed (children.map Call.rootId) [(.str "children", .list refs)] := by
    rw [hstrings]
    apply Call.handed_strings
    rw [List.forall_mem_map]
    exact fun child hchild _ => ⟨child.rootId, List.mem_map_of_mem hchild, rfl⟩
  have hrootsSaveable : Saveable [(.str "children", .list refs)] :=
    saveable_singleton (by decide) (hstrings ▸ json_strings _)
  have hdisjoint : ∀ key ∈ Dict.keys call.given,
      key ∉ Dict.keys [(Key.str "children", Value.list refs)] := by
    intro key hkey hmem
    obtain rfl : key = .str "children" := List.mem_singleton.mp hmem
    exact h.allowed.reserved _ (by decide) hkey
  obtain ⟨own, own', hown, hown', htwins, state, rest, hroot⟩ :=
    twins_build hkey (Call.handed_update hroots h.handed) (hrootsSaveable.update h.saveable)
      (Dict.nodup_keys_update h.allowed.nodup _)
      (lookup_update_comm h.allowed.nodup hroots.nodup hdisjoint) call.rootId
  refine ⟨own ++ built.flatten, own' ++ built'.flatten, ?_, ?_,
    List.rel_append htwins hbuilt.twins, state, rest ++ built.flatten, by rw [hroot]; rfl⟩
  · rw [box, hbuilt.refs]
    simp only [bind, Except.bind]
    rw [show Dict.set call.given (.str "children") (.list refs) =
      Dict.update call.given [(.str "children", .list refs)] from rfl, hown]
    rfl
  · rw [Controls.box, if_neg hallowed, hbuilt.refs']
    simp only [bind, Except.bind]
    rw [hown']
    rfl

end OneCall

variable {str string : Value → String}

mutual

/-- Whatever a tree of calls returns in Python it returns in Julia, by induction over the calls
below it. -/
theorem twins_entries : ∀ call : Call, (∀ below ∈ call.calls, Fit str string below) →
    ∃ own own', entries string call = .ok own ∧ call.entries str = .ok own' ∧ Twins call own own'
  | .intSlider _ _ _ _ _, hcalls => twins_intSlider (hcalls _ (List.mem_singleton_self _))
  | .dropdown _ _ _ _, hcalls => twins_dropdown (hcalls _ (List.mem_singleton_self _))
  | .vbox hex children overrides, hcalls => by
      obtain ⟨hhere, hbelow⟩ := List.forall_mem_cons.mp hcalls
      have hallowed : Key.str "catalog_key" ∉ Dict.keys (Call.vbox hex children overrides).given :=
        hhere.portable
      obtain ⟨built, built', heach, heach', hbuilt⟩ := twins_entriesEach children hbelow
      obtain ⟨own, own', hown, hown', htwins⟩ :=
        twins_box (by decide : "vbox" ∈ Dict.keys catalog) hallowed hhere hbuilt
      refine ⟨own, own', ?_, ?_, htwins⟩
      · rw [entries, heach]
        exact hown
      · rw [Call.entries, heach']
        exact hown'
  | .hbox hex children overrides, hcalls => by
      obtain ⟨hhere, hbelow⟩ := List.forall_mem_cons.mp hcalls
      have hallowed : Key.str "catalog_key" ∉ Dict.keys (Call.hbox hex children overrides).given :=
        hhere.portable
      obtain ⟨built, built', heach, heach', hbuilt⟩ := twins_entriesEach children hbelow
      obtain ⟨own, own', hown, hown', htwins⟩ :=
        twins_box (by decide : "hbox" ∈ Dict.keys catalog) hallowed hhere hbuilt
      refine ⟨own, own', ?_, ?_, htwins⟩
      · rw [entries, heach]
        exact hown
      · rw [Call.entries, heach']
        exact hown'

theorem twins_entriesEach : ∀ calls : List Call,
    (∀ below ∈ Call.callsEach calls, Fit str string below) →
    ∃ built built', entriesEach string calls = .ok built ∧
      Call.entriesEach str calls = .ok built' ∧ TwinsEach calls built built'
  | [], _ => ⟨[], [], rfl, rfl, twinsEach_nil⟩
  | call :: calls, hcalls => by
      obtain ⟨hhere, hbelow⟩ := List.forall_mem_append.mp hcalls
      obtain ⟨own, own', hown, hown', htwins⟩ := twins_entries call hhere
      obtain ⟨built, built', heach, heach', hbuilt⟩ := twins_entriesEach calls hbelow
      refine ⟨own :: built, own' :: built', ?_, ?_, twinsEach_cons htwins hbuilt⟩
      · rw [entriesEach, hown, heach]
        rfl
      · rw [Call.entriesEach, hown', heach']
        rfl

end

/-! ### Saving what was built -/

theorem exists_left_of_mem {α β : Type} {R : α → β → Prop} {xs : List α} {ys : List β}
    (h : List.Forall₂ R xs ys) {y : β} (hy : y ∈ ys) : ∃ x ∈ xs, R x y := by
  induction h with
  | nil => cases hy
  | cons hhead _ ih =>
      rcases List.mem_cons.mp hy with rfl | hy
      · exact ⟨_, List.mem_cons_self, hhead⟩
      · obtain ⟨x, hx, hR⟩ := ih hy
        exact ⟨x, List.mem_cons_of_mem _ hx, hR⟩

theorem map_eq_of_forall₂ {α β γ : Type} {f : α → γ} {g : β → γ} {xs : List α} {ys : List β}
    (h : List.Forall₂ (fun x y => f x = g y) xs ys) : xs.map f = ys.map g := by
  rw [← List.forall₂_eq_eq_eq, List.forall₂_map_left_iff, List.forall₂_map_right_iff]
  exact h

/-- The models of two lists that read the same. -/
def SameModels (models models' : List (String × HostState)) : Prop :=
  List.Forall₂ (fun model model' : String × HostState => model.1 = model'.1 ∧
    (Value.dict model.2.fields).plain ≈ (Value.dict model'.2.fields).plain) models models'

theorem loads_congr {reader : Language} {doc : Bindings}
    {models models' : List (String × HostState)} (h : reader.Loads doc models)
    (hsame : SameModels models models') : reader.Loads doc models' := by
  obtain ⟨text, hreload, hload⟩ := h
  refine ⟨text, hreload, fun decoders hlossless read hread => ?_⟩
  obtain ⟨loaded, hloaded, hperm, hall⟩ := hload decoders hlossless read hread
  have hids : (models.map fun model => Key.str model.1) =
      models'.map fun model => Key.str model.1 :=
    map_eq_of_forall₂ (hsame.imp fun _ _ h => congrArg Key.str h.1)
  refine ⟨loaded, hloaded, hids ▸ hperm, fun model' hmodel' => ?_⟩
  obtain ⟨model, hmodel, hid, hequiv⟩ := exists_left_of_mem hsame hmodel'
  obtain ⟨w, hw, hread⟩ := hall model hmodel
  exact ⟨w, hid ▸ hw, Setoid.trans hread hequiv⟩

theorem Twin.equiv {entry entry' : String × Bindings} (h : Twin entry entry') :
    (Value.dict entry.2).plain ≈ (Value.dict entry'.2).plain := by
  rw [agree_plain_iff]
  intro key
  rw [h.lookup]
  exact Front.agree_refl _

/-- What refers to nothing else in Python does so in Julia. -/
theorem Twin.refersTo {entry entry' : String × Bindings} (h : Twin entry entry')
    {ids : List String} (hrefs : RefersTo ids (.dict entry'.2)) :
    RefersTo ids (.dict entry.2) := by
  intro s hs hhead
  obtain ⟨kv, hkv, hs⟩ := (occurs_iff_items (by simp)).mp hs
  have hmem : kv ∈ entry'.2 := mem_of_same_lookup (wf_dict_iff.mp h.wf).1 h.lookup hkv
  exact hrefs s (.inside hmem hs) hhead

/-- A tree of calls makes the same models in Julia as in Python, in the same order and under the
same ids.  What Julia writes of them refers to nothing that is missing, and every language
loads it as what Python built. -/
theorem julia_controls_portable (str string : Value → String) (call : Call)
    (hfresh : Call.Fresh call.calls) (hfit : ∀ below ∈ call.calls, Fit str string below)
    (anywidgetVersion : String) :
    ∃ own own', entries string call = .ok own ∧ call.entries str = .ok own' ∧
      List.Forall₂ (fun entry entry' : String × Bindings => entry.1 = entry'.1 ∧
        ∀ key, entry.2.lookup key = entry'.2.lookup key) own own' ∧
      ∃ doc, Julia.dumper.dumpDocument anywidgetVersion own = .ok doc ∧
        checkReferences doc = .ok () ∧
        ∃ models, modelEntries models = own' ∧ ∀ reader : Language, reader.Loads doc models := by
  obtain ⟨own, own', hown, hown', htwins, -⟩ := twins_entries call hfit
  have hbuilt : Call.Built call own' := Call.built_entries call own' hown' hfresh
    fun below hbelow => ⟨(hfit below hbelow).allowed, (hfit below hbelow).shallow⟩
  refine ⟨own, own', hown, hown', htwins.imp fun _ _ h => ⟨h.id, h.lookup⟩, ?_⟩
  obtain ⟨models', rfl⟩ := exists_modelEntries fun entry hentry =>
    (hbuilt.sound.states entry hentry).1
  have hwf : ∀ entry ∈ own, (Value.dict entry.2).Wf := fun entry hentry => by
    obtain ⟨entry', -, htwin⟩ := exists_left_of_mem htwins.flip hentry
    exact htwin.wf
  obtain ⟨models, rfl⟩ := exists_modelEntries hwf
  have htwin : List.Forall₂ (fun model model' : String × HostState =>
      Twin (model.1, model.2.fields) (model'.1, model'.2.fields)) models models' := by
    rw [modelEntries, modelEntries, List.forall₂_map_left_iff, List.forall₂_map_right_iff]
      at htwins
    exact htwins
  have hids : models.map Prod.fst = models'.map Prod.fst :=
    map_eq_of_forall₂ (htwin.imp fun _ _ h => h.id)
  have hnames : (modelEntries models').map Prod.fst = models'.map Prod.fst := by
    simp [modelEntries]
  have howned : ∀ id ∈ models.map Prod.fst, ∃ hex, IsHex hex ∧ Owns hex id := by
    rw [hids, ← hnames, List.forall_mem_map]
    intro entry hentry
    obtain ⟨hex, hhex, howns⟩ := hbuilt.sound.owned entry hentry
    exact ⟨hex, List.forall_mem_map.mpr hfresh.hex hex hhex, howns⟩
  have hproper : ProperIds (models.map Prod.fst) := by
    refine ⟨fun id hid => ?_, hids ▸ hnames ▸ hbuilt.sound.nodup⟩
    obtain ⟨hex, hhex, howns⟩ := howned id hid
    exact howns.ne_empty hhex
  have heach : ∀ model ∈ models, ∃ model' ∈ models',
      Twin (model.1, model.2.fields) (model'.1, model'.2.fields) :=
    fun model hmodel => exists_left_of_mem htwin.flip hmodel
  have hstates : ∀ model ∈ models, Storable model.2.fields := fun model hmodel =>
    (heach model hmodel).elim fun _ h => h.2.storable
  have htree : ∀ model ∈ models, Language.julia.IsTree (.dict model.2.fields) :=
    fun model hmodel => (heach model hmodel).elim fun _ h =>
      ⟨h.2.wf, fun _ => untupled_of_json h.2.json⟩
  have hlines : ∀ id ∈ models.map Prod.fst, '\n' ∉ id.toList := fun id hid => by
    obtain ⟨hex, hhex, howns⟩ := howned id hid
    exact howns.one_line hhex
  have hrefs : ∀ model ∈ models, RefersTo (models.map Prod.fst) (.dict model.2.fields) := by
    intro model hmodel
    obtain ⟨model', hmodel', h⟩ := heach model hmodel
    have hmem : (model'.1, model'.2.fields) ∈ modelEntries models' :=
      List.mem_map.mpr ⟨model', hmodel', rfl⟩
    rw [hids, ← hnames]
    exact h.refersTo (hbuilt.sound.refs _ hmem)
  exact ⟨document anywidgetVersion models,
    Language.dumpDocument_ok (fun _ _ => true) .julia htree hstates hproper anywidgetVersion,
    checkReferences_document hproper.2 hlines hrefs, models', rfl,
    fun reader => loads_congr (reader.loads_document hstates hproper anywidgetVersion)
      (htwin.imp fun _ _ h => ⟨h.id, h.equiv⟩)⟩

open ControlsWitness in
theorem julia_controls_portable_panel : ∃ own own',
    entries strOf panel = .ok own ∧ panel.entries strOf = .ok own' ∧
      own.map Prod.fst = own'.map Prod.fst ∧
      ∃ doc, Julia.dumper.dumpDocument anywidgetModuleVersion own = .ok doc ∧
        checkReferences doc = .ok () ∧
        ∃ models, modelEntries models = own' ∧ Language.csharp.Loads doc models := by
  have hfresh : Call.Fresh panel.calls := by
    refine ⟨?_, by rw [calls_panel]; decide⟩
    rw [calls_panel]
    simp only [List.forall_mem_cons, List.not_mem_nil, false_implies, implies_true, and_true]
    exact ⟨⟨rfl, rfl⟩, ⟨rfl, rfl⟩, rfl, rfl⟩
  have hshallow : ∀ below ∈ panel.calls, below.Shallow := by
    rw [calls_panel]
    unfold Call.Shallow
    decide
  have hportable : ∀ below ∈ panel.calls, Portable strOf strOf below := by
    rw [calls_panel]
    simp [panel, slider, choice, Portable, isInteger]
  have hjson : ∀ below ∈ panel.calls, (Value.dict below.given).json = true := by
    rw [calls_panel]
    decide
  obtain ⟨own, own', hown, hown', hsame, doc, hdoc, hcheck, models, hmodels, hloads⟩ :=
    julia_controls_portable strOf strOf panel hfresh
      (fun below h => ⟨hportable below h, allowed_panel below h, hshallow below h,
        json_dict_iff.mp (hjson below h)⟩) anywidgetModuleVersion
  exact ⟨own, own', hown, hown', map_eq_of_forall₂ (hsame.imp fun _ _ h => h.1), doc, hdoc,
    hcheck, models, hmodels, hloads .csharp⟩

end JuliaControls

end Cositos
