/-
The catalog of real controls (`contrib/controls.py`): each builder lists the entry of its
widget, those of the widget's companions under ids of their own, and for a box those of its
children.
-/
import Cositos.References
import Cositos.Redump

namespace Cositos

open Value

namespace Controls

open Protocol Serialize

/-! ### The catalog -/

/-- A companion of a widget, and the key under which the widget refers to it. -/
structure Companion where
  keyInDefaultState : String
  modelName : String
  modelModule : String
  modelModuleVersion : String
  viewName : Value
  viewModule : String
  viewModuleVersion : String

/-- A widget of the catalog. -/
structure Spec where
  modelName : String
  modelModule : String
  modelModuleVersion : String
  viewName : String
  viewModule : String
  viewModuleVersion : String
  defaultState : Bindings
  companions : List Companion

/-- A `style` companion of that model. -/
def style (modelName : String) : Companion where
  keyInDefaultState := "style"
  modelName := modelName
  modelModule := "@jupyter-widgets/controls"
  modelModuleVersion := "2.0.0"
  viewName := .none
  viewModule := "@jupyter-widgets/controls"
  viewModuleVersion := "2.0.0"

/-- The `layout` companion. -/
def layout : Companion where
  keyInDefaultState := "layout"
  modelName := "LayoutModel"
  modelModule := "@jupyter-widgets/base"
  modelModuleVersion := "2.0.0"
  viewName := .none
  viewModule := "@jupyter-widgets/base"
  viewModuleVersion := "2.0.0"

/-- A widget of `@jupyter-widgets/controls`. -/
def control (modelName viewName : String) (defaultState : Bindings)
    (companions : List Companion) : Spec where
  modelName := modelName
  modelModule := "@jupyter-widgets/controls"
  modelModuleVersion := "2.0.0"
  viewName := viewName
  viewModule := "@jupyter-widgets/controls"
  viewModuleVersion := "2.0.0"
  defaultState := defaultState
  companions := companions

/-- The default state of a box. -/
def boxState : Bindings :=
  [(.str "children", .list []), (.str "box_style", .str ""),
    (.str "layout", .str "IPY_MODEL_<layout_id>")]

/-- `_CATALOG`. -/
def catalog : List (String × Spec) :=
  [("int_slider", control "IntSliderModel" "IntSliderView"
      [(.str "value", .int 0), (.str "min", .int 0), (.str "max", .int 100),
        (.str "step", .int 1), (.str "orientation", .str "horizontal"),
        (.str "readout", .bool true), (.str "readout_format", .str "d"),
        (.str "continuous_update", .bool true), (.str "disabled", .bool false),
        (.str "behavior", .str "drag-tap"), (.str "description", .str ""),
        (.str "description_allow_html", .bool false),
        (.str "style", .str "IPY_MODEL_<slider_style_id>"),
        (.str "layout", .str "IPY_MODEL_<layout_id>")]
      [style "SliderStyleModel", layout]),
    ("dropdown", control "DropdownModel" "DropdownView"
      [(.str "_options_labels", .list []), (.str "index", .none),
        (.str "disabled", .bool false), (.str "description", .str ""),
        (.str "description_allow_html", .bool false),
        (.str "style", .str "IPY_MODEL_<description_style_id>"),
        (.str "layout", .str "IPY_MODEL_<layout_id>")]
      [style "DescriptionStyleModel", layout]),
    ("vbox", control "VBoxModel" "VBoxView" boxState [layout]),
    ("hbox", control "HBoxModel" "HBoxView" boxState [layout])]

/-! ### The builders -/

/-- A list of `ModelEntry`. -/
abbrev Entries := List (String × Bindings)

/-- `_mint_id`. -/
def mintId (rootId role : String) : String := rootId ++ "-" ++ role

/-- `_identity`. -/
def identity (spec : Spec) : Bindings :=
  [(.str "_model_name", .str spec.modelName), (.str "_model_module", .str spec.modelModule),
    (.str "_model_module_version", .str spec.modelModuleVersion),
    (.str "_view_name", .str spec.viewName), (.str "_view_module", .str spec.viewModule),
    (.str "_view_module_version", .str spec.viewModuleVersion)]

/-- `companion_state`. -/
def companionState (companion : Companion) : Bindings :=
  [(.str "_model_name", .str companion.modelName),
    (.str "_model_module", .str companion.modelModule),
    (.str "_model_module_version", .str companion.modelModuleVersion),
    (.str "_view_name", companion.viewName), (.str "_view_module", .str companion.viewModule),
    (.str "_view_module_version", .str companion.viewModuleVersion)]

/-- One turn of the loop in `_build`. -/
def addCompanion (rootId : String) (built : Bindings × Entries) (companion : Companion) :
    Bindings × Entries :=
  let key := companion.keyInDefaultState
  let companionId := mintId rootId key
  (Dict.set built.1 (.str key) (.str (refHead ++ companionId)),
    built.2 ++ [(companionId, companionState companion)])

/-- `_build`; `hex` is what `uuid.uuid4().hex` gives this call. -/
def build (catalogKey : String) (overrides : Bindings) (modelId : Option String) (hex : String) :
    Except PyError Entries :=
  match catalog.lookup catalogKey with
  | none => .error .keyError
  | some spec =>
      let rootId := match modelId with
        | some id => if id = "" then hex else id
        | none => hex
      let (state, companionEntries) :=
        spec.companions.foldl (addCompanion rootId) (spec.defaultState, [])
      let widgetState := Dict.update (identity spec) (Dict.update state overrides)
      .ok ((rootId, widgetState) :: companionEntries)

/-- `int_slider`. -/
def intSlider (hex : String) (value min max : Value) (overrides : Bindings) :
    Except PyError Entries :=
  build "int_slider"
    (Dict.update [(.str "value", value), (.str "min", min), (.str "max", max)] overrides)
    none hex

/-- `labels.index(str_value) if str_value in labels else None`. -/
def labelIndex (labels : List String) (label : String) : Value :=
  match labels.findIdx? fun other => other == label with
  | some i => .int i
  | none => .none

/-- `index is None and value is not None`, and the lookup then. -/
def chosenIndex (str : Value → String) (labels : List String) (index value : Value) : Value :=
  match index, value with
  | .scalar .none, .scalar .none => .none
  | .scalar .none, value => labelIndex labels (str value)
  | index, _ => index

/-- `dropdown`; `str` is the builtin. -/
def dropdown (str : Value → String) (hex : String) (options value : Value)
    (overrides : Bindings) : Except PyError Entries := do
  let options ← options.iterate
  let labels := options.map str
  let index := chosenIndex str labels (get overrides "index" .none) value
  build "dropdown"
    (Dict.update [(.str "_options_labels", .list (labels.map Value.str)), (.str "index", index)]
      (Dict.erase overrides (.str "index")))
    none hex

/-- `f"IPY_MODEL_{child[0][0]}"`. -/
def childRef : Entries → Except PyError Value
  | (id, _) :: _ => .ok (.str (refHead ++ id))
  | [] => .error .indexError

/-- `_box`, whose own parameter no override can be named after. -/
def box (catalogKey hex : String) (children : List Entries) (overrides : Bindings) :
    Except PyError Entries :=
  if .str "catalog_key" ∈ Dict.keys overrides then .error .typeError
  else do
    let childRefs ← children.mapM childRef
    let own ← build catalogKey (Dict.update [(.str "children", .list childRefs)] overrides) none hex
    return own ++ children.flatten

/-- `vbox`. -/
def vbox (hex : String) (children : List Entries) (overrides : Bindings) :
    Except PyError Entries :=
  box "vbox" hex children overrides

/-- `hbox`. -/
def hbox (hex : String) (children : List Entries) (overrides : Bindings) :
    Except PyError Entries :=
  box "hbox" hex children overrides

/-! ### Trees of calls -/

/-- A call of a builder, with what `uuid.uuid4().hex` gives it.  The children of a box are
calls of their own. -/
inductive Call
  | intSlider (hex : String) (value min max : Value) (overrides : Bindings)
  | dropdown (hex : String) (options value : Value) (overrides : Bindings)
  | vbox (hex : String) (children : List Call) (overrides : Bindings)
  | hbox (hex : String) (children : List Call) (overrides : Bindings)

namespace Call

/-- The id of the widget that is built. -/
def rootId : Call → String
  | .intSlider hex _ _ _ _ | .dropdown hex _ _ _ | .vbox hex _ _ | .hbox hex _ _ => hex

/-- The calls of the children of a box. -/
def children : Call → Option (List Call)
  | .intSlider _ _ _ _ _ | .dropdown _ _ _ _ => none
  | .vbox _ children _ | .hbox _ children _ => some children

mutual

/-- What the call returns. -/
def entries (str : Value → String) : Call → Except PyError Entries
  | .intSlider hex value min max overrides => Controls.intSlider hex value min max overrides
  | .dropdown hex options value overrides => Controls.dropdown str hex options value overrides
  | .vbox hex children overrides => do
      let built ← entriesEach str children
      Controls.vbox hex built overrides
  | .hbox hex children overrides => do
      let built ← entriesEach str children
      Controls.hbox hex built overrides

def entriesEach (str : Value → String) : List Call → Except PyError (List Entries)
  | [] => .ok []
  | call :: calls => do
      let first ← entries str call
      let rest ← entriesEach str calls
      return first :: rest

end

mutual

/-- The call and all those below it. -/
def calls : Call → List Call
  | .intSlider hex value min max overrides => [.intSlider hex value min max overrides]
  | .dropdown hex options value overrides => [.dropdown hex options value overrides]
  | .vbox hex children overrides => .vbox hex children overrides :: callsEach children
  | .hbox hex children overrides => .hbox hex children overrides :: callsEach children

def callsEach : List Call → List Call
  | [] => []
  | call :: rest => calls call ++ callsEach rest

end

end Call

/-! ### One call -/

/-- No string of the value looks like a reference. -/
def Quiet (v : Value) : Prop := ∀ s, Occurs s v → ¬ refHead.toList <+: s.toList

theorem quiet_str {s : String} (h : ¬ refHead.toList <+: s.toList) : Quiet (.str s) := by
  intro t ht
  rw [occurs_str_iff.mp ht]
  exact h

theorem quiet_of_items {v : Value} (hv : ∀ t, v ≠ .str t) (h : ∀ kc ∈ v.items, Quiet kc.2) :
    Quiet v := by
  intro s hs
  obtain ⟨kc, hkc, hs⟩ := (occurs_iff_items hv).mp hs
  exact h kc hkc s hs

theorem quiet_dict_iff {kvs : Bindings} : Quiet (.dict kvs) ↔ ∀ kc ∈ kvs, Quiet kc.2 := by
  constructor
  · exact fun h kc hkc s hs => h s (.inside hkc hs)
  · exact fun h => quiet_of_items (fun t heq => by cases heq) h

/-- The references of a widget to its companions. -/
def companionRefs (spec : Spec) (rootId : String) : Bindings :=
  spec.companions.map fun companion =>
    (.str companion.keyInDefaultState,
      .str (refHead ++ mintId rootId companion.keyInDefaultState))

/-- The entries of the companions of a widget. -/
def companionEntries (spec : Spec) (rootId : String) : Entries :=
  spec.companions.map fun companion =>
    (mintId rootId companion.keyInDefaultState, companionState companion)

/-- The state of a widget. -/
def widgetState (spec : Spec) (rootId : String) (overrides : Bindings) : Bindings :=
  Dict.update (identity spec)
    (Dict.update (Dict.update spec.defaultState (companionRefs spec rootId)) overrides)

theorem foldl_addCompanion (rootId : String) (companions : List Companion) (state : Bindings)
    (built : Entries) :
    companions.foldl (addCompanion rootId) (state, built) =
      (Dict.update state (companions.map fun companion =>
          (.str companion.keyInDefaultState,
            .str (refHead ++ mintId rootId companion.keyInDefaultState))),
        built ++ companions.map fun companion =>
          (mintId rootId companion.keyInDefaultState, companionState companion)) := by
  induction companions generalizing state built with
  | nil => simp [Dict.update]
  | cons companion companions ih =>
      rw [List.foldl_cons, addCompanion, ih, List.map_cons, Dict.update_cons, List.map_cons,
        List.append_assoc]
      rfl

theorem build_ok {catalogKey : String} {spec : Spec} (hspec : catalog.lookup catalogKey = some spec)
    (overrides : Bindings) (hex : String) :
    build catalogKey overrides none hex =
      .ok ((hex, widgetState spec hex overrides) :: companionEntries spec hex) := by
  rw [build, hspec]
  simp only [foldl_addCompanion, List.nil_append]
  rfl

/-- A scalar or an empty list that is no reference. -/
def isQuietLeaf : Value → Bool
  | .scalar (.str s) => !refHead.toList.isPrefixOf s.toList
  | .scalar _ | .list [] => true
  | _ => false

theorem quiet_of_isQuietLeaf {v : Value} (h : isQuietLeaf v = true) : Quiet v := by
  cases v with
  | scalar s =>
      cases s with
      | str t =>
          apply quiet_str
          intro hhead
          simp [isQuietLeaf, List.isPrefixOf_iff_prefix.mpr hhead] at h
      | none | bool b | int i | float q | other tag =>
          exact quiet_of_items (by simp) (by simp [items])
  | list xs =>
      cases xs with
      | nil => exact quiet_of_items (by simp) (by simp [items, enumItems])
      | cons x xs => cases h
  | bin b | tuple xs | dict kvs => cases h

theorem wf_of_isQuietLeaf {v : Value} (h : isQuietLeaf v = true) : v.Wf := by
  cases v with
  | scalar s => rfl
  | list xs =>
      cases xs with
      | nil => rfl
      | cons x xs => cases h
  | bin b | tuple xs | dict kvs => cases h

theorem height_of_isQuietLeaf {v : Value} (h : isQuietLeaf v = true) : v.height ≤ 1 := by
  cases v with
  | scalar s => exact Nat.zero_le _
  | list xs =>
      cases xs with
      | nil => exact le_rfl
      | cons x xs => cases h
  | bin b | tuple xs | dict kvs => cases h

/-- The keys that refer to companions. -/
def companionRoles : List String := ["style", "layout"]

/-- What every widget of the catalog keeps to: its default state repeats no key, is flat, and
looks like a reference only where a companion takes its place. -/
structure Spec.Tidy (spec : Spec) : Prop where
  identity : ∀ kv ∈ Controls.identity spec, isQuietLeaf kv.2 = true
  nodup : (Dict.keys spec.defaultState).Nodup
  flat : ∀ kv ∈ spec.defaultState, kv.2.Wf ∧ kv.2.height ≤ 1
  quiet : ∀ kv ∈ spec.defaultState,
    kv.1 ∈ Dict.keys (companionRefs spec "") ∨ isQuietLeaf kv.2 = true
  companions : ∀ companion ∈ spec.companions,
    ∀ kv ∈ companionState companion, isQuietLeaf kv.2 = true
  roles : (spec.companions.map Companion.keyInDefaultState).Nodup
  known : ∀ companion ∈ spec.companions, companion.keyInDefaultState ∈ companionRoles

theorem tidy_catalog : ∀ entry ∈ catalog, entry.2.Tidy := by
  have hidentity : ∀ entry ∈ catalog, ∀ kv ∈ identity entry.2, isQuietLeaf kv.2 = true := by
    decide
  have hdefaults : ∀ entry ∈ catalog, (Dict.keys entry.2.defaultState).Nodup ∧
      ∀ kv ∈ entry.2.defaultState, kv.2.Wf ∧ kv.2.height ≤ 1 := by decide
  have hquiet : ∀ entry ∈ catalog, ∀ kv ∈ entry.2.defaultState,
      kv.1 ∈ Dict.keys (companionRefs entry.2 "") ∨ isQuietLeaf kv.2 = true := by decide
  have hcompanions : ∀ entry ∈ catalog, ∀ companion ∈ entry.2.companions,
      ∀ kv ∈ companionState companion, isQuietLeaf kv.2 = true := by decide
  have hroles : ∀ entry ∈ catalog,
      (entry.2.companions.map Companion.keyInDefaultState).Nodup ∧
      ∀ companion ∈ entry.2.companions,
        companion.keyInDefaultState ∈ companionRoles := by decide
  intro entry h
  exact ⟨hidentity entry h, (hdefaults entry h).1, (hdefaults entry h).2, hquiet entry h,
    hcompanions entry h, (hroles entry h).1, (hroles entry h).2⟩

variable {spec : Spec} {hex : String} {overrides : Bindings}

theorem keys_companionRefs (spec : Spec) (rootId : String) :
    Dict.keys (companionRefs spec rootId) =
      spec.companions.map fun companion => Key.str companion.keyInDefaultState := by
  rw [companionRefs, Dict.keys, List.map_map]
  rfl

theorem Spec.Tidy.nodup_refs (h : spec.Tidy) (rootId : String) :
    (Dict.keys (companionRefs spec rootId)).Nodup := by
  have hmap := h.roles.map fun _ _ heq => Key.str.inj heq
  rw [List.map_map] at hmap
  rw [keys_companionRefs]
  exact hmap

/-- Where a value of the state comes from. -/
theorem mem_widgetState (h : spec.Tidy) {kv : Key × Value}
    (hkv : kv ∈ widgetState spec hex overrides) :
    kv ∈ identity spec ∨ kv ∈ overrides ∨ kv ∈ companionRefs spec hex ∨
      kv ∈ spec.defaultState ∧ kv.1 ∉ Dict.keys (companionRefs spec hex) := by
  rcases Dict.mem_update hkv with hidentity | hkv
  · exact .inl hidentity
  rcases Dict.mem_update hkv with hstate | hoverride
  · have hnodup := Dict.nodup_keys_update h.nodup (companionRefs spec hex)
    have hlookup := (Dict.lookup_eq_some_iff hnodup).mpr hstate
    rw [Dict.lookup_update _ (h.nodup_refs hex), Option.or_eq_some_iff] at hlookup
    rcases hlookup with href | ⟨hnone, hdefault⟩
    · exact .inr (.inr (.inl (Dict.mem_of_lookup href)))
    · exact .inr (.inr (.inr ⟨Dict.mem_of_lookup hdefault, Dict.lookup_eq_none_iff.mp hnone⟩))
  · exact .inr (.inl hoverride)

/-- A string of the state that looks like a reference is one to a companion, or stands in
the overrides. -/
theorem occurs_widgetState (h : spec.Tidy) {s : String}
    (hs : Occurs s (.dict (widgetState spec hex overrides)))
    (hhead : refHead.toList <+: s.toList) :
    (∃ kv ∈ overrides, Occurs s kv.2) ∨
      ∃ entry ∈ companionEntries spec hex, s = refHead ++ entry.1 := by
  obtain ⟨kv, hkv, hs⟩ := (occurs_iff_items (by simp)).mp hs
  rcases mem_widgetState h hkv with hmem | hmem | hmem | ⟨hmem, hnot⟩
  · exact absurd hhead (quiet_of_isQuietLeaf (h.identity kv hmem) s hs)
  · exact .inl ⟨kv, hmem, hs⟩
  · obtain ⟨companion, hcompanion, rfl⟩ := List.mem_map.mp hmem
    exact .inr ⟨_, List.mem_map.mpr ⟨companion, hcompanion, rfl⟩, occurs_str_iff.mp hs⟩
  · rw [keys_companionRefs, ← keys_companionRefs spec ""] at hnot
    exact absurd hhead (quiet_of_isQuietLeaf ((h.quiet kv hmem).resolve_left hnot) s hs)

/-- The state is a tree as the overrides are. -/
theorem wf_widgetState (h : spec.Tidy) (hoverrides : ∀ kv ∈ overrides, kv.2.Wf) (hex : String) :
    (Value.dict (widgetState spec hex overrides)).Wf := by
  rw [wf_dict_iff]
  refine ⟨Dict.nodup_keys_update (by simp [identity]) _, fun kv hkv => ?_⟩
  rcases mem_widgetState h hkv with hmem | hmem | hmem | ⟨hmem, _⟩
  · exact wf_of_isQuietLeaf (h.identity kv hmem)
  · exact hoverrides kv hmem
  · obtain ⟨companion, _, rfl⟩ := List.mem_map.mp hmem
    rfl
  · exact (h.flat kv hmem).1

/-- The state is no deeper than the overrides. -/
theorem nesting_widgetState (h : spec.Tidy)
    (hoverrides : ∀ kv ∈ overrides, kv.2.height ≤ Buffers.maxDepth) (hex : String) :
    (Value.dict (widgetState spec hex overrides)).nesting ≤ Buffers.maxDepth := by
  rw [nesting_le_iff, height_le_succ_iff]
  intro kv hkv
  rcases mem_widgetState h hkv with hmem | hmem | hmem | ⟨hmem, _⟩
  · exact (height_of_isQuietLeaf (h.identity kv hmem)).trans (by decide)
  · exact hoverrides kv hmem
  · obtain ⟨companion, _, rfl⟩ := List.mem_map.mp hmem
    exact Nat.zero_le _
  · exact (h.flat kv hmem).2.trans (by decide)

/-- The overrides win. -/
theorem lookup_widgetState (h : spec.Tidy) {key : Key} {value : Value}
    (hoverrides : (Dict.keys overrides).Nodup) (hvalue : overrides.lookup key = some value) :
    (widgetState spec hex overrides).lookup key = some value := by
  have hinner := Dict.nodup_keys_update (Dict.nodup_keys_update h.nodup (companionRefs spec hex))
    overrides
  rw [widgetState, Dict.lookup_update _ hinner, Dict.lookup_update _ hoverrides, hvalue]
  rfl

/-! ### Ids -/

/-- What `uuid.uuid4().hex` looks like. -/
def IsHex (hex : String) : Prop :=
  hex.toList.length = 32 ∧ hex.toList.all "0123456789abcdef".toList.contains = true

/-- The id is that of a widget, or of one of its companions. -/
def Owns (hex id : String) : Prop :=
  id = hex ∨ ∃ role ∈ companionRoles, id = mintId hex role

theorem Owns.take {hex id : String} (hhex : IsHex hex) (h : Owns hex id) :
    id.toList.take 32 = hex.toList := by
  rcases h with rfl | ⟨role, _, rfl⟩
  · exact List.take_of_length_le hhex.1.le
  · rw [mintId, String.append_assoc, String.toList_append, ← hhex.1, List.take_left]

/-- An id tells whose it is. -/
theorem Owns.unique {hex hex' id : String} (hhex : IsHex hex) (hhex' : IsHex hex')
    (h : Owns hex id) (h' : Owns hex' id) : hex = hex' := by
  rw [← String.toList_inj, ← h.take hhex, h'.take hhex']

theorem Owns.one_line {hex id : String} (hhex : IsHex hex) (h : Owns hex id) :
    '\n' ∉ id.toList := by
  have hline : '\n' ∉ hex.toList := fun hmem =>
    absurd (List.all_eq_true.mp hhex.2 _ hmem) (by decide)
  rcases h with rfl | ⟨role, hrole, rfl⟩
  · exact hline
  · simp only [mintId, String.toList_append, List.mem_append, not_or]
    refine ⟨⟨hline, by decide⟩, ?_⟩
    revert role
    decide

theorem Owns.ne_empty {hex id : String} (hhex : IsHex hex) (h : Owns hex id) : id ≠ "" := by
  rintro rfl
  have htake := congrArg List.length (h.take hhex)
  rw [hhex.1] at htake
  exact absurd htake (by decide)

theorem mintId_ne (hex role : String) : mintId hex role ≠ hex := by
  intro heq
  have hlength := congrArg (fun s : String => s.toList.length) heq
  simp [mintId] at hlength

theorem mintId_inj {hex role role' : String} (h : mintId hex role = mintId hex role') :
    role = role' :=
  (String.append_right_inj _).mp h

/-! ### What a call returns -/

/-- A value whose references are to the given ids. -/
def RefersTo (ids : List String) (v : Value) : Prop :=
  ∀ s, Occurs s v → refHead.toList <+: s.toList → ∃ id ∈ ids, s = refHead ++ id

/-- Entries of calls with these `hexes`, whose references are to the given ids. -/
structure Sound (hexes ids : List String) (entries : Entries) : Prop where
  owned : ∀ entry ∈ entries, ∃ hex ∈ hexes, Owns hex entry.1
  nodup : (entries.map Prod.fst).Nodup
  refs : ∀ entry ∈ entries, RefersTo ids (.dict entry.2)
  states : ∀ entry ∈ entries, (Value.dict entry.2).Wf ∧
    (Value.dict entry.2).nesting ≤ Buffers.maxDepth

/-- What a builder may hand to `_build`. -/
structure Handed (ids : List String) (overrides : Bindings) : Prop where
  nodup : (Dict.keys overrides).Nodup
  wf : ∀ kv ∈ overrides, kv.2.Wf
  height : ∀ kv ∈ overrides, kv.2.height ≤ Buffers.maxDepth
  refs : ∀ kv ∈ overrides, RefersTo ids kv.2

variable {hexes ids hexes' ids' : List String} {entries entries' : Entries}

theorem RefersTo.mono {v : Value} (h : RefersTo ids v) (hids : ids ⊆ ids') : RefersTo ids' v := by
  intro s hs hhead
  obtain ⟨id, hid, heq⟩ := h s hs hhead
  exact ⟨id, hids hid, heq⟩

theorem Quiet.refersTo {v : Value} (h : Quiet v) : RefersTo ids v :=
  fun s hs hhead => absurd hhead (h s hs)

theorem Sound.mono (h : Sound hexes ids entries) (hids : ids ⊆ ids') :
    Sound hexes ids' entries where
  owned := h.owned
  nodup := h.nodup
  refs entry hentry := (h.refs entry hentry).mono hids
  states := h.states

/-- Calls with different hexes share no id. -/
theorem Sound.append (h : Sound hexes ids entries) (h' : Sound hexes' ids entries')
    (hhexes : ∀ hex ∈ hexes ++ hexes', IsHex hex) (hdisjoint : hexes.Disjoint hexes') :
    Sound (hexes ++ hexes') ids (entries ++ entries') where
  owned := by
    intro entry hentry
    rcases List.mem_append.mp hentry with hentry | hentry
    · obtain ⟨hex, hhex, howns⟩ := h.owned entry hentry
      exact ⟨hex, List.mem_append_left _ hhex, howns⟩
    · obtain ⟨hex, hhex, howns⟩ := h'.owned entry hentry
      exact ⟨hex, List.mem_append_right _ hhex, howns⟩
  nodup := by
    rw [List.map_append]
    refine h.nodup.append h'.nodup fun id hid hid' => ?_
    obtain ⟨entry, hentry, rfl⟩ := List.mem_map.mp hid
    obtain ⟨entry', hentry', heq⟩ := List.mem_map.mp hid'
    obtain ⟨hex, hhex, howns⟩ := h.owned entry hentry
    obtain ⟨hex', hhex', howns'⟩ := h'.owned entry' hentry'
    rw [heq] at howns'
    have hsame := howns.unique (hhexes hex (List.mem_append_left _ hhex))
      (hhexes hex' (List.mem_append_right _ hhex')) howns'
    exact hdisjoint hhex (hsame ▸ hhex')
  refs := by
    intro entry hentry
    rcases List.mem_append.mp hentry with hentry | hentry
    · exact h.refs entry hentry
    · exact h'.refs entry hentry
  states := by
    intro entry hentry
    rcases List.mem_append.mp hentry with hentry | hentry
    · exact h.states entry hentry
    · exact h'.states entry hentry

/-- The entries `_build` makes of a widget and its companions. -/
theorem sound_build (h : spec.Tidy) (hhanded : Handed ids overrides) :
    Sound [hex] (ids ++ hex :: (companionEntries spec hex).map Prod.fst)
      ((hex, widgetState spec hex overrides) :: companionEntries spec hex) where
  owned := by
    rw [List.forall_mem_cons]
    refine ⟨⟨hex, List.mem_singleton_self _, .inl rfl⟩, fun entry hentry => ?_⟩
    obtain ⟨companion, hcompanion, rfl⟩ := List.mem_map.mp hentry
    exact ⟨hex, List.mem_singleton_self _, .inr ⟨_, h.known companion hcompanion, rfl⟩⟩
  nodup := by
    rw [List.map_cons, List.nodup_cons, companionEntries, List.map_map]
    constructor
    · intro hmem
      obtain ⟨companion, _, heq⟩ := List.mem_map.mp hmem
      exact mintId_ne _ _ heq
    · have hinj : Function.Injective (mintId hex) := fun _ _ heq => mintId_inj heq
      have hroles := h.roles.map hinj
      rwa [List.map_map] at hroles
  refs := by
    rw [List.forall_mem_cons]
    constructor
    · intro s hs hhead
      rcases occurs_widgetState h hs hhead with ⟨kv, hkv, hs⟩ | ⟨entry, hentry, rfl⟩
      · obtain ⟨id, hid, heq⟩ := hhanded.refs kv hkv s hs hhead
        exact ⟨id, List.mem_append_left _ hid, heq⟩
      · exact ⟨entry.1, by simp [List.mem_map_of_mem hentry], rfl⟩
    · intro entry hentry
      obtain ⟨companion, hcompanion, rfl⟩ := List.mem_map.mp hentry
      exact (quiet_dict_iff.mpr fun kv hkv =>
        quiet_of_isQuietLeaf (h.companions companion hcompanion kv hkv)).refersTo
  states := by
    rw [List.forall_mem_cons]
    refine ⟨⟨wf_widgetState h hhanded.wf hex, nesting_widgetState h hhanded.height hex⟩, ?_⟩
    intro entry hentry
    obtain ⟨companion, hcompanion, rfl⟩ := List.mem_map.mp hentry
    have hleaf := h.companions companion hcompanion
    constructor
    · rw [wf_dict_iff]
      exact ⟨by simp [companionState], fun kv hkv => wf_of_isQuietLeaf (hleaf kv hkv)⟩
    · rw [nesting_le_iff, height_le_succ_iff]
      exact fun kv hkv => (height_of_isQuietLeaf (hleaf kv hkv)).trans (by decide)

theorem build_sound {catalogKey : String} (hhanded : Handed ids overrides)
    (h : build catalogKey overrides none hex = .ok entries) :
    Sound [hex] (ids ++ entries.map Prod.fst) entries ∧
      ∃ state rest, entries = (hex, state) :: rest ∧
        ∀ key value, overrides.lookup key = some value → state.lookup key = some value := by
  cases hspec : catalog.lookup catalogKey with
  | none => simp [build, hspec] at h
  | some spec =>
      have htidy := tidy_catalog _ (Dict.mem_of_lookup hspec)
      rw [build_ok hspec] at h
      cases h
      exact ⟨sound_build htidy hhanded, _, _, rfl, fun key value hvalue =>
        lookup_widgetState htidy hhanded.nodup hvalue⟩

/-! ### What a call is given -/

namespace Call

/-- The values the caller gives to the state. -/
def given : Call → Bindings
  | .intSlider _ value min max overrides =>
      Dict.update [(.str "value", value), (.str "min", min), (.str "max", max)] overrides
  | .dropdown _ _ _ overrides | .vbox _ _ overrides | .hbox _ _ overrides => overrides

/-- The labels of the options. -/
def labels (str : Value → String) : Call → List String
  | .dropdown _ options _ _ =>
      match options.iterate with
      | .ok options => options.map str
      | .error _ => []
  | .intSlider _ _ _ _ _ | .vbox _ _ _ | .hbox _ _ _ => []

/-- What no override may rebind. -/
def reservedKeys : List Key :=
  [.str "children", .str "style", .str "layout", .str "_model_name", .str "_model_module",
    .str "_model_module_version", .str "_view_name", .str "_view_module",
    .str "_view_module_version"]

/-- A call with overrides of its own: trees that rebind nothing of the builder's, and no
string of them or of the labels looks like a reference. -/
structure Allowed (str : Value → String) (call : Call) : Prop where
  nodup : (Dict.keys call.given).Nodup
  wf : ∀ kv ∈ call.given, kv.2.Wf
  reserved : ∀ key ∈ reservedKeys, key ∉ Dict.keys call.given
  quiet : ∀ kv ∈ call.given, Quiet kv.2
  labels : ∀ label ∈ call.labels str, ¬ refHead.toList <+: label.toList

/-- What the call is given is within the depth cap. -/
def Shallow (call : Call) : Prop := ∀ kv ∈ call.given, kv.2.height ≤ Buffers.maxDepth

/-- Python lets the call through: the options can be iterated over, and no override of a box
has the name of a parameter of `_box`. -/
def Callable : Call → Prop
  | .intSlider _ _ _ _ _ => True
  | .dropdown _ options _ _ => ∃ items, options.iterate = .ok items
  | .vbox _ _ overrides | .hbox _ _ overrides => .str "catalog_key" ∉ Dict.keys overrides

/-- The hexes of the calls are those of different `uuid4` calls. -/
structure Fresh (calls : List Call) : Prop where
  hex : ∀ call ∈ calls, IsHex call.rootId
  nodup : (calls.map rootId).Nodup

variable {str : Value → String} {call : Call}

/-- Values handed on beside the overrides. -/
theorem handed_update {base : Bindings} (h : Handed ids base) (h' : Handed ids overrides) :
    Handed ids (Dict.update base overrides) where
  nodup := Dict.nodup_keys_update h.nodup _
  wf kv hkv := (Dict.mem_update hkv).elim (h.wf kv) (h'.wf kv)
  height kv hkv := (Dict.mem_update hkv).elim (h.height kv) (h'.height kv)
  refs kv hkv := (Dict.mem_update hkv).elim (h.refs kv) (h'.refs kv)

theorem handed_given (hallowed : call.Allowed str) (hshallow : call.Shallow) :
    Handed ids call.given where
  nodup := hallowed.nodup
  wf := hallowed.wf
  height := hshallow
  refs kv hkv := (hallowed.quiet kv hkv).refersTo

theorem handed_erase (h : Handed ids overrides) (key : Key) :
    Handed ids (Dict.erase overrides key) where
  nodup := Dict.nodup_keys_erase h.nodup key
  wf kv hkv := h.wf kv (Dict.mem_of_mem_erase hkv)
  height kv hkv := h.height kv (Dict.mem_of_mem_erase hkv)
  refs kv hkv := h.refs kv (Dict.mem_of_mem_erase hkv)

/-- The index that is handed on is the given one or a number. -/
theorem chosenIndex_cases (str : Value → String) (labels : List String) (index value : Value) :
    chosenIndex str labels index value = index ∨
      isQuietLeaf (chosenIndex str labels index value) = true := by
  have hlabel : ∀ label, isQuietLeaf (labelIndex labels label) = true := by
    intro label
    unfold labelIndex
    cases labels.findIdx? fun other => other == label <;> rfl
  unfold chosenIndex
  split
  · exact .inr rfl
  · exact .inr (hlabel _)
  · exact .inl rfl

theorem handed_singleton {key : Key} {v : Value} (hwf : v.Wf)
    (hheight : v.height ≤ Buffers.maxDepth) (hrefs : RefersTo ids v) : Handed ids [(key, v)] := by
  refine ⟨by simp, ?_, ?_, ?_⟩ <;> simpa only [List.mem_singleton, forall_eq]

theorem handed_index (h : Handed ids overrides) (str : Value → String) (labels : List String)
    (value : Value) : Handed ids
      [(.str "index", chosenIndex str labels (get overrides "index" .none) value)] := by
  have hleaf : ∀ v, isQuietLeaf v = true → Handed ids [(.str "index", v)] := fun v hv =>
    handed_singleton (wf_of_isQuietLeaf hv) ((height_of_isQuietLeaf hv).trans (by decide))
      (quiet_of_isQuietLeaf hv).refersTo
  rcases chosenIndex_cases str labels (get overrides "index" .none) value with heq | hchosen
  · rw [heq]
    unfold Protocol.get
    cases hlookup : overrides.lookup (.str "index") with
    | none => exact hleaf .none rfl
    | some v =>
        have hmem := Dict.mem_of_lookup hlookup
        exact handed_singleton (h.wf _ hmem) (h.height _ hmem) (h.refs _ hmem)
  · exact hleaf _ hchosen

/-- A flat list of strings. -/
theorem handed_strings {key : Key} {strings : List String}
    (h : ∀ s ∈ strings, refHead.toList <+: s.toList → ∃ id ∈ ids, s = refHead ++ id) :
    Handed ids [(key, .list (strings.map Value.str))] := by
  apply handed_singleton
  · rw [wf_list_iff, List.forall_mem_map]
    exact fun _ _ => rfl
  · have hflat : (Value.list (strings.map Value.str)).height ≤ 1 := by
      rw [height_le_succ_iff]
      intro kc hkc
      obtain ⟨n, _, hn⟩ := mem_enumItems_iff.mp hkc
      obtain ⟨t, _, ht⟩ := List.mem_map.mp (List.mem_of_getElem? hn)
      rw [← ht]
      exact le_rfl
    exact hflat.trans (by decide)
  · intro s hs hhead
    obtain ⟨kc, hkc, hs⟩ := (occurs_iff_items (by simp)).mp hs
    obtain ⟨x, hx, hs⟩ := occurs_seq_iff.mp ⟨kc, hkc, hs⟩
    obtain ⟨t, ht, rfl⟩ := List.mem_map.mp hx
    rw [occurs_str_iff.mp hs] at hhead ⊢
    exact h t ht hhead

/-! ### Every call below -/

/-- What a call returned. -/
structure Built (call : Call) (entries : Entries) : Prop where
  sound : Sound (call.calls.map rootId) (entries.map Prod.fst) entries
  root : ∃ state rest, entries = (call.rootId, state) :: rest
  children : ∀ below ∈ call.calls, ∀ children, below.children = some children →
    ∃ state, (below.rootId, state) ∈ entries ∧
      state.lookup (.str "children") =
        some (.list (children.map fun child => .str (refHead ++ child.rootId)))

/-- What the calls for the children of a box returned. -/
structure BuiltEach (calls : List Call) (built : List Entries) : Prop where
  sound : Sound ((callsEach calls).map rootId) (built.flatten.map Prod.fst) built.flatten
  refs : built.mapM childRef = .ok (calls.map fun child => .str (refHead ++ child.rootId))
  roots : ∀ child ∈ calls, child.rootId ∈ built.flatten.map Prod.fst
  children : ∀ below ∈ callsEach calls, ∀ children, below.children = some children →
    ∃ state, (below.rootId, state) ∈ built.flatten ∧
      state.lookup (.str "children") =
        some (.list (children.map fun child => .str (refHead ++ child.rootId)))

theorem builtEach_nil : BuiltEach [] [] where
  sound := ⟨by simp, by simp, by simp, by simp⟩
  refs := rfl
  roots := by simp
  children := by simp [callsEach]

theorem builtEach_cons {calls : List Call} {built : List Entries}
    (h : Built call entries) (h' : BuiltEach calls built)
    (hfresh : Fresh (callsEach (call :: calls))) :
    BuiltEach (call :: calls) (entries :: built) := by
  rw [callsEach] at hfresh
  have hnodup := hfresh.nodup
  rw [List.map_append] at hnodup
  have hhex : ∀ hex ∈ call.calls.map rootId ++ (callsEach calls).map rootId, IsHex hex := by
    rw [← List.map_append, List.forall_mem_map]
    exact hfresh.hex
  obtain ⟨state, rest, hroot⟩ := h.root
  refine ⟨?_, ?_, ?_, ?_⟩
  · rw [callsEach, List.map_append, List.flatten_cons, List.map_append]
    exact (h.sound.mono (List.subset_append_left _ _)).append
      (h'.sound.mono (List.subset_append_right _ _)) hhex (List.disjoint_of_nodup_append hnodup)
  · rw [List.mapM_cons, h'.refs, hroot]
    rfl
  · rw [List.forall_mem_cons, List.flatten_cons, List.map_append]
    refine ⟨List.mem_append_left _ ?_, fun child hchild =>
      List.mem_append_right _ (h'.roots child hchild)⟩
    simp [hroot]
  · intro below hbelow children hchildren
    rw [callsEach, List.mem_append] at hbelow
    rcases hbelow with hbelow | hbelow
    · obtain ⟨state, hmem, hlookup⟩ := h.children below hbelow children hchildren
      exact ⟨state, by simp [hmem], hlookup⟩
    · obtain ⟨state, hmem, hlookup⟩ := h'.children below hbelow children hchildren
      exact ⟨state, by rw [List.flatten_cons]; exact List.mem_append_right _ hmem, hlookup⟩

/-- A widget without children. -/
theorem built_leaf {catalogKey : String} (hcalls : call.calls = [call])
    (hchildren : call.children = none) (hhanded : Handed [] overrides)
    (h : build catalogKey overrides none call.rootId = .ok entries) : Built call entries := by
  obtain ⟨hsound, state, rest, hroot, _⟩ := build_sound hhanded h
  refine ⟨?_, ⟨state, rest, hroot⟩, ?_⟩
  · rw [hcalls]
    exact hsound
  · rw [hcalls, List.forall_mem_singleton, hchildren]
    intro children hsome
    cases hsome

theorem built_intSlider {value min max : Value}
    (hallowed : (Call.intSlider hex value min max overrides).Allowed str)
    (hshallow : (Call.intSlider hex value min max overrides).Shallow)
    (h : Controls.intSlider hex value min max overrides = .ok entries) :
    Built (.intSlider hex value min max overrides) entries :=
  built_leaf rfl rfl (handed_given hallowed hshallow) h

theorem built_dropdown {options value : Value}
    (hallowed : (Call.dropdown hex options value overrides).Allowed str)
    (hshallow : (Call.dropdown hex options value overrides).Shallow)
    (h : Controls.dropdown str hex options value overrides = .ok entries) :
    Built (.dropdown hex options value overrides) entries := by
  obtain ⟨items, hoptions, h⟩ := Port.bind_eq_ok_iff.mp h
  have hgiven : Handed [] overrides := handed_given hallowed hshallow
  have hlabels : Handed [] [(.str "_options_labels", .list ((items.map str).map Value.str))] := by
    apply handed_strings
    intro s hs hhead
    refine absurd hhead (hallowed.labels s ?_)
    simp only [Call.labels, hoptions]
    exact hs
  have hindex := handed_index hgiven str (items.map str) value
  refine built_leaf rfl rfl ?_ h
  exact handed_update (handed_update hlabels hindex) (handed_erase hgiven (.str "index"))

/-- A box and its children. -/
theorem built_box {catalogKey : String} {children : List Call} {built : List Entries}
    (hcalls : call.calls = call :: callsEach children) (hchildren : call.children = some children)
    (hallowed : call.Allowed str) (hshallow : call.Shallow) (hfresh : Fresh call.calls)
    (hbuilt : BuiltEach children built)
    (h : box catalogKey call.rootId built call.given = .ok entries) : Built call entries := by
  rw [box] at h
  split_ifs at h
  obtain ⟨refs, hrefs, h⟩ := Port.bind_eq_ok_iff.mp h
  rw [hbuilt.refs] at hrefs
  cases hrefs
  obtain ⟨own, hown, h⟩ := Port.bind_eq_ok_iff.mp h
  cases h
  have hroots : Handed (children.map rootId) [(.str "children",
      .list ((children.map fun child => refHead ++ child.rootId).map Value.str))] := by
    apply handed_strings
    rw [List.forall_mem_map]
    exact fun child hchild _ => ⟨child.rootId, List.mem_map_of_mem hchild, rfl⟩
  rw [List.map_map] at hroots
  have hhanded := handed_update hroots (handed_given hallowed hshallow)
  obtain ⟨hsound, state, rest, hroot, hstate⟩ := build_sound hhanded hown
  have hnodup := hfresh.nodup
  rw [hcalls, List.map_cons] at hnodup
  have hhex : ∀ hex ∈ [call.rootId] ++ (callsEach children).map rootId, IsHex hex := by
    rw [List.singleton_append, ← List.map_cons, ← hcalls, List.forall_mem_map]
    exact hfresh.hex
  refine ⟨?_, ⟨state, rest ++ built.flatten, by rw [hroot]; rfl⟩, ?_⟩
  · rw [hcalls, List.map_cons, ← List.singleton_append, List.map_append]
    refine (hsound.mono ?_).append (hbuilt.sound.mono (List.subset_append_right _ _)) hhex
      (List.disjoint_of_nodup_append hnodup)
    apply List.append_subset.mpr
    refine ⟨fun id hid => List.mem_append_right _ ?_, List.subset_append_left _ _⟩
    obtain ⟨child, hchild, rfl⟩ := List.mem_map.mp hid
    exact hbuilt.roots child hchild
  · rw [hcalls, List.forall_mem_cons]
    constructor
    · intro children' hsome
      rw [hchildren] at hsome
      obtain rfl := Option.some.inj hsome
      have hnot : call.given.lookup (.str "children") = none :=
        Dict.lookup_eq_none_iff.mpr (hallowed.reserved _ (by decide))
      refine ⟨state, by simp [hroot], hstate _ _ ?_⟩
      rw [Dict.lookup_update _ hallowed.nodup, hnot]
      rfl
    · intro below hbelow children' hsome
      obtain ⟨state', hmem, hlookup⟩ := hbuilt.children below hbelow children' hsome
      exact ⟨state', List.mem_append_right _ hmem, hlookup⟩

theorem Fresh.of_sublist {calls calls' : List Call} (h : Fresh calls')
    (hsublist : calls.Sublist calls') : Fresh calls where
  hex call hcall := h.hex call (hsublist.subset hcall)
  nodup := h.nodup.sublist (hsublist.map rootId)

mutual

/-- Whatever a call returns is sound, by induction over the calls below it. -/
theorem built_entries : ∀ (call : Call) (entries : Entries), call.entries str = .ok entries →
    Fresh call.calls → (∀ below ∈ call.calls, below.Allowed str ∧ below.Shallow) →
    Built call entries
  | .intSlider hex value min max overrides, entries, h, _, hcalls => by
      obtain ⟨hallowed, hshallow⟩ := hcalls _ (List.mem_singleton_self _)
      exact built_intSlider hallowed hshallow h
  | .dropdown hex options value overrides, entries, h, _, hcalls => by
      obtain ⟨hallowed, hshallow⟩ := hcalls _ (List.mem_singleton_self _)
      exact built_dropdown hallowed hshallow h
  | .vbox hex children overrides, entries, h, hfresh, hcalls => by
      obtain ⟨built, heach, h⟩ := Port.bind_eq_ok_iff.mp h
      obtain ⟨⟨hallowed, hshallow⟩, hbelow⟩ := List.forall_mem_cons.mp hcalls
      have hbuilt := built_entriesEach children built heach
        (hfresh.of_sublist (List.sublist_cons_self _ _)) hbelow
      exact built_box rfl rfl hallowed hshallow hfresh hbuilt h
  | .hbox hex children overrides, entries, h, hfresh, hcalls => by
      obtain ⟨built, heach, h⟩ := Port.bind_eq_ok_iff.mp h
      obtain ⟨⟨hallowed, hshallow⟩, hbelow⟩ := List.forall_mem_cons.mp hcalls
      have hbuilt := built_entriesEach children built heach
        (hfresh.of_sublist (List.sublist_cons_self _ _)) hbelow
      exact built_box rfl rfl hallowed hshallow hfresh hbuilt h

theorem built_entriesEach : ∀ (calls : List Call) (built : List Entries),
    entriesEach str calls = .ok built → Fresh (callsEach calls) →
    (∀ below ∈ callsEach calls, below.Allowed str ∧ below.Shallow) → BuiltEach calls built
  | [], built, h, _, _ => by
      cases h
      exact builtEach_nil
  | call :: calls, built, h, hfresh, hcalls => by
      obtain ⟨first, hfirst, h⟩ := Port.bind_eq_ok_iff.mp h
      obtain ⟨rest, hrest, h⟩ := Port.bind_eq_ok_iff.mp h
      cases h
      obtain ⟨hhere, hbelow⟩ := List.forall_mem_append.mp hcalls
      exact builtEach_cons
        (built_entries call first hfirst (hfresh.of_sublist (List.sublist_append_left _ _)) hhere)
        (built_entriesEach calls rest hrest
          (hfresh.of_sublist (List.sublist_append_right _ _)) hbelow) hfresh

end

/-! ### Calls return -/

theorem exists_build {catalogKey : String} (hkey : catalogKey ∈ Dict.keys catalog)
    (overrides : Bindings) (hex : String) :
    ∃ state rest, build catalogKey overrides none hex = .ok ((hex, state) :: rest) := by
  obtain ⟨spec, hspec⟩ := Dict.exists_lookup_of_mem_keys hkey
  exact ⟨_, _, build_ok hspec overrides hex⟩

theorem exists_box {catalogKey : String} (hkey : catalogKey ∈ Dict.keys catalog)
    (hoverrides : .str "catalog_key" ∉ Dict.keys overrides) {built : List Entries}
    {refs : List Value} (hrefs : built.mapM childRef = .ok refs) (hex : String) :
    ∃ state rest, box catalogKey hex built overrides = .ok ((hex, state) :: rest) := by
  obtain ⟨state, rest, hbuild⟩ :=
    exists_build hkey (Dict.update [(.str "children", .list refs)] overrides) hex
  refine ⟨state, rest ++ built.flatten, ?_⟩
  rw [box, if_neg hoverrides, hrefs]
  simp only [bind, Except.bind, hbuild, pure, Except.pure, List.cons_append]

mutual

/-- Every call that Python lets through returns, its own entry first. -/
theorem exists_entries : ∀ call : Call, (∀ below ∈ call.calls, below.Callable) →
    ∃ state rest, call.entries str = .ok ((call.rootId, state) :: rest)
  | .intSlider hex value min max overrides, _ => by
      have hkey : "int_slider" ∈ Dict.keys catalog := by decide
      exact exists_build hkey _ hex
  | .dropdown hex options value overrides, hcalls => by
      obtain ⟨items, hitems⟩ := hcalls _ (List.mem_singleton_self _)
      have hkey : "dropdown" ∈ Dict.keys catalog := by decide
      rw [entries, Controls.dropdown, hitems]
      exact exists_build hkey _ hex
  | .vbox hex children overrides, hcalls => by
      obtain ⟨hhere, hbelow⟩ := List.forall_mem_cons.mp hcalls
      obtain ⟨built, refs, hbuilt, hrefs⟩ := exists_entriesEach children hbelow
      rw [entries, hbuilt]
      exact exists_box (by decide) hhere hrefs hex
  | .hbox hex children overrides, hcalls => by
      obtain ⟨hhere, hbelow⟩ := List.forall_mem_cons.mp hcalls
      obtain ⟨built, refs, hbuilt, hrefs⟩ := exists_entriesEach children hbelow
      rw [entries, hbuilt]
      exact exists_box (by decide) hhere hrefs hex

theorem exists_entriesEach : ∀ calls : List Call, (∀ below ∈ callsEach calls, below.Callable) →
    ∃ built refs, entriesEach str calls = .ok built ∧ built.mapM childRef = .ok refs
  | [], _ => ⟨[], [], rfl, rfl⟩
  | call :: calls, hcalls => by
      obtain ⟨hhere, hbelow⟩ := List.forall_mem_append.mp hcalls
      obtain ⟨state, rest, hfirst⟩ := exists_entries call hhere
      obtain ⟨built, refs, hbuilt, hrefs⟩ := exists_entriesEach calls hbelow
      refine ⟨((call.rootId, state) :: rest) :: built, .str (refHead ++ call.rootId) :: refs,
        ?_, ?_⟩
      · rw [entriesEach, hfirst, hbuilt]
        rfl
      · rw [List.mapM_cons, hrefs]
        rfl

end

end Call

/-! ### Saving what was built -/

theorem occurs_of_strip {s : String} {v : Value} (h : Occurs s v.strip) : Occurs s v := by
  have hseq : ∀ xs : List Value, (∀ x ∈ xs, Occurs s x.strip → Occurs s x) →
      Occurs s (.list (stripSeq xs)) → ∃ kc ∈ enumItems 0 xs, Occurs s kc.2 := by
    intro xs ih h
    rw [occurs_iff_items (by simp), Value.items, occurs_seq_iff, stripSeq_eq] at h
    obtain ⟨_, hmap, hs⟩ := h
    obtain ⟨x, hx, rfl⟩ := List.mem_map.mp hmap
    exact occurs_seq_iff.mpr ⟨x, hx, ih x hx hs⟩
  induction v using tree_induction with
  | scalar t => exact h
  | bin b =>
      cases h with
      | inside hmem _ => cases hmem
  | list xs ih => exact (occurs_iff_items (by simp)).mpr (hseq xs ih h)
  | tuple xs ih =>
      rw [strip] at h
      split_ifs at h
      · exact h
      · exact (occurs_iff_items (by simp)).mpr (hseq xs ih h)
  | dict kvs ih =>
      rw [strip, stripEntries_eq, occurs_iff_items (by simp)] at h
      obtain ⟨_, hmap, hs⟩ := h
      obtain ⟨kc, hkc, rfl⟩ := List.mem_map.mp hmap
      have hmem := List.mem_of_mem_filter hkc
      exact .inside hmem (ih kc hmem hs)

theorem exists_modelEntries (h : ∀ entry ∈ entries, (Value.dict entry.2).Wf) :
    ∃ models : List (String × HostState), modelEntries models = entries := by
  induction entries with
  | nil => exact ⟨[], rfl⟩
  | cons entry entries ih =>
      obtain ⟨hwf, hrest⟩ := List.forall_mem_cons.mp h
      obtain ⟨models, hmodels⟩ := ih hrest
      exact ⟨(entry.1, ⟨entry.2, hwf⟩) :: models, by rw [← hmodels]; rfl⟩

variable {models : List (String × HostState)} {anywidgetVersion : String}

/-- Nothing is missing from a document whose references are all to its own models. -/
theorem checkReferences_document (hnodup : (models.map Prod.fst).Nodup)
    (hlines : ∀ id ∈ models.map Prod.fst, '\n' ∉ id.toList)
    (hrefs : ∀ model ∈ models, RefersTo (models.map Prod.fst) (.dict model.2.fields)) :
    checkReferences (document anywidgetVersion models) = .ok () := by
  have hkeys : Dict.keys (modelRecords anywidgetVersion models) =
      (models.map Prod.fst).map Key.str := by
    simp [modelRecords, Dict.keys, Function.comp_def]
  have hdocument : IsDocument (document anywidgetVersion models)
      (modelRecords anywidgetVersion models) := by
    refine ⟨rfl, ?_, ?_, ?_⟩
    · rw [hkeys]
      exact hnodup.map fun _ _ heq => Key.str.inj heq
    · rw [modelRecords, List.forall_mem_map]
      exact fun model _ => ⟨model.1, rfl⟩
    · rw [modelRecords, List.forall_mem_map]
      exact fun model _ => ⟨_, rfl⟩
  rw [checkReferences_eq hdocument, if_pos]
  apply List.eq_nil_iff_forall_not_mem.mpr
  rintro ⟨holder, ids⟩ hmem
  obtain ⟨record, hrecord, rfl, hne⟩ := mem_report_iff.mp hmem
  obtain ⟨id, hid⟩ := List.exists_mem_of_ne_nil _ hne
  obtain ⟨⟨s, hs, href⟩, hmissing⟩ := mem_missingIds_iff.mp hid
  obtain ⟨model, hmodel, heq⟩ := List.mem_map.mp hrecord
  cases heq
  obtain ⟨_, _, hform⟩ := modelRef_eq_some_iff.mp href
  have hhead : refHead.toList <+: s.toList := by
    rcases hform with rfl | rfl
    · simp [String.toList_append]
    · simp [String.toList_append, List.append_assoc]
  obtain ⟨id', hid', heq⟩ := hrefs model hmodel s (occurs_of_strip hs) hhead
  apply hmissing
  rw [hkeys]
  rcases hform with rfl | rfl
  · rw [(String.append_right_inj _).mp heq]
    exact List.mem_map_of_mem hid'
  · rw [String.append_assoc] at heq
    rw [← (String.append_right_inj _).mp heq] at hid'
    exact absurd (by simp) (hlines _ hid')

/-- What was built can be saved and loaded. -/
theorem Sound.saved (h : Sound hexes (entries.map Prod.fst) entries)
    (hhexes : ∀ hex ∈ hexes, IsHex hex) (anywidgetVersion : String) :
    ∃ doc, dumpDocument entries anywidgetVersion = .ok doc ∧ checkReferences doc = .ok () ∧
      ∃ loaded, loadDocument doc = .ok loaded ∧
        List.Forall₂ (fun (entry : String × Bindings) (model : Key × Value) =>
          model.1 = .str entry.1 ∧ model.2.plain ≈ (Value.dict entry.2).plain ∧
          ((Value.dict entry.2).binaries = [] → model.2 = .dict entry.2)) entries loaded := by
  obtain ⟨models, rfl⟩ := exists_modelEntries fun entry hentry => (h.states entry hentry).1
  have hids : (modelEntries models).map Prod.fst = models.map Prod.fst := by
    simp [modelEntries]
  have hmem : ∀ model ∈ models, (model.1, model.2.fields) ∈ modelEntries models :=
    fun model hmodel => List.mem_map.mpr ⟨model, hmodel, rfl⟩
  have howned : ∀ model ∈ models, ∃ hex, IsHex hex ∧ Owns hex model.1 := by
    intro model hmodel
    obtain ⟨hex, hhex, howns⟩ := h.owned _ (hmem model hmodel)
    exact ⟨hex, hhexes hex hhex, howns⟩
  refine ⟨document anywidgetVersion models, dumpDocument_eq_document (hids ▸ h.nodup) ?_, ?_,
    loadedEntries models, loadDocument_document anywidgetVersion models, ?_⟩
  · intro model hmodel
    obtain ⟨hex, hhex, howns⟩ := howned model hmodel
    exact ⟨howns.ne_empty hhex, (h.states _ (hmem model hmodel)).2⟩
  · refine checkReferences_document (hids ▸ h.nodup) ?_ ?_
    · rw [List.forall_mem_map]
      intro model hmodel
      obtain ⟨hex, hhex, howns⟩ := howned model hmodel
      exact howns.one_line hhex
    · exact fun model hmodel => hids ▸ h.refs _ (hmem model hmodel)
  · rw [modelEntries, loadedEntries, List.forall₂_map_left_iff, List.forall₂_map_right_iff]
    apply List.forall₂_same.mpr
    intro model _
    rw [dict_restoredState]
    exact ⟨rfl, restored_plain model.2.wf, fun hnone => restored_eq_self hnone⟩

open Call in
/-- A tree of calls gives a list of entries with ids of their own, the root first, in which
every reference is to a model of the list, and which can be saved and loaded. -/
theorem tree_saved (str : Value → String) (call : Call) (hfresh : Fresh call.calls)
    (hcallable : ∀ below ∈ call.calls, below.Callable)
    (hallowed : ∀ below ∈ call.calls, below.Allowed str)
    (hshallow : ∀ below ∈ call.calls, below.Shallow) (anywidgetVersion : String) :
    ∃ entries, call.entries str = .ok entries ∧
      (entries.map Prod.fst).Nodup ∧
      (∃ state rest, entries = (call.rootId, state) :: rest) ∧
      (∀ below ∈ call.calls, ∀ children, below.children = some children →
        ∃ state, (below.rootId, state) ∈ entries ∧
          state.lookup (.str "children") =
            some (.list (children.map fun child => .str (refHead ++ child.rootId)))) ∧
      (∀ entry ∈ entries, ∀ id, Refers (.dict entry.2) id → id ∈ entries.map Prod.fst) ∧
      ∃ doc, dumpDocument entries anywidgetVersion = .ok doc ∧ checkReferences doc = .ok () ∧
        ∃ loaded, loadDocument doc = .ok loaded ∧
          List.Forall₂ (fun (entry : String × Bindings) (model : Key × Value) =>
            model.1 = .str entry.1 ∧ model.2.plain ≈ (Value.dict entry.2).plain ∧
            ((Value.dict entry.2).binaries = [] → model.2 = .dict entry.2)) entries loaded := by
  obtain ⟨state, rest, hentries⟩ : ∃ state rest,
      call.entries str = .ok ((call.rootId, state) :: rest) := exists_entries call hcallable
  have hbuilt := built_entries call _ hentries hfresh fun below hbelow =>
    ⟨hallowed below hbelow, hshallow below hbelow⟩
  have hhexes : ∀ hex ∈ call.calls.map rootId, IsHex hex := List.forall_mem_map.mpr hfresh.hex
  refine ⟨_, hentries, hbuilt.sound.nodup, ⟨state, rest, rfl⟩, hbuilt.children, ?_,
    hbuilt.sound.saved hhexes anywidgetVersion⟩
  intro entry hentry id hrefers
  obtain ⟨id', hid', heq⟩ := hbuilt.sound.refs entry hentry _ hrefers.2
    (by simp [String.toList_append])
  rwa [(String.append_right_inj _).mp heq]

namespace ControlsWitness

/-- `str` on strings. -/
def strOf : Value → String
  | .str s => s
  | _ => ""

/-- `int_slider(value=3, description="A")`. -/
def slider : Call :=
  .intSlider "00000000000000000000000000000001" (.int 3) (.int 0) (.int 100)
    [(.str "description", .str "A")]

/-- `dropdown(options=["x", "y"], value="x")`. -/
def choice : Call :=
  .dropdown "00000000000000000000000000000002" (.list [.str "x", .str "y"]) (.str "x") []

/-- `vbox([slider, choice], box_style="info")`. -/
def panel : Call :=
  .vbox "00000000000000000000000000000003" [slider, choice] [(.str "box_style", .str "info")]

theorem calls_panel : panel.calls = [panel, slider, choice] := rfl

theorem allowed_panel : ∀ below ∈ panel.calls, below.Allowed strOf := by
  have hplain : ∀ below ∈ panel.calls, (Dict.keys below.given).Nodup ∧
      (∀ kv ∈ below.given, kv.2.Wf ∧ isQuietLeaf kv.2 = true) ∧
      (∀ key ∈ Call.reservedKeys, key ∉ Dict.keys below.given) ∧
      ∀ label ∈ below.labels strOf, ¬ refHead.toList <+: label.toList := by
    rw [calls_panel]
    decide
  intro below hbelow
  obtain ⟨hnodup, hvalues, hreserved, hlabels⟩ := hplain below hbelow
  exact ⟨hnodup, fun kv hkv => (hvalues kv hkv).1, hreserved,
    fun kv hkv => quiet_of_isQuietLeaf (hvalues kv hkv).2, hlabels⟩

theorem tree_saved_panel : ∃ entries, panel.entries strOf = .ok entries ∧
    (entries.map Prod.fst).Nodup ∧ ∃ doc, dumpDocument entries = .ok doc ∧
      checkReferences doc = .ok () := by
  have hfresh : Call.Fresh panel.calls := by
    refine ⟨?_, by rw [calls_panel]; decide⟩
    rw [calls_panel]
    simp only [List.forall_mem_cons, List.not_mem_nil, false_implies, implies_true, and_true]
    exact ⟨⟨rfl, rfl⟩, ⟨rfl, rfl⟩, rfl, rfl⟩
  have hcallable : ∀ below ∈ panel.calls, below.Callable := by
    rw [calls_panel]
    simp only [List.forall_mem_cons, List.not_mem_nil, false_implies, implies_true, and_true]
    exact ⟨by simp [panel, Call.Callable], trivial, _, rfl⟩
  have hshallow : ∀ below ∈ panel.calls, below.Shallow := by
    rw [calls_panel]
    unfold Call.Shallow
    decide
  obtain ⟨entries, hentries, hnodup, _, _, _, doc, hdump, hcheck, _⟩ :=
    tree_saved strOf panel hfresh hcallable allowed_panel hshallow anywidgetModuleVersion
  exact ⟨entries, hentries, hnodup, doc, hdump, hcheck⟩

/-- An empty list in that many lists. -/
def nest : Nat → Value
  | 0 => .list []
  | n + 1 => .list [nest n]

theorem wf_nest (n : Nat) : (nest n).Wf := by
  induction n with
  | zero => rfl
  | succ n ih =>
      rw [nest, wf_list_iff]
      simpa using ih

theorem quiet_nest (n : Nat) : Quiet (nest n) := by
  induction n with
  | zero => exact quiet_of_isQuietLeaf rfl
  | succ n ih =>
      apply quiet_of_items (by simp [nest])
      simpa [nest, items, enumItems] using ih

theorem height_nest (n : Nat) : (nest n).height = n + 1 := by
  induction n with
  | zero => rfl
  | succ n ih => simp [nest, height, heightSeq, ih]

/-- `int_slider(description=...)` with a list nested too deep. -/
def deep : Call :=
  .intSlider "00000000000000000000000000000001" (.int 0) (.int 0) (.int 100)
    [(.str "description", nest 500)]

theorem allowed_deep : ∀ below ∈ deep.calls, below.Allowed strOf := by
  have hcalls : deep.calls = [deep] := rfl
  have hgiven : deep.given = [(.str "value", .int 0), (.str "min", .int 0), (.str "max", .int 100),
    (.str "description", nest 500)] := rfl
  rw [hcalls, List.forall_mem_singleton]
  refine ⟨?_, ?_, ?_, ?_, fun label hlabel => by cases hlabel⟩ <;> rw [hgiven]
  · simp
  · simp only [List.forall_mem_cons]
    exact ⟨rfl, rfl, rfl, wf_nest 500, by simp⟩
  · simp [Call.reservedKeys]
  · simp only [List.forall_mem_cons]
    exact ⟨quiet_of_isQuietLeaf rfl, quiet_of_isQuietLeaf rfl, quiet_of_isQuietLeaf rfl,
      quiet_nest 500, by simp⟩

theorem deep_widgetState (h : spec.Tidy) (hex : String) :
    Buffers.maxDepth < (Value.dict (widgetState spec hex deep.given)).nesting := by
  have hnodup := (allowed_deep deep List.mem_cons_self).nodup
  have hgiven : deep.given.lookup (.str "description") = some (nest 500) := rfl
  have hvalue : (widgetState spec hex deep.given).lookup (.str "description") =
      some (nest 500) := lookup_widgetState h hnodup hgiven
  by_contra hle
  rw [not_lt, nesting_le_iff, height_le_succ_iff] at hle
  have hheight := hle _ (Dict.mem_of_lookup hvalue)
  rw [height_nest] at hheight
  exact absurd hheight (by decide)

end ControlsWitness

open ControlsWitness in
/-- A widget with an override that is nested too deep is built, but not saved. -/
theorem deep_tree_not_saved :
    ¬ ∀ (str : Value → String) (call : Call) (entries : Entries) (anywidgetVersion : String),
      call.entries str = .ok entries → Call.Fresh call.calls →
      (∀ below ∈ call.calls, below.Allowed str) →
        ∃ doc, dumpDocument entries anywidgetVersion = .ok doc := by
  intro h
  have hcalls : deep.calls = [deep] := rfl
  have hfresh : Call.Fresh deep.calls := by
    refine ⟨?_, by rw [hcalls]; simp⟩
    rw [hcalls, List.forall_mem_singleton]
    exact ⟨rfl, rfl⟩
  obtain ⟨spec, hspec⟩ : ∃ spec, catalog.lookup "int_slider" = some spec := ⟨_, rfl⟩
  have htidy := tidy_catalog _ (Dict.mem_of_lookup hspec)
  have hentries : deep.entries strOf =
      .ok ((deep.rootId, widgetState spec deep.rootId deep.given) ::
        companionEntries spec deep.rootId) := build_ok hspec deep.given deep.rootId
  obtain ⟨doc, hdoc⟩ := h strOf deep _ anywidgetModuleVersion hentries hfresh allowed_deep
  have hwf := wf_widgetState htidy (allowed_deep deep List.mem_cons_self).wf deep.rootId
  obtain ⟨path, hdump⟩ := dumpModel_too_deep hwf (deep_widgetState htidy deep.rootId) deep.rootId
    anywidgetModuleVersion
  rw [dumpDocument, List.foldlM_cons, dumpEntry, hdump] at hdoc
  cases hdoc

end Controls

end Cositos
