/-
JSON states: which values JSON can carry besides binaries, what a value is after
a trip through JSON text, and how that fits with split and merge.
-/
import Cositos.Merge

namespace Cositos

/-- What `get_state` returns: a dict in which no dict binds a key twice. -/
structure HostState where
  fields : Bindings
  wf : (Value.dict fields).Wf

namespace Value

mutual

/-- JSON values and binary values, with string keys.  With `tuples` a tuple may
stand for a JSON array. -/
def jsonWith (tuples : Bool) : Value → Bool
  | .scalar (.other _) => false
  | .scalar _ | .bin _ => true
  | .list xs => jsonSeq tuples xs
  | .tuple xs => tuples && jsonSeq tuples xs
  | .dict kvs => jsonEntries tuples kvs

def jsonSeq (tuples : Bool) : List Value → Bool
  | [] => true
  | x :: xs => jsonWith tuples x && jsonSeq tuples xs

def jsonEntries (tuples : Bool) : Bindings → Bool
  | [] => true
  | (.str _, x) :: kvs => jsonWith tuples x && jsonEntries tuples kvs
  | _ :: _ => false

end

/-- JSON values and binary values with string keys, without tuples. -/
abbrev json (v : Value) : Bool := v.jsonWith false

variable {tuples : Bool}

theorem jsonSeq_iff {xs : List Value} :
    jsonSeq tuples xs = true ↔ ∀ x ∈ xs, x.jsonWith tuples = true := by
  induction xs with
  | nil => simp [jsonSeq]
  | cons x xs ih => simp [jsonSeq, ih]

theorem jsonEntries_iff {kvs : Bindings} :
    jsonEntries tuples kvs = true ↔
      ∀ kc ∈ kvs, (∃ s, kc.1 = .str s) ∧ kc.2.jsonWith tuples = true := by
  induction kvs with
  | nil => simp [jsonEntries]
  | cons head tail ih =>
      obtain ⟨k, x⟩ := head
      cases k <;> simp [jsonEntries, ih]

theorem json_list_iff {xs : List Value} :
    (Value.list xs).jsonWith tuples = true ↔ ∀ x ∈ xs, x.jsonWith tuples = true := by
  rw [jsonWith, jsonSeq_iff]

theorem json_tuple_iff {xs : List Value} :
    (Value.tuple xs).jsonWith tuples = true ↔
      tuples = true ∧ ∀ x ∈ xs, x.jsonWith tuples = true := by
  rw [jsonWith, Bool.and_eq_true, jsonSeq_iff]

theorem json_dict_iff {kvs : Bindings} :
    (Value.dict kvs).jsonWith tuples = true ↔
      ∀ kc ∈ kvs, (∃ s, kc.1 = .str s) ∧ kc.2.jsonWith tuples = true := by
  rw [jsonWith, jsonEntries_iff]

theorem json_item {v : Value} (h : v.jsonWith tuples = true) {kc : Key × Value}
    (hkc : kc ∈ v.items) :
    ((∃ i, kc.1 = .int i) ∨ ∃ s, kc.1 = .str s) ∧ kc.2.jsonWith tuples = true := by
  cases v with
  | scalar s => simp [items] at hkc
  | bin b => simp [items] at hkc
  | list xs =>
      obtain ⟨n, hkey, hn⟩ := mem_enumItems_iff.mp hkc
      exact ⟨Or.inl ⟨_, hkey⟩, json_list_iff.mp h _ (List.mem_of_getElem? hn)⟩
  | tuple xs =>
      obtain ⟨n, hkey, hn⟩ := mem_enumItems_iff.mp hkc
      exact ⟨Or.inl ⟨_, hkey⟩, (json_tuple_iff.mp h).2 _ (List.mem_of_getElem? hn)⟩
  | dict kvs =>
      obtain ⟨hkey, hvalue⟩ := json_dict_iff.mp h kc hkc
      exact ⟨Or.inr hkey, hvalue⟩

theorem json_child {v c : Value} {k : Key} (h : v.jsonWith tuples = true)
    (hc : v.child k = some c) : c.jsonWith tuples = true :=
  (json_item h (mem_items_of_child hc)).2

/-- JSON knows no tuples, so nothing is read as a list that was not one. -/
theorem listed_of_json {v : Value} (h : v.json = true) : v.listed = v := by
  induction v using tree_induction with
  | scalar s => rfl
  | bin b => rfl
  | list xs ih =>
      have hmap : xs.map listed = xs := by
        refine (List.map_congr_left fun x hx => ?_).trans (List.map_id xs)
        exact ih x hx (json_list_iff.mp h x hx)
      simp [listed, listedSeq_eq, hmap]
  | tuple xs _ => simp [json, jsonWith] at h
  | dict kvs ih =>
      have hmap : kvs.map (Prod.map id listed) = kvs := by
        refine (List.map_congr_left fun kc hkc => ?_).trans (List.map_id kvs)
        exact Prod.ext rfl (ih kc hkc (json_dict_iff.mp h kc hkc).2)
      simp [listed, listedEntries_eq, hmap]

/-! ### Through JSON text -/

mutual

/-- A value as JSON reads it back: tuples are arrays.  A binary value, which JSON
does not carry, stands for its raw bytes. -/
def plain : Value → Value
  | .scalar s => .scalar s
  | .bin b => .bin ⟨.bytes, b.raw⟩
  | .list xs | .tuple xs => .list (plainSeq xs)
  | .dict kvs => .dict (plainEntries kvs)

def plainSeq : List Value → List Value
  | [] => []
  | x :: xs => plain x :: plainSeq xs

def plainEntries : Bindings → Bindings
  | [] => []
  | (k, x) :: kvs => (k, plain x) :: plainEntries kvs

end

mutual

/-- `json.loads(json.dumps(value))` for values with string keys; other keys,
which `json` would turn into strings, are left out. -/
def reload : Value → Except PyError Value
  | .scalar (.other _) | .bin _ => .error .typeError
  | .scalar s => .ok (.scalar s)
  | .list xs | .tuple xs => do
      let xs ← reloadSeq xs
      return .list xs
  | .dict kvs => do
      let kvs ← reloadEntries kvs
      return .dict kvs

def reloadSeq : List Value → Except PyError (List Value)
  | [] => .ok []
  | x :: xs => do
      let x ← reload x
      let xs ← reloadSeq xs
      return x :: xs

def reloadEntries : Bindings → Except PyError Bindings
  | [] => .ok []
  | (.str s, x) :: kvs => do
      let x ← reload x
      let kvs ← reloadEntries kvs
      return (.str s, x) :: kvs
  | _ :: _ => .error .typeError

end

theorem plainSeq_eq (xs : List Value) : plainSeq xs = xs.map plain := by
  induction xs with
  | nil => rfl
  | cons x xs ih => simp [plainSeq, ih]

theorem plainEntries_eq (kvs : Bindings) : plainEntries kvs = kvs.map (Prod.map id plain) := by
  induction kvs with
  | nil => rfl
  | cons head tail ih => simp [plainEntries, ih, Prod.map]

theorem reloadSeq_ok {xs : List Value} (h : ∀ x ∈ xs, x.reload = .ok x.plain) :
    reloadSeq xs = .ok (plainSeq xs) := by
  induction xs with
  | nil => rfl
  | cons x xs ih =>
      rw [reloadSeq, h x List.mem_cons_self, ih fun y hy => h y (List.mem_cons_of_mem _ hy)]
      rfl

theorem reloadEntries_ok {kvs : Bindings}
    (h : ∀ kc ∈ kvs, (∃ s, kc.1 = .str s) ∧ kc.2.reload = .ok kc.2.plain) :
    reloadEntries kvs = .ok (plainEntries kvs) := by
  induction kvs with
  | nil => rfl
  | cons head tail ih =>
      obtain ⟨k, x⟩ := head
      obtain ⟨⟨s, rfl⟩, hx⟩ := h _ List.mem_cons_self
      rw [reloadEntries, hx, ih fun kc hkc => h kc (List.mem_cons_of_mem _ hkc)]
      rfl

/-- JSON carries every JSON value without binaries. -/
theorem reload_ok {v : Value} (hjson : v.jsonWith true = true) (hbin : v.binaries = []) :
    v.reload = .ok v.plain := by
  induction v using tree_induction with
  | scalar s => cases s <;> first | rfl | simp [jsonWith] at hjson
  | bin b => simp [binaries] at hbin
  | list xs ih =>
      have hseq := reloadSeq_ok fun x hx =>
        ih x hx (json_list_iff.mp hjson x hx) (binaries_list_eq_nil_iff.mp hbin x hx)
      rw [reload, hseq]
      rfl
  | tuple xs ih =>
      have hseq := reloadSeq_ok fun x hx =>
        ih x hx ((json_tuple_iff.mp hjson).2 x hx) (binaries_list_eq_nil_iff.mp hbin x hx)
      rw [reload, hseq]
      rfl
  | dict kvs ih =>
      have hentries := reloadEntries_ok fun kc hkc =>
        have hkey := json_dict_iff.mp hjson kc hkc
        ⟨hkey.1, ih kc hkc hkey.2 (binaries_dict_eq_nil_iff.mp hbin kc hkc)⟩
      rw [reload, hentries]
      rfl

/-! ### Plain values under split and merge -/

theorem items_plain (v : Value) : v.plain.items = v.items.map (Prod.map id plain) := by
  cases v with
  | scalar s => rfl
  | bin b => rfl
  | list xs | tuple xs => simp [plain, items, plainSeq_eq, enumItems_map]
  | dict kvs => simp [plain, items, plainEntries_eq]

theorem wf_plain {v : Value} (h : v.Wf) : v.plain.Wf := by
  induction v using items_induction with
  | step v ih =>
      obtain ⟨hkeys, hvalues⟩ := wf_iff.mp h
      refine wf_iff.mpr ⟨?_, ?_⟩
      · rw [items_plain]
        simpa [Dict.keys, Function.comp_def] using hkeys
      · intro kc hkc
        rw [items_plain] at hkc
        obtain ⟨kx, hkx, rfl⟩ := List.mem_map.mp hkc
        exact ih kx hkx (hvalues kx hkx)

theorem isBinary_plain (v : Value) : v.plain.isBinary = v.isBinary := by
  cases v <;> rfl

/-- The leaves stay where they are, as raw bytes. -/
theorem binaries_plain (v : Value) :
    v.plain.binaries = v.binaries.map (Prod.map id fun b => ⟨.bytes, b.raw⟩) := by
  induction v using items_induction with
  | step v ih =>
      by_cases hbin : v.isBinary = false
      · rw [binaries_eq_items ((isBinary_plain v).trans hbin), binaries_eq_items hbin,
          items_plain, List.flatMap_map, List.map_flatMap]
        refine List.flatMap_congr fun kc hkc => ?_
        simp [ih kc hkc, Function.comp_def, Prod.map]
      · cases v <;> simp_all [isBinary, binaries, plain, Prod.map]

theorem listed_plain (v : Value) : v.plain.listed = v.plain := by
  induction v using tree_induction with
  | scalar s => rfl
  | bin b => rfl
  | list xs ih | tuple xs ih =>
      have hmap : (xs.map plain).map listed = xs.map plain := by
        rw [List.map_map]
        exact List.map_congr_left ih
      simp only [plain, listed, plainSeq_eq, listedSeq_eq, hmap]
  | dict kvs ih =>
      have hmap : (kvs.map (Prod.map id plain)).map (Prod.map id listed) =
          kvs.map (Prod.map id plain) := by
        rw [List.map_map]
        exact List.map_congr_left fun kc hkc => Prod.ext rfl (ih kc hkc)
      simp only [plain, listed, plainEntries_eq, listedEntries_eq, hmap]

theorem strip_tuple_of_binaries {xs : List Value} (h : (Value.tuple xs).binaries ≠ []) :
    (Value.tuple xs).strip = .list (stripSeq xs) := by
  have hleaf : ¬ (binariesSeq 0 xs).isEmpty = true := fun hnil => h (List.isEmpty_iff.mp hnil)
  rw [strip, if_neg hleaf]

/-- Stripping and the trip through JSON commute. -/
theorem plain_strip (v : Value) : v.strip.plain = v.plain.strip := by
  induction v using tree_induction with
  | scalar s => rfl
  | bin b => rfl
  | list xs ih =>
      have hmap : (xs.map strip).map plain = (xs.map plain).map strip := by
        rw [List.map_map, List.map_map]
        exact List.map_congr_left ih
      simp only [plain, strip, plainSeq_eq, stripSeq_eq, hmap]
  | tuple xs ih =>
      have hmap : (xs.map strip).map plain = (xs.map plain).map strip := by
        rw [List.map_map, List.map_map]
        exact List.map_congr_left ih
      by_cases hleaf : (Value.tuple xs).binaries = []
      · have hplain : (Value.tuple xs).plain.binaries = [] := by
          rw [binaries_plain, hleaf]
          rfl
        rw [strip_eq_self hleaf, strip_eq_self hplain]
      · rw [strip_tuple_of_binaries hleaf]
        simp only [plain, strip, plainSeq_eq, stripSeq_eq, hmap]
  | dict kvs ih =>
      have hfilter : (kvs.map (Prod.map id plain)).filter (fun kc => !kc.2.isBinary) =
          (kvs.filter fun kc => !kc.2.isBinary).map (Prod.map id plain) := by
        rw [List.filter_map]
        congr 1
        refine List.filter_congr fun kc _ => ?_
        simp [isBinary_plain]
      have hmap : ((kvs.filter fun kc => !kc.2.isBinary).map (Prod.map id strip)).map
            (Prod.map id plain) =
          ((kvs.filter fun kc => !kc.2.isBinary).map (Prod.map id plain)).map
            (Prod.map id strip) := by
        rw [List.map_map, List.map_map]
        refine List.map_congr_left fun kc hkc => ?_
        exact Prod.ext rfl (ih kc (List.mem_filter.mp hkc).1)
      simp only [plain, strip, plainEntries_eq, stripEntries_eq, hfilter, hmap]

/-- Putting raw bytes back into a stripped state that went through JSON. -/
theorem putBuffers_plain {v : Value} (hv : v.Wf) (hcontainer : v.isContainer = true) :
    ∃ w, Buffers.putBuffers v.strip.plain (v.binaries.map fun leaf => leaf.1.toValue)
        (v.binaries.map fun leaf => ⟨.bytes, leaf.2.raw⟩) = .ok w ∧ w ≈ v.plain := by
  have hplain : v.plain.isContainer = true := by
    cases v <;> first | rfl | simp [isContainer] at hcontainer
  obtain ⟨w, hput, hw⟩ := Buffers.putBuffers_strip (wf_plain hv) hplain
  rw [listed_plain] at hw
  rw [binaries_plain, List.map_map, List.map_map] at hput
  refine ⟨w, ?_, hw⟩
  rw [plain_strip]
  exact hput

/-! ### What the split leaves behind -/

theorem binaries_strip (v : Value) : v.strip.binaries = [] := by
  induction v using tree_induction with
  | scalar s => rfl
  | bin b => rfl
  | list xs ih =>
      rw [strip, stripSeq_eq, binaries_list_eq_nil_iff, List.forall_mem_map]
      exact ih
  | tuple xs ih =>
      by_cases hleaf : (Value.tuple xs).binaries = []
      · rw [strip_eq_self hleaf]
        exact hleaf
      · rw [strip_tuple_of_binaries hleaf, stripSeq_eq, binaries_list_eq_nil_iff,
          List.forall_mem_map]
        exact ih
  | dict kvs ih =>
      rw [strip, stripEntries_eq, binaries_dict_eq_nil_iff, List.forall_mem_map]
      exact fun kc hkc => ih kc (List.mem_filter.mp hkc).1

theorem json_strip {v : Value} (h : v.jsonWith tuples = true) :
    v.strip.jsonWith tuples = true := by
  induction v using tree_induction with
  | scalar s => exact h
  | bin b => rfl
  | list xs ih =>
      rw [strip, stripSeq_eq, json_list_iff, List.forall_mem_map]
      exact fun x hx => ih x hx (json_list_iff.mp h x hx)
  | tuple xs ih =>
      by_cases hleaf : (Value.tuple xs).binaries = []
      · rwa [strip_eq_self hleaf]
      · rw [strip_tuple_of_binaries hleaf, stripSeq_eq, json_list_iff, List.forall_mem_map]
        exact fun x hx => ih x hx ((json_tuple_iff.mp h).2 x hx)
  | dict kvs ih =>
      rw [strip, stripEntries_eq, json_dict_iff, List.forall_mem_map]
      intro kc hkc
      obtain ⟨hkey, hvalue⟩ := json_dict_iff.mp h kc (List.mem_filter.mp hkc).1
      exact ⟨hkey, ih kc (List.mem_filter.mp hkc).1 hvalue⟩

theorem wf_list_iff {xs : List Value} : (Value.list xs).Wf ↔ ∀ x ∈ xs, x.Wf := by
  rw [wf_iff]
  constructor
  · rintro ⟨-, h⟩ x hx
    obtain ⟨k, hk⟩ := mem_items_seq hx
    exact h (k, x) hk
  · intro h
    refine ⟨nodup_keys_enumItems 0 xs, ?_⟩
    rintro ⟨k, x⟩ hkc
    obtain ⟨n, _, hn⟩ := mem_enumItems_iff.mp hkc
    exact h x (List.mem_of_getElem? hn)

theorem wf_set {xs : List Value} (hxs : ∀ x ∈ xs, x.Wf) {c : Value} (hc : c.Wf) (n : Nat) :
    ∀ x ∈ xs.set n c, x.Wf := by
  intro x hx
  rcases List.mem_or_eq_of_mem_set hx with hx | rfl
  · exact hxs x hx
  · exact hc

theorem wf_chars (s : String) : ∀ x ∈ chars s, x.Wf := by
  intro x hx
  obtain ⟨char, _, rfl⟩ := List.mem_map.mp hx
  rfl

theorem wf_strip {v : Value} (h : v.Wf) : v.strip.Wf := by
  induction v using tree_induction with
  | scalar s => exact h
  | bin b => rfl
  | list xs ih =>
      rw [strip, stripSeq_eq, wf_list_iff, List.forall_mem_map]
      exact fun x hx => ih x hx (wf_list_iff.mp h x hx)
  | tuple xs ih =>
      by_cases hleaf : (Value.tuple xs).binaries = []
      · rwa [strip_eq_self hleaf]
      · rw [strip_tuple_of_binaries hleaf, stripSeq_eq, wf_list_iff, List.forall_mem_map]
        exact fun x hx => ih x hx (wf_list_iff.mp h x hx)
  | dict kvs ih =>
      obtain ⟨hkeys, hvalues⟩ := wf_dict_iff.mp h
      refine wf_dict_iff.mpr ⟨hkeys.sublist (keys_stripEntries_sublist kvs), ?_⟩
      rw [stripEntries_eq, List.forall_mem_map]
      intro kc hkc
      have hmem := (List.mem_filter.mp hkc).1
      exact ih kc hmem (hvalues kc hmem)

/-- The position of a leaf is a list of strings and integers. -/
theorem json_path {v : Value} (h : v.jsonWith tuples = true) {leaf : Path × Binary}
    (hleaf : leaf ∈ v.binaries) : leaf.1.toValue.jsonWith tuples = true := by
  suffices hkeys : ∀ k ∈ leaf.1, (∃ i, k = .int i) ∨ ∃ s, k = .str s by
    rw [Path.toValue, json_list_iff]
    intro x hx
    obtain ⟨k, hk, rfl⟩ := List.mem_map.mp hx
    rcases hkeys k hk with ⟨i, rfl⟩ | ⟨s, rfl⟩ <;> rfl
  induction v using items_induction generalizing leaf with
  | step v ih =>
      by_cases hbin : v.isBinary = false
      · rw [binaries_eq_items hbin] at hleaf
        obtain ⟨kc, hkc, hmem⟩ := List.mem_flatMap.mp hleaf
        obtain ⟨inner, hinner, rfl⟩ := List.mem_map.mp hmem
        obtain ⟨hkey, hjson⟩ := json_item h hkc
        intro k hk
        rcases List.mem_cons.mp hk with rfl | hk
        · exact hkey
        · exact ih kc hkc hjson hinner k hk
      · cases v with
        | bin b =>
            rw [binaries, List.mem_singleton] at hleaf
            simp [hleaf]
        | _ => simp [isBinary] at hbin

theorem plain_path (path : Path) : path.toValue.plain = path.toValue := by
  have hkey : ∀ k : Key, k.toValue.plain = k.toValue := by
    intro k
    cases k <;> rfl
  simp [Path.toValue, plain, plainSeq_eq, hkey]

end Value

end Cositos
