/-
`json.dumps` and `json.loads` on state values: what is printed, what is read back, and that
a printed value reads back as JSON knows it.
-/
import Cositos.JsonText
import Cositos.Serialize

namespace Cositos

namespace Value

mutual

/-- The JSON that `json.dumps` prints, for values with string keys. -/
def toJson : Value → Except PyError (Json ℚ)
  | .scalar .none => .ok .null
  | .scalar (.bool b) => .ok (.bool b)
  | .scalar (.int i) => .ok (.int i)
  | .scalar (.float q) => .ok (.float q)
  | .scalar (.str s) => .ok (.str s)
  | .scalar (.other _) | .bin _ => .error .typeError
  | .list xs | .tuple xs => do
      let xs ← toJsonItems xs
      return .arr xs
  | .dict kvs => do
      let members ← toJsonMembers kvs
      return .obj members

def toJsonItems : List Value → Except PyError (List (Json ℚ))
  | [] => .ok []
  | x :: xs => do
      let x ← toJson x
      let xs ← toJsonItems xs
      return x :: xs

def toJsonMembers : Bindings → Except PyError (List (String × Json ℚ))
  | [] => .ok []
  | (.str s, x) :: kvs => do
      let x ← toJson x
      let kvs ← toJsonMembers kvs
      return (s, x) :: kvs
  | _ :: _ => .error .typeError

end

mutual

/-- The value that `json.loads` makes: of members with one key, the last is kept. -/
def ofJson : Json ℚ → Value
  | .null => .none
  | .bool b => .bool b
  | .int i => .int i
  | .float q => .scalar (.float q)
  | .str s => .str s
  | .arr xs => .list (ofJsonItems xs)
  | .obj members => .dict (Dict.update [] (ofJsonMembers members))

def ofJsonItems : List (Json ℚ) → List Value
  | [] => []
  | x :: xs => ofJson x :: ofJsonItems xs

def ofJsonMembers : List (String × Json ℚ) → Bindings
  | [] => []
  | (s, x) :: members => (.str s, ofJson x) :: ofJsonMembers members

end

/-- `json.dumps(value, indent=indent)`. -/
def dumps (format : FloatText ℚ) (indent : Option Nat) (value : Value) :
    Except PyError String := do
  let json ← value.toJson
  return String.ofList (json.dump format indent 0)

/-- `json.loads`, where it raises nothing. -/
def loads (format : FloatText ℚ) (s : String) : Option Value :=
  (Json.parse format s.toList).map ofJson

/-- A value that JSON can carry, with floats that print as themselves; `tuples` says whether
a tuple may stand for an array. -/
structure Printable (format : FloatText ℚ) (tuples : Bool) (v : Value) : Prop where
  wf : v.Wf
  json : v.jsonWith tuples = true
  bare : v.binaries = []
  floats : ∀ path q, v.look path = some (.scalar (.float q)) → format.Lawful q

variable {format : FloatText ℚ} {tuples : Bool}

theorem printable_of_child {v c : Value} {k : Key} (h : v.child k = some c)
    (hv : ∀ path q, v.look path = some (.scalar (.float q)) → format.Lawful q) :
    ∀ path q, c.look path = some (.scalar (.float q)) → format.Lawful q := by
  intro path q hlook
  apply hv (k :: path) q
  rw [look_cons_of_child h]
  exact hlook

theorem printable_dict_iff {kvs : Bindings} :
    Printable format tuples (.dict kvs) ↔ (Dict.keys kvs).Nodup ∧
      ∀ kc ∈ kvs, (∃ s, kc.1 = .str s) ∧ Printable format tuples kc.2 := by
  constructor
  · intro h
    obtain ⟨hkeys, hvalues⟩ := wf_dict_iff.mp h.wf
    refine ⟨hkeys, fun kc hkc => ?_⟩
    obtain ⟨hkey, hjson⟩ := json_dict_iff.mp h.json kc hkc
    have hchild : (Value.dict kvs).child kc.1 = some kc.2 := by
      rw [child_dict]
      exact (Dict.lookup_eq_some_iff hkeys).mpr hkc
    exact ⟨hkey, hvalues kc hkc, hjson, binaries_dict_eq_nil_iff.mp h.bare kc hkc,
      printable_of_child hchild h.floats⟩
  · rintro ⟨hkeys, h⟩
    refine ⟨wf_dict_iff.mpr ⟨hkeys, fun kc hkc => (h kc hkc).2.wf⟩,
      json_dict_iff.mpr fun kc hkc => ⟨(h kc hkc).1, (h kc hkc).2.json⟩,
      binaries_dict_eq_nil_iff.mpr fun kc hkc => (h kc hkc).2.bare, ?_⟩
    intro path q hlook
    cases path with
    | nil => simp [look, label] at hlook
    | cons k path =>
        obtain ⟨c, hc, hlook⟩ := Option.bind_eq_some_iff.mp hlook
        rw [child_dict] at hc
        exact (h (k, c) (Dict.mem_of_lookup hc)).2.floats path q hlook

theorem printable_item {v c : Value} {k : Key} (h : Printable format tuples v)
    (hkc : (k, c) ∈ v.items) (hseq : ∃ xs, v = .list xs ∨ v = .tuple xs) : Printable format tuples c := by
  have hchild : v.child k = some c := by
    obtain ⟨xs, rfl | rfl⟩ := hseq
    · exact child_seq_iff.mpr hkc
    · rw [child_tuple]
      exact child_seq_iff.mpr hkc
  have hbin : c.binaries = [] := by
    obtain ⟨xs, rfl | rfl⟩ := hseq
    · exact binaries_item_eq_nil h.bare hkc
    · exact binaries_item_eq_nil h.bare hkc
  exact ⟨h.wf.child hkc, (json_item h.json hkc).2, hbin, printable_of_child hchild h.floats⟩

theorem printable_list {xs : List Value} (h : ∀ x ∈ xs, Printable format tuples x) :
    Printable format tuples (.list xs) := by
  refine ⟨wf_list_iff.mpr fun x hx => (h x hx).wf, json_list_iff.mpr fun x hx => (h x hx).json,
    binaries_list_eq_nil_iff.mpr fun x hx => (h x hx).bare, ?_⟩
  intro path q hlook
  cases path with
  | nil => simp [look, label] at hlook
  | cons k path =>
      obtain ⟨c, hc, hlook⟩ := Option.bind_eq_some_iff.mp hlook
      obtain ⟨n, _, hn⟩ := mem_enumItems_iff.mp (child_seq_iff.mp hc)
      exact (h c (List.mem_of_getElem? hn)).floats path q hlook

/-- What `json.dumps` prints of the value stands for the value as JSON knows it. -/
def Represents (format : FloatText ℚ) (json : Json ℚ) (v : Value) : Prop :=
  ofJson json = v.plain ∧ ∀ q ∈ json.floats, format.Lawful q

theorem toJsonItems_ok {xs : List Value}
    (h : ∀ x ∈ xs, ∃ json, x.toJson = .ok json ∧ Represents format json x) :
    ∃ jsons, toJsonItems xs = .ok jsons ∧ ofJsonItems jsons = plainSeq xs ∧
      ∀ json ∈ jsons, ∀ q ∈ json.floats, format.Lawful q := by
  induction xs with
  | nil => exact ⟨[], rfl, rfl, by simp⟩
  | cons x xs ih =>
      obtain ⟨⟨json, hjson, hplain, hfloats⟩, hxs⟩ := List.forall_mem_cons.mp h
      obtain ⟨jsons, hjsons, hplains, hall⟩ := ih hxs
      refine ⟨json :: jsons, ?_, ?_, List.forall_mem_cons.mpr ⟨hfloats, hall⟩⟩
      · rw [toJsonItems, hjson, hjsons]
        rfl
      · rw [ofJsonItems, hplain, hplains, plainSeq]

theorem toJsonMembers_ok {kvs : Bindings}
    (h : ∀ kc ∈ kvs, (∃ s, kc.1 = .str s) ∧
      ∃ json, kc.2.toJson = .ok json ∧ Represents format json kc.2) :
    ∃ members, toJsonMembers kvs = .ok members ∧ ofJsonMembers members = plainEntries kvs ∧
      ∀ m ∈ members, ∀ q ∈ m.2.floats, format.Lawful q := by
  induction kvs with
  | nil => exact ⟨[], rfl, rfl, by simp⟩
  | cons kc kvs ih =>
      obtain ⟨k, x⟩ := kc
      obtain ⟨⟨⟨s, rfl⟩, json, hjson, hplain, hfloats⟩, hkvs⟩ := List.forall_mem_cons.mp h
      obtain ⟨members, hmembers, hplains, hall⟩ := ih hkvs
      refine ⟨(s, json) :: members, ?_, ?_, List.forall_mem_cons.mpr ⟨hfloats, hall⟩⟩
      · rw [toJsonMembers, hjson, hmembers]
        rfl
      · rw [ofJsonMembers, hplain, hplains, plainEntries]

/-- Every value that JSON can carry is printed. -/
theorem toJson_ok {v : Value} (h : Printable format tuples v) :
    ∃ json, v.toJson = .ok json ∧ Represents format json v := by
  induction v using tree_induction with
  | scalar s =>
      cases s with
      | none => exact ⟨.null, rfl, rfl, by simp [Json.floats]⟩
      | bool b => exact ⟨.bool b, rfl, rfl, by simp [Json.floats]⟩
      | int i => exact ⟨.int i, rfl, rfl, by simp [Json.floats]⟩
      | float q => exact ⟨.float q, rfl, rfl, by simpa [Json.floats] using h.floats [] q rfl⟩
      | str s => exact ⟨.str s, rfl, rfl, by simp [Json.floats]⟩
      | other n => exact absurd h.json (by simp [jsonWith])
  | bin b => exact absurd h.bare (by simp [binaries])
  | list xs ih | tuple xs ih =>
      have hitems : ∀ x ∈ xs, ∃ json, x.toJson = .ok json ∧ Represents format json x := by
        intro x hx
        obtain ⟨k, hk⟩ := mem_items_seq hx
        first
          | exact ih x hx (printable_item h hk ⟨xs, Or.inl rfl⟩)
          | exact ih x hx (printable_item h hk ⟨xs, Or.inr rfl⟩)
      obtain ⟨jsons, hjsons, hplains, hfloats⟩ := toJsonItems_ok hitems
      refine ⟨.arr jsons, ?_, ?_, ?_⟩
      · rw [toJson, hjsons]
        rfl
      · rw [ofJson, hplains, plain]
      · rw [Json.floats, Json.floatsItems_eq]
        intro q hq
        obtain ⟨json, hjson, hmem⟩ := List.mem_flatMap.mp hq
        exact hfloats json hjson q hmem
  | dict kvs ih =>
      obtain ⟨hkeys, hmembers⟩ := printable_dict_iff.mp h
      obtain ⟨members, hok, hplains, hfloats⟩ := toJsonMembers_ok fun kc hkc =>
        ⟨(hmembers kc hkc).1, ih kc hkc (hmembers kc hkc).2⟩
      have hplainkeys : (Dict.keys (plainEntries kvs)).Nodup := by
        rw [plainEntries_eq]
        simpa [Dict.keys, Function.comp_def] using hkeys
      refine ⟨.obj members, ?_, ?_, ?_⟩
      · rw [toJson, hok]
        rfl
      · rw [ofJson, hplains, Dict.update_of_disjoint hplainkeys (by simp), List.nil_append, plain]
      · rw [Json.floats, Json.floatsMembers_eq]
        intro q hq
        obtain ⟨m, hm, hmem⟩ := List.mem_flatMap.mp hq
        exact hfloats m hm q hmem

/-- Without tuples, a value is what JSON knows of it. -/
theorem Printable.plain_eq {v : Value} (h : Printable format false v) : v.plain = v := by
  have hwell := h.json
  have hbare := h.bare
  clear h
  induction v using tree_induction with
  | scalar s => rfl
  | bin b => simp [binaries] at hbare
  | list xs ih =>
      have hmap : xs.map plain = xs := by
        refine (List.map_congr_left fun x hx => ?_).trans (List.map_id xs)
        exact ih x hx (json_list_iff.mp hwell x hx) (binaries_list_eq_nil_iff.mp hbare x hx)
      rw [plain, plainSeq_eq, hmap]
  | tuple xs _ => simp [jsonWith] at hwell
  | dict kvs ih =>
      have hmap : kvs.map (Prod.map id plain) = kvs := by
        refine (List.map_congr_left fun kc hkc => ?_).trans (List.map_id kvs)
        exact Prod.ext rfl (ih kc hkc (json_dict_iff.mp hwell kc hkc).2
          (binaries_dict_eq_nil_iff.mp hbare kc hkc))
      rw [plain, plainEntries_eq, hmap]

/-- A printed value reads back as JSON knows it, with some of the `<` of its text escaped or
without, between spaces. -/
theorem loads_dumps (indent : Option Nat) {v : Value} (h : Printable format tuples v) :
    ∃ text, v.dumps format indent = .ok text ∧
      ∀ text' before after, JsonText.Escapes text.toList text' →
        (∀ c ∈ before, Json.isSpace c = true) → (∀ c ∈ after, Json.isSpace c = true) →
        loads format (String.ofList (before ++ text' ++ after)) = some v.plain := by
  obtain ⟨json, hjson, hplain, hfloats⟩ := toJson_ok h
  refine ⟨String.ofList (json.dump format indent 0), ?_, ?_⟩
  · rw [dumps, hjson]
    rfl
  · intro text' before after htext hbefore hafter
    rw [String.toList_ofList] at htext
    rw [loads, String.toList_ofList, Json.parse_escapes hfloats htext hbefore hafter,
      Option.map_some, hplain]

end Value

end Cositos
