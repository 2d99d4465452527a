/-
References between the models of a document (`check_references`): the strings of a state
that name another model, and the report of those that name none.
-/
import Mathlib.Data.List.Dedup
import Mathlib.Data.List.Sort
import Mathlib.Data.List.TakeWhile
import Cositos.Serialize

namespace Cositos

open Value

namespace Value

/-! ### The strings of a state -/

/-- The string occurs as a value, at any depth of dicts and lists. -/
inductive Occurs (s : String) : Value → Prop
  | here : Occurs s (.str s)
  | inside {v : Value} {kc : Key × Value} : kc ∈ v.items → Occurs s kc.2 → Occurs s v

theorem occurs_str_iff {s t : String} : Occurs s (.str t) ↔ s = t := by
  constructor
  · intro h
    cases h with
    | here => rfl
    | inside hmem _ => cases hmem
  · rintro rfl
    exact .here

theorem occurs_iff_items {s : String} {v : Value} (hv : ∀ t, v ≠ .str t) :
    Occurs s v ↔ ∃ kc ∈ v.items, Occurs s kc.2 := by
  constructor
  · intro h
    cases h with
    | here => exact absurd rfl (hv s)
    | inside hmem h => exact ⟨_, hmem, h⟩
  · rintro ⟨kc, hmem, h⟩
    exact .inside hmem h

theorem occurs_seq_iff {s : String} {xs : List Value} :
    (∃ kc ∈ enumItems 0 xs, Occurs s kc.2) ↔ ∃ x ∈ xs, Occurs s x := by
  constructor
  · rintro ⟨⟨k, x⟩, hmem, h⟩
    obtain ⟨n, _, hn⟩ := mem_enumItems_iff.mp hmem
    exact ⟨x, List.mem_of_getElem? hn, h⟩
  · rintro ⟨x, hx, h⟩
    obtain ⟨k, hk⟩ := mem_items_seq hx
    exact ⟨(k, x), hk, h⟩

end Value

namespace Serialize

open Protocol

/-! ### The source -/

/-- How every reference begins. -/
def refHead : String := "IPY_MODEL_"

/-- What `.+` and `$` leave for `.+` once the beginning is matched: `.` matches no newline,
and `$` also matches before one at the very end. -/
def matchId (rest : List Char) : Option (List Char) :=
  let id := rest.takeWhile fun c => c != '\n'
  let after := rest.dropWhile fun c => c != '\n'
  if id ≠ [] ∧ (after = [] ∨ after = ['\n']) then some id else none

/-- `_MODEL_REF.match(value)`, and its group. -/
def modelRef (value : String) : Option String :=
  if refHead.toList <+: value.toList then
    (matchId (value.toList.drop refHead.toList.length)).map String.ofList
  else none

mutual

/-- `_referenced_ids`. -/
def referencedIds : Value → List String
  | .scalar (.str value) => (modelRef value).toList
  | .scalar _ | .bin _ => []
  | .list xs | .tuple xs => referencedIdsSeq xs
  | .dict kvs => referencedIdsEntries kvs

def referencedIdsSeq : List Value → List String
  | [] => []
  | x :: xs => referencedIds x ++ referencedIdsSeq xs

def referencedIdsEntries : Bindings → List String
  | [] => []
  | (_, x) :: kvs => referencedIds x ++ referencedIdsEntries kvs

end

/-- `record.get("state", {})`. -/
def stateOf (record : Bindings) : Value := get record "state" (.dict [])

/-- `sorted({rid for rid in _referenced_ids(...) if rid not in present})`. -/
def missingIds (present : List Key) (record : Bindings) : List String :=
  let missing := (referencedIds (stateOf record)).filter fun rid => !present.contains (.str rid)
  missing.dedup.insertionSort (· ≤ ·)

/-- One turn of the loop in `check_references`. -/
def checkRecord (present : List Key) (dangling : List (Key × List String)) (item : Key × Value) :
    Except PyError (List (Key × List String)) :=
  match item with
  | (modelId, .dict record) =>
      let missing := missingIds present record
      .ok (if missing.isEmpty then dangling else Dict.set dangling modelId missing)
  | _ => .error .attributeError

/-- The order of `sorted` on holders, which are strings. -/
def holderLE (a b : Key × List String) : Bool :=
  match a.1, b.1 with
  | .str s, .str t => decide (s ≤ t)
  | _, _ => true

/-- `set(state)`, then `state.items()`. -/
def recordItems : Value → Except PyError Bindings
  | .dict records => .ok records
  | .list xs | .tuple xs => do
      let _ ← xs.mapM hashKey
      .error .attributeError
  | .scalar (.str _) | .bin _ => .error .attributeError
  | .scalar _ => .error .typeError

/-- `check_references`. -/
def checkReferences (doc : Bindings) : Except PyError Unit := do
  let records ← recordItems (get doc "state" (.dict []))
  let dangling ← records.foldlM (checkRecord (Dict.keys records)) []
  if dangling.isEmpty then .ok ()
  else .error (.danglingReferences (dangling.insertionSort fun a b => holderLE a b = true))

/-! ### What the expression matches -/

theorem matchId_eq_some_iff {rest id : List Char} :
    matchId rest = some id ↔
      id ≠ [] ∧ '\n' ∉ id ∧ (rest = id ∨ rest = id ++ ['\n']) := by
  have hsplit : rest.takeWhile (fun c => c != '\n') ++ rest.dropWhile (fun c => c != '\n') =
      rest := List.takeWhile_append_dropWhile
  have hline : '\n' ∉ rest.takeWhile fun c => c != '\n' := by
    intro hmem
    simpa using List.mem_takeWhile_imp hmem
  constructor
  · intro h
    simp only [matchId] at h
    split_ifs at h with hmatch
    obtain rfl := Option.some.inj h
    refine ⟨hmatch.1, hline, hmatch.2.imp ?_ ?_⟩
    · intro hafter
      rw [hafter, List.append_nil] at hsplit
      exact hsplit.symm
    · intro hafter
      rw [hafter] at hsplit
      exact hsplit.symm
  · rintro ⟨hid, hnone, hrest⟩
    have hall : ∀ c ∈ id, (c != '\n') = true := by
      intro c hc
      have hne : c ≠ '\n' := fun h => hnone (h ▸ hc)
      simpa using hne
    have htake : rest.takeWhile (fun c => c != '\n') = id := by
      rcases hrest with rfl | rfl
      · exact List.takeWhile_eq_self_iff.mpr hall
      · rw [List.takeWhile_append_of_pos hall]
        simp
    have hdrop : rest.dropWhile (fun c => c != '\n') = [] ∨
        rest.dropWhile (fun c => c != '\n') = ['\n'] := by
      rw [htake] at hsplit
      rcases hrest with rfl | rfl
      · exact .inl (by simpa using hsplit)
      · exact .inr (List.append_cancel_left hsplit)
    simp only [matchId]
    rw [htake, if_pos ⟨hid, hdrop⟩]

theorem modelRef_eq_some_iff_rest {value id : String} :
    modelRef value = some id ↔
      ∃ rest, value.toList = refHead.toList ++ rest ∧ matchId rest = some id.toList := by
  rw [modelRef]
  constructor
  · intro h
    split_ifs at h with hhead
    obtain ⟨rest, hrest⟩ := hhead
    rw [← hrest, List.drop_left, Option.map_eq_some_iff] at h
    obtain ⟨chars, hmatch, rfl⟩ := h
    exact ⟨rest, hrest.symm, by rw [hmatch, String.toList_ofList]⟩
  · rintro ⟨rest, hrest, hmatch⟩
    rw [if_pos ⟨rest, hrest.symm⟩, hrest, List.drop_left, hmatch, Option.map_some,
      String.ofList_toList]

/-- A string refers to `id` when it is the head followed by `id`, all on one line but for
a newline at the end. -/
theorem modelRef_eq_some_iff {value id : String} :
    modelRef value = some id ↔
      id ≠ "" ∧ '\n' ∉ id.toList ∧ (value = refHead ++ id ∨ value = refHead ++ id ++ "\n") := by
  have hnil : id.toList ≠ [] ↔ id ≠ "" := by
    rw [Ne, Ne, ← String.toList_inj]
    rfl
  rw [modelRef_eq_some_iff_rest]
  simp only [matchId_eq_some_iff, hnil, ← String.toList_inj, String.toList_append]
  constructor
  · rintro ⟨rest, hvalue, hid, hline, rfl | rfl⟩
    · exact ⟨hid, hline, .inl hvalue⟩
    · exact ⟨hid, hline, .inr (by rw [hvalue, List.append_assoc]; rfl)⟩
  · rintro ⟨hid, hline, hvalue | hvalue⟩
    · exact ⟨_, hvalue, hid, hline, .inl rfl⟩
    · refine ⟨id.toList ++ ['\n'], ?_, hid, hline, .inr rfl⟩
      rw [hvalue, List.append_assoc]
      rfl

theorem mem_referencedIdsSeq_iff {id : String} {xs : List Value} :
    id ∈ referencedIdsSeq xs ↔ ∃ x ∈ xs, id ∈ referencedIds x := by
  induction xs with
  | nil => simp [referencedIdsSeq]
  | cons x xs ih => simp [referencedIdsSeq, ih]

theorem mem_referencedIdsEntries_iff {id : String} {kvs : Bindings} :
    id ∈ referencedIdsEntries kvs ↔ ∃ kc ∈ kvs, id ∈ referencedIds kc.2 := by
  induction kvs with
  | nil => simp [referencedIdsEntries]
  | cons kc kvs ih =>
      obtain ⟨k, x⟩ := kc
      simp [referencedIdsEntries, ih]

/-- The ids are those of the strings that occur. -/
theorem mem_referencedIds_iff {id : String} {v : Value} :
    id ∈ referencedIds v ↔ ∃ s, Occurs s v ∧ modelRef s = some id := by
  have hseq : ∀ xs : List Value,
      (∀ x ∈ xs, id ∈ referencedIds x ↔ ∃ s, Occurs s x ∧ modelRef s = some id) →
      (id ∈ referencedIdsSeq xs ↔
        ∃ s, (∃ kc ∈ enumItems 0 xs, Occurs s kc.2) ∧ modelRef s = some id) := by
    intro xs ih
    simp only [mem_referencedIdsSeq_iff, occurs_seq_iff]
    constructor
    · rintro ⟨x, hx, hid⟩
      obtain ⟨s, hs, href⟩ := (ih x hx).mp hid
      exact ⟨s, ⟨x, hx, hs⟩, href⟩
    · rintro ⟨s, ⟨x, hx, hs⟩, href⟩
      exact ⟨x, hx, (ih x hx).mpr ⟨s, hs, href⟩⟩
  induction v using tree_induction with
  | scalar s =>
      cases s with
      | str value =>
          simp only [referencedIds, Option.mem_toList]
          constructor
          · exact fun h => ⟨value, .here, h⟩
          · rintro ⟨s, hs, h⟩
            rw [occurs_str_iff.mp hs] at h
            exact h
      | none | bool b | int i | float q | other tag =>
          simp [referencedIds, occurs_iff_items, Value.items]
  | bin b => simp [referencedIds, occurs_iff_items, Value.items]
  | list xs ih | tuple xs ih =>
      simp only [referencedIds, hseq xs ih, ne_eq, reduceCtorEq, not_false_eq_true, implies_true,
        occurs_iff_items, Value.items]
  | dict kvs ih =>
      simp only [referencedIds, mem_referencedIdsEntries_iff, ne_eq, reduceCtorEq,
        not_false_eq_true, implies_true, occurs_iff_items, Value.items]
      constructor
      · rintro ⟨kc, hkc, hid⟩
        obtain ⟨s, hs, href⟩ := (ih kc hkc).mp hid
        exact ⟨s, ⟨kc, hkc, hs⟩, href⟩
      · rintro ⟨s, ⟨kc, hkc, hs⟩, href⟩
        exact ⟨kc, hkc, (ih kc hkc).mpr ⟨s, hs, href⟩⟩

/-! ### The report -/

/-- What the loop collects. -/
def report (present : List Key) (records : Bindings) : List (Key × List String) :=
  (records.map fun item => (item.1, missingIds present item.2.bindings)).filter
    fun entry => !entry.2.isEmpty

/-- A document: a map from ids to records. -/
structure IsDocument (doc records : Bindings) : Prop where
  state : get doc "state" (.dict []) = .dict records
  nodup : (Dict.keys records).Nodup
  ids : ∀ item ∈ records, ∃ id, item.1 = .str id
  dicts : ∀ item ∈ records, ∃ record, item.2 = .dict record

variable {doc records : Bindings} {present : List Key}

/-- The loop appends the entries of the report. -/
theorem foldlM_checkRecord (hdicts : ∀ item ∈ records, ∃ record, item.2 = .dict record)
    {dangling : List (Key × List String)}
    (hnodup : (Dict.keys records).Nodup)
    (hfresh : ∀ k ∈ Dict.keys records, k ∉ Dict.keys dangling) :
    records.foldlM (checkRecord present) dangling = .ok (dangling ++ report present records) := by
  induction records generalizing dangling with
  | nil => simp [report, pure, Except.pure]
  | cons item records ih =>
      obtain ⟨modelId, record⟩ := item
      obtain ⟨⟨fields, hrecord⟩, hrest⟩ := List.forall_mem_cons.mp hdicts
      simp only at hrecord
      subst hrecord
      rw [Dict.keys_cons, List.nodup_cons] at hnodup
      rw [Dict.keys_cons, List.forall_mem_cons] at hfresh
      rw [List.foldlM_cons, checkRecord]
      simp only [bind, Except.bind]
      cases hmissing : (missingIds present fields).isEmpty with
      | true =>
          rw [if_pos rfl, ih hrest hnodup.2 hfresh.2]
          simp [report, bindings, hmissing]
      | false =>
          have hfresh' : ∀ k ∈ Dict.keys records,
              k ∉ Dict.keys (Dict.set dangling modelId (missingIds present fields)) := by
            intro k hk hmem
            rcases Dict.mem_keys_set.mp hmem with rfl | hmem
            · exact hnodup.1 hk
            · exact hfresh.2 k hk hmem
          rw [if_neg (by simp), ih hrest hnodup.2 hfresh', Dict.set_of_not_mem hfresh.1]
          simp [report, bindings, hmissing]

theorem checkReferences_eq (h : IsDocument doc records) :
    checkReferences doc =
      if report (Dict.keys records) records = [] then .ok ()
      else .error (.danglingReferences
        ((report (Dict.keys records) records).insertionSort fun a b => holderLE a b = true)) := by
  have hloop : records.foldlM (checkRecord (Dict.keys records)) [] =
      .ok ([] ++ report (Dict.keys records) records) :=
    foldlM_checkRecord h.dicts h.nodup (by simp)
  rw [checkReferences, h.state, recordItems]
  simp only [bind, Except.bind, hloop, List.nil_append, List.isEmpty_iff]

theorem mem_missingIds_iff {record : Bindings} {id : String} :
    id ∈ missingIds present record ↔
      (∃ s, Occurs s (stateOf record) ∧ modelRef s = some id) ∧ .str id ∉ present := by
  simp [missingIds, mem_referencedIds_iff]

theorem mem_report_iff {holder : Key} {ids : List String} :
    (holder, ids) ∈ report present records ↔
      ∃ record, (holder, record) ∈ records ∧ ids = missingIds present record.bindings ∧
        ids ≠ [] := by
  simp only [report, List.mem_filter, List.mem_map, Prod.mk.injEq]
  constructor
  · rintro ⟨⟨⟨k, record⟩, hmem, rfl, rfl⟩, hne⟩
    exact ⟨record, hmem, rfl, by simpa using hne⟩
  · rintro ⟨record, hmem, rfl, hne⟩
    exact ⟨⟨(holder, record), hmem, rfl, rfl⟩, by simpa using hne⟩

/-! ### What a report should say -/

/-- The state refers to a model of that id. -/
def Refers (state : Value) (id : String) : Prop := id ≠ "" ∧ Occurs (refHead ++ id) state

/-- The record refers to a model that the document has not. -/
def Missing (records : Bindings) (record : Value) (id : String) : Prop :=
  Refers (stateOf record.bindings) id ∧ .str id ∉ Dict.keys records

/-- `check_references` passes a document without missing models, and of any other it names
each holder with all that it misses. -/
structure Checked (doc records : Bindings) : Prop where
  accepts : checkReferences doc = .ok () ↔
    ∀ item ∈ records, ∀ id, ¬ Missing records item.2 id
  reports : (∃ item ∈ records, ∃ id, Missing records item.2 id) →
    ∃ dangling, checkReferences doc = .error (.danglingReferences dangling) ∧
      (∀ holder, holder ∈ Dict.keys dangling ↔
        ∃ record, (holder, record) ∈ records ∧ ∃ id, Missing records record id) ∧
      ∀ holder ids, (holder, ids) ∈ dangling →
        ids.Nodup ∧ ∃ record, (holder, record) ∈ records ∧
          ∀ id, id ∈ ids ↔ Missing records record id

/-- For each record, the ids the code misses are those that are missing. -/
def Agrees (records : Bindings) : Prop :=
  ∀ item ∈ records, ∀ id,
    id ∈ missingIds (Dict.keys records) item.2.bindings ↔ Missing records item.2 id

/-- A record is told by its holder. -/
theorem record_unique (hnodup : (Dict.keys records).Nodup) {holder : Key} {record record' : Value}
    (h : (holder, record) ∈ records) (h' : (holder, record') ∈ records) : record = record' := by
  have hlookup := (Dict.lookup_eq_some_iff hnodup).mpr h
  have hlookup' := (Dict.lookup_eq_some_iff hnodup).mpr h'
  exact Option.some.inj (hlookup.symm.trans hlookup')

theorem checked_of_agrees (h : IsDocument doc records) (hagrees : Agrees records) :
    Checked doc records := by
  have hreport : report (Dict.keys records) records = [] ↔
      ∀ item ∈ records, ∀ id, ¬ Missing records item.2 id := by
    constructor
    · intro hempty item hitem id hmissing
      have hid := (hagrees item hitem id).mpr hmissing
      have hmem : (item.1, missingIds (Dict.keys records) item.2.bindings) ∈
          report (Dict.keys records) records :=
        mem_report_iff.mpr ⟨item.2, hitem, rfl, List.ne_nil_of_mem hid⟩
      rw [hempty] at hmem
      cases hmem
    · intro hnone
      apply List.eq_nil_iff_forall_not_mem.mpr
      rintro ⟨holder, ids⟩ hmem
      obtain ⟨record, hrecord, rfl, hne⟩ := mem_report_iff.mp hmem
      obtain ⟨id, hid⟩ := List.exists_mem_of_ne_nil _ hne
      exact hnone _ hrecord id ((hagrees _ hrecord id).mp hid)
  have hok : checkReferences doc = .ok () ↔ report (Dict.keys records) records = [] := by
    rw [checkReferences_eq h]
    split_ifs with hempty <;> simp [hempty]
  refine ⟨hok.trans hreport, ?_⟩
  rintro ⟨item, hitem, id, hmissing⟩
  have hne : report (Dict.keys records) records ≠ [] := fun hempty =>
    hreport.mp hempty item hitem id hmissing
  refine ⟨_, by rw [checkReferences_eq h, if_neg hne], ?_, ?_⟩
  · intro holder
    simp only [Dict.keys, List.mem_map, List.mem_insertionSort]
    constructor
    · rintro ⟨⟨_, ids⟩, hmem, rfl⟩
      obtain ⟨record, hrecord, rfl, hids⟩ := mem_report_iff.mp hmem
      obtain ⟨id, hid⟩ := List.exists_mem_of_ne_nil _ hids
      exact ⟨record, hrecord, id, (hagrees _ hrecord id).mp hid⟩
    · rintro ⟨record, hrecord, id, hid⟩
      have hmem := (hagrees _ hrecord id).mpr hid
      exact ⟨(holder, _), mem_report_iff.mpr ⟨record, hrecord, rfl, List.ne_nil_of_mem hmem⟩, rfl⟩
  · intro holder ids hmem
    rw [List.mem_insertionSort] at hmem
    obtain ⟨record, hrecord, rfl, _⟩ := mem_report_iff.mp hmem
    refine ⟨?_, record, hrecord, hagrees _ hrecord⟩
    exact (List.perm_insertionSort _ _).nodup_iff.mpr (List.nodup_dedup _)

theorem agrees_of_checked (h : IsDocument doc records) (hchecked : Checked doc records) :
    Agrees records := by
  intro item hitem
  by_cases hnone : ∀ item ∈ records, ∀ id, ¬ Missing records item.2 id
  · -- nothing is missing and nothing was reported
    have hok := hchecked.accepts.mpr hnone
    intro id
    refine iff_of_false (fun hid => ?_) (hnone item hitem id)
    have hmem : (item.1, missingIds (Dict.keys records) item.2.bindings) ∈
        report (Dict.keys records) records :=
      mem_report_iff.mpr ⟨item.2, hitem, rfl, List.ne_nil_of_mem hid⟩
    rw [checkReferences_eq h, if_neg (List.ne_nil_of_mem hmem)] at hok
    cases hok
  · push Not at hnone
    obtain ⟨dangling, herror, hholders, hids⟩ := hchecked.reports hnone
    have hdangling : ∀ entry, entry ∈ dangling ↔ entry ∈ report (Dict.keys records) records := by
      intro entry
      rw [checkReferences_eq h] at herror
      split_ifs at herror
      cases herror
      exact List.mem_insertionSort _
    by_cases hempty : missingIds (Dict.keys records) item.2.bindings = []
    · intro id
      rw [hempty]
      refine iff_of_false List.not_mem_nil fun hmissing => ?_
      have hholder := (hholders item.1).mpr ⟨item.2, hitem, id, hmissing⟩
      obtain ⟨⟨_, ids⟩, hmem, rfl⟩ := List.mem_map.mp hholder
      obtain ⟨record, hrecord, rfl, hne⟩ := mem_report_iff.mp ((hdangling _).mp hmem)
      rw [record_unique h.nodup hrecord hitem] at hne
      exact hne hempty
    · have hmem := (hdangling _).mpr (mem_report_iff.mpr ⟨item.2, hitem, rfl, hempty⟩)
      obtain ⟨_, record, hrecord, hexact⟩ := hids _ _ hmem
      rw [record_unique h.nodup hrecord hitem] at hexact
      exact hexact

/-- What the code reads and what is meant are the same where a newline is in play only
for ids that are there, or for references that are also written without it. -/
theorem checked_iff (doc records : Bindings) (h : IsDocument doc records) :
    Checked doc records ↔ ∀ item ∈ records,
      (∀ id, Refers (stateOf item.2.bindings) id → '\n' ∈ id.toList →
        .str id ∈ Dict.keys records) ∧
      ∀ id, id ≠ "" → '\n' ∉ id.toList →
        Occurs (refHead ++ id ++ "\n") (stateOf item.2.bindings) →
          .str id ∈ Dict.keys records ∨ Refers (stateOf item.2.bindings) id := by
  have hagrees : Checked doc records ↔ Agrees records :=
    ⟨agrees_of_checked h, checked_of_agrees h⟩
  rw [hagrees]
  apply forall₂_congr
  intro item _
  simp only [mem_missingIds_iff, Missing, and_congr_left_iff, modelRef_eq_some_iff]
  constructor
  · intro hiff
    refine ⟨fun id hrefers hline => ?_, fun id hid hline hoccurs => ?_⟩
    · by_contra hmissing
      obtain ⟨_, _, _, hnone, _⟩ := (hiff id hmissing).mpr hrefers
      exact hnone hline
    · by_contra hnot
      rw [not_or] at hnot
      exact hnot.2 ((hiff id hnot.1).mp ⟨_, hoccurs, hid, hline, .inr rfl⟩)
  · rintro ⟨hlines, hends⟩ id hmissing
    constructor
    · rintro ⟨s, hoccurs, hid, hline, rfl | rfl⟩
      · exact ⟨hid, hoccurs⟩
      · exact (hends id hid hline hoccurs).resolve_left hmissing
    · rintro ⟨hid, hoccurs⟩
      have hline : '\n' ∉ id.toList := fun hline => hmissing (hlines id ⟨hid, hoccurs⟩ hline)
      exact ⟨_, hoccurs, hid, hline, .inl rfl⟩

namespace ReferenceWitness

/-- `{"state": {"a": {"state": {"child": "IPY_MODEL_b"}}}}`. -/
def dangling : Bindings :=
  [(.str "state", .dict [(.str "a", .dict [(.str "state",
    .dict [(.str "child", .str "IPY_MODEL_b")])])])]

/-- What `dump_document([("a", {"child": "IPY_MODEL_b\nc"})])` returns. -/
def broken : Bindings :=
  document anywidgetModuleVersion [("a", ⟨[(.str "child", .str "IPY_MODEL_b\nc")], by decide⟩)]

theorem isDocument_dangling : IsDocument dangling [(.str "a", .dict [(.str "state",
    .dict [(.str "child", .str "IPY_MODEL_b")])])] where
  state := rfl
  nodup := by decide
  ids := by simp
  dicts := by simp

theorem checked_iff_dangling : ∃ records, IsDocument dangling records ∧
    Checked dangling records := by
  have hoccurs : ∀ s, Occurs s (.dict [(.str "child", .str "IPY_MODEL_b")]) →
      s = refHead ++ "b" := by
    intro s hs
    rw [occurs_iff_items (by simp)] at hs
    obtain ⟨kc, hkc, hs⟩ := hs
    obtain rfl := List.mem_singleton.mp hkc
    exact occurs_str_iff.mp hs
  refine ⟨_, isDocument_dangling, (checked_iff dangling _ isDocument_dangling).mpr ?_⟩
  simp only [List.mem_singleton, forall_eq]
  refine ⟨fun id hrefers hline => ?_, fun id _ _ hs => ?_⟩
  · have hid : id = "b" := String.append_right_inj _ |>.mp (hoccurs _ hrefers.2)
    rw [hid] at hline
    exact absurd hline (by decide)
  · have hid : id ++ "\n" = "b" := by
      rw [String.append_assoc] at hs
      exact String.append_right_inj _ |>.mp (hoccurs _ hs)
    have hlength := congrArg (fun s : String => '\n' ∈ s.toList) hid
    simp at hlength

end ReferenceWitness

open ReferenceWitness in
/-- A reference to an id of two lines is not seen, although such an id is dumped. -/
theorem two_line_id_not_checked :
    ¬ ∀ doc records, IsDocument doc records → Checked doc records := by
  intro h
  have hdocument : IsDocument broken (modelRecords anywidgetModuleVersion
      [("a", ⟨[(.str "child", .str "IPY_MODEL_b\nc")], by decide⟩)]) :=
    ⟨rfl, by decide, by simp [modelRecords], by simp [modelRecords]⟩
  have hmissing : Missing (modelRecords anywidgetModuleVersion
      [("a", ⟨[(.str "child", .str "IPY_MODEL_b\nc")], by decide⟩)])
      (.dict (modelRecord anywidgetModuleVersion [(.str "child", .str "IPY_MODEL_b\nc")]))
      "b\nc" := by
    refine ⟨⟨by decide, ?_⟩, by decide⟩
    have hitem : (Key.str "child", Value.str "IPY_MODEL_b\nc") ∈
        (Value.dict [(.str "child", .str "IPY_MODEL_b\nc")]).items := List.mem_cons_self
    exact .inside hitem .here
  have hmem := (agrees_of_checked hdocument (h _ _ hdocument) _ List.mem_cons_self _).mpr hmissing
  obtain ⟨⟨s, _, href⟩, _⟩ := mem_missingIds_iff.mp hmem
  exact absurd (by decide) (modelRef_eq_some_iff.mp href).2.1

end Serialize

end Cositos
