/-
Loading a document in C# (`Core.cs`), where the merge writes into the records themselves:
what it leaves of the document, and when that is the document as it was.
-/
import Cositos.Documents
import Cositos.Overwrites

namespace Cositos

namespace CSharp

open Value

/-! ### Where a path leads -/

/-- The child that a segment names below a label. -/
def keyOf : Label → Key → Option Key
  | .dict, .str s => some (.str s)
  | .list length, key =>
      ((toInt64 key).bind fun i => inRange length (toInt32 i)).toOption.map fun n : Nat => .int n
  | _, _ => none

theorem inRange_lt {length n : Nat} {i : Int} (h : inRange length i = .ok n) : n < length := by
  unfold inRange at h
  split_ifs at h with hi
  cases h
  omega

theorem listIndex_ok_iff {v : Value} {key : Key} {xs : List Value} {n : Nat} :
    listIndex v key = .ok (xs, n) ↔ v = .list xs ∧
      ((toInt64 key).bind fun i => inRange xs.length (toInt32 i)) = .ok n := by
  constructor
  · intro h
    obtain ⟨list, hlist, h⟩ := Port.bind_eq_ok_iff.mp h
    obtain ⟨i, hi, h⟩ := Port.bind_eq_ok_iff.mp h
    obtain ⟨ys, hys, h⟩ := Port.bind_eq_ok_iff.mp h
    obtain ⟨m, hm, h⟩ := Port.bind_eq_ok_iff.mp h
    cases h
    cases list with
    | none => cases hys
    | some zs =>
        cases hys
        refine ⟨?_, by rw [hi]; exact hm⟩
        cases v with
        | list ws => exact congrArg Value.list (Option.some.inj (Except.ok.inj hlist))
        | scalar s => cases s <;> cases hlist
        | bin b | tuple ws | dict kvs => cases hlist
  · rintro ⟨rfl, hn⟩
    obtain ⟨i, hi, hn⟩ := Port.bind_eq_ok_iff.mp hn
    rw [listIndex_of_toInt64 hi, hn]
    rfl

theorem keyOf_list_iff {length : Nat} {key k : Key} :
    keyOf (.list length) key = some k ↔ ∃ n : Nat, k = .int n ∧
      ((toInt64 key).bind fun i => inRange length (toInt32 i)) = .ok n := by
  simp only [keyOf, Option.map_eq_some_iff, toOption_eq_some_iff]
  constructor
  · rintro ⟨n, hn, rfl⟩
    exact ⟨n, rfl, hn⟩
  · rintro ⟨n, rfl, hn⟩
    exact ⟨n, hn, rfl⟩

/-- A step by an index. -/
theorem listIndex_step {v : Value} {key : Key} {xs : List Value} {n : Nat}
    (h : listIndex v key = .ok (xs, n)) :
    v = .list xs ∧ n < xs.length ∧ keyOf v.label key = some (.int n) := by
  obtain ⟨rfl, hn⟩ := listIndex_ok_iff.mp h
  have hlt : n < xs.length := by
    cases hi : toInt64 key with
    | error e => simp [hi, Except.bind] at hn
    | ok i => exact inRange_lt (by simpa [hi, Except.bind] using hn)
  exact ⟨rfl, hlt, keyOf_list_iff.mpr ⟨n, rfl, hn⟩⟩

theorem index_ok {v c : Value} {key : Key} (h : index v key = .ok c) :
    ∃ k, keyOf v.label key = some k ∧ v.child k = some c := by
  have hlist : ∀ found, listIndex v key = .ok found → c = found.1.getD found.2 .none →
      ∃ k, keyOf v.label key = some k ∧ v.child k = some c := by
    rintro ⟨xs, n⟩ hfound rfl
    obtain ⟨rfl, hlt, hk⟩ := listIndex_step hfound
    exact ⟨_, hk, by simp [child, hlt]⟩
  cases key with
  | str s =>
      cases v with
      | dict kvs =>
          cases hlookup : kvs.lookup (.str s) with
          | none => simp [index, castDictionary, deref, bind, Except.bind, hlookup] at h
          | some x =>
              simp only [index, castDictionary, deref, bind, Except.bind, hlookup] at h
              cases h
              exact ⟨.str s, rfl, hlookup⟩
      | scalar s => cases s <;> cases h
      | bin b | list xs | tuple xs => cases h
  | none | int i | frac q | other tag =>
      obtain ⟨found, hfound, h⟩ := Port.bind_eq_ok_iff.mp h
      exact hlist found hfound (Except.ok.inj h).symm

theorem assign_ok {v x w : Value} {key : Key} (h : assign v key x = .ok w) :
    ∃ k, keyOf v.label key = some k ∧ v.Assigns k x w ∧
      ∀ y, v.child k = some y → x.emptied = y.emptied → w.emptied = v.emptied := by
  have hlist : ∀ found, listIndex v key = .ok found → w = .list (found.1.set found.2 x) →
      ∃ k, keyOf v.label key = some k ∧ v.Assigns k x w ∧
        ∀ y, v.child k = some y → x.emptied = y.emptied → w.emptied = v.emptied := by
    rintro ⟨xs, n⟩ hfound rfl
    obtain ⟨rfl, hlt, hk⟩ := listIndex_step hfound
    refine ⟨_, hk, assigns_list hlt x, fun y hy hxy => ?_⟩
    rw [emptied, emptied, emptied_listSet hy hxy]
  cases key with
  | str s =>
      cases v with
      | dict kvs =>
          cases h
          exact ⟨.str s, rfl, assigns_dict kvs _ x, fun y hy hxy => emptied_set hy hxy⟩
      | scalar s => cases s <;> cases h
      | bin b | list xs | tuple xs => cases h
  | none | int i | frac q | other tag =>
      obtain ⟨found, hfound, h⟩ := Port.bind_eq_ok_iff.mp h
      exact hlist found hfound (Except.ok.inj h).symm

theorem index_of_keyOf {v c : Value} {key k : Key} (hk : keyOf v.label key = some k)
    (hc : v.child k = some c) : index v key = .ok c := by
  cases v with
  | scalar s | bin b | tuple xs => cases hk
  | dict kvs =>
      cases key with
      | str s =>
          obtain rfl : Key.str s = k := Option.some.inj hk
          rw [child_dict] at hc
          simp [index, castDictionary, deref, bind, Except.bind, hc]
      | none | int i | frac q | other tag => cases hk
  | list xs =>
      obtain ⟨n, rfl, hn⟩ := keyOf_list_iff.mp hk
      have hfound := listIndex_ok_iff.mpr ⟨rfl, hn⟩
      have hx : xs[n]? = some c := hc
      have hindex : (listIndex (.list xs) key >>= fun found =>
          (.ok (found.1.getD found.2 .none) : Except CSharpError Value)) = .ok c := by
        rw [hfound]
        simp [bind, Except.bind, hx]
      cases key with
      | str s => simp [toInt64, Except.bind] at hn
      | none | int i | frac q | other tag => exact hindex

theorem assign_of_keyOf {v : Value} {key k : Key} (hk : keyOf v.label key = some k) (x : Value) :
    ∃ w, assign v key x = .ok w := by
  cases v with
  | scalar s | bin b | tuple xs => cases hk
  | dict kvs =>
      cases key with
      | str s => exact ⟨_, rfl⟩
      | none | int i | frac q | other tag => cases hk
  | list xs =>
      obtain ⟨n, rfl, hn⟩ := keyOf_list_iff.mp hk
      have hfound := listIndex_ok_iff.mpr ⟨rfl, hn⟩
      have hassign : (listIndex (.list xs) key >>= fun found =>
          (.ok (.list (found.1.set found.2 x)) : Except CSharpError Value)) =
            .ok (.list (xs.set n x)) := by
        rw [hfound]
        rfl
      cases key with
      | str s => simp [toInt64, Except.bind] at hn
      | none | int i | frac q | other tag => exact ⟨_, hassign⟩

theorem container_of_keyOf {l : Label} {key k : Key} (h : keyOf l key = some k) :
    l.isContainer = true := by
  cases l <;> first | rfl | cases h

/-- `PutOne`, told by where it goes. -/
def writer : Writer Key CSharpError where
  putAt buf obj path := merger.putAt buf obj path
  getItem := index
  setItem := assign
  withItem := assign
  keyOf := keyOf
  lastKeyOf := keyOf
  putAt_nil _ _ := ⟨_, rfl⟩
  putAt_singleton _ _ _ := rfl
  putAt_cons _ _ _ _ hrest := Merger.putAt_cons hrest
  getItem_container _ _ _ h _ := index_ok h
  getItem_of_keyOf _ _ _ _ hk hc := index_of_keyOf hk hc
  setItem_ok _ _ _ _ h := assign_ok h
  setItem_of_keyOf _ _ _ x hk := assign_of_keyOf hk x
  withItem_ok _ _ _ _ h := assign_ok h
  withItem_of_keyOf _ _ _ x hk := assign_of_keyOf hk x
  container_of_keyOf _ _ _ h := container_of_keyOf h
  container_of_lastKeyOf _ _ _ h := container_of_keyOf h

/-! ### Loading in place -/

/-- `PutBuffers` on a state it changes in place: what it throws, and the state it leaves. -/
def putBuffersInPlace : Value → List Path → List Binary → Option CSharpError × Value
  | state, [], _ => (none, state)
  | state, _ :: _, [] => (some .argumentOutOfRange, state)
  | state, path :: paths, buf :: buffers =>
      match putOne state path buf with
      | .error e => (some e, state)
      | .ok state => putBuffersInPlace state paths buffers

/-- `LoadModel`, and the record as it leaves it: the state is the record's own. -/
def loadModelInPlace (decode : String → Option (List UInt8)) (item : Key × Value) :
    Except CSharpError (Key × Value) × Value :=
  let (modelId, record) := item
  match index record (.str "state") with
  | .error e => (.error e, record)
  | .ok state =>
      match (bufferEntries record.bindings).mapM (loadEntry decode) with
      | .error e => (.error e, record)
      | .ok loaded =>
          let (thrown, state) :=
            putBuffersInPlace state (loaded.map Prod.fst) (loaded.map Prod.snd)
          let record := .dict (Dict.set record.bindings (.str "state") state)
          (thrown.elim (.ok (modelId, state)) .error, record)

/-- The records one after the other, as `LoadDocument` runs through them. -/
def loadRecordsInPlace (decode : String → Option (List UInt8)) :
    Bindings → Except CSharpError (List (Key × Value)) × Bindings
  | [] => (.ok [], [])
  | (key, record) :: records =>
      match loadModelInPlace decode (key, record) with
      | (.error e, record) => (.error e, (key, record) :: records)
      | (.ok entry, record) =>
          let (entries, records) := loadRecordsInPlace decode records
          (entries.map (entry :: ·), (key, record) :: records)

/-- `LoadDocument`, and the document as it leaves it. -/
def loadDocumentInPlace (decode : String → Option (List UInt8)) (doc : Bindings) :
    Except CSharpError (List (Key × Value)) × Bindings :=
  match doc.lookup (.str "state") with
  | some (.dict records) =>
      let (entries, records) := loadRecordsInPlace decode records
      (entries, Dict.set doc (.str "state") (.dict records))
  | some (.scalar .none) => (.error .argumentNull, doc)
  | some _ => (.error .invalidCast, doc)
  | none => (.error .keyNotFound, doc)

section Results

variable {decode : String → Option (List UInt8)}

theorem putBuffersInPlace_fst (state : Value) (paths : List Path) (buffers : List Binary) :
    (putBuffersInPlace state paths buffers).1.elim
        (.ok (putBuffersInPlace state paths buffers).2) .error =
      putBuffers state paths buffers := by
  induction paths generalizing state buffers with
  | nil => rfl
  | cons path paths ih =>
      cases buffers with
      | nil => rfl
      | cons buf buffers =>
          simp only [putBuffersInPlace, putBuffers]
          cases putOne state path buf with
          | error e => rfl
          | ok state => exact ih state buffers

theorem loadModelInPlace_fst (item : Key × Value) :
    (loadModelInPlace decode item).1 = loadModel decode item := by
  obtain ⟨modelId, record⟩ := item
  simp only [loadModelInPlace, loadModel, bind, Except.bind]
  cases index record (.str "state") with
  | error e => rfl
  | ok state =>
      cases (bufferEntries record.bindings).mapM (loadEntry decode) with
      | error e => rfl
      | ok loaded =>
          have hput := putBuffersInPlace_fst state (loaded.map Prod.fst) (loaded.map Prod.snd)
          simp only [← hput]
          cases (putBuffersInPlace state (loaded.map Prod.fst) (loaded.map Prod.snd)).1 <;> rfl

theorem loadRecordsInPlace_fst (records : Bindings) :
    (loadRecordsInPlace decode records).1 = records.mapM (loadModel decode) := by
  induction records with
  | nil => rfl
  | cons head records ih =>
      obtain ⟨key, record⟩ := head
      have hload : (loadModelInPlace decode (key, record)).1 = loadModel decode (key, record) :=
        loadModelInPlace_fst (key, record)
      rw [loadRecordsInPlace, List.mapM_cons, ← hload, ← ih]
      rcases loadModelInPlace decode (key, record) with ⟨result, record'⟩
      cases result with
      | error e => rfl
      | ok entry =>
          rcases loadRecordsInPlace decode records with ⟨entries, records'⟩
          cases entries <;> rfl

/-- What is handed back is what `loadDocument` hands back. -/
theorem loadDocumentInPlace_fst (doc : Bindings) :
    (loadDocumentInPlace decode doc).1 = loadDocument decode doc := by
  unfold loadDocumentInPlace loadDocument
  cases doc.lookup (.str "state") with
  | none => rfl
  | some state =>
      cases state with
      | dict records => exact loadRecordsInPlace_fst records
      | scalar s => cases s <;> rfl
      | bin b | list xs | tuple xs => rfl

end Results

/-! ### What is left of the document -/

/-- Whether a record can be loaded: its state and its entries can be read, and each path
leads to a place that is not below that of an earlier one. -/
def Loads (decode : String → Option (List UInt8)) (record : Value) : Prop :=
  ∃ state loaded, index record (.str "state") = .ok state ∧
    (bufferEntries record.bindings).mapM (loadEntry decode) = .ok loaded ∧
    (performed (writer.place state) [] loaded).length = loaded.length

/-- Each buffer that is written into the state is there already. -/
def LeavesRecord (decode : String → Option (List UInt8)) (record : Value) : Prop :=
  ∀ state loaded, index record (.str "state") = .ok state →
    (bufferEntries record.bindings).mapM (loadEntry decode) = .ok loaded →
    Settled state (performed (writer.place state) [] loaded)

/-- So it is in each record, up to the first that cannot be loaded. -/
def LeavesDocument (decode : String → Option (List UInt8)) (doc : Bindings) : Prop :=
  ∀ records, doc.lookup (.str "state") = some (.dict records) →
    ∀ front key record back, records = front ++ (key, record) :: back →
      (∀ kv ∈ front, Loads decode kv.2) → LeavesRecord decode record

variable {decode : String → Option (List UInt8)}

theorem putBuffersInPlace_overwrites (v : Value) (pairs : List (Path × Binary)) :
    Overwrites v (performed (writer.place v) [] pairs)
        (putBuffersInPlace v (pairs.map Prod.fst) (pairs.map Prod.snd)).2 ∧
      ((putBuffersInPlace v (pairs.map Prod.fst) (pairs.map Prod.snd)).1 = none ↔
        (performed (writer.place v) [] pairs).length = pairs.length) := by
  induction pairs generalizing v with
  | nil => exact ⟨.nil v, by simp [putBuffersInPlace, performed]⟩
  | cons head pairs ih =>
      obtain ⟨path, b⟩ := head
      simp only [List.map_cons, putBuffersInPlace]
      cases hput : putOne v path b with
      | error e =>
          have hnone : writer.place v path = none := by
            cases hplace : writer.place v path with
            | none => rfl
            | some t =>
                obtain ⟨w, hw⟩ := Writer.putAt_of_place hplace b
                cases hput.symm.trans hw
          rw [performed_of_none hnone]
          exact ⟨.nil v, by simp⟩
      | ok w =>
          have hdone : writer.putAt b v path = .ok w := hput
          obtain ⟨t, ht, hwrites, hrefill⟩ := Writer.putAt_ok hdone
          obtain ⟨hrest, hcount⟩ := ih w
          rw [performed_cons ht fun path t' => Writer.place_of_writes_iff hwrites]
          exact ⟨.cons hwrites hrefill hrest, by simpa using hcount⟩

theorem index_state_iff {record state : Value} : index record (.str "state") = .ok state ↔
    ∃ fields, record = .dict fields ∧ fields.lookup (.str "state") = some state := by
  constructor
  · intro h
    cases record with
    | dict fields =>
        obtain ⟨k, hk, hc⟩ := index_ok h
        obtain rfl : Key.str "state" = k := Option.some.inj hk
        exact ⟨fields, rfl, hc⟩
    | scalar s => cases s <;> cases h
    | bin b | list xs | tuple xs => cases h
  · rintro ⟨fields, rfl, h⟩
    exact index_of_keyOf rfl h

theorem settled_iff {state : Value} (hstate : state.Wf) (loaded : List (Path × Binary)) :
    (putBuffersInPlace state (loaded.map Prod.fst) (loaded.map Prod.snd)).2 = state ↔
      Settled state (performed (writer.place state) [] loaded) := by
  refine (putBuffersInPlace_overwrites state loaded).1.unchanged_iff hstate ?_
  intro x hx front key rest heq
  obtain ⟨path, hpath⟩ := place_of_performed hx
  exact Writer.container_above hpath heq

theorem loadModelInPlace_snd_iff (key : Key) {record : Value} (hrecord : record.Wf) :
    (loadModelInPlace decode (key, record)).2 = record ↔ LeavesRecord decode record := by
  rw [loadModelInPlace, LeavesRecord]
  cases hindex : index record (.str "state") with
  | error e => exact iff_of_true rfl (fun _ _ h => by cases h)
  | ok state =>
      cases hloaded : (bufferEntries record.bindings).mapM (loadEntry decode) with
      | error e => exact iff_of_true rfl (fun _ _ _ h => by cases h)
      | ok loaded =>
          obtain ⟨fields, rfl, hlookup⟩ := index_state_iff.mp hindex
          have hwf : state.Wf := hrecord.child (Dict.mem_of_lookup hlookup)
          have hset : Value.dict (Dict.set fields (.str "state")
                (putBuffersInPlace state (loaded.map Prod.fst) (loaded.map Prod.snd)).2) =
              .dict fields ↔ _ :=
            (Value.dict.injEq _ _).to_iff.trans (Dict.set_eq_self_iff hlookup)
          refine (hset.trans (settled_iff hwf loaded)).trans ⟨?_, ?_⟩
          · rintro h _ _ ⟨⟩ ⟨⟩
            exact h
          · exact fun h => h state loaded rfl rfl

theorem loadModelInPlace_fst_iff (key : Key) (record : Value) :
    (∃ entry, (loadModelInPlace decode (key, record)).1 = .ok entry) ↔ Loads decode record := by
  rw [loadModelInPlace, Loads]
  cases hindex : index record (.str "state") with
  | error e => simp
  | ok state =>
      cases hloaded : (bufferEntries record.bindings).mapM (loadEntry decode) with
      | error e => simp
      | ok loaded =>
          have hdone := (putBuffersInPlace_overwrites state loaded).2
          have hthrown : (∃ entry, (putBuffersInPlace state (loaded.map Prod.fst)
                (loaded.map Prod.snd)).1.elim (.ok (key, (putBuffersInPlace state
                  (loaded.map Prod.fst) (loaded.map Prod.snd)).2)) Except.error = .ok entry) ↔
              (putBuffersInPlace state (loaded.map Prod.fst) (loaded.map Prod.snd)).1 = none := by
            cases (putBuffersInPlace state (loaded.map Prod.fst) (loaded.map Prod.snd)).1 <;> simp
          refine (hthrown.trans hdone).trans ⟨fun h => ⟨state, loaded, rfl, rfl, h⟩, ?_⟩
          rintro ⟨_, _, ⟨⟩, ⟨⟩, h⟩
          exact h

theorem loadRecordsInPlace_snd_iff {records : Bindings} (hrecords : ∀ kv ∈ records, kv.2.Wf) :
    (loadRecordsInPlace decode records).2 = records ↔
      ∀ front key record back, records = front ++ (key, record) :: back →
        (∀ kv ∈ front, Loads decode kv.2) → LeavesRecord decode record := by
  induction records with
  | nil => simp [loadRecordsInPlace]
  | cons head records ih =>
      obtain ⟨key, record⟩ := head
      obtain ⟨hrecord, htail⟩ := List.forall_mem_cons.mp hrecords
      have hhead : (loadModelInPlace decode (key, record)).2 = record ↔
          LeavesRecord decode record := loadModelInPlace_snd_iff key hrecord
      have hloads : (∃ entry, (loadModelInPlace decode (key, record)).1 = .ok entry) ↔
          Loads decode record := loadModelInPlace_fst_iff key record
      have hsplit : (∀ front key' record' back,
            (key, record) :: records = front ++ (key', record') :: back →
            (∀ kv ∈ front, Loads decode kv.2) → LeavesRecord decode record') ↔
          LeavesRecord decode record ∧ (Loads decode record →
            ∀ front key' record' back, records = front ++ (key', record') :: back →
              (∀ kv ∈ front, Loads decode kv.2) → LeavesRecord decode record') := by
        constructor
        · intro h
          refine ⟨h [] key record records rfl (by simp), ?_⟩
          intro hload front key' record' back heq hfront
          refine h ((key, record) :: front) key' record' back (by rw [heq]; rfl) ?_
          exact List.forall_mem_cons.mpr ⟨hload, hfront⟩
        · rintro ⟨hleaves, hrest⟩ front key' record' back heq hfront
          cases front with
          | nil =>
              cases heq
              exact hleaves
          | cons first front =>
              obtain ⟨rfl, hrecords⟩ := List.cons.inj heq
              obtain ⟨hload, hfront⟩ := List.forall_mem_cons.mp hfront
              exact hrest hload front key' record' back hrecords hfront
      rw [hsplit, ← hhead, ← hloads, ← ih htail, loadRecordsInPlace]
      rcases loadModelInPlace decode (key, record) with ⟨result, record'⟩
      cases result with
      | error e => simp
      | ok entry => simp

/-- Loading leaves a document as it was exactly when each buffer it writes into a record is
there already. -/
theorem loadDocument_pure_iff (decode : String → Option (List UInt8)) {doc : Bindings}
    (hdoc : (Value.dict doc).Wf) :
    (loadDocumentInPlace decode doc).2 = doc ↔ LeavesDocument decode doc := by
  rw [loadDocumentInPlace, LeavesDocument]
  cases hstate : doc.lookup (.str "state") with
  | none => exact iff_of_true rfl (fun _ h => by cases h)
  | some state =>
      cases state with
      | dict records =>
          have hwf : ∀ kv ∈ records, kv.2.Wf := by
            intro kv hkv
            have hrecords : (Value.dict records).Wf := hdoc.child (Dict.mem_of_lookup hstate)
            exact hrecords.child hkv
          refine ((Dict.set_eq_self_iff hstate).trans ?_).trans
            ((loadRecordsInPlace_snd_iff hwf).trans ⟨?_, fun h => h records rfl⟩)
          · rw [Value.dict.injEq]
          · rintro h _ ⟨⟩
            exact h
      | scalar s => cases s <;> exact iff_of_true rfl (fun _ h => by cases h)
      | bin b | list xs | tuple xs => exact iff_of_true rfl (fun _ h => by cases h)

namespace LoadWitness

/-- A decoder for the text of one byte. -/
def decodeByte (text : String) : Option (List UInt8) := if text = "QQ==" then some [65] else none

/-- A document of one model, with a buffer for the key `image` of its state. -/
def doc (state : Bindings) : Bindings :=
  [(.str "version_major", .int 2), (.str "version_minor", .int 0),
    (.str "state", .dict [(.str "m", .dict [(.str "state", .dict state),
      (.str "buffers", .list [.dict [(.str "path", .list [.str "image"]),
        (.str "encoding", .str "base64"), (.str "data", .str "QQ==")]])])])]

theorem loadDocument_pure_iff_doc :
    (loadDocumentInPlace decodeByte (doc [])).2 = doc [] ↔
      LeavesDocument decodeByte (doc []) :=
  loadDocument_pure_iff decodeByte (by decide)

end LoadWitness

/-- The bytes of a record end up in the document. -/
theorem loadDocument_changes_doc :
    ¬ ∀ decode doc, (Value.dict doc).Wf → (loadDocumentInPlace decode doc).2 = doc := by
  intro h
  have hdoc := h LoadWitness.decodeByte (LoadWitness.doc []) (by decide)
  have hlook := congrArg (fun doc : Bindings => (Value.dict doc).look
    [.str "state", .str "m", .str "state", .str "image"]) hdoc
  exact absurd hlook (by decide)

end CSharp

end Cositos
