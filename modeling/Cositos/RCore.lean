/-
The R port (`core.R`): lists with and without names, `modifyList`, the split, and the
messages that are built from it.  A list with names is a dict and one without names a
list, so that `list()` is an empty array whatever it was made for; a raw vector is a
binary value and `NULL` the value `none`.
-/
import Cositos.Recursive
import Cositos.Alike

namespace Cositos

/-- What the modelled R code stops with. -/
inductive RError
  /-- `sprintf("state nesting exceeds %d levels at path %s", MAX_DEPTH, ...)` -/
  | nesting (path : Path)
  /-- `sprintf("cyclic reference detected in state at path %s", ...)` -/
  | cyclic (path : Path)
  /-- `subscript out of bounds` -/
  | subscriptOutOfBounds
  /-- `attempt to select less than one element`, or more than one -/
  | selectOne
  /-- `incompatible types (from %s to %s) in [[ assignment` -/
  | incompatibleTypes
  /-- `replacement has length zero`, or more elements than there are to replace -/
  | replacementLength
  /-- `sprintf("Unsupported buffer encoding: %s (expected 'base64')", ...)` -/
  | unsupportedEncoding
  /-- What `base64_dec` stops with. -/
  | base64
deriving Repr

namespace R

open Value Buffers

/-- `is_container`. -/
def isContainer : Value → Bool
  | .list _ | .dict _ => true
  | _ => false

/-! ### Lists -/

/-- `x[[k]]` for a name: no name matches the empty one, and what is missing is `NULL`. -/
def getElement (x : Value) (k : Key) : Value :=
  if k = .str "" then .none else (x.bindings.lookup k).getD .none

/-- A list whose elements had no names, and one more element that has. -/
def appendNamed (xs : List Value) (k : Key) (v : Value) : Bindings :=
  xs.map (fun x => (.str "", x)) ++ [(k, v)]

/-- `x[[k]] <- v` for a name: `NULL` removes the element. -/
def setElement (x : Value) (k : Key) (v : Value) : Value :=
  match v, x with
  | .none, .dict kvs => .dict (Dict.erase kvs k)
  | .none, x => x
  | v, .dict kvs => .dict (Dict.set kvs k v)
  | v, .list xs => .dict (appendNamed xs k v)
  | _, x => x

/-- `x[k] <- list(v)` for a name: `NULL` is an element like others. -/
def setSlice (x : Value) (k : Key) (v : Value) : Value :=
  match x with
  | .dict kvs => .dict (if k = .str "" then kvs ++ [(k, v)] else Dict.set kvs k v)
  | .list xs => .dict (appendNamed xs k v)
  | x => x

mutual

/-- `utils::modifyList(x, val)`. -/
def modifyList : Value → Value → Value
  | x, .dict kvs => modifyEach x kvs
  | x, _ => x

/-- The loop over the names of `val`, those that are empty apart. -/
def modifyEach : Value → Bindings → Value
  | x, [] => x
  | x, (k, v) :: kvs =>
      if k = .str "" then modifyEach x kvs
      else
        modifyEach (setElement x k
          (if isContainer (getElement x k) && isContainer v then modifyList (getElement x k) v
          else v)) kvs

end

/-! ### The split -/

/-- The loop over the names of an object; `sub` splits a container below it. -/
def separateNamed (sub : Path → Value → List Path → List Binary → Except RError (Julia.Split Value))
    (path : Path) (object : Value) : List Key → Value → List Path → List Binary →
      Except RError (Julia.Split Value)
  | [], out, paths, buffers => .ok (out, paths, buffers)
  | k :: names, out, paths, buffers =>
      match getElement object k with
      | .bin b => separateNamed sub path object names out (paths ++ [path ++ [k]]) (buffers ++ [b])
      | v =>
          if isContainer v then do
            let (stripped, paths, buffers) ← sub (path ++ [k]) v paths buffers
            separateNamed sub path object names (setElement out k stripped) paths buffers
          else separateNamed sub path object names (setSlice out k v) paths buffers

/-- The loop over an array, from the wire index `i` on. -/
def separateArray (sub : Path → Value → List Path → List Binary → Except RError (Julia.Split Value))
    (path : Path) (i : Nat) : List Value → List Value → List Path → List Binary →
      Except RError (Julia.Split (List Value))
  | [], out, paths, buffers => .ok (out, paths, buffers)
  | v :: vs, out, paths, buffers =>
      match v with
      | .bin b =>
          separateArray sub path (i + 1) vs (out ++ [.none]) (paths ++ [path ++ [.int i]])
            (buffers ++ [b])
      | v =>
          if isContainer v then do
            let (stripped, paths, buffers) ← sub (path ++ [.int i]) v paths buffers
            separateArray sub path (i + 1) vs (out ++ [stripped]) paths buffers
          else separateArray sub path (i + 1) vs (out ++ [v]) paths buffers

/-- `.separate` at depth `MAX_DEPTH + 1 - room`.  Two lists that are alive have different
addresses, so that a list is told from those above it by its position. -/
def separate : Nat → List Path → Path → Value → List Path → List Binary →
    Except RError (Julia.Split Value)
  | room, ancestors, path, sub, paths, buffers =>
      if !isContainer sub then
        .ok (sub, paths, buffers)
      else
        match room with
        | 0 => .error (.nesting path)
        | room + 1 =>
            if ancestors.contains path then
              .error (.cyclic path)
            else
              match sub with
              | .dict kvs =>
                  separateNamed (separate room (path :: ancestors)) path sub (Dict.keys kvs)
                    (.list []) paths buffers
              | .list vs => do
                  let (out, paths, buffers) ←
                    separateArray (separate room (path :: ancestors)) path 0 vs [] paths buffers
                  return (.list out, paths, buffers)
              | sub => .ok (sub, paths, buffers)

/-- `remove_buffers`. -/
def removeBuffers (state : Value) : Except RError (Julia.Split Value) :=
  separate (maxDepth + 1) [] [] state [] []

/-! ### Messages -/

/-- `immutable_fields`. -/
def immutableFields (version : String := Protocol.anywidgetModuleVersion) : Value :=
  .dict [(.str "_model_module", .str "anywidget"),
    (.str "_model_name", .str "AnyModel"),
    (.str "_model_module_version", .str version),
    (.str "_view_module", .str "anywidget"),
    (.str "_view_name", .str "AnyView"),
    (.str "_view_module_version", .str version),
    (.str "_view_count", .none)]

/-- `build_comm_open`: data, buffers and metadata. -/
def buildCommOpen (state : Value) (anywidgetVersion : String := Protocol.anywidgetModuleVersion) :
    Except RError (Bindings × List Binary × Bindings) := do
  let full := modifyList (immutableFields anywidgetVersion) state
  let (stripped, paths, buffers) ← removeBuffers full
  let data := [(.str "state", stripped), (.str "buffer_paths", Protocol.bufferPathsField paths)]
  return (data, buffers, [(.str "version", .str Protocol.version)])

/-- `build_update`: data and buffers. -/
def buildUpdate (state : Value) : Except RError (Bindings × List Binary) := do
  let (stripped, paths, buffers) ← removeBuffers state
  let data := [(.str "method", .str "update"), (.str "state", stripped),
    (.str "buffer_paths", Protocol.bufferPathsField paths)]
  return (data, buffers)

/-- `.reduce_open`.  The identity is merged in here and again in `build_comm_open`. -/
def reduceOpen (phase : Phase) (currentState : Value) (capabilities : TransportCapabilities) :
    Except RError (Phase × List Effect) :=
  if phase = .unopened ∨ phase = .closed then do
    let fullState := modifyList immutableFields currentState
    let (data, buffers, metadata) ← buildCommOpen fullState
    let effects := [.send { msgType := .commOpen, data, buffers, metadata }]
    return (.opened, if capabilities.supportsReceive then effects ++ [.listen] else effects)
  else
    .ok (.opened, [])

/-- `.reduce_send_state`; a `NULL` for `include` sends everything. -/
def reduceSendState (phase : Phase) (include? : Option (List Key)) (currentState : Value) :
    Except RError (Phase × List Effect) :=
  if phase ≠ .opened then
    .ok (phase, [.error "send_state() requires an open comm; call open() first"])
  else do
    let state := match include? with
      | none => modifyList immutableFields currentState
      | some keys => .dict (currentState.bindings.filter fun kv => keys.contains kv.1)
    let (data, buffers) ← buildUpdate state
    return (phase, [.send { msgType := .commMsg, data, buffers }])

end R

namespace Value

/-! ### What R reads, and what it leaves behind -/

mutual

/-- What R reads of a state: what stands under the empty name is `NULL`. -/
def named : Value → Value
  | .scalar s => .scalar s
  | .bin b => .bin b
  | .list xs => .list (namedSeq xs)
  | .tuple xs => .tuple (namedSeq xs)
  | .dict kvs => .dict (namedEntries kvs)

def namedSeq : List Value → List Value
  | [] => []
  | x :: xs => named x :: namedSeq xs

def namedEntries : Bindings → Bindings
  | [] => []
  | (k, x) :: kvs => (k, if k = .str "" then .none else named x) :: namedEntries kvs

end

mutual

/-- What a list built up in R is, once it is empty: an array. -/
def blurred : Value → Value
  | .scalar s => .scalar s
  | .bin b => .bin b
  | .list xs => .list (blurredSeq xs)
  | .tuple xs => .tuple (blurredSeq xs)
  | .dict [] => .list []
  | .dict (kc :: kvs) => .dict (blurredEntries (kc :: kvs))

def blurredSeq : List Value → List Value
  | [] => []
  | x :: xs => blurred x :: blurredSeq xs

def blurredEntries : Bindings → Bindings
  | [] => []
  | (k, x) :: kvs => (k, blurred x) :: blurredEntries kvs

end

theorem namedSeq_eq (xs : List Value) : namedSeq xs = xs.map named := by
  induction xs with
  | nil => rfl
  | cons x xs ih => simp [namedSeq, ih]

/-- An entry of an object, as R reads it. -/
def namedEntry (kc : Key × Value) : Key × Value :=
  (kc.1, if kc.1 = .str "" then .none else kc.2.named)

theorem namedEntries_eq (kvs : Bindings) : namedEntries kvs = kvs.map namedEntry := by
  induction kvs with
  | nil => rfl
  | cons kc kvs ih =>
      obtain ⟨k, x⟩ := kc
      simp [namedEntries, namedEntry, ih]

theorem keys_namedEntries (kvs : Bindings) : Dict.keys (namedEntries kvs) = Dict.keys kvs := by
  rw [namedEntries_eq, Dict.keys, List.map_map]
  rfl

theorem blurredSeq_eq (xs : List Value) : blurredSeq xs = xs.map blurred := by
  induction xs with
  | nil => rfl
  | cons x xs ih => simp [blurredSeq, ih]

theorem blurredEntries_eq (kvs : Bindings) :
    blurredEntries kvs = kvs.map (Prod.map id blurred) := by
  induction kvs with
  | nil => rfl
  | cons kc kvs ih =>
      obtain ⟨k, x⟩ := kc
      simp [blurredEntries, ih, Prod.map]

theorem blurred_dict {kvs : Bindings} (h : kvs ≠ []) :
    (Value.dict kvs).blurred = .dict (kvs.map (Prod.map id blurred)) := by
  cases kvs with
  | nil => exact absurd rfl h
  | cons kc kvs => rw [blurred, blurredEntries_eq]

theorem child_blurred (v : Value) (k : Key) : v.blurred.child k = (v.child k).map blurred := by
  cases v with
  | scalar s => simp [blurred]
  | bin b => simp [blurred]
  | list xs => rw [blurred, blurredSeq_eq, child_list_map]
  | tuple xs => rw [blurred, child_tuple, child_tuple, blurredSeq_eq, child_list_map]
  | dict kvs =>
      by_cases hempty : kvs = []
      · subst hempty
        rw [blurred, child_dict]
        match k with
        | .int (.ofNat _) | .int (.negSucc _) | .none | .frac _ | .str _ | .other _ => rfl
      · rw [blurred_dict hempty, child_dict, child_dict, Dict.lookup_map_snd]

theorem lookup_namedEntries (kvs : Bindings) (k : Key) : (namedEntries kvs).lookup k =
    (kvs.lookup k).map fun x => if k = .str "" then .none else x.named := by
  induction kvs with
  | nil => rfl
  | cons kc kvs ih =>
      obtain ⟨j, x⟩ := kc
      rw [namedEntries, List.lookup_cons, List.lookup_cons]
      by_cases hkey : k = j
      · simp [hkey]
      · have hne : (k == j) = false := beq_eq_false_iff_ne.mpr hkey
        simp [hne, ih]

theorem isBinary_named (v : Value) : v.named.isBinary = v.isBinary := by
  cases v <;> rfl

theorem isContainer_named (v : Value) : v.named.isContainer = v.isContainer := by
  cases v <;> rfl

theorem items_named_seq (xs : List Value) :
    enumItems 0 (namedSeq xs) = (enumItems 0 xs).map (Prod.map id named) := by
  rw [namedSeq_eq, enumItems_map]

theorem wf_named {v : Value} (hv : v.Wf) : v.named.Wf := by
  induction v using tree_induction with
  | scalar s | bin b => rfl
  | list xs ih | tuple xs ih =>
      have hxs := wf_list_iff.mp hv
      apply wf_list_iff.mpr
      rw [namedSeq_eq, List.forall_mem_map]
      exact fun x hx => ih x hx (hxs x hx)
  | dict kvs ih =>
      obtain ⟨hkeys, hvalues⟩ := wf_dict_iff.mp hv
      rw [named, wf_dict_iff, keys_namedEntries, namedEntries_eq, List.forall_mem_map]
      refine ⟨hkeys, fun kc hkc => ?_⟩
      rw [namedEntry]
      split_ifs
      · rfl
      · exact ih kc hkc (hvalues kc hkc)

theorem height_named_le (v : Value) : v.named.height ≤ v.height := by
  have hle : ∀ n, ∀ v : Value, v.height ≤ n → v.named.height ≤ n := by
    intro n
    induction n with
    | zero =>
        intro v hv
        have hpos := height_pos_iff (v := v)
        have hnamed := height_pos_iff (v := v.named)
        rw [isContainer_named, ← hpos] at hnamed
        omega
    | succ n ih =>
        intro v hv
        rw [height_le_succ_iff] at hv ⊢
        cases v with
        | scalar s | bin b => simp [named, items]
        | list xs | tuple xs =>
            rw [named, items, items_named_seq, List.forall_mem_map]
            exact fun kc hkc => ih kc.2 (hv kc hkc)
        | dict kvs =>
            rw [named, items, namedEntries_eq, List.forall_mem_map]
            intro kc hkc
            rw [namedEntry]
            split_ifs
            · exact Nat.zero_le _
            · exact ih kc.2 (hv kc hkc)
  exact hle _ v le_rfl

theorem nesting_named_le (v : Value) : v.named.nesting ≤ v.nesting :=
  Nat.sub_le_sub_right (height_named_le v) 1

theorem child_named_list (xs : List Value) (k : Key) :
    (Value.list xs).named.child k = ((Value.list xs).child k).map named := by
  rw [named, namedSeq_eq, child_list_map]

theorem untupled_named {v : Value} (h : v.Untupled) : v.named.Untupled := by
  intro path n
  induction path generalizing v with
  | nil =>
      cases v with
      | tuple xs => exact absurd rfl (h [] xs.length)
      | scalar s | bin b | list xs | dict kvs => simp [named, look, label]
  | cons k path ih =>
      intro hlook
      obtain ⟨c, hc, hlook⟩ := Option.bind_eq_some_iff.mp hlook
      cases v with
      | scalar s | bin b => simp [named] at hc
      | tuple xs => exact absurd rfl (h [] xs.length)
      | list xs =>
          rw [child_named_list] at hc
          obtain ⟨d, hd, rfl⟩ := Option.map_eq_some_iff.mp hc
          exact ih (h.below hd) hlook
      | dict kvs =>
          rw [named, child_dict, lookup_namedEntries] at hc
          obtain ⟨d, hd, rfl⟩ := Option.map_eq_some_iff.mp hc
          have hbelow : d.Untupled := h.below (k := k) (by rwa [child_dict])
          split_ifs at hlook
          · cases path <;> simp [look, label] at hlook
          · exact ih hbelow hlook

end Value

namespace R

open Value Buffers

/-! ### The split, by way of the split of the other ports -/

/-- The split of R tells containers by their position. -/
def splitter : Splitter RError := .byIdentity .nesting .cyclic

theorem splitter_discerns : splitter.Discerns :=
  Splitter.discerns_byIdentity _ _

theorem isContainer_eq (v : Value) : isContainer v = Julia.isContainer v.named := by
  cases v <;> rfl

theorem getElement_of_mem {kvs : Bindings} (hkvs : (Dict.keys kvs).Nodup) {kc : Key × Value}
    (h : kc ∈ kvs) : getElement (.dict kvs) kc.1 = if kc.1 = .str "" then .none else kc.2 := by
  have hlookup : kvs.lookup kc.1 = some kc.2 := (Dict.lookup_eq_some_iff hkvs).mpr h
  simp [getElement, Value.bindings, hlookup]

/-- A new element of a list under construction. -/
theorem setSlice_blurred {out : Bindings} {k : Key} (hk : k ∉ Dict.keys out) (v : Value) :
    setSlice (Value.dict out).blurred k v.blurred = (Value.dict (Dict.set out k v)).blurred := by
  rw [Dict.set_of_not_mem hk]
  by_cases hempty : out = []
  · subst hempty
    rfl
  · have hkeys : k ∉ Dict.keys (out.map (Prod.map id blurred)) := by
      simpa [Dict.keys, Function.comp_def] using hk
    rw [blurred_dict hempty, blurred_dict (by simp), setSlice, Dict.set_of_not_mem hkeys]
    simp

theorem setElement_container {v : Value} (hv : v ≠ .none) {out : Bindings} {k : Key}
    (hk : k ∉ Dict.keys out) :
    setElement (Value.dict out).blurred k v = setSlice (Value.dict out).blurred k v := by
  have hset : ∀ kvs : Bindings, k ∉ Dict.keys kvs →
      setElement (.dict kvs) k v = setSlice (.dict kvs) k v := by
    intro kvs hkvs
    have hsame : setElement (.dict kvs) k v = .dict (Dict.set kvs k v) := by
      cases v with
      | scalar s => cases s <;> first | rfl | exact absurd rfl hv
      | bin b | list xs | tuple xs | dict kvs => rfl
    rw [hsame, setSlice, Dict.set_of_not_mem hkvs, ite_self]
  have hlist : setElement (.list []) k v = setSlice (.list []) k v := by
    cases v with
    | scalar s => cases s <;> first | rfl | exact absurd rfl hv
    | bin b | list xs | tuple xs | dict kvs => rfl
  by_cases hempty : out = []
  · subst hempty
    exact hlist
  · rw [blurred_dict hempty]
    exact hset _ (by simpa [Dict.keys, Function.comp_def] using hk)

section Loops

variable {sub sub' : Path → Value → List Path → List Binary → Except RError (Julia.Split Value)}
  {path : Path}

/-- What R makes of a split: the emptied objects are arrays. -/
abbrev blurs {S T : Type} (blur : S → T) : Julia.Split S → Julia.Split T := Prod.map blur id

/-- A child is split as the other ports split what R reads of it. -/
abbrev Follows (sub sub' : Path → Value → List Path → List Binary →
    Except RError (Julia.Split Value)) (path : Path) (v : Value) : Prop :=
  ∀ paths buffers, sub path v paths buffers =
    (sub' path v.named paths buffers).map (blurs blurred)

theorem leaf_named {v : Value} (huntupled : v.Untupled) (hleaf : isContainer v = false) :
    v.named = v ∧ v.blurred = v := by
  cases v with
  | scalar s | bin b => exact ⟨rfl, rfl⟩
  | tuple xs => exact absurd rfl (huntupled [] xs.length)
  | list xs | dict kvs => cases hleaf

theorem separateArray_eq {i : Nat} {vs : List Value} (huntupled : ∀ v ∈ vs, v.Untupled)
    (hsub : ∀ kc ∈ enumItems i vs, Follows sub sub' (path ++ [kc.1]) kc.2) (out : List Value)
    (paths : List Path) (buffers : List Binary) :
    separateArray sub path i vs (out.map blurred) paths buffers =
      (Splitter.separateSeq sub' path i (vs.map named) out paths buffers).map
        (blurs (List.map blurred)) := by
  induction vs generalizing i out paths buffers with
  | nil => rfl
  | cons v tail ih =>
      have htail := @ih (i + 1) (fun v h => huntupled v (List.mem_cons_of_mem _ h))
        (fun kc h => hsub kc (List.mem_cons_of_mem _ h))
      have hnext : ∀ x paths buffers,
          separateArray sub path (i + 1) tail (out.map blurred ++ [x.blurred]) paths buffers =
            (Splitter.separateSeq sub' path (i + 1) (tail.map named) (out ++ [x]) paths
              buffers).map (blurs (List.map blurred)) := by
        intro x paths buffers
        rw [← htail, List.map_append]
        rfl
      rw [List.map_cons]
      by_cases hbin : v.isBinary = false
      · rw [Splitter.separateSeq_cons ((isBinary_named v).trans hbin), ← isContainer_eq]
        have hhead : separateArray sub path i (v :: tail) (out.map blurred) paths buffers =
            if isContainer v then
              sub (path ++ [.int i]) v paths buffers >>= fun split =>
                separateArray sub path (i + 1) tail (out.map blurred ++ [split.1]) split.2.1
                  split.2.2
            else separateArray sub path (i + 1) tail (out.map blurred ++ [v]) paths buffers := by
          cases v <;> first | rfl | simp [isBinary] at hbin
        rw [hhead]
        by_cases hcontainer : isContainer v = true
        · rw [if_pos hcontainer, if_pos hcontainer, hsub _ List.mem_cons_self]
          cases sub' (path ++ [.int i]) v.named paths buffers with
          | error e => rfl
          | ok split => exact hnext split.1 split.2.1 split.2.2
        · obtain ⟨hnamed, hblurred⟩ := leaf_named (huntupled v List.mem_cons_self)
            (Bool.eq_false_iff.mpr hcontainer)
          rw [if_neg hcontainer, if_neg hcontainer, hnamed]
          have hlast := hnext v paths buffers
          rw [hblurred] at hlast
          exact hlast
      · cases v with
        | bin b => exact hnext .none _ _
        | scalar s | list xs | tuple xs | dict kvs => simp [isBinary] at hbin

theorem separateNamed_cons {object x : Value} {k : Key} (hx : getElement object k = x)
    (hbin : x.isBinary = false) (names : List Key) (out : Value) (paths : List Path)
    (buffers : List Binary) :
    separateNamed sub path object (k :: names) out paths buffers =
      if isContainer x then
        sub (path ++ [k]) x paths buffers >>= fun split =>
          separateNamed sub path object names (setElement out k split.1) split.2.1 split.2.2
      else separateNamed sub path object names (setSlice out k x) paths buffers := by
  rw [separateNamed, hx]
  cases x <;> first | rfl | simp [isBinary] at hbin

theorem ne_none_of_blurred {v : Value} (h : Julia.isContainer v = true) : v.blurred ≠ .none := by
  intro hblurred
  cases v with
  | list xs => cases hblurred
  | dict kvs =>
      by_cases hempty : kvs = []
      · subst hempty
        cases hblurred
      · rw [blurred_dict hempty] at hblurred
        cases hblurred
  | scalar s | bin b | tuple xs => cases h

theorem separateNamed_eq (out : Bindings) {object kvs : Bindings}
    (hobject : (Dict.keys object).Nodup) (hmem : ∀ kc ∈ kvs, kc ∈ object) (huntupled : ∀ kc ∈ kvs, kc.2.Untupled)
    (hsub : ∀ kc ∈ kvs, Follows sub sub' (path ++ [kc.1]) kc.2)
    (hcontainers : ∀ kc ∈ kvs, isContainer kc.2 = true → ∀ paths buffers split,
      sub' (path ++ [kc.1]) kc.2.named paths buffers = .ok split →
        Julia.isContainer split.1 = true)
    (hkeys : (Dict.keys out ++ Dict.keys kvs).Nodup) (paths : List Path) (buffers : List Binary) :
    separateNamed sub path (.dict object) (Dict.keys kvs) (Value.dict out).blurred paths buffers =
      (Splitter.separateMap sub' path (namedEntries kvs) out paths buffers).map
        (blurs fun out => (Value.dict out).blurred) := by
  induction kvs generalizing out paths buffers with
  | nil => rfl
  | cons head tail ih =>
      obtain ⟨k, v⟩ := head
      have htail := fun out => ih out (fun kc h => hmem kc (List.mem_cons_of_mem _ h))
        (fun kc h => huntupled kc (List.mem_cons_of_mem _ h))
        (fun kc h => hsub kc (List.mem_cons_of_mem _ h))
        (fun kc h => hcontainers kc (List.mem_cons_of_mem _ h))
      have hfresh : k ∉ Dict.keys out := fun h =>
        (List.nodup_append.mp hkeys).2.2 k h k List.mem_cons_self rfl
      have hnext : ∀ x paths buffers,
          separateNamed sub path (.dict object) (Dict.keys tail)
            (setSlice (Value.dict out).blurred k (blurred x)) paths buffers =
              (Splitter.separateMap sub' path (namedEntries tail) (Dict.set out k x) paths
                buffers).map (blurs fun out => (Value.dict out).blurred) := by
        intro x paths buffers
        rw [setSlice_blurred hfresh]
        apply htail
        rw [Dict.set_of_not_mem hfresh]
        simpa using hkeys
      have hx := getElement_of_mem hobject (hmem _ List.mem_cons_self)
      rw [Dict.keys_cons, namedEntries]
      by_cases hempty : k = .str ""
      · rw [if_pos hempty] at hx
        rw [if_pos hempty, separateNamed_cons hx rfl]
        exact hnext .none paths buffers
      · rw [if_neg hempty] at hx
        rw [if_neg hempty]
        by_cases hbin : v.isBinary = false
        · rw [separateNamed_cons hx hbin,
            Splitter.separateMap_cons ((isBinary_named v).trans hbin), ← isContainer_eq]
          by_cases hcontainer : isContainer v = true
          · rw [if_pos hcontainer, if_pos hcontainer, hsub _ List.mem_cons_self]
            cases hsplit : sub' (path ++ [k]) v.named paths buffers with
            | error e => rfl
            | ok split =>
                have hne := hcontainers _ List.mem_cons_self hcontainer paths buffers split hsplit
                have hset := setElement_container (ne_none_of_blurred hne) hfresh
                simp only [Except.map, bind, Except.bind, blurs, Prod.map]
                rw [hset]
                exact hnext split.1 split.2.1 split.2.2
          · obtain ⟨hnamed, hblurred⟩ := leaf_named (huntupled _ List.mem_cons_self)
              (Bool.eq_false_iff.mpr hcontainer)
            have hlast := hnext v paths buffers
            rw [hblurred] at hlast
            rw [if_neg hcontainer, if_neg hcontainer, hnamed]
            exact hlast
        · cases v with
          | bin b =>
              rw [separateNamed, hx]
              apply htail
              exact hkeys.sublist (List.Sublist.append_left (List.sublist_cons_self _ _) _)
          | scalar s | list xs | tuple xs | dict kvs => simp [isBinary] at hbin

end Loops

/-- The split of a container is a container. -/
theorem isContainer_separate {room : Nat} {ancestors : List (Path × Value)} {path : Path}
    {v : Value} {paths : List Path} {buffers : List Binary} {split : Julia.Split Value}
    (h : splitter.separate room ancestors path v paths buffers = .ok split)
    (hv : Julia.isContainer v = true) : Julia.isContainer split.1 = true := by
  unfold Splitter.separate at h
  rw [hv] at h
  cases room with
  | zero => cases h
  | succ room =>
      simp only [Bool.not_true, Bool.false_eq_true, if_false] at h
      split at h
      · cases h
      · cases v with
        | scalar s | bin b | tuple xs => cases hv
        | list xs =>
            obtain ⟨inner, _, h⟩ := Port.bind_eq_ok_iff.mp h
            cases h
            rfl
        | dict kvs =>
            obtain ⟨inner, _, h⟩ := Port.bind_eq_ok_iff.mp h
            cases h
            rfl

theorem separate_leaf {v : Value} (huntupled : v.Untupled) (hleaf : isContainer v = false)
    (room : Nat) (ancestors : List (Path × Value)) (path : Path) (paths : List Path)
    (buffers : List Binary) :
    separate room (ancestors.map Prod.fst) path v paths buffers =
      (splitter.separate room ancestors path v.named paths buffers).map (blurs blurred) := by
  obtain ⟨hnamed, hblurred⟩ := leaf_named huntupled hleaf
  have hleaf' : Julia.isContainer v.named = false := by rwa [← isContainer_eq]
  unfold separate Splitter.separate
  rw [hleaf, hleaf', hnamed]
  simp [Except.map, hblurred]

/-- R splits what it reads of a state, and blurs what comes out. -/
theorem separate_eq (room : Nat) {v : Value} (hv : v.Wf) (huntupled : v.Untupled)
    (ancestors : List (Path × Value)) (path : Path) (paths : List Path) (buffers : List Binary) :
    separate room (ancestors.map Prod.fst) path v paths buffers =
      (splitter.separate room ancestors path v.named paths buffers).map (blurs blurred) := by
  induction room generalizing v ancestors path paths buffers with
  | zero =>
      by_cases hcontainer : isContainer v = true
      · have hcontainer' : Julia.isContainer v.named = true := by rwa [← isContainer_eq]
        unfold separate Splitter.separate
        rw [hcontainer, hcontainer']
        rfl
      · exact separate_leaf huntupled (Bool.eq_false_iff.mpr hcontainer) 0 ancestors path paths
          buffers
  | succ room ih =>
      by_cases hcontainer : isContainer v = true
      · have hcontainer' : Julia.isContainer v.named = true := by rwa [← isContainer_eq]
        have hsub : ∀ ancestors : List (Path × Value), ∀ kc ∈ v.items,
            Follows (separate room (ancestors.map Prod.fst)) (splitter.separate room ancestors)
              (path ++ [kc.1]) kc.2 := fun ancestors kc hkc =>
          ih (hv.child hkc) (huntupled.child hv hkc) ancestors (path ++ [kc.1])
        have hrevisits : splitter.revisits ancestors path v.named = true ↔
            (ancestors.map Prod.fst).contains path = true := by
          simp [splitter, Splitter.byIdentity, List.mem_map]
        have hloops := hsub ((path, v.named) :: ancestors)
        unfold separate Splitter.separate
        rw [hcontainer, hcontainer']
        simp only [hrevisits, Bool.not_true, Bool.false_eq_true, if_false]
        by_cases hmem : (ancestors.map Prod.fst).contains path = true
        · rw [if_pos hmem, if_pos hmem]
          rfl
        rw [if_neg hmem, if_neg hmem]
        cases v with
        | scalar s | bin b | tuple xs => cases hcontainer
        | dict kvs =>
            have hnodup := (wf_dict_iff.mp hv).1
            have hitems : ∀ kc ∈ kvs, kc.2.Untupled := fun kc hkc => huntupled.child hv hkc
            have hloop := separateNamed_eq [] hnodup (fun kc h => h) hitems hloops
              (fun kc hkc hc paths buffers split h => isContainer_separate h
                (by rwa [← isContainer_eq])) hnodup paths buffers
            refine hloop.trans ?_
            simp only [named, bind, Except.bind]
            cases Splitter.separateMap _ path (namedEntries kvs) [] paths buffers <;> rfl
        | list vs =>
            have hitems : ∀ v ∈ vs, v.Untupled := by
              intro v hmem
              obtain ⟨k, hk⟩ := mem_items_seq hmem
              exact huntupled.child hv hk
            have hloop := separateArray_eq hitems hloops [] paths buffers
            rw [List.map_nil] at hloop
            have hnamed : (Value.list vs).named = .list (vs.map named) := by
              rw [named, namedSeq_eq]
            simp only [List.map_cons] at hloop
            simp only [hloop, hnamed, bind, Except.bind]
            cases Splitter.separateSeq _ path 0 (vs.map named) [] paths buffers with
            | error e => rfl
            | ok split =>
                simp only [Except.map, blurs, Prod.map, pure, Except.pure, blurred,
                  blurredSeq_eq, id]
      · exact separate_leaf huntupled (Bool.eq_false_iff.mpr hcontainer) (room + 1) ancestors path
          paths buffers

/-- What `remove_buffers` returns for a state within the cap. -/
theorem removeBuffers_ok {v : Value} (hv : v.Wf) (huntupled : v.Untupled)
    (hcontainer : v.isContainer = true) (hnesting : v.named.nesting ≤ maxDepth) :
    removeBuffers v = .ok (v.named.strip.blurred, v.named.binaries.map Prod.fst,
      v.named.binaries.map Prod.snd) := by
  have hsplit := Splitter.removeBuffers_ok splitter_discerns (wf_named hv)
    (untupled_named huntupled) ((isContainer_named v).trans hcontainer) hnesting
  have heq := separate_eq (maxDepth + 1) hv huntupled [] [] [] []
  rw [← Splitter.removeBuffers, hsplit] at heq
  exact heq

theorem removeBuffers_too_deep {v : Value} (hv : v.Wf) (huntupled : v.Untupled)
    (hnesting : maxDepth < v.named.nesting) : ∃ e, removeBuffers v = .error e := by
  obtain ⟨path, hsplit⟩ := Splitter.removeBuffers_too_deep
    splitter_discerns (wf_named hv) (untupled_named huntupled) hnesting
  have heq := separate_eq (maxDepth + 1) hv huntupled [] [] [] []
  rw [← Splitter.removeBuffers, hsplit] at heq
  exact ⟨_, heq⟩

end R

end Cositos
