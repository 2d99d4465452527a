/-
What the split computes on a tree: the state with its binary values taken out,
and the binary leaves with their positions.
-/
import Cositos.Walk

namespace Cositos

namespace Value

mutual

/-- A state with its binary values taken out: gone from a dict, `None` in a
list.  A tuple that held one comes back as a list. -/
def strip : Value → Value
  | .scalar s => .scalar s
  | .bin _ => Value.none
  | .list xs => .list (stripSeq xs)
  | .tuple xs => if (binariesSeq 0 xs).isEmpty then .tuple xs else .list (stripSeq xs)
  | .dict kvs => .dict (stripEntries kvs)

def stripSeq : List Value → List Value
  | [] => []
  | x :: xs => strip x :: stripSeq xs

def stripEntries : Bindings → Bindings
  | [] => []
  | (_, .bin _) :: kvs => stripEntries kvs
  | (k, x) :: kvs => (k, strip x) :: stripEntries kvs

end

theorem stripSeq_eq (xs : List Value) : stripSeq xs = xs.map strip := by
  induction xs with
  | nil => rfl
  | cons x xs ih => simp [stripSeq, ih]

theorem stripEntries_cons_of_not_binary {x : Value} (hx : x.isBinary = false) (k : Key)
    (kvs : Bindings) : stripEntries ((k, x) :: kvs) = (k, strip x) :: stripEntries kvs := by
  cases x <;> first | rfl | simp [isBinary] at hx

theorem stripEntries_eq (kvs : Bindings) :
    stripEntries kvs =
      (kvs.filter fun kc => !kc.2.isBinary).map (Prod.map id strip) := by
  induction kvs with
  | nil => rfl
  | cons head tail ih =>
      obtain ⟨k, x⟩ := head
      by_cases hx : x.isBinary = false
      · rw [stripEntries_cons_of_not_binary hx]
        simp [hx, ih]
      · cases x <;> simp_all [isBinary, stripEntries]

theorem stripEntries_append (kvs kvs' : Bindings) :
    stripEntries (kvs ++ kvs') = stripEntries kvs ++ stripEntries kvs' := by
  simp [stripEntries_eq]

theorem keys_stripEntries_sublist (kvs : Bindings) :
    (Dict.keys (stripEntries kvs)).Sublist (Dict.keys kvs) := by
  have hkeys : Dict.keys (stripEntries kvs) =
      Dict.keys (kvs.filter fun kc => !kc.2.isBinary) := by
    simp [stripEntries_eq, Dict.keys, Function.comp_def]
  rw [hkeys]
  exact Dict.keys_filter_sublist _ kvs

theorem isBinary_of_binaries_eq_nil {v : Value} (h : v.binaries = []) :
    v.isBinary = false := by
  cases v <;> first | rfl | simp [binaries] at h

theorem binaries_item_eq_nil {v : Value} (h : v.binaries = []) {kc : Key × Value}
    (hkc : kc ∈ v.items) : kc.2.binaries = [] := by
  rw [binaries_eq_items (isBinary_of_binaries_eq_nil h)] at h
  simpa using List.flatMap_eq_nil_iff.mp h kc hkc

theorem binaries_list_eq_nil_iff {xs : List Value} :
    (Value.list xs).binaries = [] ↔ ∀ x ∈ xs, x.binaries = [] := by
  constructor
  · intro h x hx
    obtain ⟨k, hk⟩ := mem_items_seq hx
    exact binaries_item_eq_nil h hk
  · intro h
    rw [binaries_eq_items rfl, List.flatMap_eq_nil_iff]
    intro kc hkc
    obtain ⟨n, _, hn⟩ := mem_enumItems_iff.mp hkc
    simp [h kc.2 (List.mem_of_getElem? hn)]

theorem binaries_dict_eq_nil_iff {kvs : Bindings} :
    (Value.dict kvs).binaries = [] ↔ ∀ kc ∈ kvs, kc.2.binaries = [] := by
  rw [binaries_eq_items rfl]
  simp [List.flatMap_eq_nil_iff, items]

/-- A state without binary values is left alone. -/
theorem strip_eq_self {v : Value} (h : v.binaries = []) : v.strip = v := by
  induction v using tree_induction with
  | scalar s => rfl
  | bin b => simp [binaries] at h
  | list xs ih =>
      have hmap : xs.map strip = xs := by
        refine (List.map_congr_left fun x hx => ?_).trans (List.map_id xs)
        exact ih x hx (binaries_list_eq_nil_iff.mp h x hx)
      simp [strip, stripSeq_eq, hmap]
  | tuple xs _ =>
      have hxs : binariesSeq 0 xs = [] := h
      simp [strip, hxs]
  | dict kvs ih =>
      have hvalues := binaries_dict_eq_nil_iff.mp h
      have hkeep : kvs.filter (fun kc => !kc.2.isBinary) = kvs := by
        apply List.filter_eq_self.mpr
        intro kc hkc
        simp [isBinary_of_binaries_eq_nil (hvalues kc hkc)]
      have hmap : kvs.map (Prod.map id strip) = kvs := by
        refine (List.map_congr_left fun kc hkc => ?_).trans (List.map_id kvs)
        exact Prod.ext rfl (ih kc hkc (hvalues kc hkc))
      simp [strip, stripEntries_eq, hkeep, hmap]

end Value

namespace Buffers

open Value

theorem Clone.toValueSeq_eq (xs : List (Clone Value)) :
    Clone.toValueSeq xs = xs.map Clone.toValue := by
  induction xs with
  | nil => rfl
  | cons x xs ih => simp [Clone.toValueSeq, ih]

theorem Clone.toValueEntries_eq (kvs : List (Key × Clone Value)) :
    Clone.toValueEntries kvs = kvs.map (Prod.map id Clone.toValue) := by
  induction kvs with
  | nil => rfl
  | cons head tail ih => simp [Clone.toValueEntries, ih, Prod.map]

theorem items_treeObjects (v : Value) : items treeObjects v = v.items := by
  cases v <;> rfl

theorem isContainer_treeObjects (v : Value) :
    (treeObjects.node v).isContainer = v.isContainer := by
  cases v <;> rfl

/-- The clone of `v` half way through its pairs: `done` is stripped, `rest` is
still as it was. -/
def HalfStripped (v : Value) (done rest : Bindings) (c : Clone Value) : Prop :=
  match v with
  | .dict _ => ∃ kvs, c = .dict kvs ∧
      Clone.toValueEntries kvs = stripEntries done ++ rest
  | _ => ∃ xs, c = .list xs ∧
      Clone.toValueSeq xs = (done.map fun kc => strip kc.2) ++ rest.map Prod.snd

section HalfStripped

variable {v x : Value} {done rest : Bindings} {k : Key} {c : Clone Value}

theorem map_enumItems {α β : Type} (f : α → β) (i : Nat) (xs : List α) :
    ((enumItems i xs).map fun kc => f kc.2) = xs.map f := by
  induction xs generalizing i with
  | nil => rfl
  | cons x xs ih => simp [enumItems, ih]

theorem halfStripped_clone (hv : v.isContainer = true) :
    HalfStripped v [] v.items (clone treeObjects v) := by
  cases v with
  | scalar s => simp [isContainer] at hv
  | bin b => simp [isContainer] at hv
  | list xs =>
      refine ⟨_, rfl, ?_⟩
      have hvalues := map_enumItems (id : Value → Value) 0 xs
      simpa [Clone.toValueSeq_eq, Value.items, Clone.toValue, Function.comp_def]
        using hvalues.symm
  | tuple xs =>
      refine ⟨_, rfl, ?_⟩
      have hvalues := map_enumItems (id : Value → Value) 0 xs
      simpa [Clone.toValueSeq_eq, Value.items, Clone.toValue, Function.comp_def]
        using hvalues.symm
  | dict kvs =>
      exact ⟨_, rfl, by
        simp [Clone.toValueEntries_eq, Value.items, Clone.toValue, stripEntries, Prod.map,
          Function.comp_def]⟩

/-- A pair whose value is unchanged by stripping may be passed over. -/
theorem HalfStripped.skip (hx : x.binaries = [])
    (h : HalfStripped v done ((k, x) :: rest) c) :
    HalfStripped v (done ++ [(k, x)]) rest c := by
  have hbin := isBinary_of_binaries_eq_nil hx
  have hstrip := strip_eq_self hx
  cases v with
  | dict kvs =>
      obtain ⟨es, rfl, hes⟩ := h
      refine ⟨es, rfl, ?_⟩
      rw [hes, stripEntries_append, stripEntries_cons_of_not_binary hbin, hstrip]
      simp [stripEntries]
  | _ =>
      obtain ⟨xs, rfl, hxs⟩ := h
      exact ⟨xs, rfl, by simp [hxs, hstrip]⟩

theorem enumItems_split {α : Type} {i : Nat} {xs : List α} {done rest : List (Key × α)}
    {k : Key} {x : α} (h : enumItems i xs = done ++ (k, x) :: rest) :
    k = .int ((i + done.length : Nat) : Int) := by
  induction done generalizing i xs with
  | nil =>
      cases xs with
      | nil => simp [enumItems] at h
      | cons y ys =>
          simp only [enumItems, List.nil_append, List.cons.injEq, Prod.mk.injEq] at h
          exact h.1.1.symm
  | cons head tail ih =>
      cases xs with
      | nil => simp [enumItems] at h
      | cons y ys =>
          simp only [enumItems, List.cons_append, List.cons.injEq] at h
          rw [ih h.2, List.length_cons, Nat.add_right_comm, Nat.add_assoc]

/-- In a sequence the next pair's key is the number of pairs passed. -/
theorem key_of_items_split (hv : ∀ kvs, v ≠ .dict kvs)
    (hitems : v.items = done ++ (k, x) :: rest) : k = .int (done.length : Int) := by
  cases v with
  | scalar s => simp [Value.items] at hitems
  | bin b => simp [Value.items] at hitems
  | list xs => simpa using enumItems_split hitems
  | tuple xs => simpa using enumItems_split hitems
  | dict kvs => exact absurd rfl (hv kvs)

/-- In a dict the next pair's key is not among the keys passed. -/
theorem key_not_mem_stripEntries (hv : v.Wf) (hitems : v.items = done ++ (k, x) :: rest) :
    k ∉ Dict.keys (stripEntries done) := by
  have hnodup := (wf_iff.mp hv).1
  rw [hitems, Dict.keys_append, Dict.keys_cons] at hnodup
  intro hk
  have hmem := (keys_stripEntries_sublist done).subset hk
  exact (List.nodup_append.mp hnodup).2.2 k hmem k List.mem_cons_self rfl

/-- In a sequence the next pair is stripped by what is written at its place. -/
theorem HalfStripped.set_seq (hv : ∀ kvs, v ≠ .dict kvs)
    (hitems : v.items = done ++ (k, x) :: rest) {y : Clone Value} (hy : y.toValue = x.strip)
    (h : HalfStripped v done ((k, x) :: rest) c) :
    ∃ xs, c = .list xs ∧ k = .int (done.length : Int) ∧
      HalfStripped v (done ++ [(k, x)]) rest (.list (xs.set done.length y)) := by
  have hkey := key_of_items_split hv hitems
  cases v with
  | dict kvs => exact absurd rfl (hv kvs)
  | _ =>
      obtain ⟨xs, rfl, hxs⟩ := h
      refine ⟨xs, rfl, hkey, xs.set done.length y, rfl, ?_⟩
      rw [Clone.toValueSeq_eq] at hxs ⊢
      rw [List.map_set, hxs]
      simp [hy]

/-- `_extract_binary` strips the next pair when its value is binary. -/
theorem HalfStripped.extract (hv : v.Wf) (hitems : v.items = done ++ (k, x) :: rest)
    (hx : x.isBinary = true) (h : HalfStripped v done ((k, x) :: rest) c) :
    HalfStripped v (done ++ [(k, x)]) rest (extractBinary c k) := by
  have hstrip : x.strip = Value.none := by cases x <;> first | rfl | simp [isBinary] at hx
  by_cases hdict : ∃ kvs, v = .dict kvs
  · obtain ⟨kvs, rfl⟩ := hdict
    obtain ⟨es, rfl, hes⟩ := h
    refine ⟨Dict.erase es k, by cases k <;> rfl, ?_⟩
    rw [Clone.toValueEntries_eq] at hes ⊢
    rw [← Dict.erase_map_snd, hes,
      Dict.erase_middle (key_not_mem_stripEntries hv hitems), stripEntries_append]
    cases x <;> simp [isBinary, stripEntries] at hx ⊢
  · have hne : ∀ kvs, v ≠ .dict kvs := fun kvs hkvs => hdict ⟨kvs, hkvs⟩
    have hnone : Clone.none.toValue = x.strip := hstrip.symm
    obtain ⟨xs, rfl, rfl, hset⟩ := h.set_seq hne hitems hnone
    exact hset

/-- Writing back a child's clone strips the next pair. -/
theorem HalfStripped.set (hv : v.Wf) (hitems : v.items = done ++ (k, x) :: rest)
    (hx : x.isBinary = false) {nested : Clone Value} (hnested : nested.toValue = x.strip)
    (h : HalfStripped v done ((k, x) :: rest) c) :
    HalfStripped v (done ++ [(k, x)]) rest (setItem c k nested) := by
  by_cases hdict : ∃ kvs, v = .dict kvs
  · obtain ⟨kvs, rfl⟩ := hdict
    obtain ⟨es, rfl, hes⟩ := h
    refine ⟨Dict.set es k nested, by cases k <;> rfl, ?_⟩
    rw [Clone.toValueEntries_eq] at hes ⊢
    rw [← Dict.set_map_snd, hes,
      Dict.set_middle (key_not_mem_stripEntries hv hitems), stripEntries_append,
      stripEntries_cons_of_not_binary hx, hnested]
    simp [stripEntries]
  · have hne : ∀ kvs, v ≠ .dict kvs := fun kvs hkvs => hdict ⟨kvs, hkvs⟩
    obtain ⟨xs, rfl, rfl, hset⟩ := h.set_seq hne hitems hnested
    exact hset

theorem HalfStripped.toValue (hv : v.isContainer = true) (hbin : v.binaries ≠ [])
    (h : HalfStripped v v.items [] c) : c.toValue = v.strip := by
  cases v with
  | scalar s => simp [isContainer] at hv
  | bin b => simp [isContainer] at hv
  | list xs =>
      obtain ⟨ys, rfl, hys⟩ := h
      simp [Clone.toValue, hys, strip, stripSeq_eq, Value.items, map_enumItems strip]
  | tuple xs =>
      obtain ⟨ys, rfl, hys⟩ := h
      have hleaf : binariesSeq 0 xs ≠ [] := hbin
      simp [Clone.toValue, hys, strip, stripSeq_eq, Value.items, map_enumItems strip, hleaf]
  | dict kvs =>
      obtain ⟨es, rfl, hes⟩ := h
      simp [Clone.toValue, hes, strip, Value.items]

end HalfStripped

/-- A visit's result for `v`: a clone that holds the stripped state, or none at
all when there was nothing to strip. -/
structure Strips (v : Value) (cloned : Option (Clone Value)) : Prop where
  none_iff : cloned = none ↔ v.binaries = []
  toValue : ∀ c, cloned = some c → c.toValue = v.strip

/-- A leaf's position below `v`, moved below the path of `v`. -/
abbrev leavesAt (path : Path) (v : Value) : List (Path × Binary) :=
  v.binaries.map (Prod.map (path ++ ·) id)

theorem leavesAt_append_singleton (path : Path) (k : Key) (v : Value) :
    leavesAt (path ++ [k]) v = (v.binaries.map (Prod.map (k :: ·) id)).map
      (Prod.map (path ++ ·) id) := by
  simp [leavesAt, List.map_map, Function.comp_def, Prod.map]

theorem leavesAt_items {v : Value} (hv : v.isContainer = true) (path : Path) :
    leavesAt path v = v.items.flatMap fun kc => leavesAt (path ++ [kc.1]) kc.2 := by
  have hbin : v.isBinary = false := by cases v <;> first | rfl | simp [isContainer] at hv
  rw [leavesAt, binaries_eq_items hbin, List.map_flatMap]
  simp only [leavesAt_append_singleton]

/-- The pairs of a tree's container are run through without error when its
child containers are; the invariant is `HalfStripped`. -/
theorem visitItems_tree {v : Value} (hv : v.Wf) {path : Path}
    {sub : Key → Value → Except PyError (Visited Value)} (rest : Bindings)
    (hsub : ∀ kc ∈ rest, kc.2.isContainer = true →
      ∃ nested, sub kc.1 kc.2 = .ok (nested, leavesAt (path ++ [kc.1]) kc.2) ∧
        Strips kc.2 nested)
    (done : Bindings) (hitems : v.items = done ++ rest) (cloned : Option (Clone Value))
    (hhalf : HalfStripped v done rest (cloned.getD (clone treeObjects v)))
    (hnone : cloned = none ↔ ∀ kc ∈ done, kc.2.binaries = []) :
    ∃ result,
      visitItems treeObjects v path sub rest cloned =
          .ok (result, rest.flatMap fun kc => leavesAt (path ++ [kc.1]) kc.2) ∧
        HalfStripped v v.items [] (result.getD (clone treeObjects v)) ∧
        (result = none ↔ ∀ kc ∈ v.items, kc.2.binaries = []) := by
  induction rest generalizing done cloned with
  | nil =>
      rw [List.append_nil] at hitems
      subst hitems
      exact ⟨cloned, rfl, hhalf, hnone⟩
  | cons head tail ih =>
      obtain ⟨k, x⟩ := head
      have hsub' : ∀ kc ∈ tail, kc.2.isContainer = true →
          ∃ nested, sub kc.1 kc.2 = .ok (nested, leavesAt (path ++ [kc.1]) kc.2) ∧
            Strips kc.2 nested := fun kc hkc => hsub kc (List.mem_cons_of_mem _ hkc)
      have hitems' : v.items = (done ++ [(k, x)]) ++ tail := by simp [hitems]
      have hdone : (∀ kc ∈ done ++ [(k, x)], kc.2.binaries = []) ↔
          (∀ kc ∈ done, kc.2.binaries = []) ∧ x.binaries = [] := by
        rw [List.forall_mem_append, List.forall_mem_singleton]
      have hskip : x.binaries = [] → ∃ result,
          visitItems treeObjects v path sub tail cloned =
              .ok (result, tail.flatMap fun kc => leavesAt (path ++ [kc.1]) kc.2) ∧
            HalfStripped v v.items [] (result.getD (clone treeObjects v)) ∧
            (result = none ↔ ∀ kc ∈ v.items, kc.2.binaries = []) := fun hx =>
        ih hsub' (done ++ [(k, x)]) hitems' cloned (hhalf.skip hx) (by
          rw [hnone, hdone]
          simp [hx])
      by_cases hcontainer : x.isContainer = true
      · obtain ⟨nested, hok, hstrips⟩ := hsub (k, x) List.mem_cons_self hcontainer
        rw [visitItems_container _ ((isContainer_treeObjects x).trans hcontainer), hok]
        have hrest : ∃ result,
            visitItems treeObjects v path sub tail (nextClone treeObjects v cloned k nested) =
                .ok (result, tail.flatMap fun kc => leavesAt (path ++ [kc.1]) kc.2) ∧
              HalfStripped v v.items [] (result.getD (clone treeObjects v)) ∧
              (result = none ↔ ∀ kc ∈ v.items, kc.2.binaries = []) := by
          cases nested with
          | none => exact hskip (hstrips.none_iff.mp rfl)
          | some c =>
              have hx : x.isBinary = false := by
                cases x <;> first | rfl | simp [isContainer] at hcontainer
              refine ih hsub' (done ++ [(k, x)]) hitems' _
                (hhalf.set hv hitems hx (hstrips.toValue c rfl)) ?_
              have hleaf : x.binaries ≠ [] := fun h => by simpa using hstrips.none_iff.mpr h
              rw [hdone]
              simp [nextClone, hleaf]
        obtain ⟨result, hresult, hfinal⟩ := hrest
        refine ⟨result, ?_, hfinal⟩
        rw [List.flatMap_cons]
        simp [hresult, bind, Except.bind, pure, Except.pure]
      · cases x with
        | scalar s =>
            obtain ⟨result, hresult, hfinal⟩ := hskip rfl
            exact ⟨result, by simpa [visitItems, treeObjects, leavesAt, binaries] using hresult,
              hfinal⟩
        | bin b =>
            obtain ⟨result, hresult, hfinal⟩ := ih hsub' (done ++ [(k, .bin b)]) hitems'
              (some (extractBinary (cloned.getD (clone treeObjects v)) k))
              (hhalf.extract hv hitems rfl) (by rw [hdone]; simp [binaries])
            refine ⟨result, ?_, hfinal⟩
            simp only [visitItems, treeObjects] at hresult ⊢
            simp [hresult, leavesAt, binaries, bind, Except.bind, pure, Except.pure]
        | _ => simp [isContainer] at hcontainer

theorem visit_tree_of_children {n : Nat} {v : Value} (hv : v.Wf)
    (hcontainer : v.isContainer = true) {ancestors : List Path} {path : Path}
    (hsub : ∀ kc ∈ v.items, kc.2.isContainer = true →
      ∃ nested, visitChild treeObjects n ancestors path kc.1 kc.2 =
          .ok (nested, leavesAt (path ++ [kc.1]) kc.2) ∧ Strips kc.2 nested) :
    ∃ cloned, visit treeObjects n ancestors path v = .ok (cloned, leavesAt path v) ∧
      Strips v cloned := by
  obtain ⟨result, hresult, hhalf, hnone⟩ := visitItems_tree hv v.items hsub [] rfl none
    (halfStripped_clone hcontainer) (by simp)
  have hbin : v.isBinary = false := by
    cases v <;> first | rfl | simp [isContainer] at hcontainer
  have hleaves : v.binaries = [] ↔ ∀ kc ∈ v.items, kc.2.binaries = [] := by
    rw [binaries_eq_items hbin]
    simp [List.flatMap_eq_nil_iff]
  refine ⟨result, ?_, hnone.trans hleaves.symm, ?_⟩
  · rw [visit_eq, items_treeObjects, hresult, leavesAt_items hcontainer]
  · rintro c rfl
    refine hhalf.toValue hcontainer fun hnil => ?_
    simpa using hnone.mpr (hleaves.mp hnil)

/-- In a tree no position is its own ancestor, so the cycle test never fires. -/
theorem child_not_mem_ancestors {ancestors : List Path} {path : Path}
    (hancestors : ∀ a ∈ ancestors, a.length ≤ path.length) (k : Key) :
    path ++ [k] ∉ ancestors := by
  intro hmem
  have := hancestors _ hmem
  simp only [List.length_append, List.length_singleton] at this
  omega

theorem ancestors_append {ancestors : List Path} {path : Path}
    (hancestors : ∀ a ∈ ancestors, a.length ≤ path.length) (k : Key) :
    ∀ a ∈ ancestors ++ [path ++ [k]], a.length ≤ (path ++ [k]).length := by
  intro a ha
  rcases List.mem_append.mp ha with hold | hnew
  · have := hancestors a hold
    simp only [List.length_append, List.length_singleton]
    omega
  · rw [List.mem_singleton.mp hnew]

/-- Within the depth cap the visit of a tree strips it and finds its leaves. -/
theorem visit_tree (n : Nat) {v : Value} (hv : v.Wf) (hcontainer : v.isContainer = true)
    (hheight : v.height ≤ n + 1) {ancestors : List Path} {path : Path}
    (hancestors : ∀ a ∈ ancestors, a.length ≤ path.length) :
    ∃ cloned, visit treeObjects n ancestors path v = .ok (cloned, leavesAt path v) ∧
      Strips v cloned := by
  induction n generalizing v ancestors path with
  | zero =>
      refine visit_tree_of_children hv hcontainer fun kc hkc hc => ?_
      have hzero := height_le_succ_iff.mp hheight kc hkc
      have hpos := height_pos_iff.mpr hc
      omega
  | succ n ih =>
      refine visit_tree_of_children hv hcontainer fun kc hkc hc => ?_
      have hnot := child_not_mem_ancestors hancestors kc.1
      simp only [visitChild, treeObjects, hnot, ↓reduceIte]
      exact ih (hv.child hkc) hc (height_le_succ_iff.mp hheight kc hkc)
        (ancestors_append hancestors kc.1)

theorem visitItems_error {v : Value} {path : Path}
    {sub : Key → Value → Except PyError (Visited Value)} {kvs : Bindings}
    (hsub : ∀ kc ∈ kvs, kc.2.isContainer = true →
      (∃ r, sub kc.1 kc.2 = .ok r) ∨ ∃ p, sub kc.1 kc.2 = .error (.nesting p))
    {deep : Key × Value} (hdeep : deep ∈ kvs) (hcontainer : deep.2.isContainer = true)
    {p : Path} (herror : sub deep.1 deep.2 = .error (.nesting p))
    (cloned : Option (Clone Value)) :
    ∃ q, visitItems treeObjects v path sub kvs cloned = .error (.nesting q) := by
  induction kvs generalizing cloned with
  | nil => simp at hdeep
  | cons head tail ih =>
      obtain ⟨k, x⟩ := head
      have hsub' : ∀ kc ∈ tail, kc.2.isContainer = true →
          (∃ r, sub kc.1 kc.2 = .ok r) ∨ ∃ p, sub kc.1 kc.2 = .error (.nesting p) :=
        fun kc hkc => hsub kc (List.mem_cons_of_mem _ hkc)
      by_cases hx : x.isContainer = true
      · rw [visitItems_container _ ((isContainer_treeObjects x).trans hx)]
        rcases hsub (k, x) List.mem_cons_self hx with ⟨⟨nested, inner⟩, hok⟩ | ⟨q, hq⟩
        · have htail : deep ∈ tail := by
            rcases List.mem_cons.mp hdeep with rfl | h
            · rw [herror] at hok
              cases hok
            · exact h
          obtain ⟨q, hq⟩ := ih hsub' htail (nextClone treeObjects v cloned k nested)
          exact ⟨q, by simp [hok, hq, bind, Except.bind]⟩
        · exact ⟨q, by simp [hq, bind, Except.bind]⟩
      · have htail : deep ∈ tail := by
          rcases List.mem_cons.mp hdeep with rfl | h
          · exact absurd hcontainer hx
          · exact h
        cases x with
        | scalar s => simpa [visitItems, treeObjects] using ih hsub' htail cloned
        | bin b =>
            obtain ⟨q, hq⟩ := ih hsub' htail
              (some (extractBinary (cloned.getD (clone treeObjects v)) k))
            simp only [treeObjects] at hq
            exact ⟨q, by simp [visitItems, treeObjects, hq, bind, Except.bind]⟩
        | _ => simp [isContainer] at hx

theorem exists_deep_item {n : Nat} {v : Value} (hheight : n + 1 < v.height) :
    ∃ deep ∈ v.items, n < deep.2.height := by
  by_contra hno
  simp only [not_exists, not_and, Nat.not_lt] at hno
  have := height_le_succ_iff.mpr hno
  omega

/-- Beyond the cap the visit raises, naming the nesting and never a cycle. -/
theorem visit_tree_too_deep (n : Nat) {v : Value} (hv : v.Wf) (hheight : n + 1 < v.height)
    {ancestors : List Path} {path : Path}
    (hancestors : ∀ a ∈ ancestors, a.length ≤ path.length) :
    ∃ p, visit treeObjects n ancestors path v = .error (.nesting p) := by
  induction n generalizing v ancestors path with
  | zero =>
      obtain ⟨deep, hmem, hlt⟩ := exists_deep_item hheight
      rw [visit_eq, items_treeObjects]
      exact visitItems_error (fun kc _ _ => Or.inr ⟨path, rfl⟩) hmem
        (height_pos_iff.mp hlt) rfl _
  | succ n ih =>
      obtain ⟨deep, hmem, hlt⟩ := exists_deep_item hheight
      have hchild : ∀ kc : Key × Value,
          visitChild treeObjects (n + 1) ancestors path kc.1 kc.2 =
            visit treeObjects n (ancestors ++ [path ++ [kc.1]]) (path ++ [kc.1]) kc.2 := by
        intro kc
        have hnot := child_not_mem_ancestors hancestors kc.1
        simp [visitChild, treeObjects, hnot]
      obtain ⟨p, hp⟩ := ih (hv.child hmem) hlt (ancestors_append hancestors deep.1)
      rw [visit_eq, items_treeObjects]
      refine visitItems_error (fun kc hkc hc => ?_) hmem
        (height_pos_iff.mp (by omega)) ((hchild deep).trans hp) _
      by_cases hle : kc.2.height ≤ n + 1
      · obtain ⟨cloned, hok, _⟩ := visit_tree n (hv.child hkc) hc hle
          (ancestors_append hancestors kc.1)
        exact Or.inl ⟨_, (hchild kc).trans hok⟩
      · obtain ⟨q, hq⟩ := ih (hv.child hkc) (by omega) (ancestors_append hancestors kc.1)
        exact Or.inr ⟨q, (hchild kc).trans hq⟩

/-- The split of a container within the cap: the stripped state, and its binary
leaves in order. -/
theorem removeBuffers_container {v : Value} (hv : v.Wf) (hcontainer : v.isContainer = true)
    (hnesting : v.nesting ≤ maxDepth) :
    removeBuffers v =
      .ok (v.strip, v.binaries.map Prod.fst, v.binaries.map Prod.snd) := by
  have hroot : ∀ a ∈ [([] : Path)], a.length ≤ ([] : Path).length := by simp
  obtain ⟨cloned, hvisit, hstrips⟩ := visit_tree maxDepth hv hcontainer
    (nesting_le_iff.mp hnesting) hroot
  have hvalue : (cloned.getD (.same v)).toValue = v.strip := by
    cases cloned with
    | none => exact (strip_eq_self (hstrips.none_iff.mp rfl)).symm
    | some c => exact hstrips.toValue c rfl
  have hleaves : leavesAt [] v = v.binaries :=
    (List.map_congr_left fun _ _ => rfl).trans (List.map_id v.binaries)
  rw [hleaves] at hvisit
  rw [removeBuffers, separate_eq_visit _ _ ((isContainer_treeObjects v).trans hcontainer)]
  simp only [treeObjects] at hvisit ⊢
  simp [hvisit, Except.map, bind, Except.bind, pure, Except.pure, hvalue]

/-- Beyond the cap the split raises a `ValueError` about the nesting. -/
theorem removeBuffers_too_deep {v : Value} (hv : v.Wf) (hnesting : maxDepth < v.nesting) :
    ∃ p, removeBuffers v = .error (.nesting p) := by
  have hheight : maxDepth + 1 < v.height := by
    unfold nesting at hnesting
    omega
  have hcontainer : v.isContainer = true := height_pos_iff.mp (by omega)
  have hroot : ∀ a ∈ [([] : Path)], a.length ≤ ([] : Path).length := by simp
  obtain ⟨p, hp⟩ := visit_tree_too_deep maxDepth hv hheight hroot
  refine ⟨p, ?_⟩
  rw [removeBuffers, separate_eq_visit _ _ ((isContainer_treeObjects v).trans hcontainer)]
  simp only [treeObjects] at hp ⊢
  simp [hp, Except.map, bind, Except.bind]

end Buffers

end Cositos
