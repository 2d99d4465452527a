/-
The state that dumping and loading hands back, keys in order: taking the binary
values out of a dict and putting them back moves them behind the other values.
-/
import Cositos.Languages
import Mathlib.Data.List.Flatten

namespace Cositos

namespace Value

mutual

/-- A state after dump and load: the binary values of a dict come last, as bytes,
and a tuple on the way to a binary leaf is a list. -/
def restored : Value → Value
  | .scalar s => .scalar s
  | .bin b => .bin ⟨.bytes, b.raw⟩
  | .list xs => .list (restoredSeq xs)
  | .tuple xs => if (binariesSeq 0 xs).isEmpty then .tuple xs else .list (restoredSeq xs)
  | .dict kvs => .dict
      ((restoredEntries kvs).filter (fun kc => !kc.2.isBinary) ++
        (restoredEntries kvs).filter fun kc => kc.2.isBinary)

def restoredSeq : List Value → List Value
  | [] => []
  | x :: xs => restored x :: restoredSeq xs

def restoredEntries : Bindings → Bindings
  | [] => []
  | (k, x) :: kvs => (k, restored x) :: restoredEntries kvs

end

theorem restoredSeq_eq (xs : List Value) : restoredSeq xs = xs.map restored := by
  induction xs with
  | nil => rfl
  | cons x xs ih => simp [restoredSeq, ih]

theorem restoredEntries_eq (kvs : Bindings) :
    restoredEntries kvs = kvs.map (Prod.map id restored) := by
  induction kvs with
  | nil => rfl
  | cons head tail ih => simp [restoredEntries, ih, Prod.map]

theorem isBinary_restored (v : Value) : v.restored.isBinary = v.isBinary := by
  cases v with
  | tuple xs =>
      rw [restored]
      split_ifs <;> rfl
  | scalar s | bin b | list xs | dict kvs => rfl

theorem filter_restoredEntries (p : Bool → Bool) (kvs : Bindings) :
    (restoredEntries kvs).filter (fun kc => p kc.2.isBinary) =
      (kvs.filter fun kc => p kc.2.isBinary).map (Prod.map id restored) := by
  rw [restoredEntries_eq, List.filter_map]
  congr 1
  exact List.filter_congr fun kc _ => by simp [isBinary_restored]

/-- A restored dict: the other values first, then the binary values. -/
theorem restored_dict (kvs : Bindings) : (Value.dict kvs).restored = .dict
    ((kvs.filter fun kc => !kc.2.isBinary).map (Prod.map id restored) ++
      (kvs.filter fun kc => kc.2.isBinary).map (Prod.map id restored)) := by
  have hlast := filter_restoredEntries (fun b => b) kvs
  rw [restored, filter_restoredEntries (!·), hlast]

theorem restored_tuple {xs : List Value} (h : (Value.tuple xs).binaries ≠ []) :
    (Value.tuple xs).restored = .list (restoredSeq xs) := by
  have hleaf : ¬ (binariesSeq 0 xs).isEmpty = true := fun hnil => h (List.isEmpty_iff.mp hnil)
  rw [restored, if_neg hleaf]

theorem restored_tuple_self {xs : List Value} (h : (Value.tuple xs).binaries = []) :
    (Value.tuple xs).restored = .tuple xs := by
  have hleaf : (binariesSeq 0 xs).isEmpty = true := List.isEmpty_iff.mpr h
  rw [restored, if_pos hleaf]

/-- The order of a dict's bindings apart, that is all of them. -/
theorem restored_perm (kvs : Bindings) :
    ((kvs.filter fun kc => !kc.2.isBinary).map (Prod.map id restored) ++
      (kvs.filter fun kc => kc.2.isBinary).map (Prod.map id restored)).Perm
        (kvs.map (Prod.map id restored)) := by
  rw [← List.map_append]
  apply List.Perm.map
  exact (List.perm_append_comm.trans (List.filter_append_perm _ kvs))

theorem lookup_restored {kvs : Bindings} (hkvs : (Dict.keys kvs).Nodup) (k : Key) :
    (Value.dict kvs).restored.child k = (kvs.lookup k).map restored := by
  have hkeys : (Dict.keys (kvs.map (Prod.map id restored))).Nodup := by
    simpa [Dict.keys, Function.comp_def] using hkvs
  have hperm := restored_perm kvs
  have hkeys' := (hperm.map Prod.fst).nodup_iff.mpr hkeys
  rw [restored_dict, child_dict, ← Dict.lookup_map_snd]
  apply Option.ext
  intro c
  rw [Dict.lookup_eq_some_iff hkeys', Dict.lookup_eq_some_iff hkeys, hperm.mem_iff]

theorem wf_restored {v : Value} (hv : v.Wf) : v.restored.Wf := by
  induction v using tree_induction with
  | scalar s | bin b => rfl
  | list xs ih =>
      rw [restored, restoredSeq_eq, wf_list_iff, List.forall_mem_map]
      exact fun x hx => ih x hx (wf_list_iff.mp hv x hx)
  | tuple xs ih =>
      by_cases hleaf : (Value.tuple xs).binaries = []
      · rwa [restored_tuple_self hleaf]
      · rw [restored_tuple hleaf, restoredSeq_eq, wf_list_iff, List.forall_mem_map]
        exact fun x hx => ih x hx (wf_list_iff.mp hv x hx)
  | dict kvs ih =>
      obtain ⟨hkeys, hvalues⟩ := wf_dict_iff.mp hv
      have hperm := restored_perm kvs
      rw [restored_dict]
      refine wf_dict_iff.mpr ⟨?_, fun kc hkc => ?_⟩
      · apply (hperm.map Prod.fst).nodup_iff.mpr
        simpa [Dict.keys, Function.comp_def] using hkeys
      · obtain ⟨kx, hkx, rfl⟩ := List.mem_map.mp (hperm.mem_iff.mp hkc)
        exact ih kx hkx (hvalues kx hkx)

theorem restored_eq_self {v : Value} (h : v.binaries = []) : v.restored = v := by
  induction v using tree_induction with
  | scalar s => rfl
  | bin b => simp [binaries] at h
  | list xs ih =>
      have hmap : xs.map restored = xs := by
        refine (List.map_congr_left fun x hx => ?_).trans (List.map_id xs)
        exact ih x hx (binaries_list_eq_nil_iff.mp h x hx)
      rw [restored, restoredSeq_eq, hmap]
  | tuple xs _ => exact restored_tuple_self h
  | dict kvs ih =>
      have hvalues := binaries_dict_eq_nil_iff.mp h
      have hmap : kvs.map (Prod.map id restored) = kvs := by
        refine (List.map_congr_left fun kc hkc => ?_).trans (List.map_id kvs)
        exact Prod.ext rfl (ih kc hkc (hvalues kc hkc))
      have hfirst : (kvs.filter fun kc => !kc.2.isBinary) = kvs := by
        rw [List.filter_eq_self]
        intro kc hkc
        rw [isBinary_of_binaries_eq_nil (hvalues kc hkc)]
        rfl
      have hlast : (kvs.filter fun kc => kc.2.isBinary) = [] := by
        rw [List.filter_eq_nil_iff]
        intro kc hkc
        simp [isBinary_of_binaries_eq_nil (hvalues kc hkc)]
      rw [restored_dict, hfirst, hlast, hmap]
      simp

theorem child_restored {v : Value} (hv : v.Wf) (k : Key) :
    v.restored.child k = (v.child k).map restored := by
  cases v with
  | scalar s | bin b => simp [restored]
  | list xs => rw [restored, restoredSeq_eq, child_list_map]
  | tuple xs =>
      by_cases hleaf : (Value.tuple xs).binaries = []
      · rw [restored_tuple_self hleaf, child_tuple]
        cases hc : (Value.list xs).child k with
        | none => rfl
        | some c =>
            have hnone := binaries_item_eq_nil (v := .list xs) hleaf (child_seq_iff.mp hc)
            rw [Option.map_some, restored_eq_self hnone]
      · rw [restored_tuple hleaf, restoredSeq_eq, child_list_map, child_tuple]
  | dict kvs => rw [lookup_restored (wf_dict_iff.mp hv).1, child_dict]

/-- Restoring changes nothing but the order of keys. -/
theorem restored_plain {v : Value} (hv : v.Wf) : v.restored.plain ≈ v.plain := by
  induction v using items_induction with
  | step v ih =>
      refine Front.equiv_iff_child.mpr ⟨?_, fun k => ?_⟩
      · cases v with
        | tuple xs =>
            rw [restored]
            split_ifs <;> simp [plain, label, plainSeq_eq, restoredSeq_eq]
        | list xs => simp [restored, plain, label, plainSeq_eq, restoredSeq_eq]
        | scalar s | bin b | dict kvs => rfl
      · rw [child_plain, child_plain, child_restored hv]
        cases hc : v.child k with
        | none => exact .none
        | some c =>
            have hmem := hv.child_iff.mp hc
            exact .some (ih (k, c) hmem (hv.child hmem))

/-- Taking the binary values out again leaves the same stripped state. -/
theorem strip_restored (v : Value) : v.restored.strip = v.strip := by
  induction v using tree_induction with
  | scalar s | bin b => rfl
  | list xs ih =>
      rw [restored, strip, strip, stripSeq_eq, stripSeq_eq, restoredSeq_eq, List.map_map]
      congr 1
      exact List.map_congr_left ih
  | tuple xs ih =>
      by_cases hleaf : (Value.tuple xs).binaries = []
      · rw [restored_tuple_self hleaf]
      · rw [restored_tuple hleaf, strip_tuple_of_binaries hleaf, strip, stripSeq_eq, stripSeq_eq,
          restoredSeq_eq, List.map_map]
        congr 1
        exact List.map_congr_left ih
  | dict kvs ih =>
      have hfirst : stripEntries ((kvs.filter fun kc => !kc.2.isBinary).map
          (Prod.map id restored)) = stripEntries kvs := by
        have hall : (kvs.filter fun kc => !kc.2.isBinary).filter
            ((fun kc => !kc.2.isBinary) ∘ Prod.map id restored) =
              kvs.filter fun kc => !kc.2.isBinary := by
          rw [List.filter_eq_self]
          intro kc hkc
          simpa [isBinary_restored] using (List.mem_filter.mp hkc).2
        rw [stripEntries_eq, stripEntries_eq, List.filter_map, hall, List.map_map]
        refine List.map_congr_left fun kc hkc => ?_
        exact Prod.ext rfl (ih kc (List.mem_filter.mp hkc).1)
      have hlast : stripEntries ((kvs.filter fun kc => kc.2.isBinary).map
          (Prod.map id restored)) = [] := by
        rw [stripEntries_eq, List.filter_map, List.filter_eq_nil_iff.mpr]
        · rfl
        · intro kc hkc
          simp [isBinary_restored, (List.mem_filter.mp hkc).2]
      rw [restored_dict, strip, strip, stripEntries_append, hfirst, hlast, List.append_nil]

/-- The leaves as a document carries them: positions and raw bytes. -/
def rawLeaves (v : Value) : List (Path × Binary) :=
  v.binaries.map (Prod.map id fun b => ⟨.bytes, b.raw⟩)

theorem rawLeaves_eq_items {v : Value} (hv : v.isBinary = false) :
    v.rawLeaves = v.items.flatMap fun kc => kc.2.rawLeaves.map (Prod.map (kc.1 :: ·) id) := by
  rw [rawLeaves, binaries_eq_items hv, List.map_flatMap]
  refine List.flatMap_congr fun kc _ => ?_
  simp [rawLeaves, Function.comp_def, Prod.map]

theorem ne_nil_of_rawLeaves {v : Value} (hv : v.isBinary = false) {leaf : Path × Binary}
    (hleaf : leaf ∈ v.rawLeaves) : leaf.1 ≠ [] := by
  rw [rawLeaves_eq_items hv] at hleaf
  obtain ⟨kc, _, hmem⟩ := List.mem_flatMap.mp hleaf
  obtain ⟨inner, _, rfl⟩ := List.mem_map.mp hmem
  simp

end Value

namespace Buffers

open Value

/-- One buffer put at one recorded position. -/
def putLeaf (v : Value) (leaf : Path × Binary) : Except PyError Value :=
  putAt leaf.2 v (leaf.1.map Key.toValue)

theorem putLeaf_below {obj c c' : Value} {k : Key} {leaf : Path × Binary} (hleaf : leaf.1 ≠ [])
    (hc : obj.child k = some c) (hput : putLeaf c leaf = .ok c') :
    putLeaf obj (k :: leaf.1, leaf.2) = obj.withItem k.toValue c' := by
  have hpath : leaf.1.map Key.toValue ≠ [] := by simpa using hleaf
  rw [putLeaf] at hput
  rw [putLeaf, List.map_cons, putAt_cons hpath, getItem_of_child hc]
  simp only [bind, Except.bind, hput]

/-- Buffers below one child of a container change that child only. -/
theorem foldlM_putLeaf_below {leaves : List (Path × Binary)} {k : Key} {f : Value → Value}
    (hchild : ∀ c, (f c).child k = some c)
    (hwith : ∀ c c', (f c).withItem k.toValue c' = .ok (f c'))
    (hleaves : ∀ leaf ∈ leaves, leaf.1 ≠ []) {c c' : Value}
    (h : leaves.foldlM putLeaf c = .ok c') :
    (leaves.map (Prod.map (k :: ·) id)).foldlM putLeaf (f c) = .ok (f c') := by
  induction leaves generalizing c with
  | nil =>
      cases h
      rfl
  | cons leaf leaves ih =>
      rw [List.foldlM_cons] at h
      obtain ⟨d, hput, hrest⟩ := Port.bind_eq_ok_iff.mp h
      have hstep := putLeaf_below (hleaves leaf List.mem_cons_self) (hchild c) hput
      rw [hwith] at hstep
      rw [List.map_cons, List.foldlM_cons]
      have hhead : putLeaf (f c) (Prod.map (k :: ·) id leaf) = .ok (f d) := hstep
      rw [hhead]
      exact ih (fun leaf hmem => hleaves leaf (List.mem_cons_of_mem _ hmem)) hrest

theorem foldlM_putLeaf_dict {front : Bindings} {k : Key} (hk : k ∉ Dict.keys front)
    (back : Bindings)
    {leaves : List (Path × Binary)} (hleaves : ∀ leaf ∈ leaves, leaf.1 ≠ []) {c c' : Value}
    (h : leaves.foldlM putLeaf c = .ok c') :
    (leaves.map (Prod.map (k :: ·) id)).foldlM putLeaf (.dict (front ++ (k, c) :: back)) =
      .ok (.dict (front ++ (k, c') :: back)) := by
  apply foldlM_putLeaf_below (f := fun c => .dict (front ++ (k, c) :: back)) _ _ hleaves h
  · intro c
    rw [child_dict, List.lookup_append, Dict.lookup_eq_none_iff.mpr hk]
    simp
  · intro c c'
    have hset : (Value.dict (front ++ (k, c) :: back)).withItem k.toValue c' =
        (Value.dict (front ++ (k, c) :: back)).setItem k.toValue c' := rfl
    rw [hset, setItem_dict, Dict.set_middle hk]

theorem foldlM_putLeaf_list {front back : List Value} {leaves : List (Path × Binary)}
    (hleaves : ∀ leaf ∈ leaves, leaf.1 ≠ []) {c c' : Value}
    (h : leaves.foldlM putLeaf c = .ok c') :
    (leaves.map (Prod.map (.int front.length :: ·) id)).foldlM putLeaf
        (.list (front ++ c :: back)) = .ok (.list (front ++ c' :: back)) := by
  apply foldlM_putLeaf_below (f := fun c => .list (front ++ c :: back)) _ _ hleaves h
  · intro c
    simp [child]
  · intro c c'
    have hlt : front.length < (front ++ c :: back).length := by simp
    have hset : (Value.list (front ++ c :: back)).withItem (Key.int front.length).toValue c' =
        (Value.list (front ++ c :: back)).setItem (Key.int front.length).toValue c' := rfl
    rw [hset, setItem_list hlt, List.set_append_right _ _ le_rfl]
    simp

theorem putLeaf_dict_new {kvs : Bindings} {k : Key} (hk : k ∉ Dict.keys kvs) (b : Binary) :
    putLeaf (.dict kvs) ([k], b) = .ok (.dict (kvs ++ [(k, .bin b)])) := by
  rw [putLeaf, List.map_singleton, putAt, setItem_dict, Dict.set_of_not_mem hk]

theorem putLeaf_list_at (front back : List Value) (c : Value) (b : Binary) :
    putLeaf (.list (front ++ c :: back)) ([.int front.length], b) =
      .ok (.list (front ++ .bin b :: back)) := by
  have hlt : front.length < (front ++ c :: back).length := by simp
  rw [putLeaf, List.map_singleton, putAt, setItem_list hlt, List.set_append_right _ _ le_rfl]
  simp

/-- What putting the leaves back makes of a stripped state, keys in order. -/
def Restores (v : Value) : Prop := v.rawLeaves.foldlM putLeaf v.strip = .ok v.restored

theorem restores_entries {kvs : Bindings}
    (hvalues : ∀ kc ∈ kvs, kc.2.isBinary = false → Restores kc.2) (hkvs : (Dict.keys kvs).Nodup)
    (front back : Bindings) (hfront : ∀ k ∈ Dict.keys kvs, k ∉ Dict.keys front)
    (hback : ∀ k ∈ Dict.keys kvs, k ∉ Dict.keys back) :
    (kvs.flatMap fun kc => kc.2.rawLeaves.map (Prod.map (kc.1 :: ·) id)).foldlM putLeaf
        (.dict (front ++ (stripEntries kvs ++ back))) =
      .ok (.dict (front ++ ((kvs.filter fun kc => !kc.2.isBinary).map (Prod.map id restored) ++
        (back ++ (kvs.filter fun kc => kc.2.isBinary).map (Prod.map id restored))))) := by
  induction kvs generalizing front back with
  | nil => simp [stripEntries, pure, Except.pure]
  | cons kc kvs ih =>
      obtain ⟨k, c⟩ := kc
      simp only [Dict.keys_cons, List.nodup_cons, List.forall_mem_cons] at *
      rw [List.flatMap_cons, List.foldlM_append]
      by_cases hbin : c.isBinary = false
      · rw [stripEntries_cons_of_not_binary hbin, List.cons_append]
        have hchild := foldlM_putLeaf_dict hfront.1 (stripEntries kvs ++ back)
          (fun leaf hleaf => ne_nil_of_rawLeaves hbin hleaf) (hvalues.1 hbin)
        rw [hchild]
        have hrest := ih hvalues.2 hkvs.2 (front ++ [(k, c.restored)]) back (by
          intro j hj
          simp only [Dict.keys_append, List.mem_append, Dict.keys_cons, Dict.keys_nil,
            List.mem_singleton, not_or]
          exact ⟨hfront.2 j hj, fun heq => hkvs.1 (heq ▸ hj)⟩) hback.2
        have hfirst : ((k, c) :: kvs).filter (fun kc => !kc.2.isBinary) =
            (k, c) :: kvs.filter fun kc => !kc.2.isBinary :=
          List.filter_cons_of_pos (by simp [hbin])
        have hlast : ((k, c) :: kvs).filter (fun kc => kc.2.isBinary) =
            kvs.filter fun kc => kc.2.isBinary :=
          List.filter_cons_of_neg (by simp [hbin])
        rw [hfirst, hlast]
        simpa [bind, Except.bind] using hrest
      · cases c with
        | bin b =>
            have hnew : k ∉ Dict.keys (front ++ (stripEntries kvs ++ back)) := by
              simp only [Dict.keys_append, List.mem_append, not_or]
              refine ⟨hfront.1, fun hmem => ?_, hback.1⟩
              exact hkvs.1 ((keys_stripEntries_sublist kvs).mem hmem)
            have hput := putLeaf_dict_new hnew ⟨.bytes, b.raw⟩
            have hrest := ih hvalues.2 hkvs.2 front (back ++ [(k, .bin ⟨.bytes, b.raw⟩)])
              hfront.2 (by
              intro j hj
              simp only [Dict.keys_append, List.mem_append, Dict.keys_cons, Dict.keys_nil,
                List.mem_singleton, not_or]
              exact ⟨hback.2 j hj, fun heq => hkvs.1 (heq ▸ hj)⟩)
            have hleaf : ((Value.bin b).rawLeaves.map (Prod.map (k :: ·) id)).foldlM putLeaf
                (.dict (front ++ (stripEntries ((k, .bin b) :: kvs) ++ back))) =
                  putLeaf (.dict (front ++ (stripEntries kvs ++ back))) ([k], ⟨.bytes, b.raw⟩) := by
              simp [rawLeaves, binaries, stripEntries]
            rw [hleaf, hput]
            simpa [bind, Except.bind, isBinary, restored] using hrest
        | scalar s | list xs | tuple xs | dict kvs => simp [isBinary] at hbin

theorem restores_items {xs : List Value}
    (hvalues : ∀ x ∈ xs, x.isBinary = false → Restores x) (front : List Value) :
    ((enumItems front.length xs).flatMap fun kc =>
        kc.2.rawLeaves.map (Prod.map (kc.1 :: ·) id)).foldlM putLeaf
        (.list (front ++ stripSeq xs)) = .ok (.list (front ++ restoredSeq xs)) := by
  induction xs generalizing front with
  | nil => rfl
  | cons x xs ih =>
      rw [List.forall_mem_cons] at hvalues
      rw [enumItems, List.flatMap_cons, List.foldlM_append, stripSeq, restoredSeq]
      have hhead : (x.rawLeaves.map (Prod.map (.int front.length :: ·) id)).foldlM putLeaf
          (.list (front ++ x.strip :: stripSeq xs)) =
            .ok (.list (front ++ x.restored :: stripSeq xs)) := by
        by_cases hbin : x.isBinary = false
        · exact foldlM_putLeaf_list (fun leaf hleaf => ne_nil_of_rawLeaves hbin hleaf)
            (hvalues.1 hbin)
        · cases x with
          | bin b =>
              have hput := putLeaf_list_at front (stripSeq xs) (Value.bin b).strip ⟨.bytes, b.raw⟩
              simp only [rawLeaves, binaries, List.map_cons, List.map_nil, List.foldlM_cons,
                List.foldlM_nil, Prod.map, id, hput, restored, bind, Except.bind, pure, Except.pure]
          | scalar s | list xs | tuple xs | dict kvs => simp [isBinary] at hbin
      have hrest := ih hvalues.2 (front ++ [x.restored])
      rw [List.length_append, List.length_singleton, List.append_assoc, List.append_assoc,
        List.singleton_append, List.singleton_append] at hrest
      rw [hhead]
      exact hrest

/-- Putting the leaves of a state back into its stripped form gives the restored
state, keys in order. -/
theorem restores {v : Value} (hv : v.Wf) (hbin : v.isBinary = false) : Restores v := by
  induction v using tree_induction with
  | scalar s => rfl
  | bin b => simp [isBinary] at hbin
  | list xs ih =>
      rw [Restores, rawLeaves_eq_items rfl]
      exact restores_items (fun x hx hnot => ih x hx (wf_list_iff.mp hv x hx) hnot) []
  | tuple xs ih =>
      by_cases hleaf : (Value.tuple xs).binaries = []
      · rw [Restores, rawLeaves, hleaf, strip_eq_self hleaf, restored_tuple_self hleaf]
        rfl
      · rw [Restores, rawLeaves_eq_items rfl, strip_tuple_of_binaries hleaf, restored_tuple hleaf]
        exact restores_items (fun x hx hnot => ih x hx (wf_list_iff.mp hv x hx) hnot) []
  | dict kvs ih =>
      obtain ⟨hkeys, hvalues⟩ := wf_dict_iff.mp hv
      have hput := restores_entries (fun kc hkc hnot => ih kc hkc (hvalues kc hkc) hnot) hkeys [] []
        (by simp) (by simp)
      simp only [List.nil_append, List.append_nil] at hput
      rw [Restores, rawLeaves_eq_items rfl, restored_dict]
      exact hput

end Buffers

namespace Value

/-! ### When the leaves keep their order -/

mutual

/-- In no dict does a binary value come before a value that contains some. -/
def ordered : Value → Bool
  | .scalar _ | .bin _ => true
  | .list xs | .tuple xs => orderedSeq xs
  | .dict kvs => orderedEntries kvs

def orderedSeq : List Value → Bool
  | [] => true
  | x :: xs => ordered x && orderedSeq xs

def orderedEntries : Bindings → Bool
  | [] => true
  | (_, x) :: kvs => ordered x && orderedEntries kvs &&
      (!x.isBinary || kvs.all fun kc => kc.2.isBinary || kc.2.binaries.isEmpty)

end

theorem orderedSeq_iff {xs : List Value} :
    orderedSeq xs = true ↔ ∀ x ∈ xs, x.ordered = true := by
  induction xs with
  | nil => simp [orderedSeq]
  | cons x xs ih => simp [orderedSeq, ih]

/-- Binary values of a dict stand behind what contains others. -/
def BinariesLast (kvs : Bindings) : Prop :=
  kvs.Pairwise fun kc kd => kc.2.isBinary = true → kd.2.isBinary = false → kd.2.binaries = []

theorem orderedEntries_iff {kvs : Bindings} : orderedEntries kvs = true ↔
    (∀ kc ∈ kvs, kc.2.ordered = true) ∧ BinariesLast kvs := by
  induction kvs with
  | nil => simp [orderedEntries, BinariesLast]
  | cons kc kvs ih =>
      obtain ⟨k, x⟩ := kc
      have hlater : (!x.isBinary || kvs.all fun kc => kc.2.isBinary || kc.2.binaries.isEmpty) =
          true ↔ ∀ kd ∈ kvs, x.isBinary = true → kd.2.isBinary = false → kd.2.binaries = [] := by
        cases hx : x.isBinary with
        | false => simp
        | true =>
            simp only [Bool.not_true, Bool.false_or, List.all_eq_true, Bool.or_eq_true,
              List.isEmpty_iff, forall_const]
            refine forall₂_congr fun kd _ => ?_
            cases kd.2.isBinary <;> simp
      rw [orderedEntries, Bool.and_eq_true, Bool.and_eq_true, ih, hlater, BinariesLast,
        BinariesLast, List.pairwise_cons, List.forall_mem_cons]
      tauto

theorem ordered_of_no_binaries {v : Value} (h : v.binaries = []) : v.ordered = true := by
  induction v using tree_induction with
  | scalar s | bin b => rfl
  | list xs ih | tuple xs ih =>
      rw [ordered, orderedSeq_iff]
      intro x hx
      obtain ⟨k, hk⟩ := mem_items_seq hx
      exact ih x hx (binaries_item_eq_nil h hk)
  | dict kvs ih =>
      have hvalues := binaries_dict_eq_nil_iff.mp h
      rw [ordered, orderedEntries_iff]
      refine ⟨fun kc hkc => ih kc hkc (hvalues kc hkc), ?_⟩
      rw [BinariesLast, List.pairwise_iff_forall_sublist]
      intro kc kd hsub _ _
      exact hvalues kd (hsub.mem (by simp))

/-- The leaves below one item. -/
def leavesAt (kc : Key × Value) : List (Path × Binary) :=
  kc.2.rawLeaves.map (Prod.map (kc.1 :: ·) id)

theorem leavesAt_eq_nil {kc : Key × Value} (h : kc.2.binaries = []) : leavesAt kc = [] := by
  rw [leavesAt, rawLeaves, h]
  rfl

theorem flatMap_leavesAt {kvs : Bindings} (h : BinariesLast kvs) :
    (kvs.filter fun kc => !kc.2.isBinary).flatMap leavesAt ++
      (kvs.filter fun kc => kc.2.isBinary).flatMap leavesAt = kvs.flatMap leavesAt := by
  induction kvs with
  | nil => rfl
  | cons kc kvs ih =>
      obtain ⟨hhead, htail⟩ := List.pairwise_cons.mp h
      cases hbin : kc.2.isBinary with
      | false =>
          rw [List.filter_cons_of_pos (by simp [hbin]), List.filter_cons_of_neg (by simp [hbin]),
            List.flatMap_cons, List.flatMap_cons, List.append_assoc, ih htail]
      | true =>
          have hnone : (kvs.filter fun kc => !kc.2.isBinary).flatMap leavesAt = [] := by
            rw [List.flatMap_eq_nil_iff]
            intro kd hkd
            obtain ⟨hmem, hnot⟩ := List.mem_filter.mp hkd
            exact leavesAt_eq_nil (hhead kd hmem hbin (by simpa using hnot))
          have hrest := ih htail
          rw [hnone, List.nil_append] at hrest
          rw [List.filter_cons_of_neg (by simp [hbin]), List.filter_cons_of_pos (by simp [hbin]),
            hnone, List.flatMap_cons, List.flatMap_cons, hrest, List.nil_append]

theorem binaries_map_restored (kvs : Bindings)
    (h : ∀ kc ∈ kvs, kc.2.restored.binaries = kc.2.rawLeaves) :
    ((kvs.map (Prod.map id restored)).flatMap fun kc =>
      kc.2.binaries.map (Prod.map (kc.1 :: ·) id)) = kvs.flatMap leavesAt := by
  rw [List.flatMap_map]
  refine List.flatMap_congr fun kc hkc => ?_
  rw [leavesAt, ← h kc hkc]
  rfl

/-- In an ordered state the leaves come back in the order they were taken. -/
theorem binaries_restored {v : Value} (h : v.ordered = true) :
    v.restored.binaries = v.rawLeaves := by
  induction v using tree_induction with
  | scalar s | bin b => rfl
  | list xs ih =>
      have hitems : ∀ kc ∈ enumItems 0 xs, kc.2.restored.binaries = kc.2.rawLeaves := by
        rintro ⟨k, x⟩ hkc
        obtain ⟨n, _, hn⟩ := mem_enumItems_iff.mp hkc
        exact ih x (List.mem_of_getElem? hn) (orderedSeq_iff.mp h x (List.mem_of_getElem? hn))
      rw [restored, binaries_eq_items rfl, items, restoredSeq_eq, enumItems_map,
        binaries_map_restored _ hitems, rawLeaves_eq_items rfl]
      rfl
  | tuple xs ih =>
      by_cases hleaf : (Value.tuple xs).binaries = []
      · rw [restored_tuple_self hleaf, rawLeaves, hleaf]
        rfl
      · have hitems : ∀ kc ∈ enumItems 0 xs, kc.2.restored.binaries = kc.2.rawLeaves := by
          rintro ⟨k, x⟩ hkc
          obtain ⟨n, _, hn⟩ := mem_enumItems_iff.mp hkc
          exact ih x (List.mem_of_getElem? hn) (orderedSeq_iff.mp h x (List.mem_of_getElem? hn))
        rw [restored_tuple hleaf, binaries_eq_items rfl, items, restoredSeq_eq, enumItems_map,
          binaries_map_restored _ hitems, rawLeaves_eq_items rfl]
        rfl
  | dict kvs ih =>
      obtain ⟨hvalues, hlast⟩ := orderedEntries_iff.mp h
      have hitems : ∀ kc ∈ kvs, kc.2.restored.binaries = kc.2.rawLeaves :=
        fun kc hkc => ih kc hkc (hvalues kc hkc)
      rw [restored_dict, binaries_eq_items rfl, items, List.flatMap_append,
        binaries_map_restored _ fun kc hkc => hitems kc (List.mem_filter.mp hkc).1,
        binaries_map_restored _ fun kc hkc => hitems kc (List.mem_filter.mp hkc).1,
        flatMap_leavesAt hlast, rawLeaves_eq_items rfl]
      rfl

/-- The paths that start with a key, without it. -/
def pathsBelow (k : Key) (paths : List Path) : List Path :=
  paths.filterMap fun path => if path.head? = some k then some path.tail else none

theorem pathsBelow_self (k : Key) (paths : List Path) :
    pathsBelow k (paths.map (k :: ·)) = paths := by
  rw [pathsBelow, List.filterMap_map]
  simp [Function.comp_def]

theorem pathsBelow_ne {j k : Key} (h : j ≠ k) (paths : List Path) :
    pathsBelow k (paths.map (j :: ·)) = [] := by
  rw [pathsBelow, List.filterMap_map, List.filterMap_eq_nil_iff]
  simp [h]

/-- The paths of the leaves below the items. -/
def itemPaths (kvs : Bindings) : List Path :=
  kvs.flatMap fun kc => (kc.2.binaries.map Prod.fst).map (kc.1 :: ·)

theorem paths_eq_itemPaths {v : Value} (hv : v.isBinary = false) :
    v.binaries.map Prod.fst = itemPaths v.items := by
  rw [binaries_eq_items hv, List.map_flatMap, itemPaths]
  refine List.flatMap_congr fun kc _ => ?_
  simp [Function.comp_def]

theorem pathsBelow_itemPaths {kvs : Bindings} (hkvs : (Dict.keys kvs).Nodup) {k : Key} {c : Value}
    (hmem : (k, c) ∈ kvs) : pathsBelow k (itemPaths kvs) = c.binaries.map Prod.fst := by
  induction kvs with
  | nil => simp at hmem
  | cons kd kvs ih =>
      obtain ⟨hnew, hrest⟩ := List.nodup_cons.mp hkvs
      have hsplit : pathsBelow k (itemPaths (kd :: kvs)) =
          pathsBelow k ((kd.2.binaries.map Prod.fst).map (kd.1 :: ·)) ++
            pathsBelow k (itemPaths kvs) := by
        simp [pathsBelow, itemPaths]
      rw [hsplit]
      rcases List.mem_cons.mp hmem with rfl | hmem
      · have hnone : pathsBelow k (itemPaths kvs) = [] := by
          rw [pathsBelow, List.filterMap_eq_nil_iff]
          intro path hpath
          obtain ⟨ke, hke, hpath⟩ := List.mem_flatMap.mp hpath
          obtain ⟨inner, _, rfl⟩ := List.mem_map.mp hpath
          have hne : ke.1 ≠ k := by
            rintro rfl
            exact hnew (List.mem_map.mpr ⟨ke, hke, rfl⟩)
          simp [hne]
        rw [pathsBelow_self, hnone, List.append_nil]
      · have hne : kd.1 ≠ k := by
          rintro rfl
          exact hnew (List.mem_map.mpr ⟨_, hmem, rfl⟩)
        rw [pathsBelow_ne hne, List.nil_append, ih hrest hmem]

theorem head_mem_of_itemPaths {kvs : Bindings} {k : Key} {path : Path}
    (h : k :: path ∈ itemPaths kvs) : k ∈ Dict.keys kvs := by
  obtain ⟨kc, hkc, hpath⟩ := List.mem_flatMap.mp h
  obtain ⟨inner, _, heq⟩ := List.mem_map.mp hpath
  obtain ⟨rfl, -⟩ := List.cons.inj heq
  exact List.mem_map.mpr ⟨kc, hkc, rfl⟩

theorem itemPaths_append (kvs kvs' : Bindings) :
    itemPaths (kvs ++ kvs') = itemPaths kvs ++ itemPaths kvs' := by
  simp [itemPaths]

theorem not_mem_keys_restored {kvs : Bindings} (hkvs : (Dict.keys kvs).Nodup) {k : Key} {c : Value}
    (hmem : (k, c) ∈ kvs) {p : Value → Bool} (hp : p c = false) :
    k ∉ Dict.keys ((kvs.filter fun kc => p kc.2).map (Prod.map id restored)) := by
  intro hkey
  obtain ⟨entry, hentry, hfst⟩ := List.mem_map.mp hkey
  obtain ⟨kd, hkd, rfl⟩ := List.mem_map.mp hentry
  obtain ⟨hkd, hpd⟩ := List.mem_filter.mp hkd
  have hsame : kd = (k, c) := List.inj_on_of_nodup_map hkvs hkd hmem hfst
  rw [hsame, hp] at hpd
  cases hpd

/-- A binary value before a value that contains some comes back behind it. -/
theorem binariesLast_of_paths {kvs : Bindings} (hkvs : (Dict.keys kvs).Nodup)
    (h : (Value.dict kvs).restored.binaries.map Prod.fst = (Value.dict kvs).binaries.map Prod.fst) :
    BinariesLast kvs := by
  rw [BinariesLast, List.pairwise_iff_forall_sublist]
  rintro ⟨k, c⟩ ⟨j, d⟩ hsub hc hd
  by_contra hne
  obtain ⟨leaf, rest, hleaves⟩ := List.exists_cons_of_ne_nil hne
  have hbefore : [[k], j :: leaf.1].Sublist ((Value.dict kvs).binaries.map Prod.fst) := by
    rw [paths_eq_itemPaths rfl]
    have hpair : [[k], j :: leaf.1].Sublist (itemPaths [(k, c), (j, d)]) := by
      cases c with
      | bin b => simp [itemPaths, binaries, hleaves]
      | scalar s | list xs | tuple xs | dict kvs => simp [isBinary] at hc
    exact hpair.trans (List.Sublist.flatMap hsub _)
  rw [← h, restored_dict, paths_eq_itemPaths rfl, items, itemPaths_append] at hbefore
  have hkmem : (k, c) ∈ kvs := hsub.mem (by simp)
  have hjmem : (j, d) ∈ kvs := hsub.mem (by simp)
  have hk := not_mem_keys_restored (p := fun x => !x.isBinary) hkvs hkmem (by simpa using hc)
  have hj := not_mem_keys_restored (p := isBinary) hkvs hjmem hd
  obtain ⟨front, back, heq, hfront, hback⟩ := List.sublist_append_iff.mp hbefore
  cases front with
  | nil =>
      rw [List.nil_append] at heq
      have hmem : j :: leaf.1 ∈ back := heq ▸ List.mem_cons_of_mem _ List.mem_cons_self
      exact hj (head_mem_of_itemPaths (hback.mem hmem))
  | cons path front =>
      obtain ⟨rfl, -⟩ := List.cons.inj heq
      exact hk (head_mem_of_itemPaths (hfront.mem List.mem_cons_self))

/-- Leaves that come back in their order were taken from an ordered state. -/
theorem ordered_of_paths {v : Value} (hv : v.Wf)
    (h : v.restored.binaries.map Prod.fst = v.binaries.map Prod.fst) : v.ordered = true := by
  induction v using items_induction with
  | step v ih =>
      by_cases hnil : v.binaries = []
      · exact ordered_of_no_binaries hnil
      by_cases hbin : v.isBinary = false
      · have hbin' := (isBinary_restored v).trans hbin
        have hvalues : ∀ kc ∈ v.items, kc.2.ordered = true := by
          rintro ⟨k, c⟩ hkc
          apply ih (k, c) hkc (hv.child hkc)
          have hchild : v.restored.child k = some c.restored := by
            rw [child_restored hv, hv.child_iff.mpr hkc]
            rfl
          have hwf := wf_restored hv
          have hmem := hwf.child_iff.mp hchild
          rw [← pathsBelow_itemPaths (wf_iff.mp hv).1 hkc,
            ← pathsBelow_itemPaths (wf_iff.mp hwf).1 hmem, ← paths_eq_itemPaths hbin,
            ← paths_eq_itemPaths hbin', h]
        cases v with
        | scalar s | bin b => rfl
        | list xs | tuple xs =>
            rw [ordered, orderedSeq_iff]
            intro x hx
            obtain ⟨k, hk⟩ := mem_items_seq hx
            exact hvalues (k, x) hk
        | dict kvs =>
            rw [ordered, orderedEntries_iff]
            exact ⟨hvalues, binariesLast_of_paths (wf_dict_iff.mp hv).1 h⟩
      · cases v <;> first | rfl | simp [isBinary] at hbin

end Value

end Cositos
