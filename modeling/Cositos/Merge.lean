/-
What the merge does to a tree, read through positions, and the round trip:
putting the split-off buffers back gives the state again.
-/
import Cositos.Split
import Mathlib.Tactic.Tauto

namespace Cositos

namespace Value

mutual

/-- A state as it comes back from split and merge: a tuple on the way to a
binary leaf is read as a list. -/
def listed : Value → Value
  | .scalar s => .scalar s
  | .bin b => .bin b
  | .list xs => .list (listedSeq xs)
  | .tuple xs => if (binariesSeq 0 xs).isEmpty then .tuple xs else .list (listedSeq xs)
  | .dict kvs => .dict (listedEntries kvs)

def listedSeq : List Value → List Value
  | [] => []
  | x :: xs => listed x :: listedSeq xs

def listedEntries : Bindings → Bindings
  | [] => []
  | (k, x) :: kvs => (k, listed x) :: listedEntries kvs

end

theorem listedSeq_eq (xs : List Value) : listedSeq xs = xs.map listed := by
  induction xs with
  | nil => rfl
  | cons x xs ih => simp [listedSeq, ih]

theorem listedEntries_eq (kvs : Bindings) :
    listedEntries kvs = kvs.map (Prod.map id listed) := by
  induction kvs with
  | nil => rfl
  | cons head tail ih => simp [listedEntries, ih, Prod.map]

/-- A state without binary values is read as it is. -/
theorem listed_eq_self {v : Value} (h : v.binaries = []) : v.listed = v := by
  induction v using tree_induction with
  | scalar s => rfl
  | bin b => rfl
  | list xs ih =>
      have hmap : xs.map listed = xs := by
        refine (List.map_congr_left fun x hx => ?_).trans (List.map_id xs)
        exact ih x hx (binaries_list_eq_nil_iff.mp h x hx)
      simp [listed, listedSeq_eq, hmap]
  | tuple xs _ =>
      have hxs : binariesSeq 0 xs = [] := h
      simp [listed, hxs]
  | dict kvs ih =>
      have hmap : kvs.map (Prod.map id listed) = kvs := by
        refine (List.map_congr_left fun kc hkc => ?_).trans (List.map_id kvs)
        exact Prod.ext rfl (ih kc hkc (binaries_dict_eq_nil_iff.mp h kc hkc))
      simp [listed, listedEntries_eq, hmap]

theorem child_list_map (f : Value → Value) (xs : List Value) (k : Key) :
    (Value.list (xs.map f)).child k = ((Value.list xs).child k).map f := by
  match k with
  | .int (.ofNat n) => simp [child]
  | .int (.negSucc _) | .none | .frac _ | .str _ | .other _ => rfl

theorem child_listed (v : Value) (k : Key) :
    v.listed.child k = (v.child k).map listed := by
  cases v with
  | scalar s => simp [listed]
  | bin b => simp [listed]
  | list xs => simp [listed, listedSeq_eq, child_list_map]
  | tuple xs =>
      rw [child_tuple]
      by_cases h : binariesSeq 0 xs = []
      · have hself : (Value.tuple xs).listed = .tuple xs := listed_eq_self h
        rw [hself, child_tuple]
        cases hc : (Value.list xs).child k with
        | none => rfl
        | some c =>
            have hleaf := binaries_item_eq_nil (v := .list xs) h (child_seq_iff.mp hc)
            simp [listed_eq_self hleaf]
      · simp [listed, h, listedSeq_eq, child_list_map]
  | dict kvs => simp [listed, listedEntries_eq, Dict.lookup_map_snd]

/-- The child of a stripped state, where it is not a binary value. -/
theorem child_strip {v : Value} (hv : v.Wf) {k : Key}
    (hbin : ∀ b, v.child k ≠ some (.bin b)) :
    v.strip.child k = (v.child k).map strip := by
  cases v with
  | scalar s => simp [strip]
  | bin b => simp [strip]
  | list xs => simp [strip, stripSeq_eq, child_list_map]
  | tuple xs =>
      rw [child_tuple]
      by_cases h : binariesSeq 0 xs = []
      · have hself : (Value.tuple xs).strip = .tuple xs := strip_eq_self h
        rw [hself, child_tuple]
        cases hc : (Value.list xs).child k with
        | none => rfl
        | some c =>
            have hleaf := binaries_item_eq_nil (v := .list xs) h (child_seq_iff.mp hc)
            simp [strip_eq_self hleaf]
      · simp [strip, h, stripSeq_eq, child_list_map]
  | dict kvs =>
      simp only [strip, stripEntries_eq, child_dict, Dict.lookup_map_snd] at hbin ⊢
      congr 1
      apply Option.ext
      intro c
      have hnodup := (wf_dict_iff.mp hv).1
      have hfilter : (Dict.keys (kvs.filter fun kc => !kc.2.isBinary)).Nodup :=
        hnodup.sublist (Dict.keys_filter_sublist _ kvs)
      rw [Dict.lookup_eq_some_iff hnodup, Dict.lookup_eq_some_iff hfilter, List.mem_filter]
      refine ⟨fun h => h.1, fun h => ⟨h, ?_⟩⟩
      have hc := (Dict.lookup_eq_some_iff hnodup).mpr h
      cases c with
      | bin b => exact absurd hc (hbin b)
      | _ => rfl

/-! ### Positions a merge may write -/

/-- A position a merge can write: a key of a dict, or an index of a list. -/
def Settable (v : Value) (path : Path) : Prop :=
  ∃ front last, path = front ++ [last] ∧
    (v.look front = some .dict ∨
      ∃ length index : Nat, v.look front = some (.list length) ∧
        last = .int index ∧ index < length)

theorem look_cons_of_child {v c : Value} {k : Key} (h : v.child k = some c) (path : Path) :
    v.look (k :: path) = c.look path := by
  simp [look, h]

theorem not_settable_nil {v : Value} : ¬ v.Settable [] := by
  rintro ⟨front, last, heq, -⟩
  simp at heq

/-- A settable position is one step away, or settable below a child. -/
theorem Settable.cons {v : Value} {key : Key} {path : Path} (h : v.Settable (key :: path)) :
    (path = [] ∧ ((∃ kvs, v = .dict kvs) ∨
      ∃ xs, ∃ n : Nat, v = .list xs ∧ key = .int n ∧ n < xs.length)) ∨
    (path ≠ [] ∧ ∃ c, v.child key = some c ∧ c.Settable path) := by
  obtain ⟨front, last, heq, hparent⟩ := h
  cases front with
  | nil =>
      obtain ⟨rfl, rfl⟩ := List.cons.inj heq
      refine Or.inl ⟨rfl, ?_⟩
      rcases hparent with hdict | ⟨length, index, hlist, rfl, hlt⟩
      · cases v <;> simp [look, label] at hdict
        exact Or.inl ⟨_, rfl⟩
      · cases v <;> simp [look, label] at hlist
        subst hlist
        exact Or.inr ⟨_, index, rfl, rfl, hlt⟩
  | cons key' front =>
      obtain ⟨rfl, rfl⟩ := List.cons.inj heq
      refine Or.inr ⟨by simp, ?_⟩
      cases hc : v.child key with
      | none => simp [look, hc] at hparent
      | some c =>
          simp only [look_cons_of_child hc] at hparent
          exact ⟨c, rfl, front, last, rfl, hparent⟩

theorem Settable.child {v c : Value} {key : Key} {path : Path} (h : v.Settable (key :: path))
    (hpath : path ≠ []) (hc : v.child key = some c) : c.Settable path := by
  rcases h.cons with ⟨hnil, -⟩ | ⟨-, c', hc', hbelow⟩
  · exact absurd hnil hpath
  · rw [hc] at hc'
    exact Option.some.inj hc' ▸ hbelow

theorem Settable.isContainer {v : Value} {path : Path} (h : v.Settable path) :
    v.isContainer = true := by
  cases path with
  | nil => exact absurd h not_settable_nil
  | cons key path =>
      rcases h.cons with ⟨_, ⟨kvs, rfl⟩ | ⟨xs, _, rfl, _⟩⟩ | ⟨_, c, hc, _⟩
      · rfl
      · rfl
      · cases v with
        | scalar s | bin b => simp at hc
        | list xs | tuple xs | dict kvs => rfl

theorem look_bin (b : Binary) (path : Path) :
    (Value.bin b).look path = if path = [] then some (.bin b) else none := by
  cases path <;> simp [look, label]

theorem look_append_of_bin {v : Value} {path : Path} {b : Binary}
    (h : v.look path = some (.bin b)) (rest : Path) :
    v.look (path ++ rest) = (Value.bin b).look rest := by
  induction path generalizing v with
  | nil =>
      cases v <;> simp [look, label] at h
      subst h
      rfl
  | cons k path ih =>
      obtain ⟨c, hc, hlook⟩ := Option.bind_eq_some_iff.mp h
      rw [List.cons_append, look_cons_of_child hc]
      exact ih hlook

/-- A leaf is no prefix of another leaf. -/
theorem leaf_eq_of_below {v : Value} {path path' : Path} {b b' : Binary}
    (h : v.look path = some (.bin b)) (h' : v.look path' = some (.bin b'))
    (hpre : path <+: path') : path = path' := by
  obtain ⟨rest, rfl⟩ := hpre
  rw [look_append_of_bin h, look_bin] at h'
  by_cases hrest : rest = []
  · simp [hrest]
  · simp [hrest] at h'

theorem look_listed_of_leaf {v : Value} {path : Path} {b : Binary}
    (h : v.look path = some (.bin b)) : v.listed.look path = some (.bin b) := by
  induction path generalizing v with
  | nil =>
      cases v <;> simp [look, label] at h
      subst h
      rfl
  | cons k path ih =>
      obtain ⟨c, hc, hlook⟩ := Option.bind_eq_some_iff.mp h
      have hc' : v.listed.child k = some c.listed := by simp [child_listed, hc]
      rw [look_cons_of_child hc']
      exact ih hlook

/-- Away from the leaves, stripping and listing look alike. -/
theorem look_strip_eq_listed {v : Value} (hv : v.Wf) {path : Path}
    (hno : ∀ front b, v.look front = some (.bin b) → ¬ front <+: path) :
    v.strip.look path = v.listed.look path := by
  induction path generalizing v with
  | nil =>
      cases v with
      | bin b => exact absurd List.nil_prefix (hno [] b rfl)
      | scalar s => rfl
      | list xs => simp [look, label, strip, listed, stripSeq_eq, listedSeq_eq]
      | tuple xs =>
          by_cases h : binariesSeq 0 xs = [] <;>
            simp [look, label, strip, listed, stripSeq_eq, listedSeq_eq, h]
      | dict kvs => simp [look, label, strip, listed]
  | cons k path ih =>
      have hbin : ∀ b, v.child k ≠ some (.bin b) := by
        intro b hc
        refine hno [k] b ?_ (by simp)
        rw [look_cons_of_child hc]
        rfl
      rw [look, look, child_strip hv hbin, child_listed]
      cases hc : v.child k with
      | none => rfl
      | some c =>
          refine ih (hv.child (hv.child_iff.mp hc)) fun front b hfront hpre => ?_
          refine hno (k :: front) b ?_ ?_
          · rw [look_cons_of_child hc]
            exact hfront
          · simpa using hpre

/-- Above its leaves a state without tuples over them looks as it did before the split. -/
theorem look_strip_above {v : Value} (hv : v.Wf) (hlisted : v.listed = v) {front rest : Path}
    {key : Key} {b : Binary} (hleaf : v.look (front ++ key :: rest) = some (.bin b)) :
    v.strip.look front = v.look front := by
  have habove : ∀ above b', v.look above = some (.bin b') → ¬ above <+: front := by
    intro above b' habove hpre
    have hsame := leaf_eq_of_below habove hleaf
      (hpre.trans (List.prefix_append front (key :: rest)))
    have hlen := hpre.length_le
    rw [hsame, List.length_append, List.length_cons] at hlen
    omega
  rw [look_strip_eq_listed hv habove, hlisted]

/-- A leaf's position can be written once the tuples above it are lists. -/
theorem settable_listed {v : Value} {front : Path} {last : Key} {b : Binary}
    (h : v.look (front ++ [last]) = some (.bin b)) :
    v.listed.look front = some .dict ∨
      ∃ length index : Nat, v.listed.look front = some (.list length) ∧
        last = .int index ∧ index < length := by
  induction front generalizing v with
  | nil =>
      obtain ⟨c, hc, hlook⟩ := Option.bind_eq_some_iff.mp h
      cases v with
      | scalar s => simp at hc
      | bin b' => simp at hc
      | list xs =>
          obtain ⟨n, rfl, hn⟩ := mem_enumItems_iff.mp (child_seq_iff.mp hc)
          refine Or.inr ⟨xs.length, n, ?_, by simp, (List.getElem?_eq_some_iff.mp hn).1⟩
          simp [look, label, listed, listedSeq_eq]
      | tuple xs =>
          rw [child_tuple] at hc
          have hmem := child_seq_iff.mp hc
          obtain ⟨n, rfl, hn⟩ := mem_enumItems_iff.mp hmem
          have hne : binariesSeq 0 xs ≠ [] := by
            intro hnil
            have := binaries_item_eq_nil (v := .list xs) hnil hmem
            cases c <;> simp [look, label, binaries] at hlook this
          refine Or.inr ⟨xs.length, n, ?_, by simp, (List.getElem?_eq_some_iff.mp hn).1⟩
          simp [look, label, listed, listedSeq_eq, hne]
      | dict kvs => exact Or.inl rfl
  | cons k front ih =>
      obtain ⟨c, hc, hlook⟩ := Option.bind_eq_some_iff.mp h
      have hc' : v.listed.child k = some c.listed := by simp [child_listed, hc]
      simp only [look_cons_of_child hc']
      exact ih hlook

/-! ### Subscripts on positions -/

@[simp] theorem hashKey_toValue (k : Key) : hashKey k.toValue = .ok k := by
  cases k with
  | frac q => simp [Key.toValue, hashKey, Scalar.key, Key.ofRat, q.2]
  | _ => rfl

theorem seqIndex_ofNat {length n : Nat} (h : n < length) :
    seqIndex length (Key.int (n : Int)).toValue = .ok n := by
  simp [Key.toValue, seqIndex, indexOf, h]

/-- `w` is `v` with the child under `k` replaced. -/
def Assigns (v : Value) (k : Key) (c w : Value) : Prop :=
  w.label = v.label ∧ ∀ j, w.child j = if j = k then some c else v.child j

theorem Assigns.look_cons {v c w : Value} {k : Key} (h : Assigns v k c w) (j : Key)
    (path : Path) : w.look (j :: path) = if j = k then c.look path else v.look (j :: path) := by
  rw [look, h.2]
  by_cases hj : j = k <;> simp [hj, look]

theorem child_list_set {xs : List Value} {n : Nat} (hn : n < xs.length) (c : Value)
    (j : Key) :
    (Value.list (xs.set n c)).child j =
      if j = .int (n : Int) then some c else (Value.list xs).child j := by
  match j with
  | .int (.ofNat m) =>
      by_cases h : m = n
      · subst h
        simp [child, hn]
      · have h' : ¬ n = m := fun heq => h heq.symm
        have hkey : ¬ Key.int (Int.ofNat m) = .int (n : Int) := fun heq =>
          h (Int.ofNat.inj (Key.int.inj heq))
        simp only [child, List.getElem?_set, h', hkey, ↓reduceIte]
  | .int (.negSucc m) =>
      have h : ¬ (Key.int (.negSucc m) = .int (n : Int)) := by
        simp only [Key.int.injEq]
        omega
      simp [child, h]
  | .none | .frac _ | .str _ | .other _ => simp [child]

theorem assigns_dict (kvs : Bindings) (k : Key) (c : Value) :
    Assigns (.dict kvs) k c (.dict (Dict.set kvs k c)) :=
  ⟨rfl, fun j => by simp [Dict.lookup_set]⟩

theorem assigns_list {xs : List Value} {n : Nat} (hn : n < xs.length) (c : Value) :
    Assigns (.list xs) (.int (n : Int)) c (.list (xs.set n c)) :=
  ⟨by simp [label], child_list_set hn c⟩

/-- `obj[key]` at an occupied position. -/
theorem getItem_of_child {v c : Value} {k : Key} (h : v.child k = some c) :
    v.getItem k.toValue = .ok c := by
  have hseq : ∀ xs : List Value, (Value.list xs).child k = some c →
      seqItem xs k.toValue = .ok c := by
    intro xs hc
    obtain ⟨n, rfl, hn⟩ := mem_enumItems_iff.mp (child_seq_iff.mp hc)
    have hlt := (List.getElem?_eq_some_iff.mp hn).1
    have hindex := seqIndex_ofNat hlt
    simp only [Nat.zero_add]
    rw [seqItem, hindex]
    simp [bind, Except.bind, hn, pure, Except.pure]
  cases v with
  | scalar s => simp at h
  | bin b => simp at h
  | list xs => exact hseq xs h
  | tuple xs => exact hseq xs (child_tuple xs k ▸ h)
  | dict kvs =>
      rw [child_dict] at h
      simp [getItem, bind, Except.bind, h, pure, Except.pure]

theorem setItem_dict (kvs : Bindings) (k : Key) (c : Value) :
    (Value.dict kvs).setItem k.toValue c = .ok (.dict (Dict.set kvs k c)) := by
  simp [setItem, bind, Except.bind, pure, Except.pure]

theorem setItem_list {xs : List Value} {n : Nat} (hn : n < xs.length) (c : Value) :
    (Value.list xs).setItem (Key.int (n : Int)).toValue c = .ok (.list (xs.set n c)) := by
  rw [setItem, seqIndex_ofNat hn]
  rfl

/-- Mutating the child at an occupied position replaces it. -/
theorem withItem_of_child {v c : Value} {k : Key} (h : v.child k = some c) (c' : Value) :
    ∃ w, v.withItem k.toValue c' = .ok w ∧ Assigns v k c' w := by
  cases v with
  | scalar s => simp at h
  | bin b => simp at h
  | list xs =>
      obtain ⟨n, rfl, hn⟩ := mem_enumItems_iff.mp (child_seq_iff.mp h)
      have hlt := (List.getElem?_eq_some_iff.mp hn).1
      simp only [Nat.zero_add]
      refine ⟨.list (xs.set n c'), ?_, assigns_list hlt c'⟩
      rw [withItem, setItem_list hlt]
      simp
  | tuple xs =>
      rw [child_tuple] at h
      obtain ⟨n, rfl, hn⟩ := mem_enumItems_iff.mp (child_seq_iff.mp h)
      have hlt := (List.getElem?_eq_some_iff.mp hn).1
      have hindex := seqIndex_ofNat hlt
      simp only [Nat.zero_add]
      refine ⟨.tuple (xs.set n c'), ?_, by simp [label], fun j => ?_⟩
      · rw [withItem, hindex]
        rfl
      · rw [child_tuple, child_tuple]
        exact child_list_set hlt c' j
  | dict kvs =>
      refine ⟨.dict (Dict.set kvs k c'), ?_, assigns_dict kvs k c'⟩
      rw [withItem, setItem_dict]
      simp

end Value

namespace Buffers

open Value

/-- `w` is `v` with a buffer at `path`: nothing else below, nothing changed
elsewhere. -/
def Writes (v : Value) (path : Path) (b : Binary) (w : Value) : Prop :=
  (∀ rest, w.look (path ++ rest) = (Value.bin b).look rest) ∧
    ∀ other, ¬ path <+: other → w.look other = v.look other

theorem writes_singleton {v w : Value} {k : Key} {b : Binary}
    (hw : v.Assigns k (.bin b) w) : Writes v [k] b w := by
  refine ⟨fun rest => by simp [hw.look_cons], fun other hother => ?_⟩
  cases other with
  | nil => simp [look, hw.1]
  | cons j path =>
      have hne : j ≠ k := by
        rintro rfl
        exact hother (by simp)
      simp [hw.look_cons, hne]

theorem writes_cons {v c c' w : Value} {k : Key} {path : Path} {b : Binary}
    (hc : v.child k = some c) (hwrites : Writes c path b c') (hw : v.Assigns k c' w) :
    Writes v (k :: path) b w := by
  refine ⟨fun rest => ?_, fun other hother => ?_⟩
  · simpa [hw.look_cons] using hwrites.1 rest
  · cases other with
    | nil => simp [look, hw.1]
    | cons j other =>
        by_cases hj : j = k
        · subst hj
          rw [hw.look_cons, if_pos rfl, look_cons_of_child hc]
          exact hwrites.2 other fun hpre => hother (by simpa using hpre)
        · simp [hw.look_cons, hj]

theorem putAt_cons {b : Binary} {obj key : Value} {path : List Value} (hpath : path ≠ []) :
    putAt b obj (key :: path) =
      (do
        let child ← obj.getItem key
        let child ← putAt b child path
        obj.withItem key child) := by
  cases path with
  | nil => exact absurd rfl hpath
  | cons head tail => rfl

/-- A buffer can be written at every settable position. -/
theorem putAt_settable {v : Value} {path : Path} (h : v.Settable path) (b : Binary) :
    ∃ w, putAt b v (path.map Key.toValue) = .ok w ∧ Writes v path b w := by
  induction path generalizing v with
  | nil => exact absurd h not_settable_nil
  | cons key path ih =>
      rcases h.cons with ⟨rfl, ⟨kvs, rfl⟩ | ⟨xs, n, rfl, rfl, hlt⟩⟩ | ⟨hpath, c, hc, hbelow⟩
      · exact ⟨_, setItem_dict kvs key _, writes_singleton (assigns_dict kvs key _)⟩
      · exact ⟨_, setItem_list hlt _, writes_singleton (assigns_list hlt _)⟩
      · obtain ⟨c', hput, hwrites⟩ := ih hbelow
        obtain ⟨w, hwith, hw⟩ := withItem_of_child hc c'
        refine ⟨w, ?_, writes_cons hc hwrites hw⟩
        rw [List.map_cons, putAt_cons (by simpa using hpath), getItem_of_child hc]
        simp only [bind, Except.bind]
        rw [hput]
        exact hwith

theorem settable_of_writes {v w : Value} {path path' : Path} {b : Binary}
    (hwrites : Writes v path b w) (hno : ¬ path <+: path') (h : v.Settable path') :
    w.Settable path' := by
  obtain ⟨front, last, rfl, hparent⟩ := h
  have hfront : ¬ path <+: front := fun hpre =>
    hno (hpre.trans (List.prefix_append front [last]))
  exact ⟨front, last, rfl, by rwa [hwrites.2 front hfront]⟩

/-- Buffers written at positions none of which lies below another. -/
def Incomparable (leaves : List (Path × Binary)) : Prop :=
  leaves.Pairwise fun left right => ¬ left.1 <+: right.1 ∧ ¬ right.1 <+: left.1

/-- `w` is `v` with each of the leaves at its position, unchanged elsewhere. -/
def Merges (v : Value) (leaves : List (Path × Binary)) (w : Value) : Prop :=
  (∀ leaf ∈ leaves, ∀ rest, w.look (leaf.1 ++ rest) = (Value.bin leaf.2).look rest) ∧
    ∀ path, (∀ leaf ∈ leaves, ¬ leaf.1 <+: path) → w.look path = v.look path

/-- Let `put` write a buffer wherever `S` allows it, and `S` survive writes
elsewhere.  Then `put` merges buffers at incomparable positions. -/
theorem foldlM_merges {ε : Type} {S : Value → Path → Prop}
    {put : Value → Path × Binary → Except ε Value}
    (hput : ∀ v leaf, S v leaf.1 → ∃ w, put v leaf = .ok w ∧ Writes v leaf.1 leaf.2 w)
    (hkeep : ∀ v w path path' b, Writes v path b w → ¬ path <+: path' → S v path' → S w path')
    (leaves : List (Path × Binary)) {v : Value} (hset : ∀ leaf ∈ leaves, S v leaf.1)
    (hincomparable : Incomparable leaves) :
    ∃ w, leaves.foldlM put v = .ok w ∧ Merges v leaves w := by
  induction leaves generalizing v with
  | nil => exact ⟨v, rfl, by simp, fun _ _ => rfl⟩
  | cons head tail ih =>
      obtain ⟨hhead, htail⟩ := List.pairwise_cons.mp hincomparable
      obtain ⟨v', hput', hwrites⟩ := hput v head (hset _ List.mem_cons_self)
      have hset' : ∀ leaf ∈ tail, S v' leaf.1 := fun leaf hleaf =>
        hkeep v v' _ _ _ hwrites (hhead leaf hleaf).1 (hset leaf (List.mem_cons_of_mem _ hleaf))
      obtain ⟨w, hrest, hleaves, helse⟩ := ih hset' htail
      refine ⟨w, ?_, ?_, fun other hother => ?_⟩
      · rw [List.foldlM_cons, hput']
        exact hrest
      · intro leaf hleaf rest
        rcases List.mem_cons.mp hleaf with rfl | hleaf
        · rw [helse]
          · exact hwrites.1 rest
          · intro other hother hpre
            rcases List.prefix_or_prefix_of_prefix hpre (List.prefix_append leaf.1 rest)
              with h | h
            · exact (hhead other hother).2 h
            · exact (hhead other hother).1 h
        · exact hleaves leaf hleaf rest
      · rw [helse other fun leaf hleaf => hother leaf (List.mem_cons_of_mem _ hleaf)]
        exact hwrites.2 other (hother _ List.mem_cons_self)

/-- A merge that succeeds is a run over the pairs, one buffer at a time. -/
@[elab_as_elim]
theorem putBuffers_run {motive : Value → List Value → List Binary → Value → Prop}
    (nil : ∀ v, motive v [] [] v)
    (cons : ∀ {v path paths b buffers segments v' w}, path.segments = .ok segments →
      putAt b v segments = .ok v' → motive v' paths buffers w →
      motive v (path :: paths) (b :: buffers) w)
    {v w : Value} {paths : List Value} {buffers : List Binary}
    (h : putBuffers v paths buffers = .ok w) : motive v paths buffers w := by
  induction paths generalizing v buffers with
  | nil =>
      cases buffers with
      | nil =>
          cases h
          exact nil _
      | cons b buffers => cases h
  | cons path paths ih =>
      cases buffers with
      | nil => cases h
      | cons b buffers =>
          simp only [putBuffers, bind, Except.bind] at h
          cases hsegments : path.segments with
          | error e => simp only [hsegments, reduceCtorEq] at h
          | ok segments =>
              simp only [hsegments] at h
              cases hput : putAt b v segments with
              | error e => simp only [hput, reduceCtorEq] at h
              | ok v' =>
                  simp only [hput] at h
                  exact cons hsegments hput (ih h)

theorem length_of_putBuffers {v w : Value} {paths : List Value} {buffers : List Binary}
    (h : putBuffers v paths buffers = .ok w) : paths.length = buffers.length := by
  refine putBuffers_run (fun _ => rfl) ?_ h
  intro v path paths b buffers segments v' w _ _ hlength
  rw [List.length_cons, List.length_cons, hlength]

theorem putBuffers_eq_foldlM (leaves : List (Path × Binary)) (v : Value) :
    putBuffers v (leaves.map fun leaf => leaf.1.toValue) (leaves.map Prod.snd) =
      leaves.foldlM (fun v leaf => putAt leaf.2 v (leaf.1.map Key.toValue)) v := by
  induction leaves generalizing v with
  | nil => rfl
  | cons head tail ih =>
      simp only [List.map_cons, putBuffers, Path.toValue, segments, bind, Except.bind,
        List.foldlM_cons]
      cases putAt head.2 v (head.1.map Key.toValue) with
      | error e => rfl
      | ok w => exact ih w

/-- The merge of buffers at settable, incomparable positions succeeds. -/
theorem putBuffers_leaves (leaves : List (Path × Binary)) {v : Value}
    (hset : ∀ leaf ∈ leaves, v.Settable leaf.1) (hincomparable : Incomparable leaves) :
    ∃ w, putBuffers v (leaves.map fun leaf => leaf.1.toValue) (leaves.map Prod.snd) = .ok w ∧
      Merges v leaves w := by
  rw [putBuffers_eq_foldlM]
  apply foldlM_merges _ _ leaves hset hincomparable
  · exact fun v leaf h => putAt_settable h leaf.2
  · exact fun v w path path' b => settable_of_writes

/-! ### The round trip -/

theorem incomparable_binaries {v : Value} (hv : v.Wf) : Incomparable v.binaries := by
  have hnodup := List.pairwise_map.mp (nodup_paths_binaries hv)
  refine hnodup.imp_of_mem ?_
  rintro ⟨path, b⟩ ⟨path', b'⟩ hleft hright hne
  have hl := (mem_binaries_iff hv).mp hleft
  have hr := (mem_binaries_iff hv).mp hright
  exact ⟨fun h => hne (leaf_eq_of_below hl hr h),
    fun h => hne (leaf_eq_of_below hr hl h).symm⟩

theorem settable_strip {v : Value} (hv : v.Wf) (hcontainer : v.isContainer = true)
    {path : Path} {b : Binary} (hleaf : v.look path = some (.bin b)) :
    v.strip.Settable path := by
  have hne : path ≠ [] := by
    rintro rfl
    cases v <;> simp [look, label, isContainer] at hleaf hcontainer
  refine ⟨path.dropLast, path.getLast hne, (List.dropLast_append_getLast hne).symm, ?_⟩
  have hsplit := List.dropLast_append_getLast hne
  rw [look_strip_eq_listed hv]
  · exact settable_listed (b := b) (by rw [hsplit]; exact hleaf)
  · intro front b' hfront hpre
    have heq := leaf_eq_of_below hfront hleaf (hpre.trans (List.dropLast_prefix path))
    have hlen := hpre.length_le
    rw [heq, List.length_dropLast] at hlen
    have := List.length_pos_of_ne_nil hne
    omega

/-- A stripped state with its leaves merged in is the state itself. -/
theorem Merges.equiv_listed {v s w : Value} (hv : v.Wf) (hs : s ≈ v.strip)
    (hmerges : Merges s v.binaries w) : w ≈ v.listed := by
  intro path
  by_cases hbelow : ∃ leaf ∈ v.binaries, leaf.1 <+: path
  · obtain ⟨leaf, hleaf, rest, rfl⟩ := hbelow
    rw [hmerges.1 leaf hleaf rest]
    exact (look_append_of_bin
      (look_listed_of_leaf ((mem_binaries_iff hv).mp hleaf)) rest).symm
  · simp only [not_exists, not_and] at hbelow
    rw [hmerges.2 path hbelow, hs path]
    refine look_strip_eq_listed hv fun front b hfront => ?_
    exact hbelow (front, b) ((mem_binaries_iff hv).mpr hfront)

/-- Putting a state's own buffers back into its stripped form restores it. -/
theorem putBuffers_strip {v : Value} (hv : v.Wf) (hcontainer : v.isContainer = true) :
    ∃ w, putBuffers v.strip (v.binaries.map fun leaf => leaf.1.toValue)
        (v.binaries.map Prod.snd) = .ok w ∧ w ≈ v.listed := by
  obtain ⟨w, hput, hmerges⟩ := putBuffers_leaves v.binaries
    (fun leaf hleaf => settable_strip hv hcontainer ((mem_binaries_iff hv).mp hleaf))
    (incomparable_binaries hv)
  exact ⟨w, hput, hmerges.equiv_listed hv (Setoid.refl _)⟩

theorem exists_strip_of_child_strip {v c : Value} {k : Key}
    (h : v.strip.child k = some c) : ∃ x : Value, c = x.strip := by
  have hmap : ∀ xs : List Value, (Value.list (xs.map strip)).child k = some c →
      ∃ x : Value, c = x.strip := by
    intro xs hc
    rw [child_list_map] at hc
    obtain ⟨x, _, rfl⟩ := Option.map_eq_some_iff.mp hc
    exact ⟨x, rfl⟩
  cases v with
  | scalar s => simp [strip] at h
  | bin b => simp [strip] at h
  | list xs => exact hmap xs (by simpa [strip, stripSeq_eq] using h)
  | tuple xs =>
      by_cases hnil : binariesSeq 0 xs = []
      · have hself : (Value.tuple xs).strip = .tuple xs := strip_eq_self hnil
        rw [hself, child_tuple] at h
        have hleaf := binaries_item_eq_nil (v := .list xs) hnil (child_seq_iff.mp h)
        exact ⟨c, (strip_eq_self hleaf).symm⟩
      · exact hmap xs (by simpa [strip, stripSeq_eq, hnil] using h)
  | dict kvs =>
      have hmem := Dict.mem_of_lookup (by simpa [strip] using h : (stripEntries kvs).lookup k = _)
      rw [stripEntries_eq] at hmem
      obtain ⟨kx, _, heq⟩ := List.mem_map.mp hmem
      exact ⟨kx.2, (Prod.ext_iff.mp heq).2.symm⟩

/-- Nothing binary is left at any depth. -/
theorem look_strip_ne_bin (v : Value) (path : Path) (b : Binary) :
    v.strip.look path ≠ some (.bin b) := by
  induction path generalizing v with
  | nil =>
      cases v with
      | tuple xs => by_cases h : binariesSeq 0 xs = [] <;> simp [look, label, strip, h]
      | _ => simp [look, label, strip]
  | cons k path ih =>
      intro h
      obtain ⟨c, hc, hlook⟩ := Option.bind_eq_some_iff.mp h
      obtain ⟨x, rfl⟩ := exists_strip_of_child_strip hc
      exact ih x hlook

/-- Split and merge are inverse on every state within the depth cap: the split
takes out exactly the binary leaves, each recorded once at its position, and
merging them back restores the state. -/
theorem putBuffers_removeBuffers (state : Tree) (hcontainer : state.val.isContainer = true)
    (hnesting : state.val.nesting ≤ maxDepth) :
    ∃ stripped bufferPaths buffers,
      removeBuffers state.val = .ok (stripped, bufferPaths, buffers) ∧
      (∀ path b, stripped.look path ≠ some (.bin b)) ∧
      bufferPaths.length = buffers.length ∧
      bufferPaths.Nodup ∧
      bufferPaths.zip buffers = state.val.binaries ∧
      (∀ path b, (path, b) ∈ state.val.binaries ↔ state.val.look path = some (.bin b)) ∧
      ∃ merged, putBuffers stripped (bufferPaths.map Path.toValue) buffers = .ok merged ∧
        merged ≈ state.val.listed := by
  obtain ⟨merged, hput, hmerged⟩ := putBuffers_strip state.wf hcontainer
  refine ⟨state.val.strip, state.val.binaries.map Prod.fst, state.val.binaries.map Prod.snd,
    removeBuffers_container state.wf hcontainer hnesting, look_strip_ne_bin state.val,
    by simp, nodup_paths_binaries state.wf, ?_, fun path b => mem_binaries_iff state.wf,
    merged, ?_, hmerged⟩
  · exact (List.zip_of_prod rfl rfl).symm
  · simpa [Function.comp_def] using hput

namespace MergeWitness

/-- `{"x": {"ar": b"A"}, "y": (b"a", 2, {"z": b"c"})}`. -/
def nested : Tree where
  val := .dict [
    (.str "x", .dict [(.str "ar", .bin ⟨.bytes, [65]⟩)]),
    (.str "y", .tuple [.bin ⟨.bytes, [97]⟩, .int 2,
      .dict [(.str "z", .bin ⟨.bytes, [99]⟩)]])]
  wf := by decide

end MergeWitness

theorem putBuffers_removeBuffers_nested :
    ∃ stripped bufferPaths buffers merged,
      removeBuffers MergeWitness.nested.val = .ok (stripped, bufferPaths, buffers) ∧
      putBuffers stripped (bufferPaths.map Path.toValue) buffers = .ok merged ∧
      merged ≈ MergeWitness.nested.val.listed := by
  obtain ⟨stripped, bufferPaths, buffers, hsplit, _, _, _, _, _, merged, hput, hmerged⟩ :=
    putBuffers_removeBuffers MergeWitness.nested (by decide) (by decide)
  exact ⟨stripped, bufferPaths, buffers, merged, hsplit, hput, hmerged⟩

end Buffers

end Cositos
