/-
Widget state as the program sees it: finite trees of dicts, lists, tuples,
scalars and binary values, and the positions inside such a tree.  A state is
read through its positions, so that two states are equal exactly when they
carry the same label at every path.
-/
import Cositos.Dict
import Mathlib.Data.Rat.Defs
import Mathlib.Order.Basic

namespace Cositos

/-- `BinaryType = (bytes, bytearray, memoryview)`. -/
inductive BinaryType
  | bytes
  | bytearray
  | memoryview
deriving DecidableEq, Repr

/-- A binary value: the kind of object and its raw bytes. -/
structure Binary where
  type : BinaryType
  raw : List UInt8
deriving DecidableEq, Repr

/-- Everything that is neither a container nor binary.  A float is the number
it denotes; `other` is any further object, known only by its identity (a NaN,
a datetime, JavaScript's `undefined`). -/
inductive Scalar
  | none
  | bool (b : Bool)
  | int (i : Int)
  | float (q : ℚ)
  | str (s : String)
  | other (tag : Nat)
deriving DecidableEq, Repr

/-- A dictionary key or path segment, up to Python's `==` on hashable objects:
`True` is `1` and an integral float is its integer, so `frac` holds only the
other floats. -/
inductive Key
  | none
  | int (i : Int)
  | frac (q : { q : ℚ // q.den ≠ 1 })
  | str (s : String)
  | other (tag : Nat)
deriving DecidableEq, Repr

/-- Where a value sits below a root, outermost segment first. -/
abbrev Path := List Key

/-- `enumerate(xs)`, counting from `i`. -/
def enumItems {α : Type} (i : Nat) : List α → List (Key × α)
  | [] => []
  | x :: xs => (.int i, x) :: enumItems (i + 1) xs

variable {α : Type}

theorem keys_enumItems (i : Nat) (xs : List α) :
    Dict.keys (enumItems i xs) =
      (List.range' i xs.length).map (fun n : Nat => Key.int (n : Int)) := by
  induction xs generalizing i with
  | nil => rfl
  | cons x xs ih => simp [enumItems, ih, List.range'_succ]

theorem nodup_keys_enumItems (i : Nat) (xs : List α) :
    (Dict.keys (enumItems i xs)).Nodup := by
  rw [keys_enumItems]
  refine List.Nodup.map ?_ List.nodup_range'
  intro a b hab
  exact Int.ofNat.inj (Key.int.inj hab)

theorem mem_enumItems_iff {i : Nat} {xs : List α} {k : Key} {c : α} :
    (k, c) ∈ enumItems i xs ↔ ∃ n, k = .int ((i + n : Nat) : Int) ∧ xs[n]? = some c := by
  induction xs generalizing i with
  | nil => simp [enumItems]
  | cons x xs ih =>
      simp only [enumItems, List.mem_cons, Prod.mk.injEq, ih]
      constructor
      · rintro (⟨rfl, rfl⟩ | ⟨n, rfl, hn⟩)
        · exact ⟨0, rfl, rfl⟩
        · exact ⟨n + 1, by rw [Nat.add_right_comm, Nat.add_assoc], by simpa using hn⟩
      · rintro ⟨n, rfl, hn⟩
        cases n with
        | zero => exact Or.inl ⟨rfl, by simpa using hn.symm⟩
        | succ n => exact Or.inr ⟨n, by rw [Nat.add_right_comm, Nat.add_assoc], by simpa using hn⟩

theorem enumItems_map {β : Type} (f : α → β) (i : Nat) (xs : List α) :
    enumItems i (xs.map f) = (enumItems i xs).map (Prod.map id f) := by
  induction xs generalizing i with
  | nil => rfl
  | cons x xs ih => simp [enumItems, ih]

/-- A state tree.  A dict lists its bindings in iteration order. -/
inductive Value
  | scalar (s : Scalar)
  | bin (b : Binary)
  | list (xs : List Value)
  | tuple (xs : List Value)
  | dict (kvs : List (Key × Value))
deriving Repr

/-- The bindings of a state dict. -/
abbrev Bindings := List (Key × Value)

namespace Value

@[match_pattern] protected abbrev none : Value := .scalar .none

@[match_pattern] protected abbrev bool (b : Bool) : Value := .scalar (.bool b)

@[match_pattern] protected abbrev int (i : Int) : Value := .scalar (.int i)

@[match_pattern] protected abbrev str (s : String) : Value := .scalar (.str s)

/-- `isinstance(value, (list, tuple, dict))`. -/
def isContainer : Value → Bool
  | .list _ | .tuple _ | .dict _ => true
  | .scalar _ | .bin _ => false

/-- `isinstance(value, BinaryType)`. -/
def isBinary : Value → Bool
  | .bin _ => true
  | _ => false

/-- `_items`: the `(key, value)` pairs of a container. -/
def items : Value → Bindings
  | .list xs | .tuple xs => enumItems 0 xs
  | .dict kvs => kvs
  | .scalar _ | .bin _ => []

/-- The child at a key: a non-negative index of a sequence, or a dict key. -/
def child : Value → Key → Option Value
  | .list xs, .int (.ofNat n) => xs[n]?
  | .tuple xs, .int (.ofNat n) => xs[n]?
  | .dict kvs, k => kvs.lookup k
  | _, _ => none

/-- What a state shows at one position, its children apart. -/
inductive Label
  | scalar (s : Scalar)
  | bin (b : Binary)
  | list (length : Nat)
  | tuple (length : Nat)
  | dict
deriving DecidableEq, Repr

def label : Value → Label
  | .scalar s => .scalar s
  | .bin b => .bin b
  | .list xs => .list xs.length
  | .tuple xs => .tuple xs.length
  | .dict _ => .dict

/-- The label at a path, if the path leads anywhere. -/
def look : Value → Path → Option Label
  | v, [] => some v.label
  | v, k :: path => (v.child k).bind fun c => c.look path

/-- Python's `==` on states: the same label at every path.  The order of dict
keys does not show. -/
instance instSetoid : Setoid Value where
  r v w := ∀ path, v.look path = w.look path
  iseqv :=
    { refl := fun _ _ => rfl
      symm := fun h path => (h path).symm
      trans := fun h₁ h₂ path => (h₁ path).trans (h₂ path) }

mutual

/-- `true` when no dict of the tree binds a key twice. -/
def wf : Value → Bool
  | .scalar _ | .bin _ => true
  | .list xs | .tuple xs => wfSeq xs
  | .dict kvs => decide (Dict.keys kvs).Nodup && wfEntries kvs

def wfSeq : List Value → Bool
  | [] => true
  | x :: xs => wf x && wfSeq xs

def wfEntries : Bindings → Bool
  | [] => true
  | (_, x) :: kvs => wf x && wfEntries kvs

end

/-- Well-formed states: every dict binds each of its keys once. -/
def Wf (v : Value) : Prop := v.wf = true

instance : DecidablePred Wf := fun v => inferInstanceAs (Decidable (v.wf = true))

mutual

/-- Levels of containers, the root included. -/
def height : Value → Nat
  | .scalar _ | .bin _ => 0
  | .list xs | .tuple xs => heightSeq xs + 1
  | .dict kvs => heightEntries kvs + 1

def heightSeq : List Value → Nat
  | [] => 0
  | x :: xs => max (height x) (heightSeq xs)

def heightEntries : Bindings → Nat
  | [] => 0
  | (_, x) :: kvs => max (height x) (heightEntries kvs)

end

/-- Container nesting below the root. -/
def nesting (v : Value) : Nat := v.height - 1

mutual

/-- The binary leaves with their positions, depth first and left to right. -/
def binaries : Value → List (Path × Binary)
  | .bin b => [([], b)]
  | .scalar _ => []
  | .list xs | .tuple xs => binariesSeq 0 xs
  | .dict kvs => binariesEntries kvs

def binariesSeq (i : Nat) : List Value → List (Path × Binary)
  | [] => []
  | x :: xs => (binaries x).map (Prod.map (.int i :: ·) id) ++ binariesSeq (i + 1) xs

def binariesEntries : Bindings → List (Path × Binary)
  | [] => []
  | (k, x) :: kvs => (binaries x).map (Prod.map (k :: ·) id) ++ binariesEntries kvs

end

/-! ### Items and children -/

theorem sizeOf_lt_of_mem_items {v : Value} {kc : Key × Value} (h : kc ∈ v.items) :
    sizeOf kc.2 < sizeOf v := by
  have hseq : ∀ (i : Nat) (xs : List Value), kc ∈ enumItems i xs →
      sizeOf kc.2 < sizeOf xs := by
    intro i xs
    induction xs generalizing i with
    | nil => simp [enumItems]
    | cons x xs ih =>
        intro hmem
        simp only [enumItems, List.mem_cons] at hmem
        rcases hmem with rfl | hmem
        · simp only [List.cons.sizeOf_spec]
          omega
        · have := ih (i + 1) hmem
          simp only [List.cons.sizeOf_spec]
          omega
  cases v with
  | scalar s => simp [items] at h
  | bin b => simp [items] at h
  | list xs =>
      have := hseq 0 xs h
      simp only [list.sizeOf_spec]
      omega
  | tuple xs =>
      have := hseq 0 xs h
      simp only [tuple.sizeOf_spec]
      omega
  | dict kvs =>
      have := List.sizeOf_lt_of_mem (show kc ∈ kvs from h)
      obtain ⟨k, c⟩ := kc
      simp only [Prod.mk.sizeOf_spec, dict.sizeOf_spec] at this ⊢
      omega

/-- Induction on states, one step for all kinds of container. -/
theorem items_induction {P : Value → Prop}
    (step : ∀ v : Value, (∀ kc ∈ v.items, P kc.2) → P v) : ∀ v, P v :=
  fun v => step v fun kc h =>
    have := sizeOf_lt_of_mem_items h
    items_induction step kc.2
termination_by v => sizeOf v

theorem mem_items_seq {xs : List Value} {x : Value} (hx : x ∈ xs) :
    ∃ k, (k, x) ∈ enumItems 0 xs := by
  obtain ⟨n, hn⟩ := List.mem_iff_getElem?.mp hx
  exact ⟨.int n, mem_enumItems_iff.mpr ⟨n, by simp, hn⟩⟩

/-- Induction on states, one case for each kind. -/
theorem tree_induction {P : Value → Prop} (scalar : ∀ s, P (.scalar s)) (bin : ∀ b, P (.bin b))
    (list : ∀ xs, (∀ x ∈ xs, P x) → P (.list xs))
    (tuple : ∀ xs, (∀ x ∈ xs, P x) → P (.tuple xs))
    (dict : ∀ kvs : List (Key × Value), (∀ kc ∈ kvs, P kc.2) → P (.dict kvs)) : ∀ v, P v := by
  intro v
  induction v using items_induction with
  | step v ih =>
      have hseq : ∀ xs : List Value, v.items = enumItems 0 xs → ∀ x ∈ xs, P x := by
        intro xs hitems x hx
        obtain ⟨k, hk⟩ := mem_items_seq hx
        exact ih (k, x) (hitems ▸ hk)
      cases v with
      | scalar s => exact scalar s
      | bin b => exact bin b
      | list xs => exact list xs (hseq xs rfl)
      | tuple xs => exact tuple xs (hseq xs rfl)
      | dict kvs => exact dict kvs ih

theorem child_seq_iff {xs : List Value} {k : Key} {c : Value} :
    (Value.list xs).child k = some c ↔ (k, c) ∈ enumItems 0 xs := by
  rw [mem_enumItems_iff]
  constructor
  · intro h
    match k, h with
    | .int (.ofNat n), h => exact ⟨n, by simp, h⟩
  · rintro ⟨n, rfl, hn⟩
    simpa [child] using hn

theorem child_tuple (xs : List Value) (k : Key) :
    (Value.tuple xs).child k = (Value.list xs).child k := by
  match k with
  | .int (.ofNat _) | .int (.negSucc _) | .none | .frac _ | .str _ | .other _ => rfl

@[simp] theorem child_dict (kvs : Bindings) (k : Key) :
    (Value.dict kvs).child k = kvs.lookup k := by
  match k with
  | .int _ | .none | .frac _ | .str _ | .other _ => rfl

@[simp] theorem child_scalar (s : Scalar) (k : Key) :
    (Value.scalar s).child k = none := by
  match k with
  | .int _ | .none | .frac _ | .str _ | .other _ => rfl

@[simp] theorem child_bin (b : Binary) (k : Key) :
    (Value.bin b).child k = none := by
  match k with
  | .int _ | .none | .frac _ | .str _ | .other _ => rfl

/-! ### Well-formed states -/

theorem wfSeq_iff {i : Nat} {xs : List Value} :
    wfSeq xs = true ↔ ∀ kc ∈ enumItems i xs, kc.2.Wf := by
  induction xs generalizing i with
  | nil => simp [wfSeq, enumItems]
  | cons x xs ih =>
      simp only [wfSeq, enumItems, Bool.and_eq_true, List.forall_mem_cons]
      exact and_congr Iff.rfl ih

theorem wfEntries_iff {kvs : Bindings} :
    wfEntries kvs = true ↔ ∀ kc ∈ kvs, kc.2.Wf := by
  induction kvs with
  | nil => simp [wfEntries]
  | cons head tail ih =>
      simp only [wfEntries, Bool.and_eq_true, List.forall_mem_cons]
      exact and_congr Iff.rfl ih

theorem wf_iff {v : Value} :
    v.Wf ↔ (Dict.keys v.items).Nodup ∧ ∀ kc ∈ v.items, kc.2.Wf := by
  cases v with
  | scalar s => simp [Wf, wf, items]
  | bin b => simp [Wf, wf, items]
  | list xs => exact (wfSeq_iff (i := 0)).trans (by simp [items, nodup_keys_enumItems])
  | tuple xs => exact (wfSeq_iff (i := 0)).trans (by simp [items, nodup_keys_enumItems])
  | dict kvs => simp [Wf, wf, items, wfEntries_iff]

theorem wf_dict_iff {kvs : Bindings} :
    (Value.dict kvs).Wf ↔ (Dict.keys kvs).Nodup ∧ ∀ kc ∈ kvs, kc.2.Wf :=
  wf_iff

theorem Wf.child {v : Value} (hv : v.Wf) {kc : Key × Value} (h : kc ∈ v.items) : kc.2.Wf :=
  (wf_iff.mp hv).2 kc h

theorem mem_items_of_child {v : Value} {k : Key} {c : Value} (h : v.child k = some c) :
    (k, c) ∈ v.items := by
  cases v with
  | scalar s => simp at h
  | bin b => simp at h
  | list xs => exact child_seq_iff.mp h
  | tuple xs => exact child_seq_iff.mp ((child_tuple xs k).symm ▸ h)
  | dict kvs =>
      rw [child_dict] at h
      exact Dict.mem_of_lookup h

theorem Wf.child_iff {v : Value} (hv : v.Wf) {k : Key} {c : Value} :
    v.child k = some c ↔ (k, c) ∈ v.items := by
  cases v with
  | scalar s => simp [items]
  | bin b => simp [items]
  | list xs => exact child_seq_iff
  | tuple xs => exact (child_tuple xs k).symm ▸ child_seq_iff
  | dict kvs =>
      rw [child_dict]
      exact Dict.lookup_eq_some_iff (wf_iff.mp hv).1

/-! ### Heights -/

theorem heightSeq_le_iff {n i : Nat} {xs : List Value} :
    heightSeq xs ≤ n ↔ ∀ kc ∈ enumItems i xs, kc.2.height ≤ n := by
  induction xs generalizing i with
  | nil => simp [heightSeq, enumItems]
  | cons x xs ih =>
      simp only [heightSeq, enumItems, Nat.max_le, List.forall_mem_cons]
      exact and_congr Iff.rfl ih

theorem heightEntries_le_iff {n : Nat} {kvs : Bindings} :
    heightEntries kvs ≤ n ↔ ∀ kc ∈ kvs, kc.2.height ≤ n := by
  induction kvs with
  | nil => simp [heightEntries]
  | cons head tail ih =>
      simp only [heightEntries, Nat.max_le, List.forall_mem_cons]
      exact and_congr Iff.rfl ih

theorem height_le_succ_iff {v : Value} {n : Nat} :
    v.height ≤ n + 1 ↔ ∀ kc ∈ v.items, kc.2.height ≤ n := by
  cases v with
  | scalar s => simp [height, items]
  | bin b => simp [height, items]
  | list xs => simp [height, items, heightSeq_le_iff (i := 0)]
  | tuple xs => simp [height, items, heightSeq_le_iff (i := 0)]
  | dict kvs => simp [height, items, heightEntries_le_iff]

theorem height_pos_iff {v : Value} : 0 < v.height ↔ v.isContainer = true := by
  cases v <;> simp [height, isContainer]

theorem nesting_le_iff {v : Value} {n : Nat} : v.nesting ≤ n ↔ v.height ≤ n + 1 := by
  unfold nesting
  omega

/-! ### Binary leaves -/

theorem binariesSeq_eq (i : Nat) (xs : List Value) :
    binariesSeq i xs =
      (enumItems i xs).flatMap fun kc => kc.2.binaries.map (Prod.map (kc.1 :: ·) id) := by
  induction xs generalizing i with
  | nil => rfl
  | cons x xs ih => simp [binariesSeq, enumItems, ih]

theorem binariesEntries_eq (kvs : Bindings) :
    binariesEntries kvs =
      kvs.flatMap fun kc => kc.2.binaries.map (Prod.map (kc.1 :: ·) id) := by
  induction kvs with
  | nil => rfl
  | cons head tail ih =>
      obtain ⟨k, c⟩ := head
      simp [binariesEntries, ih]

theorem binaries_eq_items {v : Value} (hv : v.isBinary = false) :
    v.binaries = v.items.flatMap fun kc => kc.2.binaries.map (Prod.map (kc.1 :: ·) id) := by
  cases v with
  | scalar s => rfl
  | bin b => simp [isBinary] at hv
  | list xs => exact binariesSeq_eq 0 xs
  | tuple xs => exact binariesSeq_eq 0 xs
  | dict kvs => exact binariesEntries_eq kvs

/-- Below a container no leaf sits at the root. -/
theorem nil_not_mem_binaries {v : Value} (hv : v.isBinary = false) (b : Binary) :
    ([], b) ∉ v.binaries := by
  rw [binaries_eq_items hv]
  simp [Prod.map]

theorem isBinary_eq_false_of_mem_items {v : Value} {kc : Key × Value}
    (h : kc ∈ v.items) : v.isBinary = false := by
  cases v <;> first | rfl | simp [items] at h

/-- The listed leaves are the positions labelled binary. -/
theorem mem_binaries_iff {v : Value} (hv : v.Wf) {path : Path} {b : Binary} :
    (path, b) ∈ v.binaries ↔ v.look path = some (.bin b) := by
  induction path generalizing v with
  | nil =>
      cases v with
      | bin b' => simp [binaries, look, label, eq_comm]
      | _ => simpa [look, label] using nil_not_mem_binaries rfl b
  | cons k path ih =>
      rw [look]
      constructor
      · intro h
        have hbin : v.isBinary = false := by
          cases v <;> first | rfl | simp [binaries] at h
        rw [binaries_eq_items hbin] at h
        simp only [List.mem_flatMap, List.mem_map, Prod.map, id, Prod.mk.injEq,
          List.cons.injEq, Prod.exists] at h
        obtain ⟨k', c, hitem, path', b', hleaf, ⟨rfl, rfl⟩, rfl⟩ := h
        rw [hv.child_iff.mpr hitem]
        exact (ih (hv.child hitem)).mp hleaf
      · intro h
        obtain ⟨c, hchild, hlook⟩ := Option.bind_eq_some_iff.mp h
        have hitem := hv.child_iff.mp hchild
        rw [binaries_eq_items (isBinary_eq_false_of_mem_items hitem)]
        simp only [List.mem_flatMap, List.mem_map, Prod.map, id, Prod.mk.injEq,
          List.cons.injEq, Prod.exists]
        exact ⟨k, c, hitem, path, b, (ih (hv.child hitem)).mpr hlook, ⟨rfl, rfl⟩, rfl⟩

/-- No two leaves share a position. -/
theorem nodup_paths_binaries {v : Value} (hv : v.Wf) :
    (v.binaries.map Prod.fst).Nodup := by
  induction v using items_induction with
  | step v ih =>
      by_cases hbin : v.isBinary = false
      · rw [binaries_eq_items hbin, List.map_flatMap]
        rw [List.nodup_flatMap]
        constructor
        · intro kc hkc
          have hinj : Function.Injective (kc.1 :: · : Path → Path) := fun _ _ h => by
            simpa using h
          have := (ih kc hkc (hv.child hkc)).map hinj
          simpa [List.map_map, Function.comp_def] using this
        · refine (List.pairwise_map.mp (wf_iff.mp hv).1).imp ?_
          rintro ⟨k, c⟩ ⟨k', c'⟩ hne path hleft hright
          simp only [List.mem_map, Prod.map, id, Prod.exists, Prod.mk.injEq] at hleft hright
          obtain ⟨p, _, ⟨q, _, _, rfl, rfl⟩, rfl⟩ := hleft
          obtain ⟨p', _, ⟨q', _, _, rfl, rfl⟩, heq⟩ := hright
          exact hne (by simpa using (List.cons.inj heq).1.symm)
      · cases v <;> simp_all [isBinary, binaries]

end Value

/-- A state together with the fact that each of its dicts binds a key once. -/
structure Tree where
  val : Value
  wf : val.Wf

end Cositos
