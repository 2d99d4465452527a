/-
The merge of the R port (`core.R`): one element of a list or a vector at a time, read by
`[[` and written by `[[<-`.  Where every segment names an element that is there, it does
to the R object what the Python core does to the state.
-/
import Cositos.RCore
import Cositos.Paths

namespace Cositos

/-- An R object.  An element that has no name has the empty one; a JSON scalar is a
vector of length one. -/
inductive RObject
  | null
  | atom (s : Scalar)
  | raw (bytes : List (String × UInt8))
  | list (items : List (String × RObject))

namespace R

open Value

/-! ### Subscripts -/

/-- An element by its name, or by its number from one on, where `none` is `NA`. -/
inductive Subscript
  | name (s : String)
  | index (i : Option Int)

/-- `as.integer`: 32 bits, and `NA` beyond them. -/
def asInteger (i : Int) : Option Int :=
  if -2147483648 < i ∧ i < 2147483648 then some i else none

/-- `as.integer(key) + 1L`. -/
def oneBased (i : Int) : Option Int :=
  (asInteger i).bind fun i => asInteger (i + 1)

/-- `idx`. -/
def subscript : Key → Except RError Subscript
  | .str s => .ok (.name s)
  | .int i => .ok (.index (oneBased i))
  | .frac q => .ok (.index (oneBased (q.val.num.tdiv q.val.den)))
  | .none | .other _ => .error .selectOne

/-- The position an integer selects, counted from zero.  A negative one leaves elements
out, and is good only where that leaves a single one. -/
def position (length : Nat) (i : Int) : Except RError Nat :=
  if 0 < i then .ok (i - 1).toNat
  else if i = 0 ∨ length < 2 then .error .selectOne
  else if length = 2 ∧ -3 < i then .ok (2 + i).toNat
  else .error .selectOne

section Elements

variable {α : Type}

/-- The first element of that name; none has the empty name. -/
def named (items : List (String × α)) (s : String) : Option α :=
  if s = "" then none else items.lookup s

/-- The element at the position an integer selects. -/
def numbered (items : List (String × α)) (i : Int) : Except RError α := do
  let n ← position items.length i
  match items[n]? with
  | some item => .ok item.2
  | none => .error .subscriptOutOfBounds

/-- The elements with one of them replaced or added; `filler` stands in between. -/
def replace (items : List (String × α)) (filler : α) :
    Subscript → α → Except RError (List (String × α))
  | .name s, x => .ok (if s = "" then items ++ [(s, x)] else Dict.set items s x)
  | .index none, _ => .error .selectOne
  | .index (some i), x => do
      let n ← position items.length i
      match items[n]? with
      | some item => .ok (items.set n (item.1, x))
      | none => .ok (items ++ List.replicate (n - items.length) ("", filler) ++ [("", x)])

end Elements

/-- `obj[[idx]]`.  A list yields `NULL` for a name it has not, and for `NA`; a vector does
not. -/
def getOne : RObject → Subscript → Except RError RObject
  | .null, _ => .ok .null
  | .list items, .name s => .ok ((named items s).getD .null)
  | .list _, .index none => .ok .null
  | .list items, .index (some i) => numbered items i
  | .raw bytes, .name s =>
      match named bytes s with
      | some b => .ok (.raw [("", b)])
      | none => .error .subscriptOutOfBounds
  | .raw bytes, .index (some i) => (numbered bytes i).map fun b => .raw [("", b)]
  | .atom s, .index (some i) => (numbered [("", s)] i).map .atom
  | .raw _, .index none | .atom _, _ => .error .subscriptOutOfBounds

/-- `obj[[idx]] <- value`, for a value that is not `NULL`.  `NULL` becomes a vector when
the value is one of length one, and a list else; a vector takes one byte at a time. -/
def assign : RObject → Subscript → RObject → Except RError RObject
  | .list items, i, value => (replace items .null i value).map .list
  | .raw bytes, i, .raw [(_, b)] => (replace bytes 0 i b).map .raw
  | .null, i, .raw [(_, b)] => (replace [] 0 i b).map .raw
  | .null, i, value => (replace [] .null i value).map .list
  | .atom _, _, .raw [_] => .error .incompatibleTypes
  | .atom _, _, .raw _ | .raw _, _, .raw _ => .error .replacementLength
  | .atom _, _, _ | .raw _, _, _ => .error .incompatibleTypes

/-! ### The merge -/

/-- A raw vector. -/
def rawVector (bytes : List UInt8) : RObject := .raw (bytes.map fun b => ("", b))

/-- `.put_one`. -/
def putOne (buf : List UInt8) : RObject → Path → Except RError RObject
  | _, [] => .error .subscriptOutOfBounds
  | obj, [key] => do
      let idx ← subscript key
      assign obj idx (rawVector buf)
  | obj, key :: path => do
      let idx ← subscript key
      let child ← getOne obj idx
      let child ← putOne buf child path
      assign obj idx child

/-- `put_buffers`: buffers beyond the last path are left alone. -/
def putBuffers : RObject → List Path → List Binary → Except RError RObject
  | state, [], _ => .ok state
  | _, _ :: _, [] => .error .subscriptOutOfBounds
  | state, path :: paths, buf :: buffers => do
      let state ← putOne buf.raw state path
      putBuffers state paths buffers

end R

namespace Value

/-- The name an object has a key under. -/
def nameOf : Key → String
  | .str s => s
  | _ => ""

mutual

/-- A state as R reads it. -/
def toR : Value → RObject
  | .scalar .none => .null
  | .scalar s => .atom s
  | .bin b => R.rawVector b.raw
  | .list xs | .tuple xs => .list (toRSeq xs)
  | .dict kvs => .list (toREntries kvs)

def toRSeq : List Value → List (String × RObject)
  | [] => []
  | x :: xs => ("", toR x) :: toRSeq xs

def toREntries : Bindings → List (String × RObject)
  | [] => []
  | (k, x) :: kvs => (nameOf k, toR x) :: toREntries kvs

end

theorem toRSeq_eq (xs : List Value) : toRSeq xs = xs.map fun x => ("", x.toR) := by
  induction xs with
  | nil => rfl
  | cons x xs ih => simp [toRSeq, ih]

theorem named_toREntries {s : String} (hs : s ≠ "") (kvs : Bindings) :
    R.named (toREntries kvs) s = (kvs.lookup (.str s)).map toR := by
  rw [R.named, if_neg hs]
  induction kvs with
  | nil => rfl
  | cons head tail ih =>
      obtain ⟨k, x⟩ := head
      rw [toREntries]
      by_cases hk : k = .str s
      · subst hk
        simp [nameOf]
      · have hname : s ≠ nameOf k := by
          cases k <;> first | exact hs | exact fun h => hk (by rw [h, nameOf])
        rw [Dict.lookup_cons_ne hname, Dict.lookup_cons_ne (Ne.symm hk), ih]

theorem set_toREntries {s : String} (hs : s ≠ "") (kvs : Bindings) (c : Value) :
    Dict.set (toREntries kvs) s c.toR = toREntries (Dict.set kvs (.str s) c) := by
  induction kvs with
  | nil => rfl
  | cons head tail ih =>
      obtain ⟨k, x⟩ := head
      rw [toREntries, Dict.set, Dict.set]
      by_cases hk : k = .str s
      · subst hk
        simp [nameOf, toREntries]
      · have hname : nameOf k ≠ s := by
          cases k <;> first | exact Ne.symm hs | exact fun h => hk (by rw [← h, nameOf])
        rw [if_neg hname, if_neg hk, ih, toREntries]

end Value

namespace R

open Value

/-! ### Elements that are there -/

/-- A name that R tells from no name. -/
def Named (key : Key) : Prop := ∃ s, key = .str s ∧ s ≠ ""

/-- How many elements a list has, so that each has a number. -/
def ListFits (n : Nat) : Prop := n < 2147483647

theorem oneBased_ofNat {length n : Nat} (hfits : ListFits length) (hn : n < length) :
    oneBased n = some ((n : Int) + 1) := by
  unfold ListFits at hfits
  rw [oneBased, asInteger, if_pos (by omega), Option.bind_some, asInteger, if_pos (by omega)]

theorem position_ofNat (length n : Nat) : position length ((n : Int) + 1) = .ok n := by
  rw [position, if_pos (by omega)]
  simp

theorem getOne_name {s : String} (hs : s ≠ "") (kvs : Bindings) :
    getOne (toR (.dict kvs)) (.name s) = .ok (((kvs.lookup (.str s)).map toR).getD .null) := by
  rw [toR, getOne, named_toREntries hs]

theorem assign_name {s : String} (hs : s ≠ "") (kvs : Bindings) (c : Value) :
    assign (toR (.dict kvs)) (.name s) c.toR = .ok (toR (.dict (Dict.set kvs (.str s) c))) := by
  simp only [toR, assign, replace, if_neg hs, set_toREntries hs]
  rfl

theorem getOne_index {xs : List Value} {n : Nat} {c : Value} (hn : xs[n]? = some c) :
    getOne (toR (.list xs)) (.index (some ((n : Int) + 1))) = .ok c.toR := by
  rw [toR, getOne, numbered, position_ofNat]
  simp [bind, Except.bind, toRSeq_eq, hn]

theorem assign_index {xs : List Value} {n : Nat} (hn : n < xs.length) (c : Value) :
    assign (toR (.list xs)) (.index (some ((n : Int) + 1))) c.toR =
      .ok (toR (.list (xs.set n c))) := by
  simp only [toR, assign, replace, position_ofNat, bind, Except.bind]
  simp [toRSeq_eq, hn, Except.map]

/-- One step down. -/
theorem getOne_child {v c : Value} {key : Key}
    (hproper : Merger.Proper Named ListFits key (some v.label)) (hc : v.child key = some c) :
    ∃ idx, subscript key = .ok idx ∧ getOne v.toR idx = .ok c.toR := by
  cases v with
  | scalar s => simp at hc
  | bin b => simp at hc
  | tuple xs => exact absurd hproper id
  | dict kvs =>
      obtain ⟨s, rfl, hs⟩ : Named key := hproper
      rw [child_dict] at hc
      refine ⟨.name s, rfl, ?_⟩
      rw [getOne_name hs, hc]
      rfl
  | list xs =>
      have hfits : ListFits xs.length := hproper
      obtain ⟨n, rfl, hn⟩ := mem_enumItems_iff.mp (child_seq_iff.mp hc)
      have hlt := (List.getElem?_eq_some_iff.mp hn).1
      simp only [Nat.zero_add]
      refine ⟨.index (some ((n : Int) + 1)), ?_, getOne_index hn⟩
      rw [subscript, oneBased_ofNat hfits hlt]

/-- The way back, as Python goes it. -/
theorem assign_child {v c : Value} {key : Key} {idx : Subscript}
    (hproper : Merger.Proper Named ListFits key (some v.label)) (hc : v.child key = some c)
    (hidx : subscript key = .ok idx) (c' : Value) :
    ∃ w, v.withItem key.toValue c' = .ok w ∧ assign v.toR idx c'.toR = .ok w.toR := by
  cases v with
  | scalar s => simp at hc
  | bin b => simp at hc
  | tuple xs => exact absurd hproper id
  | dict kvs =>
      obtain ⟨s, rfl, hs⟩ : Named key := hproper
      cases hidx
      refine ⟨_, ?_, assign_name hs kvs c'⟩
      rw [withItem, setItem_dict]
      simp
  | list xs =>
      have hfits : ListFits xs.length := hproper
      obtain ⟨n, rfl, hn⟩ := mem_enumItems_iff.mp (child_seq_iff.mp hc)
      have hlt := (List.getElem?_eq_some_iff.mp hn).1
      rw [Nat.zero_add, subscript, oneBased_ofNat hfits hlt] at hidx
      cases hidx
      refine ⟨_, ?_, assign_index hlt c'⟩
      rw [Nat.zero_add, withItem, setItem_list hlt]
      simp

theorem putOne_cons {buf : List UInt8} {obj : RObject} {key : Key} {path : Path}
    (hpath : path ≠ []) :
    putOne buf obj (key :: path) =
      (do
        let idx ← subscript key
        let child ← getOne obj idx
        let child ← putOne buf child path
        assign obj idx child) := by
  cases path with
  | nil => exact absurd rfl hpath
  | cons head tail => rfl

/-- A buffer at the end of a path that leads somewhere goes where Python puts it. -/
theorem putOne_toR {v : Value} {path : Path} (h : Merger.Reaches Named ListFits v path)
    (b : Binary) : ∃ w, Buffers.putAt b v (path.map Key.toValue) = .ok w ∧
      putOne b.raw v.toR path = .ok w.toR := by
  induction path generalizing v with
  | nil => exact absurd h.settable not_settable_nil
  | cons key path ih =>
      rcases h.settable.cons with
        ⟨rfl, ⟨kvs, rfl⟩ | ⟨xs, n, rfl, rfl, hlt⟩⟩ | ⟨hpath, c, hc, -⟩
      · obtain ⟨s, rfl, hs⟩ : Named key := h.proper [] key [] rfl
        exact ⟨_, setItem_dict _ _ _, assign_name hs _ (.bin b)⟩
      · have hfits : ListFits xs.length := h.proper [] _ [] rfl
        refine ⟨_, setItem_list hlt _, ?_⟩
        simp only [putOne, subscript, oneBased_ofNat hfits hlt]
        exact assign_index hlt (.bin b)
      · obtain ⟨c', hput, hputOne⟩ := ih (h.child hpath hc)
        have hproper := h.proper [] key path rfl
        obtain ⟨idx, hidx, hget⟩ := getOne_child hproper hc
        obtain ⟨w, hwith, hassign⟩ := assign_child hproper hc hidx c'
        refine ⟨w, ?_, ?_⟩
        · rw [List.map_cons, Buffers.putAt_cons (by simpa using hpath), getItem_of_child hc]
          simp only [bind, Except.bind, hput]
          exact hwith
        · rw [putOne_cons hpath, hidx]
          simp only [bind, Except.bind, hget, hputOne]
          exact hassign

end R

end Cositos
