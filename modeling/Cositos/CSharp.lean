/-
The C# port (`Core.cs`): its split and its merge.  A `byte[]` is a binary value,
a `Dictionary` a dict and a `List` a list; no list holds more than `int.MaxValue`
items.  States are trees, so an object is told from others by its position.
-/
import Cositos.Doubles
import Cositos.Paths
import Mathlib.Algebra.Order.Ring.Rat

namespace Cositos

/-- What the modelled C# code throws. -/
inductive CSharpError
  /-- `$"state nesting exceeds {MaxDepth} levels at path [{path}]"` -/
  | nesting (path : Path)
  /-- `$"cyclic reference detected in state at path [{path}]"` -/
  | cyclic (path : Path)
  | argument (message : String)
  /-- `$"Unsupported buffer encoding: {encoding ?? "null"} (expected 'base64')"` -/
  | unsupportedEncoding (encoding : Value)
  /-- `$"duplicate model_id {modelId}: document keys must be unique"` -/
  | duplicateModelId (modelId : String)
  | keyNotFound
  | argumentOutOfRange
  | argumentNull
  | invalidCast
  | nullReference
  | overflow
  | format
deriving Repr

namespace CSharp

open Value

/-- `Separate` tells containers by reference. -/
def splitter : Splitter CSharpError := .byIdentity .nesting .cyclic

/-- `RemoveBuffers`. -/
def removeBuffers (state : Value) : Except CSharpError (Julia.Split Value) :=
  splitter.removeBuffers state

/-- `Math.Round`: to the nearest integer, ties to the even one. -/
def roundHalfEven (q : ℚ) : Int :=
  if 2 * (q - q.floor) < 1 then q.floor
  else if 1 < 2 * (q - q.floor) then q.floor + 1
  else if q.floor % 2 = 0 then q.floor
  else q.floor + 1

/-- An integer as a `long`, where it is one. -/
def asLong (i : Int) : Except CSharpError Int :=
  if -9223372036854775808 ≤ i ∧ i < 9223372036854775808 then .ok i else .error .overflow

/-- An integer as it is read: a `long`, and beyond 64 bits a double. -/
def readLong (i : Int) : Option Int :=
  if -9223372036854775808 ≤ i ∧ i < 9223372036854775808 then some i else toNumber i

/-- `Convert.ToInt64` of a path segment that is no string. -/
def toInt64 : Key → Except CSharpError Int
  | .none => .ok 0
  | .int i =>
      match readLong i with
      | some i => asLong i
      | none => .error .overflow
  | .frac q => asLong (roundHalfEven q)
  | .str _ => .error .format
  | .other _ => .error .invalidCast

/-- `(int)` of a `long`, unchecked. -/
def toInt32 (i : Int) : Int := i.bmod 4294967296

/-- `(Dictionary<string, object?>)obj`; `null` can be cast. -/
def castDictionary : Value → Except CSharpError (Option Bindings)
  | .dict kvs => .ok (some kvs)
  | .scalar .none => .ok none
  | _ => .error .invalidCast

/-- `(List<object?>)obj`; `null` can be cast. -/
def castList : Value → Except CSharpError (Option (List Value))
  | .list xs => .ok (some xs)
  | .scalar .none => .ok none
  | _ => .error .invalidCast

/-- What a reference is used for. -/
def deref {α : Type} : Option α → Except CSharpError α
  | some a => .ok a
  | none => .error .nullReference

/-- The range check of a list. -/
def inRange (length : Nat) (i : Int) : Except CSharpError Nat :=
  if 0 ≤ i ∧ i < length then .ok i.toNat else .error .argumentOutOfRange

/-- The list that is meant, and the position in it. -/
def listIndex (obj : Value) (key : Key) : Except CSharpError (List Value × Nat) := do
  let list ← castList obj
  let i ← toInt64 key
  let xs ← deref list
  let n ← inRange xs.length (toInt32 i)
  return (xs, n)

/-- `Index`. -/
def index (obj : Value) : Key → Except CSharpError Value
  | .str s => do
      let dictionary ← castDictionary obj
      let kvs ← deref dictionary
      match kvs.lookup (.str s) with
      | some v => .ok v
      | none => .error .keyNotFound
  | key => do
      let (xs, n) ← listIndex obj key
      return xs.getD n .none

/-- `Assign`. -/
def assign (obj : Value) (key : Key) (value : Value) : Except CSharpError Value :=
  match key with
  | .str s => do
      let dictionary ← castDictionary obj
      let kvs ← deref dictionary
      return .dict (Dict.set kvs (.str s) value)
  | key => do
      let (xs, n) ← listIndex obj key
      return .list (xs.set n value)

/-- The steps of `PutOne`. -/
def merger : Merger CSharpError where
  getItem := index
  setItem := assign
  withItem := assign
  emptyPath _ _ := .error .argumentOutOfRange

/-- `PutOne`. -/
def putOne (obj : Value) (path : Path) (buf : Binary) : Except CSharpError Value :=
  merger.putAt buf obj path

/-- `PutBuffers`: buffers beyond the last path are left alone. -/
def putBuffers : Value → List Path → List Binary → Except CSharpError Value
  | state, [], _ => .ok state
  | _, _ :: _, [] => .error .argumentOutOfRange
  | state, path :: paths, buf :: buffers => do
      let state ← putOne state path buf
      putBuffers state paths buffers

/-- How many items a list can hold. -/
def ListFits (n : Nat) : Prop := n < 2147483648

theorem toInt64_ofNat {n : Nat} (hfits : ListFits n) : toInt64 (.int n) = .ok (n : Int) := by
  unfold ListFits at hfits
  have hlong : -9223372036854775808 ≤ (n : Int) ∧ (n : Int) < 9223372036854775808 := by omega
  have hread : readLong (n : Int) = some (n : Int) := by rw [readLong, if_pos hlong]
  rw [toInt64, hread]
  simp only
  rw [asLong, if_pos hlong]

theorem toInt32_ofNat {n : Nat} (hfits : ListFits n) : toInt32 n = n := by
  unfold ListFits at hfits
  unfold toInt32
  rw [Int.bmod_eq_of_le] <;> omega

theorem listFits_of_lt {length n : Nat} (hfits : ListFits length) (hn : n < length) :
    ListFits n := by
  unfold ListFits at hfits ⊢
  omega

theorem listIndex_of_toInt64 {xs : List Value} {key : Key} {i : Int} (h : toInt64 key = .ok i) :
    listIndex (.list xs) key = (inRange xs.length (toInt32 i)).map fun n => (xs, n) := by
  rw [listIndex, h]
  rfl

theorem inRange_ofNat {length n : Nat} (hn : n < length) : inRange length n = .ok n := by
  rw [inRange, if_pos (by omega)]
  rfl

theorem listIndex_ofNat {xs : List Value} {n : Nat} (hfits : ListFits xs.length)
    (hn : n < xs.length) : listIndex (.list xs) (.int n) = .ok (xs, n) := by
  have hindex := listFits_of_lt hfits hn
  rw [listIndex_of_toInt64 (toInt64_ofNat hindex), toInt32_ofNat hindex, inRange_ofNat hn]
  rfl

theorem index_int (obj : Value) (i : Int) :
    index obj (.int i) = (listIndex obj (.int i)).map fun found => found.1.getD found.2 .none := rfl

theorem assign_int (obj : Value) (i : Int) (value : Value) :
    assign obj (.int i) value =
      (listIndex obj (.int i)).map fun found => .list (found.1.set found.2 value) := rfl

theorem index_element {xs : List Value} {n : Nat} {c : Value} (hfits : ListFits xs.length)
    (hn : xs[n]? = some c) : index (.list xs) (.int n) = .ok c := by
  rw [index_int, listIndex_ofNat hfits (List.getElem?_eq_some_iff.mp hn).1]
  simp [Except.map, hn]

theorem assign_element {xs : List Value} {n : Nat} (c : Value) (hfits : ListFits xs.length)
    (hn : n < xs.length) : assign (.list xs) (.int n) c = .ok (.list (xs.set n c)) := by
  rw [assign_int, listIndex_ofNat hfits hn]
  rfl

theorem standard_merger : merger.Standard (fun key => ∃ s, key = .str s) ListFits where
  get_dict := by
    rintro kvs _ c ⟨s, rfl⟩ hc
    simp [merger, index, castDictionary, deref, bind, Except.bind, hc]
  set_dict := by
    rintro kvs _ c ⟨s, rfl⟩
    exact ⟨_, rfl, assigns_dict kvs _ c⟩
  with_dict := by
    rintro kvs _ c ⟨s, rfl⟩
    exact ⟨_, rfl, assigns_dict kvs _ c⟩
  get_list := fun _ _ _ hfits hn => index_element hfits hn
  set_list := fun _ _ c hfits hn => assign_element c hfits hn
  with_list := fun _ _ c hfits hn => assign_element c hfits hn

theorem putBuffers_eq_foldlM (leaves : List (Path × Binary)) (v : Value) :
    putBuffers v (leaves.map Prod.fst) (leaves.map Prod.snd) =
      leaves.foldlM (fun u leaf => merger.putAt leaf.2 u leaf.1) v := by
  induction leaves generalizing v with
  | nil => rfl
  | cons head tail ih =>
      simp only [List.map_cons, putBuffers, putOne, bind, Except.bind, List.foldlM_cons]
      cases merger.putAt head.2 v head.1 with
      | error e => rfl
      | ok w => exact ih w

end CSharp

end Cositos
