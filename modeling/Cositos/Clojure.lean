/-
The Clojure port (`core.clj`): its split, which tells containers by their value,
and its merge by `assoc-in`.  A byte array is a binary value, a map a dict, a
vector a list; any other sequence is a tuple here, and no container to the port.
-/
import Cositos.CSharp

namespace Cositos

/-- What the modelled Clojure code throws. -/
inductive ClojureError
  /-- `(str "state nesting exceeds " max-depth " levels at path " path)` -/
  | nesting (path : Path)
  /-- `(str "cyclic reference detected in state at path " path)` -/
  | cyclic (path : Path)
  | exInfo (message : String)
  /-- `(str "Unsupported buffer encoding: " (pr-str enc) " (expected 'base64')")` -/
  | unsupportedEncoding (encoding : Value)
  /-- `(str "duplicate model_id " (pr-str model-id) ": document keys must be unique")` -/
  | duplicateModelId (modelId : String)
  | indexOutOfBounds
  | illegalArgument
  | classCast
  | nullPointer
  | unsupportedOperation
deriving Repr

namespace Clojure

open Value

section Equality

variable (same : Path → Path → Bool)

mutual

/-- `=` on the values at two positions: byte arrays are equal when they are the
same object, and `same` says whether two positions hold the same one. -/
def equal : Path → Value → Path → Value → Bool
  | _, .scalar s, _, w =>
      match w with
      | .scalar t => s = t
      | _ => false
  | p, .bin _, q, w =>
      match w with
      | .bin _ => same p q
      | _ => false
  | p, .list xs, q, w | p, .tuple xs, q, w =>
      match w with
      | .list ys | .tuple ys => equalSeq 0 p xs q ys
      | _ => false
  | p, .dict kvs, q, w =>
      match w with
      | .dict kvs' => kvs.length = kvs'.length && equalEntries p kvs q kvs'
      | _ => false

def equalSeq : Nat → Path → List Value → Path → List Value → Bool
  | _, _, [], _, ys => ys.isEmpty
  | _, _, _ :: _, _, [] => false
  | i, p, x :: xs, q, y :: ys =>
      equal (p ++ [.int i]) x (q ++ [.int i]) y && equalSeq (i + 1) p xs q ys

def equalEntries : Path → Bindings → Path → Bindings → Bool
  | _, [], _, _ => true
  | p, (k, x) :: kvs, q, kvs' =>
      match kvs'.lookup k with
      | some y => equal (p ++ [k]) x (q ++ [k]) y && equalEntries p kvs q kvs'
      | none => false

end

/-- `separate` tells containers by value: a set finds them by `=`. -/
def splitter : Splitter ClojureError where
  revisits ancestors path v := ancestors.any fun a => equal same a.1 a.2 path v
  nesting := .nesting
  cyclic := .cyclic

/-- `remove-buffers`. -/
def removeBuffers (state : Value) : Except ClojureError (Julia.Split Value) :=
  (splitter same).removeBuffers state

end Equality

/-- `get`.  What it finds in a string or a byte array is never kept: `assoc`
refuses both. -/
def get (obj : Value) (key : Key) : Value :=
  match obj, key with
  | .dict kvs, key => (kvs.lookup key).getD .none
  | .list xs, .int i =>
      if 0 ≤ CSharp.toInt32 i ∧ CSharp.toInt32 i < xs.length then
        xs.getD (CSharp.toInt32 i).toNat .none
      else .none
  | _, _ => .none

/-- `assoc`. -/
def assoc (obj : Value) (key : Key) (value : Value) : Except ClojureError Value :=
  match obj, key with
  | .scalar .none, key => .ok (.dict [(key, value)])
  | .dict kvs, key => .ok (.dict (Dict.set kvs key value))
  | .list xs, .int i =>
      if 0 ≤ CSharp.toInt32 i ∧ CSharp.toInt32 i < xs.length then
        .ok (.list (xs.set (CSharp.toInt32 i).toNat value))
      else if CSharp.toInt32 i = xs.length then
        .ok (.list (xs ++ [value]))
      else .error .indexOutOfBounds
  | .list _, _ => .error .illegalArgument
  | _, _ => .error .classCast

/-- The steps of `assoc-in`. -/
def merger : Merger ClojureError where
  getItem obj key := .ok (get obj key)
  setItem := assoc
  withItem := assoc
  emptyPath obj buf := assoc obj .none (.bin buf)

/-- `put-buffers`: the shorter of the two sequences tells how many. -/
def putBuffers (state : Value) (paths : List Path) (buffers : List Binary) :
    Except ClojureError Value :=
  (paths.zip buffers).foldlM (fun s pair => merger.putAt pair.2 s pair.1) state

section Equality

variable {same : Path → Path → Bool}

theorem exists_equal_of_equalSeq {i : Nat} {p q : Path} {xs ys : List Value}
    (h : equalSeq same i p xs q ys = true) :
    ∀ x ∈ xs, ∃ y ∈ ys, ∃ p' q', equal same p' x q' y = true := by
  induction xs generalizing i ys with
  | nil => simp
  | cons x xs ih =>
      cases ys with
      | nil => simp [equalSeq] at h
      | cons y ys =>
          rw [equalSeq, Bool.and_eq_true] at h
          intro x' hx'
          rcases List.mem_cons.mp hx' with rfl | hx'
          · exact ⟨y, List.mem_cons_self, _, _, h.1⟩
          · obtain ⟨y', hy', hequal⟩ := ih h.2 x' hx'
            exact ⟨y', List.mem_cons_of_mem _ hy', hequal⟩

theorem exists_equal_of_equalEntries {p q : Path} {kvs kvs' : Bindings}
    (h : equalEntries same p kvs q kvs' = true) :
    ∀ kc ∈ kvs, ∃ kc' ∈ kvs', ∃ p' q', equal same p' kc.2 q' kc'.2 = true := by
  induction kvs with
  | nil => simp
  | cons head tail ih =>
      obtain ⟨k, x⟩ := head
      rw [equalEntries] at h
      cases hlookup : kvs'.lookup k with
      | none => simp [hlookup] at h
      | some y =>
          simp only [hlookup, Bool.and_eq_true] at h
          intro kc hkc
          rcases List.mem_cons.mp hkc with rfl | hkc
          · exact ⟨(k, y), Dict.mem_of_lookup hlookup, _, _, h.1⟩
          · exact ih h.2 kc hkc

/-- Every part of a value has an equal part in an equal value. -/
theorem exists_equal_item {p q : Path} {v w : Value} (hv : v.isContainer = true)
    (h : equal same p v q w = true) :
    w.isContainer = true ∧
      ∀ kc ∈ v.items, ∃ kc' ∈ w.items, ∃ p' q', equal same p' kc.2 q' kc'.2 = true := by
  have hseq : ∀ xs ys : List Value, equalSeq same 0 p xs q ys = true →
      ∀ kc ∈ enumItems 0 xs, ∃ kc' ∈ enumItems 0 ys,
        ∃ p' q', equal same p' kc.2 q' kc'.2 = true := by
    intro xs ys hequal kc hkc
    obtain ⟨n, _, hn⟩ := mem_enumItems_iff.mp hkc
    obtain ⟨y, hy, hparts⟩ := exists_equal_of_equalSeq hequal kc.2 (List.mem_of_getElem? hn)
    obtain ⟨k, hk⟩ := mem_items_seq hy
    exact ⟨(k, y), hk, hparts⟩
  cases v with
  | scalar s | bin b => simp [isContainer] at hv
  | list xs | tuple xs =>
      cases w with
      | list ys | tuple ys =>
          rw [equal] at h
          exact ⟨rfl, hseq xs ys h⟩
      | scalar t | bin b | dict kvs => simp [equal] at h
  | dict kvs =>
      cases w with
      | dict kvs' =>
          simp only [equal, Bool.and_eq_true] at h
          exact ⟨rfl, exists_equal_of_equalEntries h.2⟩
      | scalar t | bin b | list ys | tuple ys => simp [equal] at h

theorem height_le_of_equal (v : Value) {p q : Path} {w : Value}
    (h : equal same p v q w = true) : v.height ≤ w.height := by
  induction v using items_induction generalizing p q w with
  | step v ih =>
      by_cases hv : v.isContainer = true
      · obtain ⟨hw, hitems⟩ := exists_equal_item hv h
        obtain ⟨n, hn⟩ : ∃ n, w.height = n + 1 :=
          ⟨w.height - 1, by have := height_pos_iff.mpr hw; omega⟩
        rw [hn, height_le_succ_iff]
        intro kc hkc
        obtain ⟨kc', hkc', _, _, hequal⟩ := hitems kc hkc
        exact (ih kc hkc hequal).trans (height_le_succ_iff.mp hn.le kc' hkc')
      · have hzero : ¬ 0 < v.height := fun hpos => hv (height_pos_iff.mp hpos)
        omega

theorem discerns_splitter : (splitter same).Discerns := by
  intro ancestors path v hancestors
  rw [splitter, List.any_eq_false]
  intro a ha hequal
  exact absurd (hancestors a ha).2 (not_lt.mpr (height_le_of_equal a.2 hequal))

end Equality

theorem standard_merger : merger.Standard (fun _ => True) CSharp.ListFits where
  get_dict := by
    intro kvs key c _ hc
    simp [merger, get, hc]
  set_dict := fun kvs key c _ => ⟨_, rfl, assigns_dict kvs key c⟩
  with_dict := fun kvs key c _ => ⟨_, rfl, assigns_dict kvs key c⟩
  get_list := by
    intro xs n c hfits hn
    obtain ⟨hlt, hget⟩ := List.getElem?_eq_some_iff.mp hn
    simp [merger, get, CSharp.toInt32_ofNat (CSharp.listFits_of_lt hfits hlt), hlt, hget]
  set_list := by
    intro xs n c hfits hlt
    simp [merger, assoc, CSharp.toInt32_ofNat (CSharp.listFits_of_lt hfits hlt), hlt]
  with_list := by
    intro xs n c hfits hlt
    simp [merger, assoc, CSharp.toInt32_ofNat (CSharp.listFits_of_lt hfits hlt), hlt]

theorem putBuffers_eq_foldlM (leaves : List (Path × Binary)) (v : Value) :
    putBuffers v (leaves.map Prod.fst) (leaves.map Prod.snd) =
      leaves.foldlM (fun u leaf => merger.putAt leaf.2 u leaf.1) v := by
  have hzip : (leaves.map Prod.fst).zip (leaves.map Prod.snd) = leaves :=
    (List.zip_of_prod rfl rfl).symm
  rw [putBuffers, hzip]

end Clojure

end Cositos
