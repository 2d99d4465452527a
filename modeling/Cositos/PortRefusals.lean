/-
What each port's merge of one buffer refuses, told by where it goes along the path.
-/
import Cositos.Refusals

namespace Cositos

open Value

/-! ### The front end -/

namespace Front

/-- `obj[key] = buffer` throws. -/
def Rejects : Value → Value → Prop
  | .dict _, _ => False
  | .list _, key | .tuple _, key => elementIndex? key = none ∧ text key = "length"
  | .bin _, key => text key ∈ Class.arrayBuffer.accessors
  | .scalar s, key =>
      s = .none ∨ s = .other 0 ∨
        match builtin? s with
        | some b => text key ∈ b.locked
        | none => text key ≠ "__proto__"

/-- `obj[key]` throws. -/
def Withholds : Value → Value → Prop
  | .scalar s, key => s = .none ∨ s = .other 0 ∨ ∃ b, builtin? s = some b ∧ text key ∈ b.barred
  | _, _ => False

/-- Nothing can be read with segments left, or the end is no property that can be set. -/
inductive Refuses : Value → Path → Prop
  | empty {v : Value} (h : Rejects v undefined) : Refuses v []
  | last {v : Value} {key : Key} (h : Rejects v key.toValue) : Refuses v [key]
  | nothing {v : Value} {key : Key} {rest : Path} (hrest : rest ≠ [])
      (h : Withholds v key.toValue) : Refuses v (key :: rest)
  | deeper {v c : Value} {key : Key} {rest : Path} (hrest : rest ≠ [])
      (hget : getProp v key.toValue = .ok c) (h : Refuses c rest) : Refuses v (key :: rest)

theorem setProp_scalar {s : Scalar} (hnone : s ≠ .none) (hundefined : s ≠ .other 0)
    (key value : Value) :
    setProp (.scalar s) key value =
      match builtin? s with
      | some b => b.set (text key) value
      | none => if text key = "__proto__" then .ok (.scalar s) else .error .typeError := by
  cases s with
  | none => exact absurd rfl hnone
  | bool p | int i | float q | str t => rfl
  | other tag =>
      cases tag with
      | zero => exact absurd rfl hundefined
      | succ tag => rfl

theorem setProp_error_iff {v key : Value} (b : Binary) :
    (∃ e, setProp v key (.bin b) = .error e) ↔ Rejects v key := by
  have hseq : ∀ xs : List Value, (∃ e, setProp (.list xs) key (.bin b) = .error e) ↔
      elementIndex? key = none ∧ text key = "length" := by
    intro xs
    cases hindex : elementIndex? key with
    | some n => simp [setProp, hindex]
    | none => by_cases htext : text key = "length" <;> simp [setProp, hindex, htext]
  cases v with
  | dict own => simp [setProp, Rejects]
  | list xs | tuple xs => exact hseq xs
  | bin b =>
      rw [setProp, Rejects]
      split_ifs with haccessor <;> simp [haccessor]
  | scalar s =>
      by_cases hnone : s = .none
      · subst hnone
        simp [setProp, Rejects]
      by_cases hundefined : s = .other 0
      · subst hundefined
        simp [setProp, Rejects]
      rw [setProp_scalar hnone hundefined]
      simp only [Rejects, hnone, hundefined, false_or]
      cases builtin? s with
      | some builtin => exact Builtin.set_error_iff b
      | none => by_cases htext : text key = "__proto__" <;> simp [htext]

/-- A property of a value that is no text, no `null` and not `undefined`. -/
theorem getProp_scalar {s : Scalar} (hstr : ∀ name, s ≠ .str name) (hnone : s ≠ .none)
    (hundefined : s ≠ .other 0) (key : Value) :
    getProp (.scalar s) key =
      match builtin? s with
      | some b => b.get (text key)
      | none => .ok (inherited (.scalar s) key) := by
  cases s with
  | none => exact absurd rfl hnone
  | str name => exact absurd rfl (hstr name)
  | bool p | int i | float q => rfl
  | other tag =>
      cases tag with
      | zero => exact absurd rfl hundefined
      | succ tag => rfl

theorem exists_scalar_of_inherited (obj key : Value) : ∃ t, inherited obj key = .scalar t :=
  Class.exists_scalar_of_inherited _ _

/-- A character or another property of a text. -/
theorem getProp_str (name : String) (key : Value) :
    ∃ t, getProp (.str name) key = .ok (.scalar t) := by
  cases hindex : elementIndex? key with
  | none =>
      obtain ⟨t, ht⟩ := exists_scalar_of_inherited (.str name) key
      simp only [getProp, hindex, ht]
      split_ifs
      · exact ⟨_, rfl⟩
      · exact ⟨t, rfl⟩
  | some n =>
      simp only [getProp, hindex]
      cases hn : (Value.chars name)[n]? with
      | none => exact ⟨_, rfl⟩
      | some x =>
          obtain ⟨c, _, rfl⟩ := List.mem_map.mp (List.mem_of_getElem? hn)
          exact ⟨_, rfl⟩

theorem getProp_error_iff {v key : Value} :
    (∃ e, getProp v key = .error e) ↔ Withholds v key := by
  cases v with
  | dict own | bin b => simp [getProp, Withholds]
  | list xs | tuple xs => cases hindex : elementIndex? key <;> simp [getProp, Withholds, hindex]
  | scalar s =>
      by_cases hnone : s = .none
      · subst hnone
        simp [getProp, Withholds]
      by_cases hundefined : s = .other 0
      · subst hundefined
        simp [getProp, Withholds]
      simp only [Withholds, hnone, hundefined, false_or]
      by_cases hstr : ∃ name, s = .str name
      · obtain ⟨name, rfl⟩ := hstr
        obtain ⟨t, ht⟩ := getProp_str name key
        simp [ht, builtin?]
      · rw [getProp_scalar (not_exists.mp hstr) hnone hundefined]
        cases builtin? s with
        | none => simp
        | some b => simp [Builtin.get_error_iff]

/-- A property of a primitive value is no container. -/
theorem exists_scalar_of_getProp {s : Scalar} {key c : Value}
    (h : getProp (.scalar s) key = .ok c) : ∃ t, c = .scalar t := by
  by_cases hnone : s = .none
  · subst hnone
    cases h
  by_cases hundefined : s = .other 0
  · subst hundefined
    cases h
  by_cases hstr : ∃ name, s = .str name
  · obtain ⟨name, rfl⟩ := hstr
    obtain ⟨t, ht⟩ := getProp_str name key
    cases ht.symm.trans h
    exact ⟨t, rfl⟩
  · rw [getProp_scalar (not_exists.mp hstr) hnone hundefined] at h
    cases hbuiltin : builtin? s with
    | none =>
        rw [hbuiltin] at h
        cases h
        exact exists_scalar_of_inherited _ key
    | some b =>
        rw [hbuiltin] at h
        exact Builtin.exists_scalar_of_get h

/-- What is found under a key can be put back. -/
theorem putBack_ok {v key found : Value} (hget : getProp v key = .ok found) (changed : Value) :
    ∃ w, putBack v key found changed = .ok w := by
  unfold putBack
  split_ifs with hcontainer
  · have hseq : ∀ xs : List Value, getProp (.list xs) key = .ok found →
        ∃ w, setProp (.list xs) key changed = .ok w := by
      intro xs hget
      cases hindex : elementIndex? key with
      | some n => exact ⟨_, by rw [setProp, hindex]⟩
      | none =>
          by_cases htext : text key = "length"
          · simp only [getProp, hindex, htext, if_true, Except.ok.injEq] at hget
            subst hget
            cases hcontainer
          · exact ⟨.list xs, by simp only [setProp, hindex, htext, if_false]⟩
    cases v with
    | dict own => exact ⟨_, rfl⟩
    | list xs | tuple xs => exact hseq xs hget
    | bin b =>
        obtain ⟨t, ht⟩ := exists_scalar_of_inherited (.bin b) key
        simp only [getProp, Except.ok.injEq, ht] at hget
        split_ifs at hget
        all_goals
          subst hget
          cases hcontainer
    | scalar s =>
        obtain ⟨t, rfl⟩ := exists_scalar_of_getProp hget
        cases hcontainer
  · exact ⟨v, rfl⟩

/-- What the merge of one value refuses. -/
theorem refuses_iff (b : Binary) (v : Value) (path : Path) :
    Refuses v path ↔ ∃ e, putAt (.bin b) v (path.map Key.toValue) = .error e := by
  induction path generalizing v with
  | nil =>
      rw [List.map_nil, putAt, setProp_error_iff]
      constructor
      · rintro ⟨h⟩
        exact h
      · exact .empty
  | cons key rest ih =>
      by_cases hrest : rest = []
      · subst hrest
        rw [List.map_singleton, putAt, setProp_error_iff]
        constructor
        · intro h
          cases h with
          | last h => exact h
          | nothing hrest _ => exact absurd rfl hrest
          | deeper hrest _ _ => exact absurd rfl hrest
        · exact .last
      · rw [List.map_cons, putAt_cons (by simpa using hrest)]
        constructor
        · intro h
          cases h with
          | last h => exact absurd rfl hrest
          | nothing _ h =>
              obtain ⟨e, he⟩ := getProp_error_iff.mpr h
              exact ⟨e, by simp only [he, bind, Except.bind]⟩
          | deeper _ hget h =>
              obtain ⟨e, he⟩ := (ih _).mp h
              exact ⟨e, by simp only [hget, he, bind, Except.bind]⟩
        · rintro ⟨e, he⟩
          cases hget : getProp v key.toValue with
          | error e' => exact .nothing hrest (getProp_error_iff.mp ⟨e', hget⟩)
          | ok c =>
              cases hput : putAt (.bin b) c (rest.map Key.toValue) with
              | error e' => exact .deeper hrest hget ((ih c).mpr ⟨e', hput⟩)
              | ok c' =>
                  obtain ⟨w, hw⟩ := putBack_ok hget c'
                  simp only [hget, hput, hw, bind, Except.bind] at he
                  cases he

-- a path through what `{}` inherits is taken
example (b : Binary) :
    putAt (.bin b) (.dict []) [.str "constructor", .str "x"] = .ok (.dict []) := rfl

/-! ### Objects that read the same -/

end Front

/-! ### The merges by steps -/

section Merger

variable {ε : Type} {merger : Merger ε} {admits : Key → Prop} {fits : Nat → Prop}

end Merger

/-! ### The C# port -/

namespace CSharp

/-- The key of the child that a segment means, where there can be one. -/
def names : Value → Key → Option Key
  | .dict _, .str s => some (.str s)
  | .list _, .str _ => none
  | .list xs, key =>
      ((toInt64 key).bind fun i => inRange xs.length (toInt32 i)).toOption.map fun n : Nat => .int n
  | _, _ => none

/-- There is no segment at all, one means nothing in what is found, or nothing is found with
segments left. -/
inductive Refuses : Value → Path → Prop
  | empty {v : Value} : Refuses v []
  | kind {v : Value} {key : Key} {rest : Path} (h : names v key = none) : Refuses v (key :: rest)
  | missing {v : Value} {key k : Key} {rest : Path} (hrest : rest ≠ [])
      (hkey : names v key = some k) (h : v.child k = none) : Refuses v (key :: rest)
  | deeper {v c : Value} {key k : Key} {rest : Path} (hrest : rest ≠ [])
      (hkey : names v key = some k) (hc : v.child k = some c) (h : Refuses c rest) :
      Refuses v (key :: rest)

theorem listIndex_error {v : Value} {key : Key} (hkey : ∀ s, key ≠ .str s)
    (h : names v key = none) : ∃ e, listIndex v key = .error e := by
  cases hindex : listIndex v key with
  | error e => exact ⟨e, rfl⟩
  | ok found =>
      obtain ⟨list, hlist, hindex⟩ := Port.bind_eq_ok_iff.mp hindex
      obtain ⟨i, hi, hindex⟩ := Port.bind_eq_ok_iff.mp hindex
      obtain ⟨xs, hxs, hindex⟩ := Port.bind_eq_ok_iff.mp hindex
      obtain ⟨n, hn, -⟩ := Port.bind_eq_ok_iff.mp hindex
      have hv : v = .list xs := by
        cases v with
        | list ys =>
            cases hlist
            cases hxs
            rfl
        | scalar s =>
            cases s with
            | none =>
                cases hlist
                cases hxs
            | _ => cases hlist
        | bin b | tuple ys | dict kvs => cases hlist
      subst hv
      cases key with
      | str s => exact absurd rfl (hkey s)
      | none | int k | frac q | other tag =>
          simp [names, hi, Except.bind, hn, Except.toOption] at h

theorem listIndex_names {xs : List Value} {key k : Key} (h : names (.list xs) key = some k) :
    ∃ n : Nat, k = .int n ∧ n < xs.length ∧ listIndex (.list xs) key = .ok (xs, n) := by
  have hsome : (((toInt64 key).bind fun i => inRange xs.length (toInt32 i)).toOption.map
      fun n : Nat => Key.int n) = some k := by
    cases key with
    | str s => cases h
    | none | int i | frac q | other tag => simpa only [names] using h
  obtain ⟨n, hn, rfl⟩ := Option.map_eq_some_iff.mp hsome
  obtain ⟨i, hi, hrange⟩ := Port.bind_eq_ok_iff.mp (toOption_eq_some_iff.mp hn)
  refine ⟨n, rfl, ?_, by rw [listIndex_of_toInt64 hi, hrange]; rfl⟩
  unfold inRange at hrange
  split_ifs at hrange with hlt
  cases hrange
  omega

/-- What a segment that means nothing does. -/
theorem step_error {v : Value} {key : Key} (h : names v key = none) :
    (∃ e, index v key = .error e) ∧ ∀ c, ∃ e, assign v key c = .error e := by
  have hindex : (∀ s, key ≠ .str s) → ∃ e, listIndex v key = .error e := fun hkey =>
    listIndex_error hkey h
  cases key with
  | str s =>
      cases v with
      | dict kvs => cases h
      | list xs | tuple xs | bin b => exact ⟨⟨_, rfl⟩, fun _ => ⟨_, rfl⟩⟩
      | scalar t => cases t <;> exact ⟨⟨_, rfl⟩, fun _ => ⟨_, rfl⟩⟩
  | none | int i | frac q | other tag =>
      obtain ⟨e, he⟩ := hindex (by simp)
      exact ⟨⟨e, by simp [index, he, bind, Except.bind]⟩,
        fun c => ⟨e, by simp [assign, he, bind, Except.bind]⟩⟩

/-- What one that means a child does. -/
theorem step_names {v : Value} {key k : Key} (h : names v key = some k) :
    (∀ c, v.child k = some c → index v key = .ok c) ∧
      (v.child k = none → ∃ e, index v key = .error e) ∧
      ∀ c, assign v key c = .ok (v.withChild k c) := by
  cases v with
  | scalar s | bin b | tuple xs => cases key <;> cases h
  | dict kvs =>
      cases key with
      | none | int i | frac q | other tag => cases h
      | str s =>
          cases h
          refine ⟨fun c hc => ?_, fun hc => ?_, fun c => rfl⟩
          · rw [child_dict] at hc
            simp [index, castDictionary, deref, bind, Except.bind, hc]
          · rw [child_dict] at hc
            simp [index, castDictionary, deref, bind, Except.bind, hc]
  | list xs =>
      obtain ⟨n, rfl, hn, hindex⟩ := listIndex_names h
      have hx : (Value.list xs).child (.int n) = some xs[n] := List.getElem?_eq_getElem hn
      have hsteps : index (.list xs) key = .ok (xs.getD n .none) ∧
          ∀ c, assign (.list xs) key c = .ok (.list (xs.set n c)) := by
        cases key with
        | str s => cases h
        | none | int i | frac q | other tag =>
            simp [index, assign, hindex, bind, Except.bind, pure, Except.pure]
      refine ⟨fun c hc => ?_, fun hc => ?_, hsteps.2⟩
      · rw [hx] at hc
        cases hc
        rw [hsteps.1]
        simp [hn]
      · rw [hx] at hc
        cases hc

theorem refuses_iff (b : Binary) (v : Value) (path : Path) :
    Refuses v path ↔ ∃ e, merger.putAt b v path = .error e := by
  induction path generalizing v with
  | nil => exact ⟨fun _ => ⟨_, rfl⟩, fun _ => .empty⟩
  | cons key rest ih =>
      cases hkey : names v key with
      | none =>
          obtain ⟨⟨e, hindex⟩, hassign⟩ := step_error hkey
          refine ⟨fun _ => ?_, fun _ => .kind hkey⟩
          by_cases hrest : rest = []
          · subst hrest
            exact hassign _
          · rw [Merger.putAt_cons hrest]
            exact ⟨e, by simp only [merger, hindex, bind, Except.bind]⟩
      | some k =>
          obtain ⟨hfound, hmissing, hassign⟩ := step_names hkey
          by_cases hrest : rest = []
          · subst hrest
            constructor
            · intro h
              cases h with
              | kind h => rw [hkey] at h; cases h
              | missing hrest | deeper hrest => exact absurd rfl hrest
            · rintro ⟨e, he⟩
              have he : assign v key (.bin b) = .error e := he
              rw [hassign] at he
              cases he
          · rw [Merger.putAt_cons hrest]
            cases hc : v.child k with
            | none =>
                obtain ⟨e, he⟩ := hmissing hc
                exact ⟨fun _ => ⟨e, by simp only [merger, he, bind, Except.bind]⟩,
                  fun _ => .missing hrest hkey hc⟩
            | some c =>
                simp only [merger, hfound c hc, bind, Except.bind]
                constructor
                · intro h
                  cases h with
                  | kind h => rw [hkey] at h; cases h
                  | missing _ hkey' h =>
                      rw [hkey] at hkey'
                      cases hkey'
                      rw [hc] at h
                      cases h
                  | deeper _ hkey' hc' h =>
                      rw [hkey] at hkey'
                      cases hkey'
                      rw [hc] at hc'
                      cases hc'
                      obtain ⟨e, he⟩ := (ih c).mp h
                      exact ⟨e, by simp only [merger] at he; rw [he]⟩
                · rintro ⟨e, he⟩
                  cases hput : merger.putAt b c rest with
                  | error e' => exact .deeper hrest hkey hc ((ih c).mpr ⟨e', hput⟩)
                  | ok c' =>
                      simp only [merger] at hput
                      simp only [hput, hassign] at he
                      cases he

end CSharp

/-! ### The Clojure port -/

namespace Clojure

/-- What `assoc` takes: any key of a map or of `nil`, and of a vector an index up to its end. -/
def Takes : Value → Key → Prop
  | .scalar .none, _ | .dict _, _ => True
  | .list xs, .int i => 0 ≤ CSharp.toInt32 i ∧ CSharp.toInt32 i ≤ xs.length
  | _, _ => False

/-- A segment is no key of what is found.  Where there is no segment at all, `nil` is the key. -/
inductive Refuses : Value → Path → Prop
  | empty {v : Value} (h : ¬ Takes v .none) : Refuses v []
  | here {v : Value} {key : Key} {rest : Path} (h : ¬ Takes v key) : Refuses v (key :: rest)
  | deeper {v : Value} {key : Key} {rest : Path} (hrest : rest ≠ [])
      (h : Refuses (get v key) rest) : Refuses v (key :: rest)

theorem assoc_error_iff {v : Value} {key : Key} {c : Value} :
    (∃ e, assoc v key c = .error e) ↔ ¬ Takes v key := by
  cases v with
  | dict kvs => simp [assoc, Takes]
  | scalar s => cases s <;> simp [assoc, Takes]
  | bin b | tuple xs => simp [assoc, Takes]
  | list xs =>
      cases key with
      | none | frac q | str s | other tag => simp [assoc, Takes]
      | int i =>
          simp only [assoc, Takes]
          split_ifs with hin hend
          · simp only [exists_false, false_iff, not_not]
            omega
          · simp only [exists_false, false_iff, not_not]
            omega
          · simp only [Except.error.injEq, exists_eq', true_iff]
            omega

theorem refuses_iff (b : Binary) (v : Value) (path : Path) :
    Refuses v path ↔ ∃ e, merger.putAt b v path = .error e := by
  induction path generalizing v with
  | nil =>
      rw [Merger.putAt, merger, assoc_error_iff]
      constructor
      · rintro ⟨h⟩
        exact h
      · exact .empty
  | cons key rest ih =>
      by_cases hrest : rest = []
      · subst hrest
        rw [Merger.putAt, merger, assoc_error_iff]
        constructor
        · intro h
          cases h with
          | here h => exact h
          | deeper hrest => exact absurd rfl hrest
        · exact .here
      · have hput : merger.putAt b v (key :: rest) =
            (do
              let child ← merger.putAt b (get v key) rest
              assoc v key child) := by
          rw [Merger.putAt_cons hrest]
          rfl
        rw [hput]
        constructor
        · intro h
          cases hchild : merger.putAt b (get v key) rest with
          | error e => exact ⟨e, rfl⟩
          | ok child =>
              cases h with
              | here h => exact assoc_error_iff.mpr h
              | deeper _ h =>
                  obtain ⟨e, he⟩ := (ih _).mp h
                  rw [hchild] at he
                  cases he
        · rintro ⟨e, he⟩
          cases hchild : merger.putAt b (get v key) rest with
          | error e' => exact .deeper hrest ((ih _).mpr ⟨e', hchild⟩)
          | ok child =>
              rw [hchild] at he
              exact .here (assoc_error_iff.mp ⟨e, he⟩)

end Clojure

end Cositos
