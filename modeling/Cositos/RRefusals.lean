/-
What the merge of the R port refuses, told by where it goes along the path.
-/
import Cositos.Refusals

namespace Cositos

open Value

namespace R

/-- How many elements an object has. -/
def size : RObject → Nat
  | .null => 0
  | .atom _ => 1
  | .raw bytes => bytes.length
  | .list items => items.length

/-- A subscript can select an element of so many. -/
def Selects (length : Nat) : Subscript → Prop
  | .name _ => True
  | .index none => False
  | .index (some i) => ∃ n, position length i = .ok n

/-- There is no segment, or a scalar is found, or a segment selects no element; what is found
with segments left is not there.  A vector of bytes takes a single byte, at its own element. -/
inductive Refuses (buf : List UInt8) : RObject → Path → Prop
  | empty {obj : RObject} : Refuses buf obj []
  | atom {s : Scalar} {path : Path} : Refuses buf (.atom s) path
  | subscript {obj : RObject} {key : Key} {rest : Path}
      (h : ∀ idx, subscript key = .ok idx → ¬ Selects (size obj) idx) : Refuses buf obj (key :: rest)
  | outside {obj : RObject} {key : Key} {idx : Subscript} {rest : Path} {e : RError}
      (hrest : rest ≠ []) (hkey : subscript key = .ok idx) (h : getOne obj idx = .error e) :
      Refuses buf obj (key :: rest)
  | deeper {obj child : RObject} {key : Key} {idx : Subscript} {rest : Path} (hrest : rest ≠ [])
      (hkey : subscript key = .ok idx) (hget : getOne obj idx = .ok child)
      (h : Refuses buf child rest) : Refuses buf obj (key :: rest)
  | bytes {bytes : List (String × UInt8)} {path : Path} (h : buf.length ≠ 1) :
      Refuses buf (.raw bytes) path
  | beyond {bytes : List (String × UInt8)} {key other : Key} {rest : Path} (hother : other ∈ rest)
      (h : subscript other ≠ .ok (.index (some 1))) : Refuses buf (.raw bytes) (key :: rest)

theorem replace_ok {α : Type} (items : List (String × α)) (filler x : α) {idx : Subscript}
    (h : Selects items.length idx) : ∃ items', replace items filler idx x = .ok items' := by
  match idx, h with
  | .name s, _ => exact ⟨_, rfl⟩
  | .index (some i), h =>
      obtain ⟨n, hn⟩ := h
      simp only [replace, hn, bind, Except.bind]
      cases items[n]? with
      | none => exact ⟨_, rfl⟩
      | some item => exact ⟨_, rfl⟩

/-- A vector of a single byte. -/
def Single (obj : RObject) : Prop := ∃ name b, obj = .raw [(name, b)]

theorem assign_null {value : RObject} (h : ¬ Single value) (idx : Subscript) :
    assign .null idx value = (replace [] .null idx value).map .list := by
  match value with
  | .raw [(name, b)] => exact absurd ⟨name, b, rfl⟩ h
  | .raw [] | .raw (_ :: _ :: _) | .null | .atom _ | .list _ => rfl

theorem assign_ok {obj value : RObject} {idx : Subscript} (h : Selects (size obj) idx)
    (hatom : ∀ s, obj ≠ .atom s) (hraw : ∀ bytes, obj = .raw bytes → Single value) :
    ∃ obj', assign obj idx value = .ok obj' := by
  cases obj with
  | atom s => exact absurd rfl (hatom s)
  | list items =>
      obtain ⟨items', hok⟩ := replace_ok items .null value h
      exact ⟨_, by simp [assign, hok, Except.map]; rfl⟩
  | raw bytes =>
      obtain ⟨name, b, rfl⟩ := hraw bytes rfl
      obtain ⟨items', hok⟩ := replace_ok bytes 0 b h
      exact ⟨_, by simp [assign, hok, Except.map]; rfl⟩
  | null =>
      by_cases hsingle : Single value
      · obtain ⟨name, b, rfl⟩ := hsingle
        obtain ⟨items', hok⟩ := replace_ok [] 0 b h
        exact ⟨_, by simp [assign, hok, Except.map]; rfl⟩
      · obtain ⟨items', hok⟩ := replace_ok [] .null value h
        exact ⟨_, by simp [assign_null hsingle, hok, Except.map]; rfl⟩

end R

end Cositos
