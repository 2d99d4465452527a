/-
Pairs of a path and a binary value: the places where all the merges write alike, the state
that this leaves, and a run of such pairs in any of the languages up to one that is refused.
-/
import Cositos.Targets
import Cositos.Clojure
import Cositos.RMerge

namespace Cositos

open Value

/-! ### A binary value at the end of a path -/

namespace Value

/-- A container with another child under a key. -/
def withChild : Value → Key → Value → Value
  | .dict kvs, key, c => .dict (Dict.set kvs key c)
  | .list xs, .int (.ofNat n), c => .list (xs.set n c)
  | v, _, _ => v

/-- The value with a binary value at the end of a path. -/
def written (b : Binary) : Value → Path → Value
  | _, [] => .bin b
  | v, key :: path => v.withChild key (((v.child key).getD .none).written b path)

/-- The value with binary values at the ends of paths, written one after the other. -/
def after (v : Value) (leaves : List (Path × Binary)) : Value :=
  leaves.foldl (fun v leaf => v.written leaf.2 leaf.1) v

end Value

/-! ### Places that all merges write -/

/-- A position that every merge writes: no name on the way is empty, no array is too long for
R, and at its end no `__proto__` is added. -/
structure Reached (v : Value) (path : Path) : Prop where
  reaches : Merger.Reaches R.Named R.ListFits v path
  proto : ∀ front, path = front ++ [Front.protoKey] → v.look path ≠ none

theorem Reached.child {v c : Value} {key : Key} {path : Path} (h : Reached v (key :: path))
    (hpath : path ≠ []) (hc : v.child key = some c) : Reached c path := by
  refine ⟨h.reaches.child hpath hc, fun front heq => ?_⟩
  have hlook := h.proto (key :: front) (by rw [heq, List.cons_append])
  rwa [look_cons_of_child hc] at hlook

/-- Pairs that every merge writes, one after the other. -/
def TakenAlike : Value → List (Path × Binary) → Prop
  | _, [] => True
  | v, leaf :: leaves => Reached v leaf.1 ∧ TakenAlike (v.written leaf.2 leaf.1) leaves

section Steps

variable {ε : Type} {admits : Key → Prop} {fits : Nat → Prop}
  {f : Value → Path → Except ε Value} {b : Binary}

end Steps

namespace Buffers

end Buffers

section Mono

variable {admits admits' : Key → Prop} {fits fits' : Nat → Prop}
    (hadmits : ∀ key, admits key → admits' key) (hfits : ∀ n, fits n → fits' n)

include hadmits hfits

theorem Merger.Proper.mono {key : Key} {l : Option Label} (h : Merger.Proper admits fits key l) :
    Merger.Proper admits' fits' key l := by
  cases l with
  | none => trivial
  | some l =>
      cases l with
      | scalar s | bin b => trivial
      | tuple n => exact h
      | list n => exact hfits n h
      | dict => exact hadmits key h

theorem Merger.Reaches.mono {v : Value} {path : Path} (h : Merger.Reaches admits fits v path) :
    Merger.Reaches admits' fits' v path where
  settable := h.settable
  proper front key rest heq := (h.proper front key rest heq).mono hadmits hfits

end Mono

/-! ### Runs -/

section Run

variable {S ε : Type} {Shows : S → Value → Prop} {Refuses : Binary → Value → Path → Prop}
  {put : Binary → S → Path → Except ε S}

/-- A language's merge of one buffer, where an object of the language `Shows` a state: what it
writes and what it refuses. -/
structure Puts (Shows : S → Value → Prop) (Refuses : Binary → Value → Path → Prop)
    (put : Binary → S → Path → Except ε S) : Prop where
  reached : ∀ b s v path, Shows s v → Reached v path →
    ∃ s', put b s path = .ok s' ∧ Shows s' (v.written b path)
  refuses_iff : ∀ b s v path, Shows s v → (Refuses b v path ↔ ∃ e, put b s path = .error e)

/-- Pairs that every merge writes are merged. -/
theorem Puts.taken (hput : Puts Shows Refuses put) {leaves : List (Path × Binary)} {s : S}
    {v : Value} (hs : Shows s v) (h : TakenAlike v leaves) :
    ∃ s', leaves.foldlM (fun u leaf => put leaf.2 u leaf.1) s = .ok s' ∧
      Shows s' (v.after leaves) := by
  induction leaves generalizing s v with
  | nil => exact ⟨s, rfl, hs⟩
  | cons head tail ih =>
      obtain ⟨hhead, htail⟩ := h
      obtain ⟨s', hok, hs'⟩ := hput.reached head.2 s v head.1 hs hhead
      obtain ⟨s'', hrun, hs''⟩ := ih hs' htail
      refine ⟨s'', ?_, hs''⟩
      rw [List.foldlM_cons, hok]
      exact hrun

end Run

end Cositos
