/-
What the reference merge rejects, and when the front end and the Clojure, C# and R ports
reject it too.
-/
import Cositos.PortRefusals
import Cositos.RRefusals

namespace Cositos

open Value

/-! ### What the reference accepts -/

/-- The first path goes on where the second ends. -/
def GoesBelow (path above : Path) : Prop := above <+: path ∧ above ≠ path

namespace Value

theorem seqIndex_of_keyOf {length : Nat} {key : Value} {k : Key}
    (h : (Label.list length).keyOf key = some k) :
    ∃ n : Nat, seqIndex length key = .ok n ∧ k = .int n := by
  cases hn : seqIndex length key with
  | error e => simp [Label.keyOf, hn, Except.toOption] at h
  | ok n =>
      simp only [Label.keyOf, hn] at h
      exact ⟨n, rfl, (Option.some.inj h).symm⟩

theorem setItem_of_keyOf {v key : Value} (htuple : ∀ n, v.label ≠ .tuple n) {k : Key}
    (h : v.label.keyOf key = some k) (c : Value) : ∃ w, v.setItem key c = .ok w := by
  cases v with
  | scalar s | bin b => cases h
  | tuple xs => exact absurd rfl (htuple xs.length)
  | dict kvs =>
      refine ⟨.dict (Dict.set kvs k c), ?_⟩
      rw [setItem, toOption_eq_some_iff.mp h]
      rfl
  | list xs =>
      obtain ⟨n, hn, _⟩ := seqIndex_of_keyOf h
      refine ⟨.list (xs.set n c), ?_⟩
      rw [setItem, hn]
      rfl

theorem withItem_of_keyOf {v key : Value} {k : Key} (h : v.label.keyOf key = some k) (c : Value) :
    ∃ w, v.withItem key c = .ok w := by
  cases v with
  | scalar s | bin b => cases h
  | tuple xs =>
      obtain ⟨n, hn, _⟩ := seqIndex_of_keyOf h
      refine ⟨.tuple (xs.set n c), ?_⟩
      rw [withItem, hn]
      rfl
  | dict kvs => exact setItem_of_keyOf (v := .dict kvs) (fun n hn => by cases hn) h c
  | list xs => exact setItem_of_keyOf (v := .list xs) (fun n hn => by cases hn) h c

theorem getItem_of_keyOf {v key c : Value} {k : Key} (h : v.label.keyOf key = some k)
    (hc : v.child k = some c) : v.getItem key = .ok c := by
  cases v with
  | scalar s | bin b => cases h
  | dict kvs =>
      rw [child_dict] at hc
      rw [getItem, toOption_eq_some_iff.mp h]
      simp [bind, Except.bind, hc, pure, Except.pure]
  | list xs | tuple xs =>
      obtain ⟨n, hn, rfl⟩ := seqIndex_of_keyOf h
      have hx : xs[n]? = some c := hc
      rw [getItem, seqItem, hn]
      simp [bind, Except.bind, hx, pure, Except.pure]

end Value

namespace Buffers

end Buffers

/-! ### The runs of the ports -/

/-- The pairs, where the first ones are such that every merge writes them. -/
structure Split (v : Value) (paths : List Path) (buffers : List Binary)
    (leaves : List (Path × Binary)) (others : List Path) (unread : List Binary) : Prop where
  paths : paths = leaves.map Prod.fst ++ others
  buffers : buffers = leaves.map Prod.snd ++ unread
  taken : TakenAlike v leaves

theorem Split.cons {v : Value} {path : Path} {b : Binary} {paths others : List Path}
    {buffers unread : List Binary} {leaves : List (Path × Binary)} (hpath : Reached v path)
    (h : Split (v.written b path) paths buffers leaves others unread) :
    Split v (path :: paths) (b :: buffers) ((path, b) :: leaves) others unread where
  paths := by rw [h.paths]; rfl
  buffers := by rw [h.buffers]; rfl
  taken := ⟨hpath, h.taken⟩

namespace ScalarWitness

/-- A number, and a path that goes on below it with a name that JavaScript's numbers inherit. -/
def state : Value := .dict [(.str "a", .int 1)]

def path : Path := [.str "a", .str "toString"]

def buffer : Binary := ⟨.bytes, [65]⟩

end ScalarWitness

end Cositos
