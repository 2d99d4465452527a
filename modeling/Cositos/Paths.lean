/-
A merge that walks down a path and writes at its end, for any way of reading and
writing one step: what it needs of the steps to restore a state from its stripped
form.
-/
import Cositos.Recursive

namespace Cositos

open Value

/-- The steps of a merge.  `withItem` is the object after its child has been
changed in place. -/
structure Merger (ε : Type) where
  getItem : Value → Key → Except ε Value
  setItem : Value → Key → Value → Except ε Value
  withItem : Value → Key → Value → Except ε Value
  emptyPath : Value → Binary → Except ε Value

namespace Merger

variable {ε : Type} (merger : Merger ε)

/-- One buffer at the end of one path. -/
def putAt (buf : Binary) : Value → Path → Except ε Value
  | obj, [] => merger.emptyPath obj buf
  | obj, [last] => merger.setItem obj last (.bin buf)
  | obj, key :: path => do
      let child ← merger.getItem obj key
      let child ← putAt buf child path
      merger.withItem obj key child

/-- The merge reads and writes the keys `admits` of objects and the indices of
arrays whose length `fits`. -/
structure Standard (admits : Key → Prop) (fits : Nat → Prop) : Prop where
  get_dict : ∀ kvs key c, admits key → kvs.lookup key = some c →
    merger.getItem (.dict kvs) key = .ok c
  set_dict : ∀ kvs key c, admits key →
    ∃ w, merger.setItem (.dict kvs) key c = .ok w ∧ (Value.dict kvs).Assigns key c w
  with_dict : ∀ kvs key c, admits key →
    ∃ w, merger.withItem (.dict kvs) key c = .ok w ∧ (Value.dict kvs).Assigns key c w
  get_list : ∀ xs (n : Nat) c, fits xs.length → xs[n]? = some c →
    merger.getItem (.list xs) (.int n) = .ok c
  set_list : ∀ xs (n : Nat) c, fits xs.length → n < xs.length →
    merger.setItem (.list xs) (.int n) c = .ok (.list (xs.set n c))
  with_list : ∀ xs (n : Nat) c, fits xs.length → n < xs.length →
    merger.withItem (.list xs) (.int n) c = .ok (.list (xs.set n c))

/-- A step below such a label that the merge can take. -/
def Proper (admits : Key → Prop) (fits : Nat → Prop) (key : Key) : Option Label → Prop
  | some .dict => admits key
  | some (.list n) => fits n
  | some (.tuple _) => False
  | some (.scalar _) | some (.bin _) | none => True

/-- A position that such a merge can write. -/
structure Reaches (admits : Key → Prop) (fits : Nat → Prop) (v : Value) (path : Path) :
    Prop where
  settable : v.Settable path
  proper : ∀ front key rest, path = front ++ key :: rest →
    Proper admits fits key (v.look front)

variable {merger} {admits : Key → Prop} {fits : Nat → Prop}

theorem reaches_of_writes {v w : Value} {path path' : Path} {b : Binary}
    (hwrites : Buffers.Writes v path b w) (hno : ¬ path <+: path')
    (h : Reaches admits fits v path') : Reaches admits fits w path' := by
  refine ⟨Buffers.settable_of_writes hwrites hno h.settable, fun front key rest heq => ?_⟩
  rw [hwrites.2 front fun hpre => hno (hpre.trans (heq ▸ List.prefix_append _ _))]
  exact h.proper front key rest heq

theorem Reaches.child {v c : Value} {key : Key} {path : Path}
    (h : Reaches admits fits v (key :: path)) (hpath : path ≠ []) (hc : v.child key = some c) :
    Reaches admits fits c path := by
  refine ⟨h.settable.child hpath hc, fun front key' rest heq => ?_⟩
  rw [← look_cons_of_child hc]
  exact h.proper (key :: front) key' rest (by simp [heq])

theorem putAt_cons {b : Binary} {obj : Value} {key : Key} {path : Path} (hpath : path ≠ []) :
    merger.putAt b obj (key :: path) =
      (do
        let child ← merger.getItem obj key
        let child ← merger.putAt b child path
        merger.withItem obj key child) := by
  cases path with
  | nil => exact absurd rfl hpath
  | cons head tail => rfl

section Standard

variable (hstandard : merger.Standard admits fits)

include hstandard

/-- One step down, and the way back. -/
theorem step_proper {v c : Value} {key : Key} (hproper : Proper admits fits key (some v.label))
    (hc : v.child key = some c) :
    merger.getItem v key = .ok c ∧
      ∀ c', ∃ w, merger.withItem v key c' = .ok w ∧ v.Assigns key c' w := by
  cases v with
  | scalar s => simp at hc
  | bin b => simp at hc
  | tuple xs => exact absurd hproper id
  | dict kvs =>
      have hadmits : admits key := hproper
      rw [child_dict] at hc
      exact ⟨hstandard.get_dict kvs key c hadmits hc,
        fun c' => hstandard.with_dict kvs key c' hadmits⟩
  | list xs =>
      have hfits : fits xs.length := hproper
      obtain ⟨n, rfl, hn⟩ := mem_enumItems_iff.mp (child_seq_iff.mp hc)
      have hlt := (List.getElem?_eq_some_iff.mp hn).1
      simp only [Nat.zero_add]
      exact ⟨hstandard.get_list xs n c hfits hn,
        fun c' => ⟨_, hstandard.with_list xs n c' hfits hlt, assigns_list hlt c'⟩⟩

/-- The merge can write every position it reaches. -/
theorem putAt_reaches {v : Value} {path : Path} (h : Reaches admits fits v path) (b : Binary) :
    ∃ w, merger.putAt b v path = .ok w ∧ Buffers.Writes v path b w := by
  induction path generalizing v with
  | nil => exact absurd h.settable not_settable_nil
  | cons key path ih =>
      rcases h.settable.cons with
        ⟨rfl, ⟨kvs, rfl⟩ | ⟨xs, n, rfl, rfl, hlt⟩⟩ | ⟨hpath, c, hc, -⟩
      · obtain ⟨w, hset, hw⟩ := hstandard.set_dict kvs key (.bin b) (h.proper [] key [] rfl)
        exact ⟨w, hset, Buffers.writes_singleton hw⟩
      · exact ⟨_, hstandard.set_list xs n _ (h.proper [] _ [] rfl) hlt,
          Buffers.writes_singleton (assigns_list hlt _)⟩
      · obtain ⟨c', hput, hwrites⟩ := ih (h.child hpath hc)
        obtain ⟨hget, hwith⟩ := step_proper hstandard (h.proper [] key path rfl) hc
        obtain ⟨w, hset, hw⟩ := hwith c'
        refine ⟨w, ?_, Buffers.writes_cons hc hwrites hw⟩
        rw [putAt_cons hpath, hget]
        simp only [bind, Except.bind, hput]
        exact hset

end Standard

/-- A state all of whose steps the merge can take. -/
structure Holds (admits : Key → Prop) (fits : Nat → Prop) (v : Value) : Prop where
  wf : v.Wf
  proper : ∀ front key l, v.look (front ++ [key]) = some l →
    Proper admits fits key (v.look front)

theorem look_of_append {v : Value} {front rest : Path} {l : Label}
    (h : v.look (front ++ rest) = some l) : ∃ l', v.look front = some l' := by
  induction front generalizing v with
  | nil => exact ⟨v.label, by simp [look]⟩
  | cons k front ih =>
      obtain ⟨c, hc, hlook⟩ := Option.bind_eq_some_iff.mp h
      rw [look_cons_of_child hc]
      exact ih hlook

/-- The leaves of a state can be written below its stripped form. -/
theorem reaches_strip {v s : Value} (hv : Holds admits fits v) (hlisted : v.listed = v)
    (hcontainer : v.isContainer = true) (hs : s ≈ v.strip) {path : Path} {b : Binary}
    (hleaf : v.look path = some (.bin b)) : Reaches admits fits s path := by
  obtain ⟨front, last, heq, hparent⟩ := Buffers.settable_strip hv.wf hcontainer hleaf
  refine ⟨⟨front, last, heq, by simpa only [hs front] using hparent⟩, ?_⟩
  intro front' key rest heq'
  rw [hs front', look_strip_above hv.wf hlisted (heq' ▸ hleaf)]
  rw [heq', List.append_cons] at hleaf
  obtain ⟨l, hl⟩ := look_of_append hleaf
  exact hv.proper front' key l hl

/-- Merging the leaves of a state into its stripped form restores it. -/
theorem foldlM_strip (hstandard : merger.Standard admits fits) {v s : Value}
    (hv : Holds admits fits v) (hlisted : v.listed = v) (hcontainer : v.isContainer = true)
    (hs : s ≈ v.strip) :
    ∃ w, v.binaries.foldlM (fun u leaf => merger.putAt leaf.2 u leaf.1) s = .ok w ∧ w ≈ v := by
  have hmerge : ∃ w, v.binaries.foldlM (fun u leaf => merger.putAt leaf.2 u leaf.1) s = .ok w ∧
      Buffers.Merges s v.binaries w := by
    apply Buffers.foldlM_merges _ _ v.binaries _ (Buffers.incomparable_binaries hv.wf)
    · exact Reaches admits fits
    · exact fun u leaf h => putAt_reaches hstandard h leaf.2
    · exact fun u w path path' b => reaches_of_writes
    · exact fun leaf hleaf =>
        reaches_strip hv hlisted hcontainer hs ((mem_binaries_iff hv.wf).mp hleaf)
  obtain ⟨w, hput, hmerges⟩ := hmerge
  have hequiv := hmerges.equiv_listed hv.wf hs
  rw [hlisted] at hequiv
  exact ⟨w, hput, hequiv⟩

end Merger

end Cositos
