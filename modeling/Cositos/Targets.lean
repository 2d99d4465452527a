/-
Where the segments of a buffer path lead in a state: an index counts from the front
once it is read, and `True` is the key `1`.  What a merge does to a state is told by
the targets of its paths, read in the state before the merge.
-/
import Cositos.Alike

namespace Cositos

namespace Value

/-! ### The target of a path -/

/-- The key a subscript names below a label. -/
def Label.keyOf : Label → Value → Option Key
  | .dict, key => (hashKey key).toOption
  | .list length, key | .tuple length, key =>
      (seqIndex length key).toOption.map fun n => .int n
  | .scalar _, _ | .bin _, _ => none

/-- `isinstance(value, (list, tuple, dict))`, for what has the label. -/
def Label.isContainer : Label → Bool
  | .list _ | .tuple _ | .dict => true
  | .scalar _ | .bin _ => false

/-- The path the segments stand for: a child at each of them, the last apart. -/
def target : Value → List Value → Option Path
  | _, [] => none
  | v, [key] => (v.label.keyOf key).map fun k => [k]
  | v, key :: rest => do
      let k ← v.label.keyOf key
      let c ← v.child k
      let path ← c.target rest
      return k :: path

/-- The targets of the buffer paths that have one. -/
def targets (v : Value) (bufferPaths : List Value) : List Path :=
  bufferPaths.filterMap fun path => path.segments.toOption.bind v.target

theorem isContainer_label (v : Value) : v.label.isContainer = v.isContainer := by
  cases v <;> rfl

theorem target_cons {v key : Value} {rest : List Value} (hrest : rest ≠ []) {path : Path} :
    v.target (key :: rest) = some path ↔ ∃ k c path', v.label.keyOf key = some k ∧
      v.child k = some c ∧ c.target rest = some path' ∧ path = k :: path' := by
  cases rest with
  | nil => exact absurd rfl hrest
  | cons next rest =>
      simp only [target, Option.bind_eq_bind, Option.bind_eq_some_iff, Option.pure_def,
        Option.some.injEq, @eq_comm _ path]
      constructor
      · rintro ⟨k, hk, c, hc, path', hpath', h⟩
        exact ⟨k, c, path', hk, hc, hpath', h⟩
      · rintro ⟨k, c, path', hk, hc, hpath', h⟩
        exact ⟨k, hk, c, hc, path', hpath', h⟩

theorem target_ne_nil {v : Value} {segments : List Value} {path : Path}
    (h : v.target segments = some path) : path ≠ [] := by
  match segments with
  | [] => cases h
  | [key] =>
      obtain ⟨k, _, rfl⟩ := Option.map_eq_some_iff.mp h
      simp
  | key :: next :: rest =>
      obtain ⟨k, c, path', _, _, _, rfl⟩ := (target_cons (by simp)).mp h
      simp

theorem toOption_eq_some_iff {ε α : Type} {x : Except ε α} {a : α} :
    x.toOption = some a ↔ x = .ok a := by
  cases x <;> simp [Except.toOption]

theorem seqIndex_lt {length n : Nat} {key : Value} (h : seqIndex length key = .ok n) :
    n < length := by
  have hindex : ∀ i : Int, indexOf length i = .ok n → n < length := by
    intro i hi
    unfold indexOf at hi
    split_ifs at hi <;> cases hi <;> omega
  cases key with
  | scalar s =>
      cases s with
      | int i => exact hindex i h
      | bool b => exact hindex b.toNat h
      | _ => cases h
  | _ => cases h

theorem keyOf_seq {length n : Nat} {key : Value} (h : seqIndex length key = .ok n) :
    (Label.list length).keyOf key = some (.int n) := by
  simp [Label.keyOf, h, Except.toOption]

theorem keyOf_dict {key : Value} {k : Key} (h : hashKey key = .ok k) :
    Label.dict.keyOf key = some k := by
  simp [Label.keyOf, h, Except.toOption]

/-- A container found at a subscript is the child under the key it names. -/
theorem getItem_container {v key c : Value} (h : v.getItem key = .ok c)
    (hc : c.isContainer = true) : ∃ k, v.label.keyOf key = some k ∧ v.child k = some c := by
  have hseq : ∀ xs : List Value, seqItem xs key = .ok c →
      ∃ n : Nat, seqIndex xs.length key = .ok n ∧ xs[n]? = some c := by
    intro xs hitem
    obtain ⟨n, hn, hitem⟩ := Port.bind_eq_ok_iff.mp hitem
    cases hx : xs[n]? with
    | none => simp [hx] at hitem
    | some x =>
        simp only [hx] at hitem
        cases hitem
        exact ⟨n, hn, hx⟩
  cases v with
  | dict kvs =>
      obtain ⟨k, hk, h⟩ := Port.bind_eq_ok_iff.mp h
      cases hlookup : kvs.lookup k with
      | none => simp [hlookup] at h
      | some x =>
          simp only [hlookup] at h
          cases h
          exact ⟨k, keyOf_dict hk, by rw [child_dict, hlookup]⟩
  | list xs | tuple xs =>
      obtain ⟨n, hn, hx⟩ := hseq xs h
      exact ⟨.int n, keyOf_seq hn, hx⟩
  | scalar s | bin b => rw [Buffers.leaf_getItem rfl h] at hc; cases hc

theorem assigns_tuple {xs : List Value} {n : Nat} (hn : n < xs.length) (c : Value) :
    Assigns (.tuple xs) (.int (n : Int)) c (.tuple (xs.set n c)) := by
  refine ⟨by simp [label], fun j => ?_⟩
  rw [child_tuple, child_tuple]
  exact child_list_set hn c j

theorem setItem_assigns {v key c w : Value} (h : v.setItem key c = .ok w) :
    ∃ k, v.label.keyOf key = some k ∧ Assigns v k c w := by
  cases v with
  | dict kvs =>
      obtain ⟨k, hk, h⟩ := Port.bind_eq_ok_iff.mp h
      cases h
      exact ⟨k, keyOf_dict hk, assigns_dict kvs k c⟩
  | list xs =>
      obtain ⟨n, hn, h⟩ := Port.bind_eq_ok_iff.mp h
      cases h
      exact ⟨.int n, keyOf_seq hn, assigns_list (seqIndex_lt hn) c⟩
  | scalar s | bin b | tuple xs => cases h

theorem withItem_assigns {v key c w : Value} (h : v.withItem key c = .ok w) :
    ∃ k, v.label.keyOf key = some k ∧ Assigns v k c w := by
  cases v with
  | tuple xs =>
      obtain ⟨n, hn, h⟩ := Port.bind_eq_ok_iff.mp h
      cases h
      exact ⟨.int n, keyOf_seq hn, assigns_tuple (seqIndex_lt hn) c⟩
  | scalar s | bin b | list xs | dict kvs => exact setItem_assigns h

end Value

namespace Buffers

open Value

/-- One buffer is written at the target of its path. -/
theorem putAt_target {b : Binary} {v w : Value} {segments : List Value}
    (h : putAt b v segments = .ok w) :
    ∃ path, v.target segments = some path ∧ Writes v path b w := by
  induction segments generalizing v w with
  | nil => cases h
  | cons key rest ih =>
      by_cases hrest : rest = []
      · subst hrest
        obtain ⟨k, hk, hw⟩ := setItem_assigns h
        exact ⟨[k], by simp [target, hk], writes_singleton hw⟩
      · rw [putAt_cons hrest] at h
        obtain ⟨c, hget, h⟩ := Port.bind_eq_ok_iff.mp h
        obtain ⟨c', hput, hwith⟩ := Port.bind_eq_ok_iff.mp h
        obtain ⟨path, hpath, hwrites⟩ := ih hput
        have hcontainer : c.isContainer = true := by
          cases hleaf : c.isContainer with
          | true => rfl
          | false => exact absurd hput (putAt_leaf c rest c' hleaf)
        obtain ⟨k, hk, hc⟩ := getItem_container hget hcontainer
        obtain ⟨k', hk', hw⟩ := withItem_assigns hwith
        have hsame : k' = k := Option.some.inj (hk'.symm.trans hk)
        subst hsame
        refine ⟨k' :: path, ?_, writes_cons hc hwrites hw⟩
        exact (target_cons hrest).mpr ⟨k', c, path, hk, hc, hpath, rfl⟩

/-! ### What all the buffers do -/

/-- The containers of `w` are containers of `v`, at the same places. -/
def Thins (v w : Value) : Prop :=
  ∀ path l, w.look path = some l → l.isContainer = true → v.look path = some l

theorem thins_of_writes {v w : Value} {path : Path} {b : Binary} (h : Writes v path b w) :
    Thins v w := by
  intro other l hl hcontainer
  by_cases hpre : path <+: other
  · obtain ⟨rest, rfl⟩ := hpre
    rw [h.1, look_bin] at hl
    split_ifs at hl
    cases hl
    cases hcontainer
  · rw [← h.2 other hpre, hl]

theorem Thins.child {v w c : Value} {k : Key} (h : Thins v w) (hc : w.child k = some c)
    (hcontainer : c.isContainer = true) : ∃ d, v.child k = some d ∧ Thins d c := by
  have hlook := h [k] c.label (by simp [look, hc]) (by rwa [isContainer_label])
  cases hd : v.child k with
  | none => simp [look, hd] at hlook
  | some d =>
      refine ⟨d, rfl, fun path l hl hcl => ?_⟩
      have hdeep := h (k :: path) l (by rwa [look_cons_of_child hc]) hcl
      rwa [look_cons_of_child hd] at hdeep

theorem isContainer_of_keyOf {v key : Value} {k : Key} (h : v.label.keyOf key = some k) :
    v.isContainer = true := by
  cases v <;> first | rfl | cases h

theorem isContainer_of_target {v : Value} {segments : List Value} {path : Path}
    (h : v.target segments = some path) : v.isContainer = true := by
  match segments with
  | [] => cases h
  | [key] =>
      obtain ⟨k, hk, _⟩ := Option.map_eq_some_iff.mp h
      exact isContainer_of_keyOf hk
  | key :: next :: rest =>
      obtain ⟨k, c, path', hk, _⟩ := (target_cons (by simp)).mp h
      exact isContainer_of_keyOf hk

/-- A target is one already before the buffers in front of it were written. -/
theorem Thins.target {v w : Value} {segments : List Value} {path : Path} (h : Thins v w)
    (htarget : w.target segments = some path) : v.target segments = some path := by
  induction segments generalizing v w path with
  | nil => cases htarget
  | cons key rest ih =>
      have hroot := h [] w.label rfl (by
        rw [isContainer_label]
        exact isContainer_of_target htarget)
      have hlabel : v.label = w.label := Option.some.inj hroot
      by_cases hrest : rest = []
      · subst hrest
        rwa [Value.target, hlabel]
      · obtain ⟨k, c, path', hk, hc, hpath', rfl⟩ := (target_cons hrest).mp htarget
        obtain ⟨d, hd, hthins⟩ := h.child hc (isContainer_of_target hpath')
        exact (target_cons hrest).mpr ⟨k, d, path', hlabel ▸ hk, hd, ih hthins hpath', rfl⟩

/-- `w` is `v` with a buffer at, or above, each of the targets. -/
structure Puts (v : Value) (targets : List Path) (w : Value) : Prop where
  thins : Thins v w
  elsewhere : ∀ path, (∀ t ∈ targets, ¬ t <+: path) → w.look path = v.look path
  buffer : ∀ t ∈ targets, ∃ front b, front ≠ [] ∧ front <+: t ∧ w.look front = some (.bin b)

theorem Puts.refl (v : Value) : Puts v [] v :=
  ⟨fun _ _ h _ => h, fun _ _ => rfl, by simp⟩

theorem Puts.cons {v v' w : Value} {path : Path} {b : Binary} {targets : List Path}
    (hpath : path ≠ []) (hwrites : Writes v path b v') (h : Puts v' targets w) :
    Puts v (path :: targets) w where
  thins other l hl hcontainer :=
    thins_of_writes hwrites other l (h.thins other l hl hcontainer) hcontainer
  elsewhere other hother := by
    rw [List.forall_mem_cons] at hother
    rw [h.elsewhere other hother.2, hwrites.2 other hother.1]
  buffer t ht := by
    rcases List.mem_cons.mp ht with rfl | ht
    · by_cases hover : ∃ other ∈ targets, other <+: t
      · obtain ⟨other, hmem, hpre⟩ := hover
        obtain ⟨front, b', hfront, hprefix, hlook⟩ := h.buffer other hmem
        exact ⟨front, b', hfront, hprefix.trans hpre, hlook⟩
      · refine ⟨t, b, hpath, List.prefix_refl t, ?_⟩
        rw [h.elsewhere t fun other hmem hpre => hover ⟨other, hmem, hpre⟩]
        simpa [look_bin] using hwrites.1 []
    · exact h.buffer t ht

/-- All the paths have a target in the state before the merge, and the merge writes
there. -/
theorem putBuffers_puts {v w : Value} {bufferPaths : List Value} {buffers : List Binary}
    (h : putBuffers v bufferPaths buffers = .ok w) :
    (∀ path ∈ bufferPaths, ∃ segments t, path.segments = .ok segments ∧
      v.target segments = some t) ∧ Puts v (v.targets bufferPaths) w := by
  refine putBuffers_run (fun v => ⟨by simp, Puts.refl v⟩) ?_ h
  rintro v path paths b buffers segments v' w hsegments hput ⟨hall, hputs⟩
  obtain ⟨t, ht, hwrites⟩ := putAt_target hput
  have hthins := thins_of_writes hwrites
  have hrest : v.targets paths = v'.targets paths := by
    apply List.filterMap_congr
    intro other hother
    obtain ⟨segments', t', hsegments', ht'⟩ := hall other hother
    simp [hsegments', Except.toOption, ht', hthins.target ht']
  refine ⟨?_, ?_⟩
  · rw [List.forall_mem_cons]
    refine ⟨⟨segments, t, hsegments, ht⟩, fun other hother => ?_⟩
    obtain ⟨segments', t', hsegments', ht'⟩ := hall other hother
    exact ⟨segments', t', hsegments', hthins.target ht'⟩
  · have hhead : v.targets (path :: paths) = t :: v'.targets paths := by
      rw [← hrest]
      simp [targets, hsegments, Except.toOption, ht]
    rw [hhead]
    exact hputs.cons (target_ne_nil ht) hwrites

end Buffers

namespace Value

/-! ### Nesting by positions -/

theorem height_le_iff_look {v : Value} (hv : v.Wf) {n : Nat} :
    v.height ≤ n ↔ ∀ path l, v.look path = some l → l.isContainer = true → path.length < n := by
  induction n generalizing v with
  | zero =>
      have hpos := height_pos_iff (v := v)
      constructor
      · intro hzero path l hl hcontainer
        have hleaf : v.isContainer = false := by
          cases hv : v.isContainer with
          | false => rfl
          | true => exact absurd (hpos.mpr hv) (by omega)
        cases path with
        | nil =>
            cases hl
            rw [isContainer_label, hleaf] at hcontainer
            cases hcontainer
        | cons k path => cases v <;> simp [look, isContainer] at hl hleaf
      · intro h
        by_contra hne
        have hcontainer := hpos.mp (by omega)
        exact absurd (h [] v.label rfl (by rwa [isContainer_label])) (by simp)
  | succ n ih =>
      rw [height_le_succ_iff]
      constructor
      · intro h path l hl hcontainer
        cases path with
        | nil => simp
        | cons k path =>
            obtain ⟨c, hc, hl⟩ := Option.bind_eq_some_iff.mp hl
            have hmem := hv.child_iff.mp hc
            have hlt := (ih (hv.child hmem)).mp (h _ hmem) path l hl hcontainer
            simpa using hlt
      · rintro h ⟨k, c⟩ hmem
        apply (ih (hv.child hmem)).mpr
        intro path l hl hcontainer
        have hlt := h (k :: path) l
          (by rwa [look_cons_of_child (hv.child_iff.mpr hmem)]) hcontainer
        simpa using hlt

theorem nesting_le_iff_look {v : Value} (hv : v.Wf) {n : Nat} : v.nesting ≤ n ↔
    ∀ path l, v.look path = some l → l.isContainer = true → path.length ≤ n := by
  rw [nesting_le_iff, height_le_iff_look hv]
  simp only [Nat.lt_succ_iff]

end Value

end Cositos
