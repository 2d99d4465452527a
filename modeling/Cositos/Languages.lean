/-
The split in four languages: on trees that read the same they hand back states
that read the same, and the same buffers at the same positions.
-/
import Cositos.Clojure

namespace Cositos

namespace Value

/-! ### States that read the same -/

theorem child_plain (v : Value) (k : Key) : v.plain.child k = (v.child k).map plain := by
  cases v with
  | scalar s | bin b => simp [plain]
  | list xs => simp [plain, plainSeq_eq, child_list_map]
  | tuple xs => rw [child_tuple, plain, plainSeq_eq, child_list_map]
  | dict kvs => simp [plain, plainEntries_eq, Dict.lookup_map_snd]

theorem untupled_plain (v : Value) : v.plain.Untupled := by
  intro path n
  induction path generalizing v with
  | nil => cases v <;> simp [look, label, plain]
  | cons k path ih =>
      rw [look, child_plain]
      cases v.child k with
      | none => simp
      | some c => exact ih c

theorem isContainer_plain (v : Value) : v.plain.isContainer = v.isContainer := by
  cases v <;> rfl

theorem height_plain_le_iff (v : Value) (n : Nat) : v.plain.height ≤ n ↔ v.height ≤ n := by
  induction n generalizing v with
  | zero =>
      have hplain := height_pos_iff (v := v.plain)
      rw [isContainer_plain, ← height_pos_iff] at hplain
      omega
  | succ n ih =>
      rw [height_le_succ_iff, height_le_succ_iff, items_plain, List.forall_mem_map]
      exact forall₂_congr fun kc _ => ih kc.2

theorem nesting_plain (v : Value) : v.plain.nesting = v.nesting := by
  have hheight : v.plain.height = v.height :=
    le_antisymm ((height_plain_le_iff v _).mpr le_rfl) ((height_plain_le_iff v _).mp le_rfl)
  rw [nesting, nesting, hheight]

theorem isContainer_of_equiv {v w : Value} (h : v ≈ w) : v.isContainer = w.isContainer := by
  have hlabel := (Front.equiv_iff_child.mp h).1
  cases v <;> cases w <;> simp [label] at hlabel <;> rfl

theorem height_le_of_equiv {v w : Value} (hv : v.Wf) (hw : w.Wf) (h : v ≈ w) :
    v.height ≤ w.height := by
  induction v using items_induction generalizing w with
  | step v ih =>
      by_cases hcontainer : v.isContainer = true
      · have hpos := height_pos_iff.mpr ((isContainer_of_equiv h).symm.trans hcontainer)
        obtain ⟨n, hn⟩ : ∃ n, w.height = n + 1 := ⟨w.height - 1, by omega⟩
        rw [hn, height_le_succ_iff]
        intro kc hkc
        have hagree := (Front.equiv_iff_child.mp h).2 kc.1
        rw [hv.child_iff.mpr hkc] at hagree
        cases hc : w.child kc.1 with
        | none =>
            rw [hc] at hagree
            cases hagree
        | some c =>
            rw [hc] at hagree
            cases hagree with
            | some hequiv =>
                have hmem := hw.child_iff.mp hc
                exact (ih kc hkc (hv.child hkc) (hw.child hmem) hequiv).trans
                  (height_le_succ_iff.mp hn.le _ hmem)
      · have hzero : ¬ 0 < v.height := fun hpos => hcontainer (height_pos_iff.mp hpos)
        omega

theorem nesting_of_equiv {v w : Value} (hv : v.Wf) (hw : w.Wf) (h : v ≈ w) :
    v.nesting = w.nesting := by
  rw [nesting, nesting, le_antisymm (height_le_of_equiv hv hw h)
    (height_le_of_equiv hw hv (Setoid.symm h))]

/-- A binary value is gone from a stripped dict. -/
theorem child_strip_binary {kvs : Bindings} (hv : (Value.dict kvs).Wf) {k : Key} {b : Binary}
    (hc : (Value.dict kvs).child k = some (.bin b)) : (Value.dict kvs).strip.child k = none := by
  rw [child_dict] at hc
  rw [strip, child_dict, Dict.lookup_eq_none_iff, stripEntries_eq]
  intro hmem
  obtain ⟨entry, hentry, hkey⟩ := List.mem_map.mp hmem
  obtain ⟨kc, hkc, rfl⟩ := List.mem_map.mp hentry
  obtain ⟨hkc, hbin⟩ := List.mem_filter.mp hkc
  have hlookup := (Dict.lookup_eq_some_iff (wf_dict_iff.mp hv).1).mpr
    (show (kc.1, kc.2) ∈ kvs from hkc)
  have hk : kc.1 = k := hkey
  rw [hk, hc] at hlookup
  simp [← Option.some.inj hlookup, isBinary] at hbin

/-- The child of a stripped tree without tuples. -/
theorem child_strip_untupled {v : Value} (hv : v.Wf) (huntupled : v.Untupled) (k : Key) :
    v.strip.child k = (v.child k).bind fun c =>
      if c.isBinary = true ∧ v.label = .dict then none else some c.strip := by
  cases v with
  | scalar s | bin b => simp [strip]
  | tuple xs => exact absurd rfl (huntupled [] xs.length)
  | list xs =>
      rw [strip, stripSeq_eq, child_list_map]
      simp [label, Option.map_eq_bind]
  | dict kvs =>
      by_cases hbin : ∃ b, (Value.dict kvs).child k = some (.bin b)
      · obtain ⟨b, hc⟩ := hbin
        rw [child_strip_binary hv hc, hc]
        rfl
      · rw [not_exists] at hbin
        rw [child_strip hv hbin]
        cases hc : (Value.dict kvs).child k with
        | none => rfl
        | some c =>
            have hnot : c.isBinary = false := by
              cases c <;> first | rfl | exact absurd hc (hbin _)
            simp [hnot]

/-- The order of its keys does not show in a dict. -/
theorem dict_equiv_of_perm {d e : Bindings} (hd : (Dict.keys d).Nodup) (h : d.Perm e) :
    Value.dict d ≈ Value.dict e := by
  have he : (Dict.keys e).Nodup := (h.map Prod.fst).nodup_iff.mp hd
  rw [Front.dict_equiv_iff]
  intro k
  have hlookup : d.lookup k = e.lookup k := by
    apply Option.ext
    intro c
    rw [Dict.lookup_eq_some_iff hd, Dict.lookup_eq_some_iff he, h.mem_iff]
  rw [hlookup]
  exact Front.agree_refl _

theorem isBinary_of_equiv {v w : Value} (h : v ≈ w) : v.isBinary = w.isBinary := by
  have hlabel := (Front.equiv_iff_child.mp h).1
  cases v <;> cases w <;> simp [label] at hlabel <;> rfl

section Objects

variable {d e : Bindings}

theorem agree_plain_iff : (Value.dict d).plain ≈ (Value.dict e).plain ↔
    ∀ k, Front.Agree ((d.lookup k).map plain) ((e.lookup k).map plain) := by
  rw [plain, plain, Front.dict_equiv_iff]
  simp only [plainEntries_eq, Dict.lookup_map_snd]

theorem dict_cons_alike {k : Key} {v w : Value} (hv : v.plain ≈ w.plain)
    (h : (Value.dict d).plain ≈ (Value.dict e).plain) :
    (Value.dict ((k, v) :: d)).plain ≈ (Value.dict ((k, w) :: e)).plain := by
  rw [agree_plain_iff] at h ⊢
  intro j
  by_cases hj : j = k
  · subst hj
    rw [List.lookup_cons_self, List.lookup_cons_self]
    exact .some hv
  · rw [Dict.lookup_cons_ne hj, Dict.lookup_cons_ne hj]
    exact h j

theorem dict_append_alike (fields : Bindings) (h : (Value.dict d).plain ≈ (Value.dict e).plain) :
    (Value.dict (fields ++ d)).plain ≈ (Value.dict (fields ++ e)).plain := by
  induction fields with
  | nil => exact h
  | cons kv fields ih => exact dict_cons_alike (Setoid.refl _) ih

theorem dict_update_alike {kvs : Bindings} (hd : (Dict.keys d).Nodup) (he : (Dict.keys e).Nodup)
    (h : (Value.dict d).plain ≈ (Value.dict e).plain) :
    (Value.dict (Dict.update kvs d)).plain ≈ (Value.dict (Dict.update kvs e)).plain := by
  rw [agree_plain_iff] at h ⊢
  intro k
  rw [Dict.lookup_update kvs hd, Dict.lookup_update kvs he]
  have hagree := h k
  cases hdk : d.lookup k with
  | none =>
      cases hek : e.lookup k with
      | none => exact Front.agree_refl _
      | some w => rw [hdk, hek] at hagree; cases hagree
  | some v =>
      cases hek : e.lookup k with
      | none => rw [hdk, hek] at hagree; cases hagree
      | some w => rwa [hdk, hek] at hagree

theorem dict_filter_alike (p : Key → Bool) (h : (Value.dict d).plain ≈ (Value.dict e).plain) :
    (Value.dict (d.filter fun kv => p kv.1)).plain ≈
      (Value.dict (e.filter fun kv => p kv.1)).plain := by
  rw [agree_plain_iff] at h ⊢
  intro k
  rw [Dict.lookup_filter, Dict.lookup_filter]
  by_cases hk : p k = true
  · simpa [hk] using h k
  · simp [hk]

theorem get_alike (h : (Value.dict d).plain ≈ (Value.dict e).plain) (name : String)
    (default : Value) :
    (Protocol.get d name default).plain ≈ (Protocol.get e name default).plain := by
  have hagree := agree_plain_iff.mp h (.str name)
  unfold Protocol.get
  cases hd : d.lookup (.str name) with
  | none =>
      cases he : e.lookup (.str name) with
      | none => exact Setoid.refl _
      | some w => rw [hd, he] at hagree; cases hagree
  | some v =>
      cases he : e.lookup (.str name) with
      | none => rw [hd, he] at hagree; cases hagree
      | some w =>
          rw [hd, he] at hagree
          cases hagree with
          | some hequiv => exact hequiv

end Objects

/-- Stripping keeps states that read the same alike. -/
theorem strip_equiv {v w : Value} (hv : v.Wf) (hw : w.Wf) (huntupled : v.Untupled)
    (huntupled' : w.Untupled) (h : v ≈ w) : v.strip ≈ w.strip := by
  induction v using items_induction generalizing w with
  | step v ih =>
      obtain ⟨hlabel, hchild⟩ := Front.equiv_iff_child.mp h
      refine Front.equiv_iff_child.mpr ⟨?_, fun k => ?_⟩
      · cases v with
        | tuple xs => exact absurd rfl (huntupled [] xs.length)
        | scalar s | bin b | list xs | dict kvs =>
            cases w <;> simp [label] at hlabel
            all_goals simp [strip, label, stripSeq_eq, hlabel]
      · rw [child_strip_untupled hv huntupled, child_strip_untupled hw huntupled', ← hlabel]
        have hagree := hchild k
        cases hc : v.child k with
        | none =>
            cases hd : w.child k with
            | none => exact .none
            | some d => rw [hc, hd] at hagree; cases hagree
        | some c =>
            cases hd : w.child k with
            | none => rw [hc, hd] at hagree; cases hagree
            | some d =>
                rw [hc, hd] at hagree
                cases hagree with
                | some hequiv =>
                    have hkc := hv.child_iff.mp hc
                    have hkd := hw.child_iff.mp hd
                    simp only [Option.bind_some, isBinary_of_equiv hequiv]
                    split_ifs
                    · exact .none
                    · exact .some (ih _ hkc (hv.child hkc) (hw.child hkd)
                        (huntupled.child hv hkc) (huntupled'.child hw hkd) hequiv)

theorem mem_binaries_of_equiv {v w : Value} (hv : v.Wf) (hw : w.Wf) (h : v ≈ w)
    (leaf : Path × Binary) : leaf ∈ v.binaries ↔ leaf ∈ w.binaries := by
  rw [mem_binaries_iff hv, mem_binaries_iff hw, h leaf.1]

/-- What the split of a tree is in every language. -/
def split (v : Value) : Buffers.Split Value :=
  if v.isContainer then (v.strip, v.binaries.map Prod.fst, v.binaries.map Prod.snd)
  else (v, [], [])

/-- The paths of a split with the raw bytes of their buffers. -/
def found (split : Buffers.Split Value) : List (Path × List UInt8) :=
  split.2.1.zip (split.2.2.map Binary.raw)

theorem found_split {v : Value} (hcontainer : v.isContainer = true) :
    found v.split = v.plain.binaries.map fun leaf => (leaf.1, leaf.2.raw) := by
  rw [binaries_plain, split, if_pos hcontainer, found, List.map_map, List.zip_map', List.map_map]
  rfl

theorem found_split_leaf {v : Value} (hcontainer : v.isContainer = false) :
    found v.split = [] := by
  rw [split, hcontainer]
  rfl

/-- The splits of trees that read the same. -/
theorem split_equiv {v w : Value} (hv : v.Wf) (hw : w.Wf) (h : v.plain ≈ w.plain) :
    v.split.1.plain ≈ w.split.1.plain ∧ (∀ pair, pair ∈ found v.split ↔ pair ∈ found w.split) ∧
      (v.plain = w.plain → found v.split = found w.split) := by
  have hcontainer : v.isContainer = w.isContainer := by
    rw [← isContainer_plain v, ← isContainer_plain w]
    exact isContainer_of_equiv h
  by_cases hv' : v.isContainer = true
  · have hw' := hcontainer ▸ hv'
    refine ⟨?_, fun pair => ?_, fun heq => ?_⟩
    · rw [split, split, if_pos hv', if_pos hw', plain_strip, plain_strip]
      exact strip_equiv (wf_plain hv) (wf_plain hw) (untupled_plain v) (untupled_plain w) h
    · rw [found_split hv', found_split hw', List.mem_map, List.mem_map]
      simp only [mem_binaries_of_equiv (wf_plain hv) (wf_plain hw) h]
    · rw [found_split hv', found_split hw', heq]
  · have hleaf := Bool.eq_false_iff.mpr hv'
    have hleaf' := hcontainer ▸ hleaf
    refine ⟨?_, fun pair => ?_, fun _ => ?_⟩
    · rw [split, split, hleaf, hleaf']
      exact h
    · rw [found_split_leaf hleaf, found_split_leaf hleaf']
    · rw [found_split_leaf hleaf, found_split_leaf hleaf']

theorem length_split (v : Value) : v.split.2.1.length = v.split.2.2.length := by
  unfold split
  split_ifs <;> simp

end Value

/-- The implementations with a codec. -/
inductive Language
  | python
  | julia
  | csharp
  | clojure
deriving DecidableEq, Repr

namespace Language

open Value Buffers

/-- What each throws. -/
abbrev Error : Language → Type
  | .python => PyError
  | .julia => JuliaError
  | .csharp => CSharpError
  | .clojure => ClojureError

/-- What each throws about a state that is too deep. -/
def nestingError : (language : Language) → Path → language.Error
  | .python => PyError.nesting
  | .julia => JuliaError.nesting
  | .csharp => CSharpError.nesting
  | .clojure => ClojureError.nesting

/-- `remove_buffers` of each.  In Clojure, `same` says which byte arrays of the
state are one object. -/
def removeBuffers (same : Path → Path → Bool) :
    (language : Language) → Value → Except language.Error (Buffers.Split Value)
  | .python => Buffers.removeBuffers
  | .julia => Julia.removeBuffers
  | .csharp => CSharp.removeBuffers
  | .clojure => Clojure.removeBuffers same

/-- A tree of the language's values: only Python has tuples that are containers. -/
def IsTree (language : Language) (v : Value) : Prop :=
  v.Wf ∧ (language ≠ .python → v.Untupled)

variable (same : Path → Path → Bool)

theorem split_of_splitter {ε : Type} {splitter : Splitter ε} (hdiscerns : splitter.Discerns)
    {v : Value} (hv : v.Wf) (huntupled : v.Untupled) :
    (v.nesting ≤ maxDepth → splitter.removeBuffers v = .ok v.split) ∧
      (maxDepth < v.nesting → ∃ p, splitter.removeBuffers v = .error (splitter.nesting p)) := by
  refine ⟨fun hnesting => ?_, Splitter.removeBuffers_too_deep hdiscerns hv huntupled⟩
  unfold Value.split
  by_cases hcontainer : v.isContainer = true
  · rw [if_pos hcontainer, Splitter.removeBuffers_ok hdiscerns hv huntupled hcontainer hnesting]
  · rw [if_neg hcontainer,
      Splitter.removeBuffers_leaf splitter huntupled (Bool.eq_false_iff.mpr hcontainer)]

/-- Every language splits a tree alike, or finds it too deep. -/
theorem removeBuffers_tree (language : Language) {v : Value} (hv : language.IsTree v) :
    (v.nesting ≤ maxDepth → language.removeBuffers same v = .ok v.split) ∧
      (maxDepth < v.nesting →
        ∃ p, language.removeBuffers same v = .error (language.nestingError p)) := by
  cases language with
  | python =>
      refine ⟨fun hnesting => ?_, Buffers.removeBuffers_too_deep hv.1⟩
      unfold Value.split
      by_cases hcontainer : v.isContainer = true
      · rw [if_pos hcontainer]
        exact removeBuffers_container hv.1 hcontainer hnesting
      · rw [if_neg hcontainer]
        cases v <;> first | rfl | simp [isContainer] at hcontainer
  | julia =>
      have hdiscerns : Julia.splitter.Discerns := Splitter.discerns_byIdentity _ _
      have hsplit := split_of_splitter hdiscerns hv.1 (hv.2 (by decide))
      rwa [← Julia.removeBuffers_eq_splitter hv.1] at hsplit
  | csharp => exact split_of_splitter (Splitter.discerns_byIdentity _ _) hv.1 (hv.2 (by decide))
  | clojure => exact split_of_splitter Clojure.discerns_splitter hv.1 (hv.2 (by decide))

/-- Two languages split trees that read the same alike: both find them too deep,
or both hand back stripped states that read the same, and the same bytes at the
same paths, in the same order where the objects list their keys alike. -/
theorem removeBuffers_agree (language language' : Language) {v w : Value}
    (hv : language.IsTree v) (hw : language'.IsTree w) (hequiv : v.plain ≈ w.plain) :
    (maxDepth < v.nesting → ∃ p p',
      language.removeBuffers same v = .error (language.nestingError p) ∧
      language'.removeBuffers same w = .error (language'.nestingError p')) ∧
    (v.nesting ≤ maxDepth → ∃ split split',
      language.removeBuffers same v = .ok split ∧
      language'.removeBuffers same w = .ok split' ∧
      split.1.plain ≈ split'.1.plain ∧
      split.2.1.length = split.2.2.length ∧ split'.2.1.length = split'.2.2.length ∧
      (∀ pair, pair ∈ found split ↔ pair ∈ found split') ∧
      (v.plain = w.plain → found split = found split')) := by
  obtain ⟨hok, hdeep⟩ := removeBuffers_tree same language hv
  obtain ⟨hok', hdeep'⟩ := removeBuffers_tree same language' hw
  have hnesting : v.nesting = w.nesting := by
    rw [← nesting_plain v, ← nesting_plain w]
    exact nesting_of_equiv (wf_plain hv.1) (wf_plain hw.1) hequiv
  rw [← hnesting] at hok' hdeep'
  refine ⟨fun h => ?_, fun h => ?_⟩
  · obtain ⟨p, hp⟩ := hdeep h
    obtain ⟨p', hp'⟩ := hdeep' h
    exact ⟨p, p', hp, hp'⟩
  · obtain ⟨hstripped, hmem, heq⟩ := split_equiv hv.1 hw.1 hequiv
    exact ⟨v.split, w.split, hok h, hok' h, hstripped, length_split v, length_split w, hmem, heq⟩

namespace LanguagesWitness

/-- `{"a": [1, b"A"], "b": b"B"}`. -/
def picture : Value :=
  .dict [(.str "a", .list [.int 1, .bin ⟨.bytearray, [65]⟩]), (.str "b", .bin ⟨.bytes, [66]⟩)]

/-- The same in another order. -/
def pictured : Value :=
  .dict [(.str "b", .bin ⟨.bytes, [66]⟩), (.str "a", .list [.int 1, .bin ⟨.bytes, [65]⟩])]

end LanguagesWitness

open LanguagesWitness in
theorem removeBuffers_agree_picture :
    ∃ split split', Language.python.removeBuffers (fun _ _ => true) picture = .ok split ∧
      Language.clojure.removeBuffers (fun _ _ => true) pictured = .ok split' ∧
      ∀ pair, pair ∈ found split ↔ pair ∈ found split' := by
  have hpicture : Language.python.IsTree picture := ⟨by decide, by simp⟩
  have hpictured : Language.clojure.IsTree pictured :=
    ⟨by decide, fun _ => untupled_of_json (by decide)⟩
  have hequiv : picture.plain ≈ pictured.plain := by
    apply dict_equiv_of_perm _ (List.Perm.swap _ _ [])
    decide
  obtain ⟨split, split', hsplit, hsplit', _, _, _, hmem, _⟩ :=
    (removeBuffers_agree _ .python .clojure hpicture hpictured hequiv).2 (by decide)
  exact ⟨split, split', hsplit, hsplit', hmem⟩

end Language

end Cositos
