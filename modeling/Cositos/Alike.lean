/-
The merges of Python and Julia side by side: on states that read the same, and
paths that fit them, both raise or both hand back states that read the same.
-/
import Cositos.Portability

namespace Cositos

open Value Buffers

/-- Two computations that both raise, or return related results. -/
inductive Matches {ε ε' α β : Type} (R : α → β → Prop) : Except ε α → Except ε' β → Prop
  | raises (e : ε) (e' : ε') : Matches R (.error e) (.error e')
  | returns {a : α} {b : β} (h : R a b) : Matches R (.ok a) (.ok b)

theorem Matches.bind {ε ε' α β γ δ : Type} {R : α → β → Prop} {S : γ → δ → Prop}
    {x : Except ε α} {y : Except ε' β} (h : Matches R x y) {f : α → Except ε γ}
    {g : β → Except ε' δ} (hnext : ∀ a b, R a b → Matches S (f a) (g b)) :
    Matches S (x >>= f) (y >>= g) := by
  cases h with
  | raises e e' => exact .raises e e'
  | returns h => exact hnext _ _ h

theorem Matches.imp {ε ε' α β : Type} {R S : α → β → Prop} {x : Except ε α} {y : Except ε' β}
    (h : Matches R x y) (himp : ∀ a b, R a b → S a b) : Matches S x y := by
  cases h with
  | raises e e' => exact .raises e e'
  | returns h => exact .returns (himp _ _ h)

namespace Value

/-! ### Plain values at their positions -/

/-- What a plain value shows where the value shows a label. -/
def Label.plain : Label → Label
  | .tuple n => .list n
  | .bin b => .bin ⟨.bytes, b.raw⟩
  | label => label

theorem label_plain (v : Value) : v.plain.label = v.label.plain := by
  cases v <;> simp [Value.plain, label, Label.plain, plainSeq_eq]

theorem look_plain (v : Value) (path : Path) :
    v.plain.look path = (v.look path).map Label.plain := by
  induction path generalizing v with
  | nil => simp [look, label_plain]
  | cons k path ih =>
      rw [look, look, child_plain]
      cases v.child k with
      | none => rfl
      | some c => exact ih c

theorem settable_of_look {v w : Value} (h : ∀ path, v.look path = w.look path) {path : Path}
    (hv : v.Settable path) : w.Settable path := by
  obtain ⟨front, last, heq, hparent⟩ := hv
  exact ⟨front, last, heq, by simpa only [h front] using hparent⟩

/-- The positions a merge can write are those of the plain value. -/
theorem settable_plain_iff {v : Value} (hv : v.Untupled) {path : Path} :
    v.plain.Settable path ↔ v.Settable path := by
  have hdict : ∀ front, v.plain.look front = some .dict ↔ v.look front = some .dict := by
    intro front
    rw [look_plain]
    cases v.look front with
    | none => simp
    | some label => cases label <;> simp [Label.plain]
  have hlist : ∀ front n, v.plain.look front = some (.list n) ↔ v.look front = some (.list n) := by
    intro front n
    rw [look_plain]
    cases hlabel : v.look front with
    | none => simp
    | some label =>
        cases label with
        | tuple m => exact absurd hlabel (hv front m)
        | _ => simp [Label.plain]
  simp only [Settable, hdict, hlist]

theorem Untupled.below {v c : Value} (h : v.Untupled) {k : Key} (hc : v.child k = some c) :
    c.Untupled := by
  intro path n hlook
  apply h (k :: path) n
  rw [look_cons_of_child hc]
  exact hlook

end Value

namespace Buffers

theorem look_of_writes {v w : Value} {path : Path} {b : Binary} (h : Writes v path b w)
    (other : Path) : w.look other = v.look other ∨ path <+: other ∧
      (w.look other = some (.bin b) ∨ w.look other = none) := by
  by_cases hbelow : path <+: other
  · obtain ⟨rest, rfl⟩ := hbelow
    rw [h.1 rest, look_bin]
    by_cases hrest : rest = [] <;> simp [hrest]
  · exact Or.inl (h.2 other hbelow)

theorem untupled_of_writes {v w : Value} {path : Path} {b : Binary} (h : Writes v path b w)
    (hv : v.Untupled) : w.Untupled := by
  intro other n hlook
  rcases look_of_writes h other with heq | ⟨_, hbin | hnone⟩
  · exact hv other n (heq ▸ hlook)
  · rw [hbin] at hlook
    cases hlook
  · rw [hnone] at hlook
    cases hlook

theorem writes_plain {v w : Value} {path : Path} {b : Binary} (h : Writes v path b w) :
    Writes v.plain path ⟨.bytes, b.raw⟩ w.plain := by
  constructor
  · intro rest
    rw [look_plain, h.1, look_bin, look_bin]
    by_cases hrest : rest = [] <;> simp [hrest, Label.plain]
  · intro other hother
    rw [look_plain, look_plain, h.2 other hother]

/-- The same write into states that read the same. -/
theorem writes_equiv {v v' w w' : Value} {path : Path} {b : Binary} (h : v ≈ v')
    (hw : Writes v path b w) (hw' : Writes v' path b w') : w ≈ w' := by
  intro other
  by_cases hbelow : path <+: other
  · obtain ⟨rest, rfl⟩ := hbelow
    rw [hw.1, hw'.1]
  · rw [hw.2 other hbelow, hw'.2 other hbelow]
    exact h other

/-! ### Paths that fit a state -/

/-- A string names a key of an object, an index in range an element of an array.
Below a scalar there is nothing to fit. -/
def Fits (key : Value) : Option Label → Prop
  | some .dict => ∃ s, key = .str s
  | some (.list n) => ∃ i : Nat, key = .int i ∧ i < n
  | _ => True

/-- Each segment fits what the segments before it lead to. -/
def Follows (v : Value) (segments : List Value) : Prop :=
  ∀ front key rest, segments = front.map Key.toValue ++ key :: rest → Fits key (v.look front)

theorem Follows.head {v key : Value} {rest : List Value} (h : Follows v (key :: rest)) :
    Fits key (some v.label) := by
  simpa [look] using h [] key rest rfl

theorem Follows.below {v c : Value} {k : Key} {rest : List Value}
    (h : Follows v (k.toValue :: rest)) (hc : v.child k = some c) : Follows c rest := by
  intro front key rest' heq
  rw [← look_cons_of_child hc]
  exact h (k :: front) key rest' (by simp [heq])

theorem follows_of_writes {v w : Value} {path : Path} {b : Binary} (h : Writes v path b w)
    {segments : List Value} (hv : Follows v segments) : Follows w segments := by
  intro front key rest heq
  rcases look_of_writes h front with hsame | ⟨_, hbin | hnone⟩
  · rw [hsame]
    exact hv front key rest heq
  · rw [hbin]
    trivial
  · rw [hnone]
    trivial

theorem fits_plain {key : Value} {l : Option Label} (h : Fits key l)
    (hl : ∀ n, l ≠ some (.tuple n)) : Fits key (l.map Label.plain) := by
  cases l with
  | none => trivial
  | some label =>
      cases label with
      | tuple n => exact absurd rfl (hl n)
      | _ => exact h

theorem fits_of_plain {key : Value} {l : Option Label} (h : Fits key (l.map Label.plain)) :
    Fits key l := by
  cases l with
  | none => trivial
  | some label =>
      cases label with
      | tuple n => trivial
      | _ => exact h

/-- A merge that walks with `get` and can change nothing but containers. -/
structure Walks {ε : Type} (put : Value → List Value → Except ε Value)
    (get : Value → Value → Except ε Value) : Prop where
  nil : ∀ v w, put v [] ≠ .ok w
  leaf : ∀ v segments w, v.isContainer = false → put v segments ≠ .ok w
  below : ∀ v key rest w, rest ≠ [] → put v (key :: rest) = .ok w →
    ∃ c c', get v key = .ok c ∧ put c rest = .ok c'
  dict : ∀ kvs s c, get (.dict kvs) (.str s) = .ok c → kvs.lookup (.str s) = some c
  list : ∀ xs (i : Nat) c, get (.list xs) (.int i) = .ok c → xs[i]? = some c

variable {ε : Type} {put : Value → List Value → Except ε Value}
  {get : Value → Value → Except ε Value}

/-- Where a path fits, such a merge writes only positions that can be written. -/
theorem Walks.settable (hwalks : Walks put get) {v w : Value} {segments : List Value}
    (huntupled : v.Untupled) (hfollows : Follows v segments) (h : put v segments = .ok w) :
    ∃ path : Path, segments = path.map Key.toValue ∧ v.Settable path := by
  induction segments generalizing v w with
  | nil => exact absurd h (hwalks.nil v w)
  | cons key rest ih =>
      have hhead := hfollows.head
      have hkey : ∃ k : Key, key = k.toValue ∧ v.Settable [k] ∧
          ∀ c, get v key = .ok c → v.child k = some c := by
        cases v with
        | scalar s | bin b => exact absurd h (hwalks.leaf _ _ _ rfl)
        | tuple xs => exact absurd rfl (huntupled [] xs.length)
        | dict kvs =>
            obtain ⟨s, rfl⟩ := hhead
            refine ⟨.str s, rfl, ⟨[], .str s, rfl, Or.inl rfl⟩, fun c hc => ?_⟩
            rw [child_dict]
            exact hwalks.dict kvs s c hc
        | list xs =>
            obtain ⟨i, rfl, hi⟩ := hhead
            exact ⟨.int i, rfl, ⟨[], .int i, rfl, Or.inr ⟨xs.length, i, rfl, rfl, hi⟩⟩,
              hwalks.list xs i⟩
      obtain ⟨k, rfl, hsettable, hchild⟩ := hkey
      by_cases hrest : rest = []
      · exact ⟨[k], by simp [hrest], hsettable⟩
      · obtain ⟨c, c', hget, hput⟩ := hwalks.below v _ rest w hrest h
        have hc := hchild c hget
        obtain ⟨path, rfl, front, last, rfl, hparent⟩ :=
          ih (huntupled.below hc) (hfollows.below hc) hput
        refine ⟨k :: (front ++ [last]), rfl, k :: front, last, rfl, ?_⟩
        simpa only [look_cons_of_child hc] using hparent

theorem mem_seqItem {xs : List Value} {key c : Value} (h : seqItem xs key = .ok c) : c ∈ xs := by
  obtain ⟨n, _, hitem⟩ := Port.bind_eq_ok_iff.mp h
  cases hn : xs[n]? with
  | none => simp [hn] at hitem
  | some x =>
      simp only [hn, pure, Except.pure, Except.ok.injEq] at hitem
      rw [← hitem]
      exact List.mem_of_getElem? hn

/-- Nothing below a leaf is a container. -/
theorem leaf_getItem {v key c : Value} (hleaf : v.isContainer = false)
    (h : v.getItem key = .ok c) : c.isContainer = false := by
  cases v with
  | list xs | tuple xs | dict kvs => simp [isContainer] at hleaf
  | bin b =>
      obtain ⟨byte, _, rfl⟩ := List.mem_map.mp (mem_seqItem h)
      rfl
  | scalar s =>
      cases s with
      | str s =>
          obtain ⟨char, _, rfl⟩ := List.mem_map.mp (mem_seqItem h)
          rfl
      | _ => simp [getItem] at h

theorem putAt_leaf {b : Binary} (v : Value) (segments : List Value) (w : Value)
    (hleaf : v.isContainer = false) : putAt b v segments ≠ .ok w := by
  intro h
  induction segments generalizing v w with
  | nil => simp [putAt] at h
  | cons key rest ih =>
      by_cases hrest : rest = []
      · subst hrest
        cases v <;> simp [putAt, Value.setItem, isContainer] at h hleaf
      · rw [putAt_cons hrest] at h
        obtain ⟨c, hget, h⟩ := Port.bind_eq_ok_iff.mp h
        obtain ⟨c', hput, _⟩ := Port.bind_eq_ok_iff.mp h
        exact ih c c' (leaf_getItem hleaf hget) hput

theorem walks_putAt (b : Binary) : Walks (putAt b) getItem where
  nil v w := by simp [putAt]
  leaf := putAt_leaf
  below v key rest w hrest h := by
    rw [putAt_cons hrest] at h
    obtain ⟨c, hget, h⟩ := Port.bind_eq_ok_iff.mp h
    obtain ⟨c', hput, _⟩ := Port.bind_eq_ok_iff.mp h
    exact ⟨c, c', hget, hput⟩
  dict kvs s c h := by
    cases hlookup : kvs.lookup (.str s) with
    | none => simp [getItem, hashKey, Scalar.key, bind, Except.bind, hlookup] at h
    | some x =>
        simp [getItem, hashKey, Scalar.key, bind, Except.bind, hlookup, pure, Except.pure] at h
        rw [h]
  list xs i c h := by
    by_cases hi : i < xs.length
    · have hc : (Value.list xs).child (.int i) = some xs[i] := by simp [child, hi]
      have hget : (Value.list xs).getItem (.int i) = .ok xs[i] := getItem_of_child hc
      rw [List.getElem?_eq_getElem hi]
      rw [hget] at h
      cases h
      rfl
    · have hindex : ¬ (i : Int) < 0 := by omega
      simp [getItem, seqItem, seqIndex, indexOf, bind, Except.bind, hi, hindex] at h

end Buffers

namespace Julia

theorem putAt_cons {b : Binary} {obj key : Value} {path : List Value} (hpath : path ≠ []) :
    putAt b obj (key :: path) =
      (do
        let child ← getIndex obj key
        let child ← putAt b child path
        withIndex obj key child) := by
  cases path with
  | nil => exact absurd rfl hpath
  | cons head tail => rfl

theorem setIndex_leaf {v key x : Value} (hleaf : v.isContainer = false) :
    setIndex v key x = .error .methodError := by
  cases v with
  | scalar s | bin b => unfold setIndex; split <;> first | rfl | contradiction
  | list xs | tuple xs | dict kvs => simp [Value.isContainer] at hleaf

theorem getIndex_leaf {v key : Value} (hleaf : v.isContainer = false) :
    getIndex v key = .error .methodError := by
  cases v with
  | scalar s | bin b => unfold getIndex; split <;> first | rfl | contradiction
  | list xs | tuple xs | dict kvs => simp [Value.isContainer] at hleaf

theorem walks_putAt (b : Binary) : Walks (putAt b) getIndex where
  nil v w := by simp [putAt]
  leaf v segments w hleaf := by
    intro h
    cases segments with
    | nil => simp [putAt] at h
    | cons key rest =>
        by_cases hrest : rest = []
        · subst hrest
          rw [putAt, setIndex_leaf hleaf] at h
          cases h
        · rw [putAt_cons hrest, getIndex_leaf hleaf] at h
          cases h
  below v key rest w hrest h := by
    rw [putAt_cons hrest] at h
    obtain ⟨c, hget, h⟩ := Port.bind_eq_ok_iff.mp h
    obtain ⟨c', hput, _⟩ := Port.bind_eq_ok_iff.mp h
    exact ⟨c, c', hget, hput⟩
  dict kvs s c h := by
    cases hlookup : kvs.lookup (.str s) with
    | none => simp [getIndex, integer?, hlookup] at h
    | some x => simpa [getIndex, integer?, hlookup] using h
  list xs i c h := by
    by_cases hi : i < xs.length
    · simp [getIndex, integer?, vectorIndex_ofNat hi, bind, Except.bind, pure, Except.pure,
        hi] at h
      simp [hi, h]
    · simp [getIndex, integer?, vectorIndex, hi, bind, Except.bind] at h

end Julia

/-! ### One buffer, in both languages -/

namespace Value

theorem eq_scalar_of_plain {v : Value} {s : Scalar} (h : v.plain ≈ .scalar s) : v = .scalar s := by
  have hplain := eq_scalar_of_equiv h
  cases v <;> simp [plain] at hplain
  rw [hplain]

theorem exists_dict_of_plain {v : Value} {e : Bindings} (h : v.plain ≈ (Value.dict e).plain) :
    ∃ d, v = .dict d := by
  obtain ⟨d, hplain⟩ := exists_dict_of_equiv h
  cases v <;> simp [plain] at hplain
  exact ⟨_, rfl⟩

/-- Lists of values that read the same, element by element. -/
abbrev AlikeSeq : List Value → List Value → Prop :=
  List.Forall₂ fun x y => x.plain ≈ y.plain

theorem AlikeSeq.symm {xs ys : List Value} (h : AlikeSeq xs ys) : AlikeSeq ys xs :=
  (List.Forall₂.flip h).imp fun _ _ hequiv => Setoid.symm hequiv

theorem exists_seq_of_plain {v : Value} {ys : List Value} (h : v.plain ≈ (Value.list ys).plain) :
    ∃ xs, (v = .list xs ∨ v = .tuple xs) ∧ AlikeSeq xs ys := by
  rw [plain, plainSeq_eq] at h
  obtain ⟨zs, hplain, hzs⟩ := exists_list_of_equiv h
  have hseq : ∃ xs, (v = .list xs ∨ v = .tuple xs) ∧ zs = xs.map plain := by
    cases v <;> simp [plain, plainSeq_eq] at hplain
    · exact ⟨_, Or.inl rfl, hplain.symm⟩
    · exact ⟨_, Or.inr rfl, hplain.symm⟩
  obtain ⟨xs, hxs, rfl⟩ := hseq
  refine ⟨xs, hxs, ?_⟩
  rwa [List.forall₂_map_left_iff, List.forall₂_map_right_iff] at hzs

theorem plain_key (k : Key) : k.toValue.plain = k.toValue := by
  cases k <;> rfl

theorem key_of_str {k : Key} {s : String} (h : k.toValue = .str s) : k = .str s := by
  cases k <;> simp [Key.toValue] at h
  rw [h]

theorem eq_key_of_plain {v : Value} {k : Key} (h : v.plain ≈ k.toValue.plain) : v = k.toValue := by
  rw [plain_key] at h
  cases k <;> exact eq_scalar_of_plain h

theorem AlikeSeq.keys {xs : List Value} {path : Path}
    (h : AlikeSeq xs (path.map Key.toValue)) : xs = path.map Key.toValue := by
  induction path generalizing xs with
  | nil => exact List.forall₂_nil_right_iff.mp h
  | cons k path ih =>
      obtain ⟨x, rest, hhead, htail, rfl⟩ := List.forall₂_cons_right_iff.mp h
      rw [List.map_cons, eq_key_of_plain hhead, ih htail]

/-- Two trees without tuples that read the same. -/
structure Alike (v w : Value) : Prop where
  left : v.Untupled
  right : w.Untupled
  equiv : v.plain ≈ w.plain

theorem Alike.settable {v w : Value} (h : Alike v w) {path : Path} :
    v.Settable path ↔ w.Settable path := by
  rw [← settable_plain_iff h.left, ← settable_plain_iff h.right]
  exact ⟨settable_of_look h.equiv, settable_of_look fun path => (h.equiv path).symm⟩

end Value

namespace Buffers

theorem fits_alike {v w key key' : Value} (h : Alike v w) (hkey : key'.plain ≈ key.plain)
    {front : Path} (hfits : Fits key (v.look front)) : Fits key' (w.look front) := by
  apply fits_of_plain
  have hplain := fits_plain hfits (h.left front)
  rw [← look_plain, h.equiv front, look_plain] at hplain
  cases hlabel : (w.look front).map Label.plain with
  | none => trivial
  | some label =>
      rw [hlabel] at hplain
      cases label with
      | dict =>
          obtain ⟨s, rfl⟩ := hplain
          exact ⟨s, eq_scalar_of_plain hkey⟩
      | list n =>
          obtain ⟨i, rfl, hi⟩ := hplain
          exact ⟨i, eq_scalar_of_plain hkey, hi⟩
      | scalar s | bin b | tuple n => trivial

/-- A path that fits a state fits one that reads the same. -/
theorem Follows.alike {v w : Value} {segments segments' : List Value} (h : Follows v segments)
    (hvw : Alike v w) (hsegments : AlikeSeq segments segments') : Follows w segments' := by
  intro front key' rest' heq
  subst heq
  have hfront : AlikeSeq (segments.take (front.map Key.toValue).length) (front.map Key.toValue) :=
    List.forall₂_take_append _ _ _ hsegments
  have hrest : AlikeSeq (segments.drop (front.map Key.toValue).length) (key' :: rest') :=
    List.forall₂_drop_append _ _ _ hsegments
  obtain ⟨key, rest, hkey, _, hdrop⟩ := List.forall₂_cons_right_iff.mp hrest
  apply fits_alike hvw (Setoid.symm hkey)
  apply h front key rest
  rw [← hfront.keys, ← hdrop, List.take_append_drop]

theorem label_of_writes {v w : Value} {path : Path} {b : Binary} (h : Writes v path b w)
    (hset : v.Settable path) : w.label = v.label := by
  obtain ⟨front, last, rfl, _⟩ := hset
  simpa [look] using h.2 [] (by simp)

/-- What one buffer makes of two states that read the same. -/
structure Merged (v w v' w' : Value) : Prop where
  alike : Alike v' w'
  left : v'.label = v.label
  right : w'.label = w.label
  follows : ∀ segments, Follows v segments → Follows v' segments

theorem Merged.trans {v w v' w' v'' w'' : Value} (h : Merged v w v' w')
    (h' : Merged v' w' v'' w'') : Merged v w v'' w'' :=
  ⟨h'.alike, h'.left.trans h.left, h'.right.trans h.right,
    fun segments hv => h'.follows segments (h.follows segments hv)⟩

theorem putAt_alike {v w : Value} (h : Alike v w) {segments segments' : List Value}
    (hsegments : AlikeSeq segments segments') (hfollows : Follows v segments) {b b' : Binary}
    (hraw : b.raw = b'.raw) :
    Matches (Merged v w) (putAt b v segments) (Julia.putAt b' w segments') := by
  have hfollows' := hfollows.alike h hsegments
  by_cases hpath : ∃ path : Path, segments = path.map Key.toValue ∧ v.Settable path
  · obtain ⟨path, rfl, hset⟩ := hpath
    obtain rfl := hsegments.symm.keys
    have hset' := h.settable.mp hset
    have hreaches : Merger.Reaches (fun key => ∃ s, key = .str s) (fun _ => True) w path := by
      refine ⟨hset', fun front key rest heq => ?_⟩
      have hfits := hfollows' front key.toValue (rest.map Key.toValue) (by simp [heq])
      cases hlabel : w.look front with
      | none => trivial
      | some label =>
          rw [hlabel] at hfits
          cases label with
          | dict =>
              obtain ⟨s, hs⟩ := hfits
              exact ⟨s, key_of_str hs⟩
          | tuple n => exact absurd hlabel (h.right front n)
          | scalar s | bin b | list n => trivial
    obtain ⟨v', hput, hwrites⟩ := putAt_settable hset b
    obtain ⟨w', hput', hwrites'⟩ := Merger.putAt_reaches Julia.standard_merger hreaches b'
    rw [hput, Julia.putAt_eq_merger, hput']
    apply Matches.returns
    have hplain := writes_plain hwrites'
    rw [← hraw] at hplain
    exact ⟨⟨untupled_of_writes hwrites h.left, untupled_of_writes hwrites' h.right,
      writes_equiv h.equiv (writes_plain hwrites) hplain⟩, label_of_writes hwrites hset,
      label_of_writes hwrites' hset', fun _ => follows_of_writes hwrites⟩
  · cases hput : putAt b v segments with
    | ok v' => exact absurd ((walks_putAt b).settable h.left hfollows hput) hpath
    | error e =>
        cases hput' : Julia.putAt b' w segments' with
        | error e' => exact .raises e e'
        | ok w' =>
            obtain ⟨path, rfl, hset⟩ := (Julia.walks_putAt b').settable h.right hfollows' hput'
            exact absurd ⟨path, hsegments.keys, h.settable.mpr hset⟩ hpath

/-- The loop over the pairs, where there are as many paths as buffers. -/
theorem putEach_alike {paths paths' : List Value} (hpaths : AlikeSeq paths paths')
    {buffers buffers' : List Binary} (hlength : paths.length = buffers.length)
    (hraw : buffers.map Binary.raw = buffers'.map Binary.raw) {v w : Value} (h : Alike v w)
    (hfollows : ∀ path ∈ paths, ∃ segments, path = .list segments ∧ Follows v segments) :
    Matches (Merged v w) (putBuffers v paths buffers)
      (Julia.putEach w (paths'.zip buffers')) := by
  induction hpaths generalizing buffers buffers' v w with
  | nil =>
      have hnil : buffers = [] := List.eq_nil_of_length_eq_zero hlength.symm
      subst hnil
      exact .returns ⟨h, rfl, rfl, fun _ hv => hv⟩
  | @cons path path' paths paths' hpath _ ih =>
      obtain ⟨segments, rfl, hfirst⟩ := hfollows path List.mem_cons_self
      obtain ⟨segments', hpath', hsegments⟩ := exists_seq_of_plain (Setoid.symm hpath)
      cases buffers with
      | nil => simp at hlength
      | cons b buffers =>
          cases buffers' with
          | nil => simp at hraw
          | cons b' buffers' =>
              obtain ⟨hb, hrest⟩ := List.cons.inj hraw
              have hstep := putAt_alike h hsegments.symm hfirst hb
              have hsegment : Julia.segments path' = .ok segments' := by
                rcases hpath' with rfl | rfl <;> rfl
              rw [List.zip_cons_cons, putBuffers, Julia.putEach, Value.segments, hsegment]
              apply Matches.bind hstep
              intro v' w' hmerged
              have hnext := ih (Nat.succ.inj hlength) hrest hmerged.alike fun path hmem => by
                obtain ⟨segments, rfl, hv⟩ := hfollows path (List.mem_cons_of_mem _ hmem)
                exact ⟨segments, rfl, hmerged.follows segments hv⟩
              exact hnext.imp fun _ _ => hmerged.trans

theorem putBuffers_mismatch {paths : List Value} {buffers : List Binary}
    (hlength : paths.length ≠ buffers.length) (v : Value) :
    ∃ e, putBuffers v paths buffers = .error e := by
  cases hput : putBuffers v paths buffers with
  | error e => exact ⟨e, rfl⟩
  | ok w => exact absurd (length_of_putBuffers hput) hlength

theorem putBuffers_alike {paths paths' : List Value} (hpaths : AlikeSeq paths paths')
    {buffers buffers' : List Binary} (hraw : buffers.map Binary.raw = buffers'.map Binary.raw)
    {v w : Value} (h : Alike v w)
    (hfollows : ∀ path ∈ paths, ∃ segments, path = .list segments ∧ Follows v segments) :
    Matches (Merged v w) (putBuffers v paths buffers)
      (Julia.putBuffers w (.list paths') buffers') := by
  have hlength : paths'.length = paths.length := (List.Forall₂.length_eq hpaths).symm
  have hlength' : buffers'.length = buffers.length := by
    simpa using (congrArg List.length hraw).symm
  by_cases heq : paths.length = buffers.length
  · have hjulia : Julia.putBuffers w (.list paths') buffers' =
        Julia.putEach w (paths'.zip buffers') := by
      simp [Julia.putBuffers, Julia.elements, bind, Except.bind, hlength, hlength', heq]
    rw [hjulia]
    exact putEach_alike hpaths heq hraw h hfollows
  · obtain ⟨e, he⟩ := putBuffers_mismatch heq v
    have hjulia : ∃ e', Julia.putBuffers w (.list paths') buffers' = .error e' := by
      refine ⟨_, if_pos ?_⟩
      rwa [hlength, hlength']
    obtain ⟨e', he'⟩ := hjulia
    rw [he, he']
    exact .raises e e'

end Buffers

end Cositos
