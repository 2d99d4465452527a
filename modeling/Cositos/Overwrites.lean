/-
Buffers written in place, one after the other: what a merge leaves of the value it was
given when it stops at the first path it cannot write, and when that is the value as it was.
-/
import Cositos.Rejections

namespace Cositos

namespace Value

/-! ### Values told apart by their binary values alone -/

mutual

/-- The value with its binary values emptied. -/
def emptied : Value → Value
  | .scalar s => .scalar s
  | .bin _ => .bin ⟨.bytes, []⟩
  | .list xs => .list (emptiedSeq xs)
  | .tuple xs => .tuple (emptiedSeq xs)
  | .dict kvs => .dict (emptiedEntries kvs)

def emptiedSeq : List Value → List Value
  | [] => []
  | x :: xs => emptied x :: emptiedSeq xs

def emptiedEntries : Bindings → Bindings
  | [] => []
  | (k, x) :: kvs => (k, emptied x) :: emptiedEntries kvs

end

theorem emptiedSeq_eq (xs : List Value) : emptiedSeq xs = xs.map emptied := by
  induction xs with
  | nil => rfl
  | cons x xs ih => simp [emptiedSeq, ih]

theorem emptiedEntries_eq (kvs : Bindings) :
    emptiedEntries kvs = kvs.map (Prod.map id emptied) := by
  induction kvs with
  | nil => rfl
  | cons head tail ih => simp [emptiedEntries, ih, Prod.map]

theorem emptied_set {kvs : Bindings} {k : Key} {x y : Value} (hy : kvs.lookup k = some y)
    (hxy : x.emptied = y.emptied) :
    (Value.dict (Dict.set kvs k x)).emptied = (Value.dict kvs).emptied := by
  have hself : (kvs.map (Prod.map id emptied)).lookup k = some x.emptied := by
    rw [Dict.lookup_map_snd, hy, hxy]
    rfl
  rw [emptied, emptied, emptiedEntries_eq, emptiedEntries_eq, ← Dict.set_map_snd,
    Dict.set_eq_self hself]

theorem emptied_listSet {xs : List Value} {n : Nat} {x y : Value} (hy : xs[n]? = some y)
    (hxy : x.emptied = y.emptied) : emptiedSeq (xs.set n x) = emptiedSeq xs := by
  rw [emptiedSeq_eq, emptiedSeq_eq, List.map_set, hxy]
  apply List.ext_getElem?
  intro i
  rw [List.getElem?_set]
  split_ifs with hi hlt
  · subst hi
    simp [hy]
  · subst hi
    rw [List.length_map] at hlt
    rw [List.getElem?_eq_none (by simpa using hlt)]
  · rfl

theorem eq_of_map_eq {α β : Type} {f : α → β} {xs ys : List α} (h : xs.map f = ys.map f)
    (hsame : ∀ (n : Nat) x y, xs[n]? = some x → ys[n]? = some y → f x = f y → x = y) :
    xs = ys := by
  apply List.ext_getElem?
  intro n
  have hn : (xs.map f)[n]? = (ys.map f)[n]? := by rw [h]
  simp only [List.getElem?_map] at hn
  cases hx : xs[n]? with
  | none => simpa [hx, eq_comm] using hn
  | some x =>
      obtain ⟨y, hy, hxy⟩ : ∃ y, ys[n]? = some y ∧ f y = f x := by
        simpa [hx, eq_comm] using hn.symm
      rw [hy, hsame n x y hx hy hxy.symm]

/-- Two values that read the same and differ in nothing but their binary values are one. -/
theorem eq_of_emptied {v w : Value} (hv : v.Wf) (hempty : v.emptied = w.emptied)
    (hequiv : v ≈ w) : v = w := by
  induction v using items_induction generalizing w with
  | step v ih =>
      obtain ⟨hlabel, hchild⟩ := Front.equiv_iff_child.mp hequiv
      have hitem : ∀ k x y, v.child k = some x → w.child k = some y →
          x.emptied = y.emptied → x = y := by
        intro k x y hx hy hxy
        have hmem := hv.child_iff.mp hx
        have hagree := hchild k
        rw [hx, hy] at hagree
        cases hagree with
        | some h => exact ih (k, x) hmem (hv.child hmem) hxy h
      cases v with
      | scalar s =>
          cases w with
          | scalar t => simpa only [label, Label.scalar.injEq, Value.scalar.injEq] using hlabel
          | _ => simp [label] at hlabel
      | bin b =>
          cases w with
          | bin c => simpa only [label, Label.bin.injEq, Value.bin.injEq] using hlabel
          | _ => simp [label] at hlabel
      | list xs =>
          cases w with
          | list ys =>
              simp only [emptied, emptiedSeq_eq, Value.list.injEq] at hempty
              rw [eq_of_map_eq hempty fun n => hitem (.int n)]
          | _ => simp [emptied] at hempty
      | tuple xs =>
          cases w with
          | tuple ys =>
              simp only [emptied, emptiedSeq_eq, Value.tuple.injEq] at hempty
              rw [eq_of_map_eq hempty fun n => hitem (.int n)]
          | _ => simp [emptied] at hempty
      | dict kvs =>
          cases w with
          | dict kvs' =>
              simp only [emptied, emptiedEntries_eq, Value.dict.injEq] at hempty
              have hkeys : Dict.keys kvs = Dict.keys kvs' := by
                simpa [Dict.keys, Function.comp_def] using congrArg (List.map Prod.fst) hempty
              have hnodup := (wf_dict_iff.mp hv).1
              rw [eq_of_map_eq hempty]
              rintro n ⟨k, x⟩ ⟨k', y⟩ hx hy hxy
              obtain rfl : k = k' := congrArg Prod.fst hxy
              have hxk := (Dict.lookup_eq_some_iff hnodup).mpr (List.mem_of_getElem? hx)
              have hyk := (Dict.lookup_eq_some_iff (hkeys ▸ hnodup)).mpr (List.mem_of_getElem? hy)
              rw [hitem k x y hxk hyk (congrArg Prod.snd hxy)]
          | _ => simp [emptied] at hempty

end Value

/-! ### Buffers that overwrite each other -/

/-- `w` is `v` once each buffer has been written at its place; over a binary value nothing
else changes. -/
inductive Overwrites : Value → List (Path × Binary) → Value → Prop
  | nil (v : Value) : Overwrites v [] v
  | cons {v v' w : Value} {t : Path} {b : Binary} {writes : List (Path × Binary)}
      (hwrites : Buffers.Writes v t b v')
      (hrefill : ∀ old, v.look t = some (.bin old) → v'.emptied = v.emptied)
      (hrest : Overwrites v' writes w) : Overwrites v ((t, b) :: writes) w

/-- The last of the buffers for each place is there already. -/
def Settled (v : Value) (writes : List (Path × Binary)) : Prop :=
  ∀ front t b back, writes = front ++ (t, b) :: back → (∀ x ∈ back, x.1 ≠ t) →
    v.look t = some (.bin b)

namespace Overwrites

open Value

variable {v w : Value} {writes : List (Path × Binary)}

theorem elsewhere (h : Overwrites v writes w) {path : Path}
    (hpath : ∀ x ∈ writes, ¬ x.1 <+: path) : w.look path = v.look path := by
  induction h with
  | nil v => rfl
  | cons hwrites _ _ ih =>
      rw [List.forall_mem_cons] at hpath
      rw [ih hpath.2, hwrites.2 path hpath.1]

/-- The last write at or above a place decides what is there. -/
theorem last {front back : List (Path × Binary)} {t rest : Path} {b : Binary}
    (h : Overwrites v (front ++ (t, b) :: back) w) (hback : ∀ x ∈ back, ¬ x.1 <+: t ++ rest) :
    w.look (t ++ rest) = (Value.bin b).look rest := by
  induction front generalizing v with
  | nil =>
      cases h with
      | cons hwrites _ hrest => rw [hrest.elsewhere hback, hwrites.1 rest]
  | cons head front ih =>
      cases h with
      | cons _ _ hrest => exact ih hrest

theorem emptied (h : Overwrites v writes w)
    (hbin : ∀ x ∈ writes, ∃ old, v.look x.1 = some (.bin old)) : w.emptied = v.emptied := by
  induction h with
  | nil v => rfl
  | @cons v v' w t b writes hwrites hrefill _ ih =>
      rw [List.forall_mem_cons] at hbin
      obtain ⟨⟨old, hold⟩, hbin⟩ := hbin
      rw [ih, hrefill old hold]
      intro x hx
      by_cases hpre : t <+: x.1
      · obtain ⟨rest, hrest⟩ := hpre
        obtain ⟨old', hold'⟩ := hbin x hx
        rw [← hrest, look_append_of_bin hold, look_bin] at hold'
        split_ifs at hold' with hnil
        exact ⟨b, by rw [← hrest, hnil]; simpa [look_bin] using hwrites.1 []⟩
      · rw [hwrites.2 x.1 hpre]
        exact hbin x hx

theorem exists_last {α : Type} {p : α → Prop} {xs : List α} (h : ∃ x ∈ xs, p x) :
    ∃ front x back, xs = front ++ x :: back ∧ p x ∧ ∀ y ∈ back, ¬ p y := by
  induction xs with
  | nil => simp at h
  | cons head tail ih =>
      by_cases htail : ∃ x ∈ tail, p x
      · obtain ⟨front, x, back, rfl, hx, hback⟩ := ih htail
        exact ⟨head :: front, x, back, rfl, hx, hback⟩
      · obtain ⟨x, hx, hpx⟩ := h
        rcases List.mem_cons.mp hx with rfl | hmem
        · exact ⟨[], x, tail, rfl, hpx, fun y hy hpy => htail ⟨y, hy, hpy⟩⟩
        · exact absurd ⟨x, hmem, hpx⟩ htail

/-- A value is left as it was when the last buffer written at each place is there already. -/
theorem unchanged_iff (hv : v.Wf) (h : Overwrites v writes w)
    (habove : ∀ x ∈ writes, ∀ front key rest, x.1 = front ++ key :: rest →
      ∃ l, v.look front = some l ∧ l.isContainer = true) :
    w = v ↔ Settled v writes := by
  constructor
  · rintro rfl front t b back rfl hback
    by_cases hover : ∃ x ∈ back, x.1 <+: t
    · obtain ⟨front', x, back', rfl, ⟨rest, rfl⟩, hrest⟩ := exists_last hover
      have hne : rest ≠ [] := by
        rintro rfl
        exact hback x (by simp) (by simp)
      obtain ⟨key, more, rfl⟩ := List.exists_cons_of_ne_nil hne
      -- what is written above the place is no container, and was one
      obtain ⟨l, hl, hcontainer⟩ := habove (x.1 ++ key :: more, b) (by simp) x.1 key more rfl
      have hsplit : Overwrites w
          ((front ++ (x.1 ++ key :: more, b) :: front') ++ x :: back') w := by
        simpa using h
      have hlook : w.look (x.1 ++ []) = (Value.bin x.2).look [] := hsplit.last fun y hy hpre =>
        hrest y hy ((List.append_nil x.1 ▸ hpre).trans (List.prefix_append _ _))
      rw [List.append_nil, hl] at hlook
      cases hlook
      cases hcontainer
    · have hlook : w.look (t ++ []) = (Value.bin b).look [] :=
        h.last fun x hx hpre => hover ⟨x, hx, by simpa using hpre⟩
      simpa [look_bin] using hlook
  · intro hsettled
    refine (eq_of_emptied hv ?_ ?_).symm
    · refine (h.emptied fun x hx => ?_).symm
      obtain ⟨front, ⟨t, b⟩, back, rfl, rfl, hback⟩ :=
        exists_last (p := fun y => y.1 = x.1) ⟨x, hx, rfl⟩
      exact ⟨b, hsettled front x.1 b back rfl hback⟩
    · intro path
      by_cases hover : ∃ x ∈ writes, x.1 <+: path
      · obtain ⟨front, ⟨t, b⟩, back, rfl, ⟨rest, rfl⟩, hback⟩ := exists_last hover
        have hold : v.look t = some (.bin b) := by
          refine hsettled front t b back rfl fun x hx hsame => ?_
          exact hback x hx (hsame ▸ List.prefix_append _ _)
        rw [h.last hback, look_append_of_bin hold]
      · exact (h.elsewhere fun x hx hpre => hover ⟨x, hx, hpre⟩).symm

end Overwrites

/-- Writes at other places, where the same is found. -/
theorem settled_map {v v' : Value} {writes : List (Path × Binary)} {f : Path → Path}
    (hinj : ∀ x ∈ writes, ∀ y ∈ writes, f x.1 = f y.1 → x.1 = y.1)
    (hlook : ∀ x ∈ writes, v.look (f x.1) = v'.look x.1) :
    Settled v (writes.map (Prod.map f id)) ↔ Settled v' writes := by
  constructor
  · rintro h front t b back rfl hback
    have hold := h (front.map (Prod.map f id)) (f t) b (back.map (Prod.map f id)) (by simp) ?_
    · rw [← hold]
      exact (hlook (t, b) (by simp)).symm
    · intro y hy hsame
      obtain ⟨x, hx, rfl⟩ := List.mem_map.mp hy
      exact hback x hx (hinj x (by simp [hx]) (t, b) (by simp) hsame)
  · intro h front t b back heq hback
    obtain ⟨front', more, rfl, rfl, hmore⟩ := List.map_eq_append_iff.mp heq
    obtain ⟨x, back', rfl, hx, rfl⟩ := List.map_eq_cons_iff.mp hmore
    cases hx
    rw [hlook x (by simp)]
    refine h front' x.1 x.2 back' rfl fun y hy hsame => ?_
    exact hback (Prod.map f id y) (List.mem_map_of_mem hy) (congrArg f hsame)

/-! ### Merges that take a path step by step -/

/-- The place that segments lead to: `keyOf` tells the child to go on from below a label, and
`lastKeyOf` the one to write. -/
def Value.placeAlong {K : Type} (keyOf lastKeyOf : Label → K → Option Key) :
    Value → List K → Option Path
  | _, [] => none
  | v, [key] => (lastKeyOf v.label key).map fun k => [k]
  | v, key :: rest => do
      let k ← keyOf v.label key
      let c ← v.child k
      let path ← placeAlong keyOf lastKeyOf c rest
      return k :: path

/-- A merge that reads and writes one step of a path after the other, told by the child that
each segment names. -/
structure Writer (K ε : Type) where
  putAt : Binary → Value → List K → Except ε Value
  getItem : Value → K → Except ε Value
  setItem : Value → K → Value → Except ε Value
  withItem : Value → K → Value → Except ε Value
  keyOf : Value.Label → K → Option Key
  lastKeyOf : Value.Label → K → Option Key
  putAt_nil : ∀ b v, ∃ e, putAt b v [] = .error e
  putAt_singleton : ∀ b v key, putAt b v [key] = setItem v key (.bin b)
  putAt_cons : ∀ b v key rest, rest ≠ [] → putAt b v (key :: rest) = (do
    let child ← getItem v key
    let child ← putAt b child rest
    withItem v key child)
  getItem_container : ∀ v key c, getItem v key = .ok c → c.isContainer = true →
    ∃ k, keyOf v.label key = some k ∧ v.child k = some c
  getItem_of_keyOf : ∀ v key k c, keyOf v.label key = some k → v.child k = some c →
    getItem v key = .ok c
  setItem_ok : ∀ v key x w, setItem v key x = .ok w →
    ∃ k, lastKeyOf v.label key = some k ∧ v.Assigns k x w ∧
      ∀ y, v.child k = some y → x.emptied = y.emptied → w.emptied = v.emptied
  setItem_of_keyOf : ∀ v key k x, lastKeyOf v.label key = some k →
    ∃ w, setItem v key x = .ok w
  withItem_ok : ∀ v key x w, withItem v key x = .ok w →
    ∃ k, keyOf v.label key = some k ∧ v.Assigns k x w ∧
      ∀ y, v.child k = some y → x.emptied = y.emptied → w.emptied = v.emptied
  withItem_of_keyOf : ∀ v key k x, keyOf v.label key = some k → ∃ w, withItem v key x = .ok w
  container_of_keyOf : ∀ (l : Value.Label) key k, keyOf l key = some k → l.isContainer = true
  container_of_lastKeyOf : ∀ (l : Value.Label) key k, lastKeyOf l key = some k →
    l.isContainer = true

namespace Writer

open Value Buffers

variable {K ε : Type} (writer : Writer K ε)

/-- The place that a path leads to. -/
def place (v : Value) (path : List K) : Option Path :=
  v.placeAlong writer.keyOf writer.lastKeyOf path

variable {writer} {v w : Value} {t : Path} {b : Binary}

theorem place_cons {key : K} {rest : List K} (hrest : rest ≠ []) :
    writer.place v (key :: rest) = some t ↔ ∃ k c path, writer.keyOf v.label key = some k ∧
      v.child k = some c ∧ writer.place c rest = some path ∧ t = k :: path := by
  cases rest with
  | nil => exact absurd rfl hrest
  | cons next rest =>
      simp only [place, placeAlong, Option.bind_eq_bind, Option.bind_eq_some_iff,
        Option.pure_def, Option.some.injEq, @eq_comm _ t]
      constructor
      · rintro ⟨k, hk, c, hc, path, hpath, h⟩
        exact ⟨k, c, path, hk, hc, hpath, h⟩
      · rintro ⟨k, c, path, hk, hc, hpath, h⟩
        exact ⟨k, hk, c, hc, path, hpath, h⟩

theorem place_ne_nil {path : List K} (h : writer.place v path = some t) : t ≠ [] := by
  match path with
  | [] => cases h
  | [key] =>
      obtain ⟨k, _, rfl⟩ := Option.map_eq_some_iff.mp h
      simp
  | key :: next :: rest =>
      obtain ⟨k, c, path, _, _, _, rfl⟩ := (place_cons (by simp)).mp h
      simp

theorem isContainer_of_place {path : List K} (h : writer.place v path = some t) :
    v.isContainer = true := by
  rw [← isContainer_label]
  match path with
  | [] => cases h
  | [key] =>
      obtain ⟨k, hk, _⟩ := Option.map_eq_some_iff.mp h
      exact writer.container_of_lastKeyOf _ _ _ hk
  | key :: next :: rest =>
      obtain ⟨k, c, path, hk, _⟩ := (place_cons (by simp)).mp h
      exact writer.container_of_keyOf _ _ _ hk

/-- There are containers all the way to a place. -/
theorem container_above {path : List K} (h : writer.place v path = some t) {front rest : Path}
    {key : Key} (heq : t = front ++ key :: rest) :
    ∃ l, v.look front = some l ∧ l.isContainer = true := by
  induction path generalizing v t front with
  | nil => cases h
  | cons segment more ih =>
      cases front with
      | nil => exact ⟨v.label, rfl, (isContainer_label v).trans (isContainer_of_place h)⟩
      | cons j front =>
          by_cases hmore : more = []
          · subst hmore
            obtain ⟨k, _, rfl⟩ := Option.map_eq_some_iff.mp h
            simp at heq
          · obtain ⟨k, c, path, _, hc, hpath, rfl⟩ := (place_cons hmore).mp h
            obtain ⟨rfl, rfl⟩ := List.cons.inj heq
            simp only [look_cons_of_child hc]
            exact ih hpath rfl

/-- One buffer is written at the place of its path. -/
theorem putAt_ok {path : List K} (h : writer.putAt b v path = .ok w) :
    ∃ t, writer.place v path = some t ∧ Writes v t b w ∧
      ∀ old, v.look t = some (.bin old) → w.emptied = v.emptied := by
  induction path generalizing v w with
  | nil =>
      obtain ⟨e, he⟩ := writer.putAt_nil b v
      rw [he] at h
      cases h
  | cons key rest ih =>
      by_cases hrest : rest = []
      · subst hrest
        rw [writer.putAt_singleton] at h
        obtain ⟨k, hk, hassigns, hrefill⟩ := writer.setItem_ok _ _ _ _ h
        refine ⟨[k], by simp [place, placeAlong, hk], writes_singleton hassigns, ?_⟩
        intro old hold
        obtain ⟨y, hy, hold⟩ := Option.bind_eq_some_iff.mp hold
        cases y <;> simp [look, label] at hold
        exact hrefill _ hy rfl
      · rw [writer.putAt_cons _ _ _ _ hrest] at h
        obtain ⟨c, hget, h⟩ := Port.bind_eq_ok_iff.mp h
        obtain ⟨c', hput, hwith⟩ := Port.bind_eq_ok_iff.mp h
        obtain ⟨path, hpath, hwrites, hinner⟩ := ih hput
        have hcontainer := isContainer_of_place hpath
        obtain ⟨k, hk, hc⟩ := writer.getItem_container _ _ _ hget hcontainer
        obtain ⟨k', hk', hassigns, hrefill⟩ := writer.withItem_ok _ _ _ _ hwith
        obtain rfl : k' = k := Option.some.inj (hk'.symm.trans hk)
        refine ⟨k' :: path, (place_cons hrest).mpr ⟨k', c, path, hk, hc, hpath, rfl⟩,
          writes_cons hc hwrites hassigns, fun old hold => ?_⟩
        rw [look_cons_of_child hc] at hold
        exact hrefill c hc (hinner old hold)

theorem putAt_of_place {path : List K} (h : writer.place v path = some t) (b : Binary) :
    ∃ w, writer.putAt b v path = .ok w := by
  induction path generalizing v t with
  | nil => cases h
  | cons key rest ih =>
      by_cases hrest : rest = []
      · subst hrest
        obtain ⟨k, hk, _⟩ := Option.map_eq_some_iff.mp h
        rw [writer.putAt_singleton]
        exact writer.setItem_of_keyOf _ _ _ _ hk
      · obtain ⟨k, c, path, hk, hc, hpath, _⟩ := (place_cons hrest).mp h
        obtain ⟨c', hput⟩ := ih hpath
        obtain ⟨w, hwith⟩ := writer.withItem_of_keyOf v key k c' hk
        refine ⟨w, ?_⟩
        rw [writer.putAt_cons _ _ _ _ hrest, writer.getItem_of_keyOf _ _ _ _ hk hc]
        simp only [bind, Except.bind, hput]
        exact hwith

/-- A place is told by the labels on the way to it. -/
theorem place_of_look {path : List K} (h : writer.place v path = some t)
    (hlook : ∀ front key rest, t = front ++ key :: rest → w.look front = v.look front) :
    writer.place w path = some t := by
  induction path generalizing v w t with
  | nil => cases h
  | cons key rest ih =>
      have hlabel : w.label = v.label := by
        obtain ⟨k, more, rfl⟩ := List.exists_cons_of_ne_nil (place_ne_nil h)
        exact Option.some.inj (hlook [] k more rfl)
      by_cases hrest : rest = []
      · subst hrest
        rwa [place, placeAlong, hlabel]
      · obtain ⟨k, c, path, hk, hc, hpath, rfl⟩ := (place_cons hrest).mp h
        obtain ⟨j, more, rfl⟩ := List.exists_cons_of_ne_nil (place_ne_nil hpath)
        have hchild := hlook [k] j more rfl
        rw [look_cons_of_child hc] at hchild
        obtain ⟨d, hd, _⟩ := Option.bind_eq_some_iff.mp hchild
        refine (place_cons hrest).mpr ⟨k, d, _, hlabel ▸ hk, hd, ih hpath ?_, rfl⟩
        intro front key' below heq
        have hdeep := hlook (k :: front) key' below (by rw [heq, List.cons_append])
        rwa [look_cons_of_child hd, look_cons_of_child hc] at hdeep

/-- After a write the places are those that do not go on below it. -/
theorem place_of_writes_iff {path : List K} {s : Path} (hwrites : Writes v s b w) :
    writer.place w path = some t ↔ ¬ GoesBelow t s ∧ writer.place v path = some t := by
  have hforth : ∀ front key rest, t = front ++ key :: rest → ¬ GoesBelow t s →
      w.look front = v.look front := by
    intro front key rest heq hbelow
    apply hwrites.2
    intro hpre
    refine hbelow ⟨hpre.trans (heq ▸ List.prefix_append _ _), fun hsame => ?_⟩
    have hlen := hpre.length_le
    rw [hsame, heq, List.length_append, List.length_cons] at hlen
    omega
  constructor
  · intro h
    have hbelow : ¬ GoesBelow t s := by
      rintro ⟨⟨rest, rfl⟩, hne⟩
      obtain ⟨key, more, rfl⟩ := List.exists_cons_of_ne_nil (l := rest) (by
        rintro rfl
        exact hne (List.append_nil s).symm)
      obtain ⟨l, hl, hcontainer⟩ := container_above h rfl
      have hbin := hwrites.1 []
      rw [List.append_nil, hl] at hbin
      cases hbin
      cases hcontainer
    exact ⟨hbelow, place_of_look h fun front key rest heq =>
      (hforth front key rest heq hbelow).symm⟩
  · rintro ⟨hbelow, h⟩
    exact place_of_look h fun front key rest heq => hforth front key rest heq hbelow

end Writer

/-! ### The writes of a loop -/

instance (path above : Path) : Decidable (GoesBelow path above) :=
  inferInstanceAs (Decidable (above <+: path ∧ above ≠ path))

/-- The buffers that are written, each with the place of its path: those in front of the first
path that leads nowhere, or goes on below an earlier one. -/
def performed {P : Type} (place : P → Option Path) (earlier : List Path) :
    List (P × Binary) → List (Path × Binary)
  | [] => []
  | (path, b) :: pairs =>
      match place path with
      | none => []
      | some t =>
          if earlier.any fun s => GoesBelow t s then []
          else (t, b) :: performed place (t :: earlier) pairs

section Performed

variable {P : Type} {place place' : P → Option Path} {earlier earlier' : List Path}

theorem performed_of_place {path : P} {t : Path} {b : Binary} {pairs : List (P × Binary)}
    (h : place path = some t) : performed place earlier ((path, b) :: pairs) =
      if earlier.any fun s => GoesBelow t s then []
      else (t, b) :: performed place (t :: earlier) pairs := by
  simp only [performed, h]

theorem performed_of_none {path : P} {b : Binary} {pairs : List (P × Binary)}
    (h : place path = none) : performed place earlier ((path, b) :: pairs) = [] := by
  simp only [performed, h]

/-- A place that was written to bars what goes on below it. -/
theorem performed_after {s : Path}
    (hplace : ∀ path t, place' path = some t ↔ ¬ GoesBelow t s ∧ place path = some t)
    (hearlier : ∀ t, earlier'.any (fun s => GoesBelow t s) =
      (decide (GoesBelow t s) || earlier.any fun s => GoesBelow t s))
    (pairs : List (P × Binary)) :
    performed place' earlier pairs = performed place earlier' pairs := by
  induction pairs generalizing earlier earlier' with
  | nil => rfl
  | cons head tail ih =>
      obtain ⟨path, b⟩ := head
      cases hpath : place path with
      | none =>
          have hnone : place' path = none := by
            rw [Option.eq_none_iff_forall_ne_some]
            intro t ht
            rw [((hplace path t).mp ht).2] at hpath
            cases hpath
          rw [performed_of_none hpath, performed_of_none hnone]
      | some t =>
          by_cases hbelow : GoesBelow t s
          · have hnone : place' path = none := by
              rw [Option.eq_none_iff_forall_ne_some]
              intro t' ht'
              obtain ⟨hno, hsome⟩ := (hplace path t').mp ht'
              rw [hpath] at hsome
              exact hno (Option.some.inj hsome ▸ hbelow)
            rw [performed_of_none hnone, performed_of_place hpath, hearlier t]
            simp [hbelow]
          · have hsome := (hplace path t).mpr ⟨hbelow, hpath⟩
            rw [performed_of_place hpath, performed_of_place hsome, hearlier t]
            simp only [hbelow, decide_false, Bool.false_or]
            have htail : performed place' (t :: earlier) tail =
                performed place (t :: earlier') tail := ih fun t' => by
              simp only [List.any_cons, hearlier t']
              exact Bool.or_left_comm _ _ _
            rw [htail]

theorem performed_cons {path : P} {t : Path} {b : Binary} (h : place path = some t)
    (hplace : ∀ path t', place' path = some t' ↔ ¬ GoesBelow t' t ∧ place path = some t')
    (pairs : List (P × Binary)) :
    performed place [] ((path, b) :: pairs) = (t, b) :: performed place' [] pairs := by
  have htail : performed place' [] pairs = performed place [t] pairs :=
    performed_after hplace (by simp) pairs
  rw [performed_of_place h, htail]
  rfl

theorem place_of_performed {pairs : List (P × Binary)} {x : Path × Binary}
    (h : x ∈ performed place earlier pairs) : ∃ path, place path = some x.1 := by
  induction pairs generalizing earlier with
  | nil => cases h
  | cons head tail ih =>
      obtain ⟨path, b⟩ := head
      cases hpath : place path with
      | none =>
          rw [performed_of_none hpath] at h
          cases h
      | some t =>
          rw [performed_of_place hpath] at h
          split_ifs at h
          · cases h
          · rcases List.mem_cons.mp h with rfl | hmem
            · exact ⟨path, hpath⟩
            · exact ih hmem

end Performed

end Cositos
