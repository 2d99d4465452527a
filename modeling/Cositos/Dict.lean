/-
Insertion-ordered dictionaries as association lists.  Nothing here knows about
widgets: the laws hold over arbitrary key and value types, and the modules
above use them for Python dicts, JSON objects and JavaScript objects alike.
-/
import Mathlib.Data.List.Nodup
import Mathlib.Data.List.Perm.Basic

namespace Cositos

universe u v

namespace Dict

variable {α : Type u} {β : Type v}

/-- The keys in insertion order. -/
def keys (d : List (α × β)) : List α :=
  d.map Prod.fst

@[simp] theorem keys_nil : keys ([] : List (α × β)) = [] := rfl

@[simp] theorem keys_cons (k : α) (v : β) (d : List (α × β)) :
    keys ((k, v) :: d) = k :: keys d := rfl

@[simp] theorem keys_append (d e : List (α × β)) :
    keys (d ++ e) = keys d ++ keys e := by
  simp [keys]

theorem mem_keys_of_mem {d : List (α × β)} {k : α} {v : β}
    (hmem : (k, v) ∈ d) : k ∈ keys d :=
  List.mem_map.mpr ⟨(k, v), hmem, rfl⟩

variable [DecidableEq α]

/-- `d[k] = v`: an existing key keeps its place, a new one goes last. -/
def set : List (α × β) → α → β → List (α × β)
  | [], k, v => [(k, v)]
  | (k', v') :: d, k, v =>
      if k' = k then (k, v) :: d else (k', v') :: set d k v

/-- `del d[k]`. -/
def erase : List (α × β) → α → List (α × β)
  | [], _ => []
  | (k', v') :: d, k => if k' = k then d else (k', v') :: erase d k

/-- `{**d, **e}`, and `d.update(e)`. -/
def update (d e : List (α × β)) : List (α × β) :=
  e.foldl (fun d kv => set d kv.1 kv.2) d

theorem lookup_eq_none_iff {d : List (α × β)} {k : α} :
    d.lookup k = none ↔ k ∉ keys d := by
  rw [List.lookup_eq_none_iff]
  simp only [bne_iff_ne, keys, List.mem_map, not_exists, not_and]
  constructor
  · intro h kv hkv heq
    exact h kv hkv heq.symm
  · intro h kv hkv heq
    exact h kv hkv heq.symm

theorem lookup_isSome_iff {d : List (α × β)} {k : α} :
    (d.lookup k).isSome ↔ k ∈ keys d := by
  rw [← not_iff_not, ← lookup_eq_none_iff]
  cases d.lookup k <;> simp

theorem exists_lookup_of_mem_keys {d : List (α × β)} {k : α} (hk : k ∈ keys d) :
    ∃ v, d.lookup k = some v :=
  Option.isSome_iff_exists.mp (lookup_isSome_iff.mpr hk)

theorem mem_of_lookup {d : List (α × β)} {k : α} {v : β}
    (h : d.lookup k = some v) : (k, v) ∈ d := by
  obtain ⟨front, back, rfl, _⟩ := List.lookup_eq_some_iff.mp h
  simp

/-- Where every key occurs once, looking up and occurring are the same. -/
theorem lookup_eq_some_iff {d : List (α × β)} (hd : (keys d).Nodup) {k : α} {v : β} :
    d.lookup k = some v ↔ (k, v) ∈ d := by
  refine ⟨mem_of_lookup, ?_⟩
  induction d with
  | nil => simp
  | cons head tail ih =>
      obtain ⟨k', v'⟩ := head
      simp only [keys_cons, List.nodup_cons] at hd
      intro hmem
      rcases List.mem_cons.mp hmem with heq | htail
      · cases heq
        exact List.lookup_cons_self
      · have hne : k ≠ k' := by
          rintro rfl
          exact hd.1 (mem_keys_of_mem htail)
        rw [List.lookup_cons, beq_false_of_ne hne]
        exact ih hd.2 htail

theorem lookup_cons_ne {d : List (α × β)} {k k' : α} (hne : k ≠ k') (v : β) :
    ((k', v) :: d).lookup k = d.lookup k := by
  rw [List.lookup_cons, beq_false_of_ne hne]

theorem lookup_set (d : List (α × β)) (k : α) (v : β) (j : α) :
    (set d k v).lookup j = if j = k then some v else d.lookup j := by
  induction d with
  | nil =>
      by_cases hj : j = k
      · subst hj
        simp [set]
      · simp [set, lookup_cons_ne hj, hj]
  | cons head tail ih =>
      obtain ⟨k', v'⟩ := head
      by_cases hk : k' = k
      · subst hk
        by_cases hj : j = k'
        · subst hj
          simp [set]
        · simp [set, lookup_cons_ne hj, hj]
      · by_cases hj : j = k'
        · subst hj
          simp [set, hk]
        · simp [set, hk, lookup_cons_ne hj, ih]

theorem keys_set_of_mem {d : List (α × β)} {k : α} (hk : k ∈ keys d) (v : β) :
    keys (set d k v) = keys d := by
  induction d with
  | nil => simp at hk
  | cons head tail ih =>
      obtain ⟨k', v'⟩ := head
      by_cases heq : k' = k
      · subst heq
        simp [set]
      · have htail : k ∈ keys tail := by
          rcases List.mem_cons.mp hk with h | h
          · exact absurd h.symm heq
          · exact h
        simp [set, heq, ih htail]

theorem set_append_of_not_mem {d : List (α × β)} {k : α} (hk : k ∉ keys d) (v : β)
    (e : List (α × β)) : set (d ++ e) k v = d ++ set e k v := by
  induction d with
  | nil => rfl
  | cons head tail ih =>
      obtain ⟨k', v'⟩ := head
      simp only [keys_cons, List.mem_cons, not_or] at hk
      have hne : ¬ k' = k := fun h => hk.1 h.symm
      simp [set, hne, ih hk.2]

theorem set_of_not_mem {d : List (α × β)} {k : α} (hk : k ∉ keys d) (v : β) :
    set d k v = d ++ [(k, v)] := by
  have happend := set_append_of_not_mem hk v []
  rwa [List.append_nil] at happend

theorem keys_set_of_not_mem {d : List (α × β)} {k : α} (hk : k ∉ keys d) (v : β) :
    keys (set d k v) = keys d ++ [k] := by
  simp [set_of_not_mem hk]

theorem nodup_keys_set {d : List (α × β)} (hd : (keys d).Nodup) (k : α) (v : β) :
    (keys (set d k v)).Nodup := by
  by_cases hk : k ∈ keys d
  · rw [keys_set_of_mem hk]
    exact hd
  · rw [keys_set_of_not_mem hk]
    exact List.nodup_append.mpr ⟨hd, by simp, by
      rintro a ha b hb rfl
      exact hk (List.mem_singleton.mp hb ▸ ha)⟩

theorem set_eq_self {d : List (α × β)} {k : α} {v : β} (h : d.lookup k = some v) :
    set d k v = d := by
  induction d with
  | nil => cases h
  | cons head tail ih =>
      obtain ⟨k', v'⟩ := head
      by_cases hk : k' = k
      · subst hk
        rw [List.lookup_cons_self] at h
        simp [set, Option.some.inj h]
      · rw [lookup_cons_ne (Ne.symm hk)] at h
        simp [set, hk, ih h]

theorem set_eq_self_iff {d : List (α × β)} {k : α} {v w : β} (h : d.lookup k = some v) :
    set d k w = d ↔ w = v := by
  constructor
  · intro hset
    have hlookup := lookup_set d k w k
    rw [hset, h, if_pos rfl] at hlookup
    exact (Option.some.inj hlookup).symm
  · rintro rfl
    exact set_eq_self h

theorem mem_keys_set {d : List (α × β)} {k j : α} {v : β} :
    j ∈ keys (set d k v) ↔ j = k ∨ j ∈ keys d := by
  rw [← lookup_isSome_iff, ← lookup_isSome_iff, lookup_set]
  by_cases hj : j = k <;> simp [hj]

/-- A binding of `set d k v` is the new one or one of `d`. -/
theorem mem_set {d : List (α × β)} {k : α} {v : β} {kv : α × β}
    (h : kv ∈ set d k v) : kv = (k, v) ∨ kv ∈ d := by
  induction d with
  | nil =>
      simp only [set, List.mem_singleton] at h
      exact Or.inl h
  | cons head tail ih =>
      obtain ⟨k', v'⟩ := head
      by_cases heq : k' = k
      · simp only [set, heq, ↓reduceIte, List.mem_cons] at h
        rcases h with h | h
        · exact Or.inl h
        · exact Or.inr (List.mem_cons_of_mem _ h)
      · simp only [set, heq, ↓reduceIte, List.mem_cons] at h
        rcases h with h | h
        · exact Or.inr (by simp [h])
        · rcases ih h with h | h
          · exact Or.inl h
          · exact Or.inr (List.mem_cons_of_mem _ h)

/-- Setting the key of a binding in the middle replaces that binding. -/
theorem set_middle {d e : List (α × β)} {k : α} (hk : k ∉ keys d) (v w : β) :
    set (d ++ (k, w) :: e) k v = d ++ (k, v) :: e := by
  induction d with
  | nil => simp [set]
  | cons head tail ih =>
      obtain ⟨k', v'⟩ := head
      simp only [keys_cons, List.mem_cons, not_or] at hk
      have hne : ¬ k' = k := fun h => hk.1 h.symm
      simp [set, hne, ih hk.2]

/-- Deleting the key of a binding in the middle removes that binding. -/
theorem erase_middle {d e : List (α × β)} {k : α} (hk : k ∉ keys d) (w : β) :
    erase (d ++ (k, w) :: e) k = d ++ e := by
  induction d with
  | nil => simp [erase]
  | cons head tail ih =>
      obtain ⟨k', v'⟩ := head
      simp only [keys_cons, List.mem_cons, not_or] at hk
      have hne : ¬ k' = k := fun h => hk.1 h.symm
      simp [erase, hne, ih hk.2]

theorem mem_of_mem_keys_erase {d : List (α × β)} {j k : α} (h : j ∈ keys (erase d k)) :
    j ∈ keys d := by
  induction d with
  | nil => exact h
  | cons head tail ih =>
      obtain ⟨k', v'⟩ := head
      rw [erase] at h
      rw [keys_cons, List.mem_cons]
      split_ifs at h with hk
      · exact Or.inr h
      · rw [keys_cons, List.mem_cons] at h
        exact h.imp_right ih

theorem mem_of_mem_erase {d : List (α × β)} {k : α} {kv : α × β} (h : kv ∈ erase d k) :
    kv ∈ d := by
  induction d with
  | nil => exact h
  | cons head tail ih =>
      rw [erase] at h
      split_ifs at h
      · exact List.mem_cons_of_mem _ h
      · rcases List.mem_cons.mp h with rfl | h
        · exact List.mem_cons_self
        · exact List.mem_cons_of_mem _ (ih h)

theorem nodup_keys_erase {d : List (α × β)} (hd : (keys d).Nodup) (k : α) :
    (keys (erase d k)).Nodup := by
  induction d with
  | nil => exact hd
  | cons head tail ih =>
      obtain ⟨k', v'⟩ := head
      rw [keys_cons, List.nodup_cons] at hd
      rw [erase]
      split_ifs
      · exact hd.2
      · rw [keys_cons, List.nodup_cons]
        exact ⟨fun h => hd.1 (mem_of_mem_keys_erase h), ih hd.2⟩

theorem lookup_erase {d : List (α × β)} (hd : (keys d).Nodup) (k j : α) :
    (erase d k).lookup j = if j = k then none else d.lookup j := by
  induction d with
  | nil => simp [erase]
  | cons head tail ih =>
      obtain ⟨k', v'⟩ := head
      rw [keys_cons, List.nodup_cons] at hd
      rw [erase]
      by_cases hk : k' = k
      · subst hk
        rw [if_pos rfl]
        by_cases hj : j = k'
        · rw [if_pos hj, hj, lookup_eq_none_iff.mpr hd.1]
        · rw [if_neg hj, lookup_cons_ne hj]
      · rw [if_neg hk]
        by_cases hj : j = k'
        · subst hj
          simp [hk]
        · rw [lookup_cons_ne hj, lookup_cons_ne hj, ih hd.2]

@[simp] theorem update_nil (d : List (α × β)) : update d [] = d := rfl

@[simp] theorem update_cons (d e : List (α × β)) (k : α) (v : β) :
    update d ((k, v) :: e) = update (set d k v) e := rfl

theorem nodup_keys_update {d : List (α × β)} (hd : (keys d).Nodup)
    (e : List (α × β)) : (keys (update d e)).Nodup := by
  induction e generalizing d with
  | nil => exact hd
  | cons head tail ih => exact ih (nodup_keys_set hd head.1 head.2)

theorem mem_keys_update {d e : List (α × β)} {k : α} :
    k ∈ keys (update d e) ↔ k ∈ keys d ∨ k ∈ keys e := by
  induction e generalizing d with
  | nil => simp
  | cons head tail ih =>
      obtain ⟨k', v'⟩ := head
      rw [update_cons, ih, mem_keys_set, keys_cons, List.mem_cons]
      tauto

/-- Assignments one after another change lookups as `update` does, whatever order
`put` keeps the keys in. -/
theorem lookup_foldl_put {put : List (α × β) → α → β → List (α × β)}
    {d d' e : List (α × β)} {k : α} (hd : d.lookup k = d'.lookup k)
    (hput : ∀ d, ∀ kv ∈ e,
      (put d kv.1 kv.2).lookup k = if k = kv.1 then some kv.2 else d.lookup k) :
    (e.foldl (fun d kv => put d kv.1 kv.2) d).lookup k = (update d' e).lookup k := by
  induction e generalizing d d' with
  | nil => exact hd
  | cons head tail ih =>
      refine ih ?_ fun d kv hkv => hput d kv (List.mem_cons_of_mem _ hkv)
      rw [hput d head List.mem_cons_self, lookup_set, hd]

/-- The right-hand dictionary wins, key by key. -/
theorem lookup_update (d : List (α × β)) {e : List (α × β)} (he : (keys e).Nodup)
    (k : α) : (update d e).lookup k = (e.lookup k).or (d.lookup k) := by
  induction e generalizing d with
  | nil => simp
  | cons head tail ih =>
      obtain ⟨k', v'⟩ := head
      simp only [keys_cons, List.nodup_cons] at he
      rw [update_cons, ih _ he.2, lookup_set]
      by_cases hk : k = k'
      · subst hk
        simp [lookup_eq_none_iff.mpr he.1]
      · simp [lookup_cons_ne hk, hk]

theorem mem_update {d e : List (α × β)} {kv : α × β} (h : kv ∈ update d e) :
    kv ∈ d ∨ kv ∈ e := by
  induction e generalizing d with
  | nil => exact Or.inl h
  | cons head tail ih =>
      rcases ih h with hset | htail
      · rcases mem_set hset with rfl | hd
        · exact Or.inr List.mem_cons_self
        · exact Or.inl hd
      · exact Or.inr (List.mem_cons_of_mem _ htail)

theorem set_append_of_mem {d : List (α × β)} {k : α} (hk : k ∈ keys d) (v : β)
    (e : List (α × β)) : set (d ++ e) k v = set d k v ++ e := by
  induction d with
  | nil => simp at hk
  | cons head tail ih =>
      obtain ⟨k', v'⟩ := head
      by_cases heq : k' = k
      · simp [set, heq]
      · have htail : k ∈ keys tail := by
          rcases List.mem_cons.mp hk with h | h
          · exact absurd h.symm heq
          · exact h
        simp [set, heq, ih htail]

/-- An update keeps the old keys in front and in their order. -/
theorem exists_update_eq_append (d e : List (α × β)) :
    ∃ front back, update d e = front ++ back ∧ keys front = keys d := by
  suffices h : ∀ front back : List (α × β), ∃ front' back',
      update (front ++ back) e = front' ++ back' ∧ keys front' = keys front by
    simpa using h d []
  induction e with
  | nil => exact fun front back => ⟨front, back, rfl, rfl⟩
  | cons head tail ih =>
      obtain ⟨k, v⟩ := head
      intro front back
      by_cases hk : k ∈ keys front
      · rw [update_cons, set_append_of_mem hk]
        simpa [keys_set_of_mem hk] using ih (set front k v) back
      · rw [update_cons, set_append_of_not_mem hk]
        exact ih front (set back k v)

theorem update_of_disjoint {d e : List (α × β)} (he : (keys e).Nodup)
    (hdisj : ∀ k ∈ keys e, k ∉ keys d) : update d e = d ++ e := by
  induction e generalizing d with
  | nil => simp
  | cons head tail ih =>
      obtain ⟨k, v⟩ := head
      simp only [keys_cons, List.nodup_cons, List.mem_cons, forall_eq_or_imp] at he hdisj
      rw [update_cons, set_of_not_mem hdisj.1, ih he.2]
      · simp
      · intro j hj
        simp only [keys_append, keys_cons, keys_nil, List.mem_append,
          List.mem_singleton, not_or]
        exact ⟨hdisj.2 j hj, fun h => he.1 (h ▸ hj)⟩

/-- Overwriting every key of `d`, in order, leaves nothing of `d`. -/
theorem update_of_keys_eq {d e : List (α × β)} (he : (keys e).Nodup)
    (hkeys : keys d = keys e) : update d e = e := by
  suffices h : ∀ done : List (α × β), (∀ k ∈ keys e, k ∉ keys done) →
      update (done ++ d) e = done ++ e by
    simpa using h [] (by simp)
  induction e generalizing d with
  | nil =>
      intro done _
      have hd : d = [] := by simpa [keys] using hkeys
      simp [hd]
  | cons head tail ih =>
      obtain ⟨k, v⟩ := head
      cases d with
      | nil => simp at hkeys
      | cons head' tail' =>
          obtain ⟨k', v'⟩ := head'
          simp only [keys_cons, List.cons.injEq] at hkeys
          obtain ⟨rfl, htail⟩ := hkeys
          simp only [keys_cons, List.nodup_cons] at he
          intro done hdone
          simp only [keys_cons, List.mem_cons, forall_eq_or_imp] at hdone
          have hnext := ih he.2 htail (done ++ [(k', v)]) (by
            intro j hj
            simp only [keys_append, keys_cons, keys_nil, List.mem_append,
              List.mem_singleton, not_or]
            exact ⟨hdone.2 j hj, fun h => he.1 (h ▸ hj)⟩)
          rw [update_cons, set_middle hdone.1]
          simpa using hnext

/-- Merging the same defaults twice is merging them once, order included. -/
theorem update_update_self {d e : List (α × β)} (hd : (keys d).Nodup) :
    update d (update d e) = update d e := by
  have hnodup := nodup_keys_update hd e
  obtain ⟨front, back, heq, hkeys⟩ := exists_update_eq_append d e
  rw [heq, keys_append] at hnodup
  obtain ⟨hfront, hback, hdisj⟩ := List.nodup_append.mp hnodup
  have hstep : update d (front ++ back) = update (update d front) back := by
    simp [update]
  rw [heq, hstep, update_of_keys_eq hfront hkeys.symm]
  exact update_of_disjoint hback fun k hk hmem => hdisj k hmem k hk rfl

/-- Which of two updates a lookup sees does not depend on what they update. -/
theorem lookup_update_or (d e : List (α × β)) (k : α) :
    (update d e).lookup k = ((update [] e).lookup k).or (d.lookup k) := by
  induction e generalizing d with
  | nil => simp
  | cons head tail ih =>
      obtain ⟨k', v⟩ := head
      rw [update_cons, update_cons, ih (set d k' v), ih (set [] k' v), lookup_set, lookup_set]
      by_cases hk : k = k' <;> simp [hk]

theorem lookup_update_map (f : α → β) (d : List (α × β)) (ks : List α) (k : α) :
    (update d (ks.map fun k => (k, f k))).lookup k =
      if k ∈ ks then some (f k) else d.lookup k := by
  induction ks generalizing d with
  | nil => rfl
  | cons head tail ih =>
      rw [List.map_cons, update_cons, ih, lookup_set]
      by_cases hk : k = head
      · subst hk
        by_cases htail : k ∈ tail <;> simp [htail]
      · by_cases htail : k ∈ tail <;> simp [hk, htail]

omit [DecidableEq α] in
theorem keys_filter_sublist (p : α × β → Bool) (d : List (α × β)) :
    (keys (d.filter p)).Sublist (keys d) :=
  List.filter_sublist.map _

/-- A comprehension that keeps the keys satisfying `p`. -/
theorem lookup_filter (p : α → Bool) (d : List (α × β)) (k : α) :
    (d.filter fun kv => p kv.1).lookup k = if p k then d.lookup k else none := by
  induction d with
  | nil => simp
  | cons head tail ih =>
      obtain ⟨k', v'⟩ := head
      by_cases hk : k = k'
      · subst hk
        by_cases hp : p k <;> simp [hp, ih]
      · by_cases hp : p k' <;>
          simp [hp, ih, lookup_cons_ne hk]

theorem lookup_map_snd {γ : Type v} (f : β → γ) (d : List (α × β)) (k : α) :
    (d.map (Prod.map id f)).lookup k = (d.lookup k).map f := by
  induction d with
  | nil => rfl
  | cons head tail ih =>
      obtain ⟨k', v'⟩ := head
      by_cases hk : k = k'
      · subst hk
        simp
      · simp [lookup_cons_ne hk, ih]

theorem set_map_snd {γ : Type v} (f : β → γ) (d : List (α × β)) (k : α) (v : β) :
    set (d.map (Prod.map id f)) k (f v) = (set d k v).map (Prod.map id f) := by
  induction d with
  | nil => rfl
  | cons head tail ih =>
      obtain ⟨k', v'⟩ := head
      by_cases hk : k' = k <;> simp [set, hk, ih]

theorem erase_map_snd {γ : Type v} (f : β → γ) (d : List (α × β)) (k : α) :
    erase (d.map (Prod.map id f)) k = (erase d k).map (Prod.map id f) := by
  induction d with
  | nil => rfl
  | cons head tail ih =>
      obtain ⟨k', v'⟩ := head
      by_cases hk : k' = k <;> simp [erase, hk, ih]

end Dict

end Cositos
