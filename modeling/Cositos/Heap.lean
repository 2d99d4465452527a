/-
The split on a heap of Python objects, where containers may be shared and may
contain themselves: it ends, raises exactly when the way down from the root
comes back to a container or gets too deep, and otherwise does to the heap what
it does to the tree that unfolds it.
-/
import Cositos.Split
import Mathlib.Logic.Relation

namespace Cositos

namespace Buffers

open Value

/-- A Python object with references to others in place of its children. -/
inductive Cell (O : Type)
  | scalar (s : Scalar)
  | binary (b : Binary)
  | list (xs : List O)
  | tuple (xs : List O)
  | dict (kvs : List (Key × O))

/-- A finite heap.  A dict binds each of its keys once. -/
structure Heap where
  size : Nat
  cell : Fin size → Cell (Fin size)
  nodup_keys : ∀ o kvs, cell o = .dict kvs → (Dict.keys kvs).Nodup

namespace Heap

/-- A reference to an object of the heap. -/
abbrev Ref (heap : Heap) : Type := Fin heap.size

variable (heap : Heap)

/-- The heap as a graph of objects: an object is told from others by where it
is stored. -/
def objects : Objects heap.Ref heap.Ref where
  node o :=
    match heap.cell o with
    | .scalar _ => .scalar
    | .binary b => .binary b
    | .list xs | .tuple xs => .seq xs
    | .dict kvs => .dict kvs
  ident _ o := o

/-- `remove_buffers`: the object handed back, the paths and the buffers. -/
def removeBuffers (root : heap.Ref) : Except PyError (Split (Clone heap.Ref)) :=
  separate heap.objects root []

/-- `isinstance(value, (list, tuple, dict))`. -/
def isContainer (o : heap.Ref) : Bool := (heap.objects.node o).isContainer

/-- A container and one right below it. -/
def Descends (o child : heap.Ref) : Prop :=
  (∃ key, (key, child) ∈ items heap.objects o) ∧ heap.isContainer child = true

/-- The containers on a way down from the root, the last one first. -/
inductive Trail (root : heap.Ref) : List heap.Ref → Prop
  | root : Trail root [root]
  | down {o child : heap.Ref} {above : List heap.Ref} (h : Trail root (o :: above))
      (hchild : heap.Descends o child) : Trail root (child :: o :: above)

/-- Some way down from the root comes to a container that it has come through,
or to one more than `_MAX_DEPTH` levels below the root. -/
def Overruns (root : heap.Ref) : Prop :=
  ∃ trail, heap.Trail root trail ∧ (¬ trail.Nodup ∨ maxDepth + 1 < trail.length)

/-- The tree that a reference unfolds to. -/
inductive Unfolds : heap.Ref → Value → Prop
  | scalar {o : heap.Ref} {s : Scalar} (h : heap.cell o = .scalar s) : Unfolds o (.scalar s)
  | binary {o : heap.Ref} {b : Binary} (h : heap.cell o = .binary b) : Unfolds o (.bin b)
  | list {o : heap.Ref} {refs : List heap.Ref} {xs : List Value} (h : heap.cell o = .list refs)
      (hlength : refs.length = xs.length)
      (hitems : ∀ (n : Nat) ref x, refs[n]? = some ref → xs[n]? = some x → Unfolds ref x) :
      Unfolds o (.list xs)
  | tuple {o : heap.Ref} {refs : List heap.Ref} {xs : List Value} (h : heap.cell o = .tuple refs)
      (hlength : refs.length = xs.length)
      (hitems : ∀ (n : Nat) ref x, refs[n]? = some ref → xs[n]? = some x → Unfolds ref x) :
      Unfolds o (.tuple xs)
  | dict {o : heap.Ref} {refs : List (Key × heap.Ref)} {kvs : Bindings}
      (h : heap.cell o = .dict refs) (hkeys : Dict.keys refs = Dict.keys kvs)
      (hitems : ∀ (n : Nat) key ref x, refs[n]? = some (key, ref) →
        kvs[n]? = some (key, x) → Unfolds ref x) :
      Unfolds o (.dict kvs)

/-! ### Unfolding -/

/-- The tree below a reference, cut off after so many levels of containers. -/
def unfold : Nat → heap.Ref → Value
  | levels, o =>
      match heap.cell o, levels with
      | .scalar s, _ => .scalar s
      | .binary b, _ => .bin b
      | _, 0 => Value.none
      | .list xs, levels + 1 => .list (xs.map (unfold levels))
      | .tuple xs, levels + 1 => .tuple (xs.map (unfold levels))
      | .dict kvs, levels + 1 => .dict (kvs.map (Prod.map id (unfold levels)))

/-- No way down from an object is longer than so many containers. -/
def Fits : Nat → heap.Ref → Prop
  | 0, o => heap.isContainer o = false
  | levels + 1, o => ∀ kc ∈ items heap.objects o, Fits levels kc.2

instance decidableFits : (levels : Nat) → (o : heap.Ref) → Decidable (heap.Fits levels o)
  | 0, o => inferInstanceAs (Decidable (heap.isContainer o = false))
  | levels + 1, o =>
      have := decidableFits levels
      inferInstanceAs (Decidable (∀ kc ∈ items heap.objects o, heap.Fits levels kc.2))

variable {heap}

theorem isContainer_cell {o : heap.Ref} :
    heap.isContainer o =
      match heap.cell o with
      | .scalar _ | .binary _ => false
      | .list _ | .tuple _ | .dict _ => true := by
  cases h : heap.cell o <;> simp [isContainer, objects, h, Node.isContainer]

theorem items_objects (o : heap.Ref) :
    items heap.objects o =
      match heap.cell o with
      | .scalar _ | .binary _ => []
      | .list xs | .tuple xs => enumItems 0 xs
      | .dict kvs => kvs := by
  cases h : heap.cell o <;> simp [items, objects, h]

theorem isContainer_of_mem_items {o : heap.Ref} {kc : Key × heap.Ref}
    (h : kc ∈ items heap.objects o) : heap.isContainer o = true := by
  rw [items_objects] at h
  rw [isContainer_cell]
  cases hcell : heap.cell o <;> simp [hcell] at h ⊢

theorem Fits.succ {levels : Nat} {o : heap.Ref} (h : heap.Fits levels o) :
    heap.Fits (levels + 1) o := by
  induction levels generalizing o with
  | zero =>
      intro kc hkc
      have hfalse : heap.isContainer o = false := h
      rw [isContainer_of_mem_items hkc] at hfalse
      cases hfalse
  | succ levels ih => exact fun kc hkc => ih (h kc hkc)

theorem Fits.mono {levels levels' : Nat} {o : heap.Ref} (h : heap.Fits levels o)
    (hle : levels ≤ levels') : heap.Fits levels' o := by
  induction hle with
  | refl => exact h
  | step _ ih => exact ih.succ

/-- Cutting off where nothing is left changes nothing. -/
theorem unfold_stable {levels levels' : Nat} {o : heap.Ref} (h : heap.Fits levels o)
    (hle : levels ≤ levels') : heap.unfold levels' o = heap.unfold levels o := by
  induction levels generalizing levels' o with
  | zero =>
      have hleaf : heap.isContainer o = false := h
      rw [isContainer_cell] at hleaf
      unfold Heap.unfold
      cases hcell : heap.cell o <;> simp [hcell] at hleaf ⊢
  | succ levels ih =>
      obtain ⟨levels', rfl⟩ : ∃ n, levels' = n + 1 := ⟨levels' - 1, by omega⟩
      have hchild : ∀ kc ∈ items heap.objects o,
          heap.unfold levels' kc.2 = heap.unfold levels kc.2 :=
        fun kc hkc => ih (h kc hkc) (by omega)
      rw [items_objects] at hchild
      unfold Heap.unfold
      cases hcell : heap.cell o with
      | scalar s | binary b => rfl
      | list xs | tuple xs =>
          simp only [hcell] at hchild ⊢
          congr 1
          refine List.map_congr_left fun x hx => ?_
          obtain ⟨n, hn⟩ := List.mem_iff_getElem?.mp hx
          exact hchild (.int n, x) (mem_enumItems_iff.mpr ⟨n, by simp, hn⟩)
      | dict kvs =>
          simp only [hcell] at hchild ⊢
          congr 1
          exact List.map_congr_left fun kc hkc => Prod.ext rfl (hchild kc hkc)

theorem unfolds_unfold {levels : Nat} {o : heap.Ref} (h : heap.Fits levels o) :
    heap.Unfolds o (heap.unfold levels o) := by
  induction levels generalizing o with
  | zero =>
      have hleaf : heap.isContainer o = false := h
      rw [isContainer_cell] at hleaf
      unfold Heap.unfold
      cases hcell : heap.cell o with
      | scalar s => exact .scalar hcell
      | binary b => exact .binary hcell
      | list xs | tuple xs | dict kvs => simp [hcell] at hleaf
  | succ levels ih =>
      have hchild : ∀ kc ∈ items heap.objects o,
          heap.Unfolds kc.2 (heap.unfold levels kc.2) := fun kc hkc => ih (h kc hkc)
      have hseq : ∀ refs : List heap.Ref, items heap.objects o = enumItems 0 refs →
          ∀ (n : Nat) ref x, refs[n]? = some ref →
            (refs.map (heap.unfold levels))[n]? = some x → heap.Unfolds ref x := by
        intro refs hitems n ref x href hx
        rw [List.getElem?_map, href] at hx
        cases hx
        exact hchild (.int n, ref) (hitems ▸ mem_enumItems_iff.mpr ⟨n, by simp, href⟩)
      have hitems := items_objects o
      unfold Heap.unfold
      cases hcell : heap.cell o with
      | scalar s => exact .scalar hcell
      | binary b => exact .binary hcell
      | list xs => exact .list hcell (by simp) (hseq xs (by rw [hitems, hcell]))
      | tuple xs => exact .tuple hcell (by simp) (hseq xs (by rw [hitems, hcell]))
      | dict kvs =>
          refine .dict hcell (by simp [Dict.keys, Function.comp_def]) ?_
          intro n key ref x href hx
          rw [List.getElem?_map, href] at hx
          cases hx
          rw [hitems, hcell] at hchild
          exact hchild (key, ref) (List.mem_of_getElem? href)

theorem seq_ext {α : Type} {refs : List α} {xs ys : List Value}
    (hxs : refs.length = xs.length) (hys : refs.length = ys.length)
    (h : ∀ (n : Nat) ref x y, refs[n]? = some ref → xs[n]? = some x → ys[n]? = some y → x = y) :
    xs = ys := by
  refine List.ext_getElem (hxs.symm.trans hys) fun n hx hy => ?_
  have href : n < refs.length := hxs ▸ hx
  exact h n refs[n] _ _ (List.getElem?_eq_getElem href) (List.getElem?_eq_getElem hx)
    (List.getElem?_eq_getElem hy)

/-- The key at a position, read off the list of keys. -/
theorem getElem?_of_keys {α β : Type} {d : List (Key × α)} {e : List (Key × β)}
    (h : Dict.keys d = Dict.keys e) {n : Nat} {key : Key} {b : β} (he : e[n]? = some (key, b)) :
    ∃ a, d[n]? = some (key, a) := by
  have hkey : (Dict.keys d)[n]? = some key := by
    rw [h, Dict.keys, List.getElem?_map, he]
    rfl
  rw [Dict.keys, List.getElem?_map] at hkey
  obtain ⟨⟨key', a⟩, hd, rfl⟩ := Option.map_eq_some_iff.mp hkey
  exact ⟨a, hd⟩

/-- A reference unfolds to one tree at most. -/
theorem Unfolds.unique {o : heap.Ref} {v w : Value} (hv : heap.Unfolds o v)
    (hw : heap.Unfolds o w) : v = w := by
  induction hv generalizing w with
  | scalar h => cases hw <;> simp_all
  | binary h => cases hw <;> simp_all
  | @list o refs xs h hlength _ ih =>
      cases hw with
      | @list _ refs' ys h' hlength' hitems =>
          obtain rfl : refs = refs' := by simpa [h] using h'
          congr 1
          exact seq_ext hlength hlength' fun n ref x y href hx hy =>
            ih n ref x href hx (hitems n ref y href hy)
      | _ => simp_all
  | @tuple o refs xs h hlength _ ih =>
      cases hw with
      | @tuple _ refs' ys h' hlength' hitems =>
          obtain rfl : refs = refs' := by simpa [h] using h'
          congr 1
          exact seq_ext hlength hlength' fun n ref x y href hx hy =>
            ih n ref x href hx (hitems n ref y href hy)
      | _ => simp_all
  | @dict o refs kvs h hkeys _ ih =>
      cases hw with
      | @dict _ refs' kvs' h' hkeys' hitems =>
          obtain rfl : refs = refs' := by simpa [h] using h'
          congr 1
          have hlength : kvs.length = kvs'.length := by
            simpa [Dict.keys] using congrArg List.length (hkeys.symm.trans hkeys')
          refine List.ext_getElem hlength fun n hn hn' => ?_
          have hx := List.getElem?_eq_getElem hn
          have hy := List.getElem?_eq_getElem hn'
          obtain ⟨ref, href⟩ := getElem?_of_keys hkeys hx
          obtain ⟨y, hy'⟩ := getElem?_of_keys (hkeys'.symm.trans hkeys) hx
          have heq := Option.some.inj (hy.symm.trans hy')
          rw [heq]
          exact Prod.ext rfl (ih n _ ref _ href hx (hitems n _ ref y href hy'))
      | _ => simp_all

/-! ### Ways down -/

theorem Fits.descends {levels : Nat} {o child : heap.Ref} (h : heap.Fits levels o)
    (hchild : heap.Descends o child) : ∃ n, n < levels ∧ heap.Fits n child := by
  obtain ⟨⟨key, hkey⟩, _⟩ := hchild
  cases levels with
  | zero =>
      have hfalse : heap.isContainer o = false := h
      rw [isContainer_of_mem_items hkey] at hfalse
      cases hfalse
  | succ n => exact ⟨n, n.lt_succ_self, h _ hkey⟩

theorem Fits.transGen {levels : Nat} {o below : heap.Ref} (h : heap.Fits levels o)
    (hbelow : Relation.TransGen heap.Descends o below) : ∃ n, n < levels ∧ heap.Fits n below := by
  induction hbelow with
  | single hchild => exact h.descends hchild
  | tail _ hchild ih =>
      obtain ⟨n, hn, hfits⟩ := ih
      obtain ⟨m, hm, hfits'⟩ := hfits.descends hchild
      exact ⟨m, hm.trans hn, hfits'⟩

/-- No container within finitely many levels lies below itself. -/
theorem Fits.not_cyclic {levels : Nat} {o : heap.Ref} (h : heap.Fits levels o) :
    ¬ Relation.TransGen heap.Descends o o := by
  induction levels using Nat.strongRecOn with
  | ind levels ih =>
      intro hcycle
      obtain ⟨n, hn, hfits⟩ := h.transGen hcycle
      exact ih n hn hfits hcycle

theorem Trail.transGen {root o : heap.Ref} {above : List heap.Ref}
    (h : heap.Trail root (o :: above)) : ∀ a ∈ above, Relation.TransGen heap.Descends a o := by
  obtain ⟨trail, htrail⟩ : ∃ trail, trail = o :: above := ⟨_, rfl⟩
  rw [← htrail] at h
  induction h generalizing o above with
  | root =>
      obtain ⟨rfl, rfl⟩ := List.cons.inj htrail
      simp
  | @down p child above' _ hchild ih =>
      obtain ⟨rfl, rfl⟩ := List.cons.inj htrail
      intro a ha
      rcases List.mem_cons.mp ha with rfl | ha
      · exact .single hchild
      · exact (ih rfl a ha).tail hchild

/-- Along a way down the levels left run out. -/
theorem Trail.fits {root : heap.Ref} {levels : Nat} (hroot : heap.Fits levels root)
    {trail : List heap.Ref} (h : heap.Trail root trail) :
    ∃ o n, trail.head? = some o ∧ heap.Fits n o ∧ n + trail.length ≤ levels + 1 := by
  induction h with
  | root => exact ⟨root, levels, rfl, hroot, le_rfl⟩
  | down _ hchild ih =>
      obtain ⟨o', n, hhead, hfits, hle⟩ := ih
      obtain rfl := Option.some.inj hhead
      obtain ⟨m, hm, hfits'⟩ := hfits.descends hchild
      refine ⟨_, m, rfl, hfits', ?_⟩
      simp only [List.length_cons] at hle ⊢
      omega

theorem Trail.head_container {root o : heap.Ref} {above : List heap.Ref}
    (hroot : heap.isContainer root = true) (h : heap.Trail root (o :: above)) :
    heap.isContainer o = true := by
  cases h with
  | root => exact hroot
  | down _ hchild => exact hchild.2

/-- Where everything fits within the cap, no way down overruns. -/
theorem Fits.not_overruns {root : heap.Ref} (hroot : heap.isContainer root = true)
    (h : heap.Fits (maxDepth + 1) root) : ¬ heap.Overruns root := by
  rintro ⟨trail, htrail, hrepeats | hlong⟩
  · induction htrail with
    | root => simp at hrepeats
    | @down o child above hprev hchild ih =>
        rw [List.nodup_cons, not_and_or, not_not] at hrepeats
        rcases hrepeats with hmem | hrepeats
        · have hcycle := (Trail.down hprev hchild).transGen child hmem
          obtain ⟨_, n, hhead, hfits, _⟩ := Trail.fits h (Trail.down hprev hchild)
          obtain rfl := Option.some.inj hhead
          exact hfits.not_cyclic hcycle
        · exact ih hrepeats
  · obtain ⟨o, n, hhead, hfits, hle⟩ := Trail.fits h htrail
    obtain ⟨o', above, rfl⟩ : ∃ o' above, trail = o' :: above := by
      cases htrail <;> exact ⟨_, _, rfl⟩
    obtain rfl := Option.some.inj hhead
    have hn : n = 0 := by omega
    subst hn
    have hleaf : heap.isContainer o' = false := hfits
    rw [htrail.head_container hroot] at hleaf
    cases hleaf

theorem not_fits_descends {levels : Nat} {o : heap.Ref} (h : ¬ heap.Fits (levels + 1) o) :
    ∃ child, heap.isContainer child = true ∧ heap.Descends o child ∧ ¬ heap.Fits levels child := by
  simp only [Fits, not_forall] at h
  obtain ⟨⟨key, child⟩, hmem, hnot⟩ := h
  have hchild : heap.isContainer child = true := by
    by_contra hleaf
    have hzero : heap.Fits 0 child := Bool.eq_false_iff.mpr hleaf
    exact hnot (hzero.mono levels.zero_le)
  exact ⟨child, hchild, ⟨⟨key, hmem⟩, hchild⟩, hnot⟩

/-- Where something does not fit, some way down is too long. -/
theorem exists_long_trail {root o : heap.Ref} {above : List heap.Ref}
    (htrail : heap.Trail root (o :: above)) {levels : Nat} (h : ¬ heap.Fits (levels + 1) o) :
    ∃ trail, heap.Trail root trail ∧ trail.length = above.length + levels + 2 := by
  induction levels generalizing o above with
  | zero =>
      obtain ⟨child, _, hdesc, _⟩ := not_fits_descends h
      exact ⟨_, htrail.down hdesc, by simp⟩
  | succ levels ih =>
      obtain ⟨child, _, hdesc, hnot⟩ := not_fits_descends h
      obtain ⟨trail, ht, hlength⟩ := ih (htrail.down hdesc) hnot
      refine ⟨trail, ht, ?_⟩
      simp only [List.length_cons] at hlength
      omega

theorem overruns_iff {root : heap.Ref} (hroot : heap.isContainer root = true) :
    heap.Overruns root ↔ ¬ heap.Fits (maxDepth + 1) root := by
  constructor
  · exact fun h hfits => hfits.not_overruns hroot h
  · intro h
    obtain ⟨trail, ht, hlength⟩ := exists_long_trail Trail.root h
    exact ⟨trail, ht, Or.inr (by simp only [List.length_nil] at hlength; omega)⟩

end Heap

/-! ### Renaming objects -/

mutual

/-- What the walk hands back, with other objects in place of the state's own. -/
def Clone.map {O O' : Type} (f : O → O') : Clone O → Clone O'
  | .same o => .same (f o)
  | .none => .none
  | .list xs => .list (Clone.mapSeq f xs)
  | .dict kvs => .dict (Clone.mapEntries f kvs)

def Clone.mapSeq {O O' : Type} (f : O → O') : List (Clone O) → List (Clone O')
  | [] => []
  | x :: xs => Clone.map f x :: Clone.mapSeq f xs

def Clone.mapEntries {O O' : Type} (f : O → O') :
    List (Key × Clone O) → List (Key × Clone O')
  | [] => []
  | (k, x) :: kvs => (k, Clone.map f x) :: Clone.mapEntries f kvs

end

section Rename

variable {O O' ι ι' : Type} (f : O → O')

theorem Clone.mapSeq_eq (xs : List (Clone O)) : Clone.mapSeq f xs = xs.map (Clone.map f) := by
  induction xs with
  | nil => rfl
  | cons x xs ih => simp [Clone.mapSeq, ih]

theorem Clone.mapEntries_eq (kvs : List (Key × Clone O)) :
    Clone.mapEntries f kvs = kvs.map (Prod.map id (Clone.map f)) := by
  induction kvs with
  | nil => rfl
  | cons head tail ih => simp [Clone.mapEntries, ih, Prod.map]

theorem extractBinary_map (c : Clone O) (key : Key) :
    extractBinary (c.map f) key = (extractBinary c key).map f := by
  cases c with
  | same o | none => cases key <;> rfl
  | list xs =>
      match key with
      | .int (.ofNat n) => simp [Clone.map, extractBinary, Clone.mapSeq_eq, List.map_set]
      | .int (.negSucc _) | .none | .frac _ | .str _ | .other _ => rfl
  | dict kvs =>
      have herase : extractBinary (.dict kvs : Clone O) key = .dict (Dict.erase kvs key) := by
        cases key <;> rfl
      have herase' : extractBinary (Clone.map f (.dict kvs)) key =
          .dict (Dict.erase (Clone.mapEntries f kvs) key) := by
        cases key <;> rfl
      rw [herase, herase', Clone.map, Clone.mapEntries_eq, Clone.mapEntries_eq,
        Dict.erase_map_snd]

theorem setItem_map (c : Clone O) (key : Key) (nested : Clone O) :
    setItem (c.map f) key (nested.map f) = (setItem c key nested).map f := by
  cases c with
  | same o | none => cases key <;> rfl
  | list xs =>
      match key with
      | .int (.ofNat n) => simp [Clone.map, setItem, Clone.mapSeq_eq, List.map_set]
      | .int (.negSucc _) | .none | .frac _ | .str _ | .other _ => rfl
  | dict kvs =>
      have hset : setItem (.dict kvs : Clone O) key nested = .dict (Dict.set kvs key nested) := by
        cases key <;> rfl
      have hset' : setItem (Clone.map f (.dict kvs)) key (nested.map f) =
          .dict (Dict.set (Clone.mapEntries f kvs) key (nested.map f)) := by
        cases key <;> rfl
      rw [hset, hset', Clone.map, Clone.mapEntries_eq, Clone.mapEntries_eq, Dict.set_map_snd]

/-- A node with other objects in place of its children. -/
def Node.map : Node O → Node O'
  | .scalar => .scalar
  | .binary b => .binary b
  | .seq xs => .seq (xs.map f)
  | .dict kvs => .dict (kvs.map (Prod.map id f))

theorem isContainer_map (node : Node O) : (node.map f).isContainer = node.isContainer := by
  cases node <;> rfl

variable {f} {G : Objects O ι} {G' : Objects O' ι'}

theorem items_of_node {o : O} (h : G'.node (f o) = (G.node o).map f) :
    items G' (f o) = (items G o).map (Prod.map id f) := by
  unfold items
  rw [h]
  cases G.node o <;> simp [Node.map, enumItems_map]

theorem clone_of_node {o : O} (h : G'.node (f o) = (G.node o).map f) :
    clone G' (f o) = (clone G o).map f := by
  unfold clone
  rw [h]
  cases G.node o <;>
    simp [Node.map, Clone.map, Clone.mapSeq_eq, Clone.mapEntries_eq, Function.comp_def, Prod.map]

theorem nextClone_of_node {o : O} (h : G'.node (f o) = (G.node o).map f)
    (cloned : Option (Clone O)) (key : Key) (nested : Option (Clone O)) :
    nextClone G' (f o) (cloned.map (Clone.map f)) key (nested.map (Clone.map f)) =
      (nextClone G o cloned key nested).map (Clone.map f) := by
  cases nested with
  | none => rfl
  | some c =>
      simp only [Option.map_some, nextClone, ← setItem_map, clone_of_node h]
      cases cloned <;> rfl

/-- What a visit yields, with other objects in place of the state's own. -/
abbrev Visited.map (f : O → O') : Visited O → Visited O' :=
  Prod.map (Option.map (Clone.map f)) id

/-- The pairs of a container and of its image are run through alike. -/
theorem visitItems_map {o : O} (h : G'.node (f o) = (G.node o).map f) (path : Path)
    {sub : Key → O → Except PyError (Visited O)} {sub' : Key → O' → Except PyError (Visited O')}
    {kvs : List (Key × O)}
    (hnode : ∀ kc ∈ kvs, G'.node (f kc.2) = (G.node kc.2).map f)
    (hsub : ∀ kc ∈ kvs, (G.node kc.2).isContainer = true →
      sub' kc.1 (f kc.2) = (sub kc.1 kc.2).map (Visited.map f))
    (cloned : Option (Clone O)) :
    visitItems G' (f o) path sub' (kvs.map (Prod.map id f)) (cloned.map (Clone.map f)) =
      (visitItems G o path sub kvs cloned).map (Visited.map f) := by
  induction kvs generalizing cloned with
  | nil => rfl
  | cons head tail ih =>
      obtain ⟨key, value⟩ := head
      obtain ⟨hvalue, hnode⟩ := List.forall_mem_cons.mp hnode
      obtain ⟨hsubValue, hsub⟩ := List.forall_mem_cons.mp hsub
      rw [List.map_cons]
      by_cases hcontainer : (G.node value).isContainer = true
      · have hcontainer' : (G'.node (f value)).isContainer = true := by
          rw [hvalue, isContainer_map]
          exact hcontainer
        simp only [Prod.map, id] at hvalue hsubValue ⊢
        rw [visitItems_container G hcontainer, visitItems_container G' hcontainer',
          hsubValue hcontainer]
        cases sub key value with
        | error e => rfl
        | ok visited =>
            obtain ⟨nested, inner⟩ := visited
            simp only [Except.map, bind, Except.bind, Visited.map, Prod.map, id,
              nextClone_of_node h]
            have hrest := ih hnode hsub (nextClone G o cloned key nested)
            rw [hrest]
            cases visitItems G o path sub tail (nextClone G o cloned key nested) <;> rfl
      · cases hleaf : G.node value with
        | scalar =>
            simp only [Prod.map, id] at hvalue ⊢
            rw [hleaf] at hvalue
            simp only [visitItems, hleaf, hvalue, Node.map]
            exact ih hnode hsub cloned
        | binary b =>
            simp only [Prod.map, id] at hvalue ⊢
            rw [hleaf] at hvalue
            have hcloned : (cloned.map (Clone.map f)).getD (clone G' (f o)) =
                (cloned.getD (clone G o)).map f := by
              rw [clone_of_node h]
              cases cloned <;> rfl
            simp only [visitItems, hleaf, hvalue, Node.map, hcloned, extractBinary_map]
            have hrest := ih hnode hsub (some (extractBinary (cloned.getD (clone G o)) key))
            rw [Option.map_some] at hrest
            rw [hrest]
            cases visitItems G o path sub tail
              (some (extractBinary (cloned.getD (clone G o)) key)) <;> rfl
        | seq xs | dict kvs => simp [hleaf, Node.isContainer] at hcontainer

end Rename

namespace Heap

variable {heap : Heap}

/-! ### The walk on the heap -/

theorem isValueError_of_visitItems {O ι : Type} {G : Objects O ι} {o : O} {path : Path}
    {sub : Key → O → Except PyError (Visited O)}
    (hsub : ∀ key value e, sub key value = .error e → e.isValueError = true)
    {kvs : List (Key × O)} {cloned : Option (Clone O)} {e : PyError}
    (h : visitItems G o path sub kvs cloned = .error e) : e.isValueError = true := by
  induction kvs generalizing cloned with
  | nil => cases h
  | cons head tail ih =>
      obtain ⟨key, value⟩ := head
      by_cases hcontainer : (G.node value).isContainer = true
      · rw [visitItems_container G hcontainer] at h
        cases hvalue : sub key value with
        | error e' =>
            simp only [hvalue, bind, Except.bind, Except.error.injEq] at h
            exact h ▸ hsub key value e' hvalue
        | ok visited =>
            obtain ⟨nested, inner⟩ := visited
            simp only [hvalue, bind, Except.bind] at h
            cases hrest : visitItems G o path sub tail (nextClone G o cloned key nested) with
            | error e' =>
                simp only [hrest, Except.error.injEq] at h
                subst h
                exact ih hrest
            | ok result => simp [hrest, pure, Except.pure] at h
      · cases hnode : G.node value with
        | scalar =>
            simp only [visitItems, hnode] at h
            exact ih h
        | binary b =>
            simp only [visitItems, hnode, bind, Except.bind] at h
            cases hrest : visitItems G o path sub tail
                (some (extractBinary (cloned.getD (clone G o)) key)) with
            | error e' =>
                simp only [hrest, Except.error.injEq] at h
                subst h
                exact ih hrest
            | ok result => simp [hrest, pure, Except.pure] at h
        | seq xs | dict kvs => simp [hnode, Node.isContainer] at hcontainer

/-- The walk raises nothing but `ValueError`s. -/
theorem isValueError_of_visit {O ι : Type} [DecidableEq ι] {G : Objects O ι} {n : Nat}
    {ancestors : List ι} {path : Path} {o : O} {e : PyError}
    (h : visit G n ancestors path o = .error e) : e.isValueError = true := by
  induction n generalizing ancestors path o e with
  | zero =>
      rw [visit_eq] at h
      refine isValueError_of_visitItems (fun key value e' he' => ?_) h
      cases he'
      rfl
  | succ n ih =>
      rw [visit_eq] at h
      refine isValueError_of_visitItems (fun key value e' he' => ?_) h
      simp only [visitChild] at he'
      split_ifs at he' with hcycle
      · cases he'
        rfl
      · exact ih he'

/-- A walk that returns has returned from every child container. -/
theorem visited_of_visitItems {O ι : Type} {G : Objects O ι} {o : O} {path : Path}
    {sub : Key → O → Except PyError (Visited O)} {kvs : List (Key × O)}
    {cloned : Option (Clone O)} {result : Visited O}
    (h : visitItems G o path sub kvs cloned = .ok result) {kc : Key × O} (hkc : kc ∈ kvs)
    (hcontainer : (G.node kc.2).isContainer = true) : ∃ visited, sub kc.1 kc.2 = .ok visited := by
  induction kvs generalizing cloned result with
  | nil => simp at hkc
  | cons head tail ih =>
      obtain ⟨key, value⟩ := head
      by_cases hvalue : (G.node value).isContainer = true
      · rw [visitItems_container G hvalue] at h
        cases hsub : sub key value with
        | error e => simp [hsub, bind, Except.bind] at h
        | ok visited =>
            rcases List.mem_cons.mp hkc with rfl | hkc
            · exact ⟨visited, hsub⟩
            · simp only [hsub, bind, Except.bind] at h
              cases hrest : visitItems G o path sub tail
                  (nextClone G o cloned key visited.1) with
              | error e => simp [hrest] at h
              | ok rest => exact ih hrest hkc
      · rcases List.mem_cons.mp hkc with rfl | hkc
        · exact absurd hcontainer hvalue
        · cases hnode : G.node value with
          | scalar =>
              simp only [visitItems, hnode] at h
              exact ih h hkc
          | binary b =>
              simp only [visitItems, hnode, bind, Except.bind] at h
              cases hrest : visitItems G o path sub tail
                  (some (extractBinary (cloned.getD (clone G o)) key)) with
              | error e => simp [hrest] at h
              | ok rest => exact ih hrest hkc
          | seq xs | dict kvs => simp [hnode, Node.isContainer] at hvalue

/-- A walk that returns from an object has been everywhere below it. -/
theorem fits_of_visit {n : Nat} {ancestors : List heap.Ref} {path : Path} {o : heap.Ref}
    {visited : Visited heap.Ref} (h : visit heap.objects n ancestors path o = .ok visited) :
    heap.Fits (n + 1) o := by
  induction n generalizing ancestors path o visited with
  | zero =>
      intro kc hkc
      refine Bool.eq_false_iff.mpr fun hcontainer => ?_
      rw [visit_eq] at h
      obtain ⟨visited', hsub⟩ := visited_of_visitItems h hkc hcontainer
      cases hsub
  | succ n ih =>
      intro kc hkc
      by_cases hcontainer : heap.isContainer kc.2 = true
      · rw [visit_eq] at h
        obtain ⟨visited', hsub⟩ := visited_of_visitItems h hkc hcontainer
        simp only [visitChild] at hsub
        split_ifs at hsub
        exact ih hsub
      · have hzero : heap.Fits 0 kc.2 := Bool.eq_false_iff.mpr hcontainer
        exact hzero.mono (Nat.zero_le _)

/-! ### The tree below a reference -/

variable (heap) in
/-- The tree below a reference that fits within the cap. -/
def tree (o : heap.Ref) : Value := heap.unfold (maxDepth + 1) o

theorem tree_eq {levels : Nat} {o : heap.Ref} (h : heap.Fits levels o)
    (hle : levels ≤ maxDepth + 1) : heap.tree o = heap.unfold levels o :=
  unfold_stable h hle

/-- The tree of an object, one level of it. -/
theorem tree_cell (o : heap.Ref) :
    heap.tree o =
      match heap.cell o with
      | .scalar s => .scalar s
      | .binary b => .bin b
      | .list xs => .list (xs.map (heap.unfold maxDepth))
      | .tuple xs => .tuple (xs.map (heap.unfold maxDepth))
      | .dict kvs => .dict (kvs.map (Prod.map id (heap.unfold maxDepth))) := by
  unfold tree Heap.unfold
  cases heap.cell o <;> rfl

/-- The tree of an object has the object's shape. -/
theorem node_tree {o : heap.Ref} (h : heap.Fits (maxDepth + 1) o) :
    treeObjects.node (heap.tree o) = (heap.objects.node o).map heap.tree := by
  have hchild : ∀ kc ∈ items heap.objects o, heap.unfold maxDepth kc.2 = heap.tree kc.2 :=
    fun kc hkc => (tree_eq (h kc hkc) (Nat.le_succ _)).symm
  have hseq : ∀ refs : List heap.Ref, items heap.objects o = enumItems 0 refs →
      refs.map (heap.unfold maxDepth) = refs.map heap.tree := by
    intro refs hitems
    refine List.map_congr_left fun ref href => ?_
    obtain ⟨n, hn⟩ := List.mem_iff_getElem?.mp href
    exact hchild (.int n, ref) (hitems ▸ mem_enumItems_iff.mpr ⟨n, by simp, hn⟩)
  have hitems := items_objects o
  rw [tree_cell]
  simp only [objects]
  cases hcell : heap.cell o with
  | scalar s | binary b => rfl
  | list xs | tuple xs =>
      simp only [treeObjects, Node.map]
      rw [hseq xs (by rw [hitems, hcell])]
  | dict kvs =>
      rw [hitems, hcell] at hchild
      simp only [treeObjects, Node.map]
      congr 1
      exact List.map_congr_left fun kc hkc => Prod.ext rfl (hchild kc hkc)

theorem items_tree {o : heap.Ref} (h : heap.Fits (maxDepth + 1) o) :
    (heap.tree o).items = (items heap.objects o).map (Prod.map id heap.tree) := by
  rw [← items_treeObjects, items_of_node (node_tree h)]

theorem isContainer_tree {o : heap.Ref} (h : heap.Fits (maxDepth + 1) o) :
    (heap.tree o).isContainer = heap.isContainer o := by
  rw [← isContainer_treeObjects, node_tree h, isContainer_map]
  rfl

theorem nodup_keys_items (o : heap.Ref) : (Dict.keys (items heap.objects o)).Nodup := by
  rw [items_objects]
  cases hcell : heap.cell o with
  | scalar s | binary b => exact List.nodup_nil
  | list xs | tuple xs => exact nodup_keys_enumItems 0 xs
  | dict kvs => exact heap.nodup_keys o kvs hcell

theorem wf_tree {levels : Nat} {o : heap.Ref} (h : heap.Fits levels o)
    (hle : levels ≤ maxDepth + 1) : (heap.tree o).Wf := by
  induction levels generalizing o with
  | zero =>
      have hfits : heap.Fits (maxDepth + 1) o := h.mono hle
      have hleaf : heap.isContainer o = false := h
      rw [← isContainer_tree hfits] at hleaf
      cases htree : heap.tree o <;> simp [htree, Value.isContainer] at hleaf <;> rfl
  | succ levels ih =>
      have hfits := h.mono hle
      refine wf_iff.mpr ⟨?_, ?_⟩
      · rw [items_tree hfits]
        simpa [Dict.keys, Function.comp_def] using nodup_keys_items o
      · rw [items_tree hfits, List.forall_mem_map]
        exact fun kc hkc => ih (h kc hkc) (by omega)

theorem height_tree {levels : Nat} {o : heap.Ref} (h : heap.Fits levels o)
    (hle : levels ≤ maxDepth + 1) : (heap.tree o).height ≤ levels := by
  induction levels generalizing o with
  | zero =>
      have hleaf : heap.isContainer o = false := h
      rw [← isContainer_tree (h.mono hle)] at hleaf
      have hzero := height_pos_iff.not.mpr (by rw [hleaf]; simp)
      omega
  | succ levels ih =>
      rw [height_le_succ_iff, items_tree (h.mono hle), List.forall_mem_map]
      exact fun kc hkc => ih (h kc hkc) (by omega)

/-- Where everything fits, the walk on the heap does what the walk on the tree
does: neither meets an ancestor. -/
theorem visit_tree {root : heap.Ref} (n : Nat) {o : heap.Ref}
    (hfits : heap.Fits (n + 1) o) (hle : n ≤ maxDepth)
    {above : List heap.Ref} (htrail : heap.Trail root (o :: above))
    {ancestors : List heap.Ref} (hancestors : ∀ a ∈ ancestors, a ∈ o :: above)
    {positions : List Path} {path : Path} (hpositions : ∀ a ∈ positions, a.length ≤ path.length) :
    visit treeObjects n positions path (heap.tree o) =
      (visit heap.objects n ancestors path o).map (Visited.map heap.tree) := by
  induction n generalizing o above ancestors positions path with
  | zero =>
      have hnode := node_tree (hfits.mono (Nat.succ_le_succ hle))
      rw [visit_eq, visit_eq, items_of_node hnode]
      refine visitItems_map hnode path (fun kc hkc => ?_) (fun kc hkc hcontainer => ?_) none
      · exact node_tree ((hfits kc hkc).mono (Nat.zero_le _))
      · have hleaf : heap.isContainer kc.2 = false := hfits kc hkc
        rw [isContainer, hcontainer] at hleaf
        cases hleaf
  | succ n ih =>
      have hnode := node_tree (hfits.mono (Nat.succ_le_succ hle))
      rw [visit_eq, visit_eq, items_of_node hnode]
      refine visitItems_map hnode path (fun kc hkc => ?_) (fun kc hkc hcontainer => ?_) none
      · exact node_tree ((hfits kc hkc).mono (Nat.succ_le_succ (Nat.le_of_succ_le hle)))
      · have hdown := htrail.down ⟨⟨kc.1, hkc⟩, hcontainer⟩
        have hfresh : kc.2 ∉ ancestors := by
          intro hmem
          have hcycle := hdown.transGen kc.2 (hancestors kc.2 hmem)
          exact (hfits kc hkc).not_cyclic hcycle
        have hposition := child_not_mem_ancestors hpositions kc.1
        simp only [visitChild, objects, treeObjects, hfresh, hposition, if_false]
        refine ih (hfits kc hkc) (Nat.le_of_succ_le hle) hdown ?_
          (ancestors_append hpositions kc.1)
        intro a ha
        rcases List.mem_append.mp ha with ha | ha
        · exact List.mem_cons_of_mem _ (hancestors a ha)
        · rw [List.mem_singleton.mp ha]
          exact List.mem_cons_self

/-- The state in which the loop starts on a container. -/
def rootState (root : heap.Ref) : LoopState heap.Ref heap.Ref :=
  ([{ state := root
      ancestors := [root]
      depth := 0
      iterator := items heap.objects root
      clone := none
      parentKey := .none
      path := [] }], [], [])

theorem ends_removeBuffers {root : heap.Ref} (hroot : heap.isContainer root = true) :
    Ends heap.objects (rootState root) (heap.removeBuffers root) := by
  have hcap : WithinCap (rootState root).1 := by
    intro frame hframe
    rw [List.mem_singleton.mp hframe]
    exact Nat.zero_le _
  have hnonempty : (rootState root).1 ≠ [] := List.cons_ne_nil _ _
  obtain ⟨result, hends⟩ := exists_ends heap.objects hnonempty hcap
  have hturns : turnsLeft heap.objects (rootState root).1 ≤ turns heap.objects maxDepth root := by
    rw [rootState, turnsLeft_cons, turns_eq]
    simp [turnsLeft]
  have hloop := hends.separateLoop_eq heap.objects hcap root hturns
  have hseparate : heap.removeBuffers root = result := by
    rw [← hloop, removeBuffers, separate]
    cases hnode : heap.objects.node root <;>
      simp [isContainer, hnode, Node.isContainer] at hroot <;> rfl
  rw [hseparate]
  exact hends

theorem removeBuffers_eq_visit {root : heap.Ref} (hroot : heap.isContainer root = true) :
    heap.removeBuffers root =
      (visit heap.objects maxDepth [root] [] root).map fun visited =>
        (visited.1.getD (.same root), visited.2.map Prod.fst, visited.2.map Prod.snd) :=
  separate_eq_visit heap.objects [] hroot

theorem unfolds_tree {root o : heap.Ref} (hroot : heap.Fits (maxDepth + 1) root)
    (ho : Relation.ReflTransGen heap.Descends root o) : heap.Unfolds o (heap.tree o) := by
  rcases Relation.reflTransGen_iff_eq_or_transGen.mp ho with rfl | hbelow
  · exact unfolds_unfold hroot
  · obtain ⟨n, hn, hfits⟩ := hroot.transGen hbelow
    exact unfolds_unfold (hfits.mono hn.le)

/-- The walk returns where everything fits, as it does on the tree. -/
theorem exists_visit {root : heap.Ref} (hfits : heap.Fits (maxDepth + 1) root)
    (hroot : heap.isContainer root = true) :
    ∃ visited, visit heap.objects maxDepth [root] [] root = .ok visited := by
  have hcontainer := (isContainer_tree hfits).trans hroot
  have hancestors : ∀ a ∈ [root], a ∈ [root] := fun a ha => ha
  have hpositions : ∀ a ∈ [([] : Path)], a.length ≤ ([] : Path).length := by simp
  obtain ⟨cloned, hok, _⟩ := Buffers.visit_tree maxDepth (wf_tree hfits le_rfl) hcontainer
    (height_tree hfits le_rfl) hpositions
  rw [visit_tree maxDepth hfits le_rfl Trail.root hancestors hpositions] at hok
  cases hvisit : visit heap.objects maxDepth [root] [] root with
  | error e => simp [hvisit, Except.map] at hok
  | ok visited => exact ⟨visited, rfl⟩

/-- The split of the tree, read off the walk on the heap. -/
theorem removeBuffers_tree {root : heap.Ref} (hfits : heap.Fits (maxDepth + 1) root)
    (hroot : heap.isContainer root = true) {visited : Visited heap.Ref}
    (hvisit : visit heap.objects maxDepth [root] [] root = .ok visited) :
    Buffers.removeBuffers (heap.tree root) =
      .ok (((visited.1.getD (.same root)).map heap.tree).toValue,
        visited.2.map Prod.fst, visited.2.map Prod.snd) := by
  have hcontainer : (treeObjects.node (heap.tree root)).isContainer = true := by
    rw [isContainer_treeObjects, isContainer_tree hfits, hroot]
  have hancestors : ∀ a ∈ [root], a ∈ [root] := fun a ha => ha
  have hpositions : ∀ a ∈ [([] : Path)], a.length ≤ ([] : Path).length := by simp
  have hwalk := visit_tree maxDepth hfits le_rfl Trail.root hancestors hpositions
  rw [hvisit] at hwalk
  have hident : treeObjects.ident [] (heap.tree root) = [] := rfl
  rw [Buffers.removeBuffers, separate_eq_visit _ _ hcontainer, hident, hwalk]
  obtain ⟨cloned, found⟩ := visited
  cases cloned <;> rfl

/-- On every heap the split ends; it raises a `ValueError` where a way down from
the root overruns, and otherwise hands back what it makes of the tree that
unfolds the root, shared containers or not. -/
theorem removeBuffers_unfolds (heap : Heap) (root : heap.Ref)
    (hroot : heap.isContainer root = true) :
    Ends heap.objects (rootState root) (heap.removeBuffers root) ∧
    (heap.Overruns root →
      ∃ e, heap.removeBuffers root = .error e ∧ e.isValueError = true) ∧
    (¬ heap.Overruns root →
      ∃ (tree : heap.Ref → Value) (stripped : Clone heap.Ref) (bufferPaths : List Path)
        (buffers : List Binary),
        (∀ o, Relation.ReflTransGen heap.Descends root o → heap.Unfolds o (tree o)) ∧
        heap.removeBuffers root = .ok (stripped, bufferPaths, buffers) ∧
        Buffers.removeBuffers (tree root) =
          .ok ((stripped.map tree).toValue, bufferPaths, buffers)) := by
  refine ⟨ends_removeBuffers hroot, fun hover => ?_, fun hover => ?_⟩
  · rw [overruns_iff hroot] at hover
    rw [removeBuffers_eq_visit hroot]
    cases hvisit : visit heap.objects maxDepth [root] [] root with
    | ok visited => exact absurd (fits_of_visit hvisit) hover
    | error e => exact ⟨e, rfl, isValueError_of_visit hvisit⟩
  · rw [overruns_iff hroot, not_not] at hover
    obtain ⟨visited, hvisit⟩ := exists_visit hover hroot
    refine ⟨heap.tree, visited.1.getD (.same root), visited.2.map Prod.fst,
      visited.2.map Prod.snd, fun o ho => unfolds_tree hover ho, ?_, ?_⟩
    · rw [removeBuffers_eq_visit hroot, hvisit]
      rfl
    · exact removeBuffers_tree hover hroot hvisit

namespace SharedWitness

/-- A list that holds one dict twice, and the dict's binary. -/
def diamond : Heap where
  size := 3
  cell
    | 0 => .list [1, 1]
    | 1 => .dict [(.str "data", 2)]
    | 2 => .binary ⟨.bytes, [7]⟩
  nodup_keys
    | 0, _, h | 2, _, h => by cases h
    | 1, _, h => by cases h; decide

/-- A list that holds itself. -/
def knot : Heap where
  size := 1
  cell _ := .list [0]
  nodup_keys := by simp

def diamondRoot : diamond.Ref := ⟨0, by decide⟩

def knotRoot : knot.Ref := ⟨0, by decide⟩

end SharedWitness

open SharedWitness in
theorem removeBuffers_unfolds_diamond :
    (∃ split, diamond.removeBuffers diamondRoot = .ok split) ∧
      ∃ e, knot.removeBuffers knotRoot = .error e ∧ e.isValueError = true := by
  have hdiamond : ¬ diamond.Overruns diamondRoot := by
    have hfits : diamond.Fits 2 diamondRoot := by decide
    exact (hfits.mono (by decide)).not_overruns (by decide)
  have hknot : knot.Overruns knotRoot := by
    have hmem : (Key.int 0, knotRoot) ∈ items knot.objects knotRoot := List.mem_cons_self
    exact ⟨[knotRoot, knotRoot], .down .root ⟨⟨_, hmem⟩, by decide⟩, Or.inl (by decide)⟩
  obtain ⟨_, stripped, bufferPaths, buffers, _, hsplit, _⟩ :=
    (removeBuffers_unfolds diamond diamondRoot (by decide)).2.2 hdiamond
  exact ⟨⟨_, hsplit⟩, (removeBuffers_unfolds knot knotRoot (by decide)).2.1 hknot⟩

end Heap

end Buffers

end Cositos
