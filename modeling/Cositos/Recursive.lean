/-
The split by recursion, as the ports other than Python's carry it out: the paths
and buffers found so far are threaded through, and the containers above the
present one are remembered.  What each port counts as coming back to one of them
is its own affair; on a tree it never happens.
-/
import Cositos.Julia
import Cositos.FrontBuffers

namespace Cositos

namespace Value

/-- No part of the value is a tuple. -/
def Untupled (v : Value) : Prop := ∀ path n, v.look path ≠ some (.tuple n)

theorem untupled_of_json {v : Value} (h : v.json = true) : v.Untupled := Front.look_ne_tuple h

theorem Untupled.child {v : Value} (h : v.Untupled) (hv : v.Wf) {kc : Key × Value}
    (hkc : kc ∈ v.items) : kc.2.Untupled := by
  intro path n hlook
  apply h (kc.1 :: path) n
  rw [look, hv.child_iff.mpr hkc]
  exact hlook

end Value

/-- Where two ports with a recursive split differ. -/
structure Splitter (ε : Type) where
  /-- Whether the container at a path is one of the containers above it. -/
  revisits : List (Path × Value) → Path → Value → Bool
  nesting : Path → ε
  cyclic : Path → ε

namespace Splitter

open Value Buffers

variable {ε : Type} (splitter : Splitter ε)

/-- The loop over a map; `sub` splits a container below it. -/
def separateMap (sub : Path → Value → List Path → List Binary → Except ε (Julia.Split Value))
    (path : Path) : Bindings → Bindings → List Path → List Binary →
      Except ε (Julia.Split Bindings)
  | [], out, paths, buffers => .ok (out, paths, buffers)
  | (k, v) :: kvs, out, paths, buffers =>
      match v with
      | .bin b => separateMap sub path kvs out (paths ++ [path ++ [k]]) (buffers ++ [b])
      | v => do
          let (v, paths, buffers) ←
            if Julia.isContainer v then sub (path ++ [k]) v paths buffers
            else .ok (v, paths, buffers)
          separateMap sub path kvs (Dict.set out k v) paths buffers

/-- The loop over a sequence, from the index `i` on. -/
def separateSeq (sub : Path → Value → List Path → List Binary → Except ε (Julia.Split Value))
    (path : Path) (i : Nat) : List Value → List Value → List Path → List Binary →
      Except ε (Julia.Split (List Value))
  | [], out, paths, buffers => .ok (out, paths, buffers)
  | v :: vs, out, paths, buffers =>
      match v with
      | .bin b =>
          separateSeq sub path (i + 1) vs (out ++ [.none]) (paths ++ [path ++ [.int i]])
            (buffers ++ [b])
      | v => do
          let (v, paths, buffers) ←
            if Julia.isContainer v then sub (path ++ [.int i]) v paths buffers
            else .ok (v, paths, buffers)
          separateSeq sub path (i + 1) vs (out ++ [v]) paths buffers

/-- The recursion at depth `MAX_DEPTH + 1 - room`, below the given ancestors. -/
def separate : Nat → List (Path × Value) → Path → Value → List Path → List Binary →
    Except ε (Julia.Split Value)
  | room, ancestors, path, sub, paths, buffers =>
      if !Julia.isContainer sub then
        .ok (sub, paths, buffers)
      else
        match room with
        | 0 => .error (splitter.nesting path)
        | room + 1 =>
            if splitter.revisits ancestors path sub then
              .error (splitter.cyclic path)
            else
              match sub with
              | .dict kvs => do
                  let (out, paths, buffers) ←
                    separateMap (separate room ((path, sub) :: ancestors)) path kvs [] paths buffers
                  return (.dict out, paths, buffers)
              | .list vs => do
                  let (out, paths, buffers) ←
                    separateSeq (separate room ((path, sub) :: ancestors)) path 0 vs [] paths
                      buffers
                  return (.list out, paths, buffers)
              | sub => .ok (sub, paths, buffers)

/-- The split of a whole state. -/
def removeBuffers (state : Value) : Except ε (Julia.Split Value) :=
  separate splitter (maxDepth + 1) [] [] state [] []

/-- Containers told from others by their identity: in a tree, by their position. -/
def byIdentity (nesting cyclic : Path → ε) : Splitter ε where
  revisits ancestors path _ := ancestors.any fun a => decide (a.1 = path)
  nesting := nesting
  cyclic := cyclic

/-- No strictly higher container with a shorter path is taken for the present one. -/
def Discerns : Prop :=
  ∀ ancestors path v, (∀ a ∈ ancestors, a.1.length < path.length ∧ v.height < a.2.height) →
    splitter.revisits ancestors path v = false

theorem discerns_byIdentity (nesting cyclic : Path → ε) :
    (byIdentity nesting cyclic).Discerns := by
  intro ancestors path v hancestors
  rw [byIdentity, List.any_eq_false]
  intro a ha hsame
  have hlt := (hancestors a ha).1
  rw [of_decide_eq_true hsame] at hlt
  exact absurd hlt (lt_irrefl _)

/-! ### What the recursion computes -/

variable {splitter}

/-- Paths and buffers with further leaves behind them. -/
def adds (found : List (Path × Binary)) (paths : List Path) (buffers : List Binary) :
    List Path × List Binary :=
  (paths ++ found.map Prod.fst, buffers ++ found.map Prod.snd)

@[simp] theorem adds_nil (paths : List Path) (buffers : List Binary) :
    adds [] paths buffers = (paths, buffers) := by
  simp [adds]

theorem adds_append (found found' : List (Path × Binary)) (paths : List Path)
    (buffers : List Binary) :
    adds (found ++ found') paths buffers =
      adds found' (adds found paths buffers).1 (adds found paths buffers).2 := by
  simp [adds, List.append_assoc]

/-- A container child splits as the tree below it says. -/
abbrev Strips (sub : Path → Value → List Path → List Binary → Except ε (Julia.Split Value))
    (path : Path) (v : Value) : Prop :=
  ∀ paths buffers, sub path v paths buffers = .ok (v.strip, adds (leavesAt path v) paths buffers)

/-- A container child is too deep. -/
abbrev Fails (splitter : Splitter ε)
    (sub : Path → Value → List Path → List Binary → Except ε (Julia.Split Value))
    (path : Path) (v : Value) : Prop :=
  ∀ paths buffers, ∃ p, sub path v paths buffers = .error (splitter.nesting p)

theorem isContainer_julia {v : Value} (h : v.Untupled) : Julia.isContainer v = v.isContainer := by
  cases v with
  | tuple xs => exact absurd rfl (h [] xs.length)
  | scalar s | bin b | list xs | dict kvs => rfl

/-- What is neither binary nor a container is handed on as it is. -/
theorem leaf_strip {v : Value} (hbin : v.isBinary = false) (hleaf : v.isContainer = false) :
    v.strip = v ∧ ∀ path, leavesAt path v = [] := by
  cases v <;> first | exact ⟨rfl, fun _ => rfl⟩ | simp [isBinary, isContainer] at hbin hleaf

section Loops

variable {sub : Path → Value → List Path → List Binary → Except ε (Julia.Split Value)}
  {path : Path}

theorem separateMap_cons {k : Key} {v : Value} (hbin : v.isBinary = false) (kvs out : Bindings)
    (paths : List Path) (buffers : List Binary) :
    separateMap sub path ((k, v) :: kvs) out paths buffers =
      ((if Julia.isContainer v then sub (path ++ [k]) v paths buffers
        else .ok (v, paths, buffers)) >>= fun split =>
          separateMap sub path kvs (Dict.set out k split.1) split.2.1 split.2.2) := by
  cases v <;> first | rfl | simp [isBinary] at hbin

theorem separateSeq_cons {v : Value} (hbin : v.isBinary = false) (i : Nat) (vs out : List Value)
    (paths : List Path) (buffers : List Binary) :
    separateSeq sub path i (v :: vs) out paths buffers =
      ((if Julia.isContainer v then sub (path ++ [.int i]) v paths buffers
        else .ok (v, paths, buffers)) >>= fun split =>
          separateSeq sub path (i + 1) vs (out ++ [split.1]) split.2.1 split.2.2) := by
  cases v <;> first | rfl | simp [isBinary] at hbin

/-- One child that is not binary. -/
theorem split_child {v : Value} (huntupled : v.Untupled) (hbin : v.isBinary = false) {p : Path}
    (hsub : v.isContainer = true → Strips sub p v) (paths : List Path) (buffers : List Binary) :
    (if Julia.isContainer v then sub p v paths buffers else .ok (v, paths, buffers)) =
      .ok (v.strip, adds (leavesAt p v) paths buffers) := by
  rw [isContainer_julia huntupled]
  by_cases hcontainer : v.isContainer = true
  · rw [if_pos hcontainer]
    exact hsub hcontainer paths buffers
  · obtain ⟨hstrip, hleaves⟩ := leaf_strip hbin (Bool.eq_false_iff.mpr hcontainer)
    rw [if_neg hcontainer, hstrip, hleaves, adds_nil]

theorem separateMap_ok {kvs : Bindings} (huntupled : ∀ kc ∈ kvs, kc.2.Untupled)
    (hsub : ∀ kc ∈ kvs, kc.2.isContainer = true → Strips sub (path ++ [kc.1]) kc.2)
    {out : Bindings} (hkeys : (Dict.keys out ++ Dict.keys kvs).Nodup)
    (paths : List Path) (buffers : List Binary) :
    separateMap sub path kvs out paths buffers =
      .ok (out ++ stripEntries kvs,
        adds (kvs.flatMap fun kc => leavesAt (path ++ [kc.1]) kc.2) paths buffers) := by
  induction kvs generalizing out paths buffers with
  | nil => simp [separateMap, stripEntries]
  | cons head tail ih =>
      obtain ⟨k, v⟩ := head
      have htail := @ih (fun kc h => huntupled kc (List.mem_cons_of_mem _ h))
        (fun kc h => hsub kc (List.mem_cons_of_mem _ h))
      have hfresh : k ∉ Dict.keys out := fun hmem =>
        (List.nodup_append.mp hkeys).2.2 k hmem k List.mem_cons_self rfl
      by_cases hbin : v.isBinary = false
      · have hnext : (Dict.keys (out ++ [(k, v.strip)]) ++ Dict.keys tail).Nodup := by
          simpa using hkeys
        rw [separateMap_cons hbin, split_child (huntupled _ List.mem_cons_self) hbin
          (hsub _ List.mem_cons_self)]
        simp only [bind, Except.bind, Dict.set_of_not_mem hfresh]
        rw [htail hnext, stripEntries_cons_of_not_binary hbin, List.flatMap_cons, adds_append]
        simp
      · have hnext : (Dict.keys out ++ Dict.keys tail).Nodup :=
          hkeys.sublist (List.Sublist.append_left (List.sublist_cons_self _ _) _)
        cases v with
        | bin b =>
            rw [separateMap, htail hnext, List.flatMap_cons, adds_append]
            simp [stripEntries, adds, leavesAt, binaries]
        | scalar s | list xs | tuple xs | dict kvs => simp [isBinary] at hbin

theorem separateSeq_ok {i : Nat} {vs : List Value}
    (huntupled : ∀ v ∈ vs, v.Untupled)
    (hsub : ∀ kc ∈ enumItems i vs, kc.2.isContainer = true → Strips sub (path ++ [kc.1]) kc.2)
    (out : List Value) (paths : List Path) (buffers : List Binary) :
    separateSeq sub path i vs out paths buffers =
      .ok (out ++ vs.map strip,
        adds ((enumItems i vs).flatMap fun kc => leavesAt (path ++ [kc.1]) kc.2) paths
          buffers) := by
  induction vs generalizing i out paths buffers with
  | nil => simp [separateSeq, enumItems]
  | cons v tail ih =>
      have htail := @ih (i + 1) (fun v h => huntupled v (List.mem_cons_of_mem _ h))
        (fun kc h => hsub kc (List.mem_cons_of_mem _ h))
      by_cases hbin : v.isBinary = false
      · rw [separateSeq_cons hbin, split_child (huntupled _ List.mem_cons_self) hbin
          (hsub _ List.mem_cons_self)]
        simp only [bind, Except.bind]
        rw [htail, enumItems, List.flatMap_cons, adds_append]
        simp
      · cases v with
        | bin b =>
            rw [separateSeq, htail, enumItems, List.flatMap_cons, adds_append]
            simp [strip, adds, leavesAt, binaries]
        | scalar s | list xs | tuple xs | dict kvs => simp [isBinary] at hbin

/-- One child that is not binary, where some containers are too deep: it fails, or what
follows does. -/
theorem split_child_error {α : Type} {v : Value} (huntupled : v.Untupled) {p : Path}
    (hsub : v.isContainer = true → Strips sub p v ∨ Fails splitter sub p v)
    (paths : List Path) (buffers : List Binary)
    {next : Value × List Path × List Binary → Except ε α}
    (hnext : ¬ (v.isContainer = true ∧ Fails splitter sub p v) →
      ∀ split, ∃ q, next split = .error (splitter.nesting q)) :
    ∃ q, ((if Julia.isContainer v then sub p v paths buffers else .ok (v, paths, buffers)) >>=
      next) = .error (splitter.nesting q) := by
  rw [isContainer_julia huntupled]
  by_cases hcontainer : v.isContainer = true
  · rw [if_pos hcontainer]
    rcases hsub hcontainer with hok | hfails
    · rw [hok paths buffers]
      refine hnext (fun hfails => ?_) _
      obtain ⟨q, hq⟩ := hfails.2 paths buffers
      rw [hok paths buffers] at hq
      cases hq
    · obtain ⟨q, hq⟩ := hfails paths buffers
      rw [hq]
      exact ⟨q, rfl⟩
  · rw [if_neg hcontainer]
    exact hnext (fun h => hcontainer h.1) _

theorem separateMap_error {kvs : Bindings} (huntupled : ∀ kc ∈ kvs, kc.2.Untupled)
    (hsub : ∀ kc ∈ kvs, kc.2.isContainer = true →
      Strips sub (path ++ [kc.1]) kc.2 ∨ Fails splitter sub (path ++ [kc.1]) kc.2)
    (hfails : ∃ kc ∈ kvs, kc.2.isContainer = true ∧ Fails splitter sub (path ++ [kc.1]) kc.2)
    (out : Bindings) (paths : List Path) (buffers : List Binary) :
    ∃ p, separateMap sub path kvs out paths buffers = .error (splitter.nesting p) := by
  induction kvs generalizing out paths buffers with
  | nil => simp at hfails
  | cons head tail ih =>
      obtain ⟨k, v⟩ := head
      have htail := @ih (fun kc h => huntupled kc (List.mem_cons_of_mem _ h))
        (fun kc h => hsub kc (List.mem_cons_of_mem _ h))
      rw [List.exists_mem_cons_iff] at hfails
      by_cases hbin : v.isBinary = false
      · rw [separateMap_cons hbin]
        exact split_child_error (huntupled _ List.mem_cons_self) (hsub _ List.mem_cons_self)
          paths buffers fun hnot _ => htail (hfails.resolve_left hnot) _ _ _
      · cases v with
        | bin b =>
            have hnot : (Value.bin b).isContainer ≠ true := Bool.false_ne_true
            exact htail (hfails.resolve_left fun h => hnot h.1) _ _ _
        | scalar s | list xs | tuple xs | dict kvs => simp [isBinary] at hbin

theorem separateSeq_error {i : Nat} {vs : List Value} (huntupled : ∀ v ∈ vs, v.Untupled)
    (hsub : ∀ kc ∈ enumItems i vs, kc.2.isContainer = true →
      Strips sub (path ++ [kc.1]) kc.2 ∨ Fails splitter sub (path ++ [kc.1]) kc.2)
    (hfails : ∃ kc ∈ enumItems i vs, kc.2.isContainer = true ∧
      Fails splitter sub (path ++ [kc.1]) kc.2)
    (out : List Value) (paths : List Path) (buffers : List Binary) :
    ∃ p, separateSeq sub path i vs out paths buffers = .error (splitter.nesting p) := by
  induction vs generalizing i out paths buffers with
  | nil => simp [enumItems] at hfails
  | cons v tail ih =>
      have htail := @ih (i + 1) (fun v h => huntupled v (List.mem_cons_of_mem _ h))
        (fun kc h => hsub kc (List.mem_cons_of_mem _ h))
      rw [enumItems, List.exists_mem_cons_iff] at hfails
      by_cases hbin : v.isBinary = false
      · rw [separateSeq_cons hbin]
        exact split_child_error (huntupled _ List.mem_cons_self) (hsub _ List.mem_cons_self)
          paths buffers fun hnot _ => htail (hfails.resolve_left hnot) _ _ _
      · cases v with
        | bin b =>
            have hnot : (Value.bin b).isContainer ≠ true := Bool.false_ne_true
            exact htail (hfails.resolve_left fun h => hnot h.1) _ _ _
        | scalar s | list xs | tuple xs | dict kvs => simp [isBinary] at hbin

end Loops

theorem height_lt_of_mem_items {v : Value} {kc : Key × Value} (h : kc ∈ v.items) :
    kc.2.height < v.height := by
  obtain ⟨n, hn⟩ : ∃ n, v.height = n + 1 := by
    refine ⟨v.height - 1, ?_⟩
    have hpos : 0 < v.height := by
      rw [height_pos_iff]
      cases v <;> first | rfl | simp [Value.items] at h
    omega
  have hle := height_le_succ_iff.mp hn.le kc h
  omega

/-- The containers above a child: the one it is in, and those above that. -/
theorem ancestors_child {ancestors : List (Path × Value)} {path : Path} {v : Value}
    (hancestors : ∀ a ∈ ancestors, a.1.length < path.length ∧ v.height < a.2.height)
    {kc : Key × Value} (hkc : kc ∈ v.items) :
    ∀ a ∈ (path, v) :: ancestors,
      a.1.length < (path ++ [kc.1]).length ∧ kc.2.height < a.2.height := by
  have hlt := height_lt_of_mem_items hkc
  intro a ha
  rw [List.length_append, List.length_singleton]
  rcases List.mem_cons.mp ha with rfl | ha
  · exact ⟨Nat.lt_succ_self _, hlt⟩
  · obtain ⟨hlength, hheight⟩ := hancestors a ha
    exact ⟨Nat.lt_succ_of_lt hlength, hlt.trans hheight⟩

section Level

variable (hdiscerns : splitter.Discerns) (room : Nat) {ancestors : List (Path × Value)}
  {path : Path} (paths : List Path) (buffers : List Binary)

include hdiscerns

/-- One level of the recursion on a tree: no ancestor is met. -/
theorem separate_dict {kvs : Bindings}
    (hancestors : ∀ a ∈ ancestors, a.1.length < path.length ∧ (dict kvs).height < a.2.height) :
    separate splitter (room + 1) ancestors path (.dict kvs) paths buffers =
      (separateMap (separate splitter room ((path, .dict kvs) :: ancestors)) path kvs [] paths
        buffers).map (Prod.map Value.dict id) := by
  rw [separate, hdiscerns ancestors path _ hancestors]
  simp only [Julia.isContainer, Bool.not_true, Bool.false_eq_true, if_false, bind, Except.bind]
  cases separateMap (separate splitter room ((path, .dict kvs) :: ancestors)) path kvs [] paths
    buffers <;> rfl

theorem separate_list {vs : List Value}
    (hancestors : ∀ a ∈ ancestors, a.1.length < path.length ∧ (list vs).height < a.2.height) :
    separate splitter (room + 1) ancestors path (.list vs) paths buffers =
      (separateSeq (separate splitter room ((path, .list vs) :: ancestors)) path 0 vs [] paths
        buffers).map (Prod.map Value.list id) := by
  rw [separate, hdiscerns ancestors path _ hancestors]
  simp only [Julia.isContainer, Bool.not_true, Bool.false_eq_true, if_false, bind, Except.bind]
  cases separateSeq (separate splitter room ((path, .list vs) :: ancestors)) path 0 vs [] paths
    buffers <;> rfl

end Level

/-- Within the room left, the recursion strips a tree. -/
theorem separate_strips (hdiscerns : splitter.Discerns) (room : Nat) {v : Value} (hv : v.Wf)
    (huntupled : v.Untupled) (hcontainer : v.isContainer = true) (hheight : v.height ≤ room)
    {ancestors : List (Path × Value)} {path : Path}
    (hancestors : ∀ a ∈ ancestors, a.1.length < path.length ∧ v.height < a.2.height) :
    Strips (separate splitter room ancestors) path v := by
  induction room generalizing v ancestors path with
  | zero =>
      have hpos := height_pos_iff.mpr hcontainer
      omega
  | succ room ih =>
      intro paths buffers
      have hchild : ∀ kc ∈ v.items, kc.2.isContainer = true →
          Strips (separate splitter room ((path, v) :: ancestors)) (path ++ [kc.1]) kc.2 := by
        intro kc hkc hc
        exact ih (hv.child hkc) (huntupled.child hv hkc) hc
          (height_le_succ_iff.mp hheight kc hkc) (ancestors_child hancestors hkc)
      have huntupled' : ∀ kc ∈ v.items, kc.2.Untupled := fun kc hkc => huntupled.child hv hkc
      rw [leavesAt_items hcontainer]
      cases v with
      | scalar s | bin b => simp [isContainer] at hcontainer
      | tuple xs => exact absurd rfl (huntupled [] xs.length)
      | dict kvs =>
          have hkeys : (Dict.keys ([] : Bindings) ++ Dict.keys kvs).Nodup := (wf_dict_iff.mp hv).1
          have hmem : ∀ kc ∈ kvs, kc.2.Untupled := huntupled'
          rw [separate_dict hdiscerns room paths buffers hancestors,
            separateMap_ok hmem hchild hkeys, List.nil_append]
          rfl
      | list vs =>
          have hmem : ∀ v ∈ vs, v.Untupled := by
            intro v hmem
            obtain ⟨k, hk⟩ := mem_items_seq hmem
            exact huntupled' (k, v) hk
          rw [separate_list hdiscerns room paths buffers hancestors,
            separateSeq_ok hmem hchild, List.nil_append, ← stripSeq_eq]
          rfl

/-- Beyond the room left, the recursion raises. -/
theorem separate_fails (hdiscerns : splitter.Discerns) (room : Nat) {v : Value} (hv : v.Wf)
    (huntupled : v.Untupled) (hheight : room < v.height)
    {ancestors : List (Path × Value)} {path : Path}
    (hancestors : ∀ a ∈ ancestors, a.1.length < path.length ∧ v.height < a.2.height) :
    Fails splitter (separate splitter room ancestors) path v := by
  have hcontainer : v.isContainer = true := height_pos_iff.mp (by omega)
  induction room generalizing v ancestors path with
  | zero =>
      intro paths buffers
      refine ⟨path, ?_⟩
      rw [separate, isContainer_julia huntupled, hcontainer]
      rfl
  | succ room ih =>
      intro paths buffers
      have hchild : ∀ kc ∈ v.items, kc.2.isContainer = true →
          Strips (separate splitter room ((path, v) :: ancestors)) (path ++ [kc.1]) kc.2 ∨
          Fails splitter (separate splitter room ((path, v) :: ancestors))
            (path ++ [kc.1]) kc.2 := by
        intro kc hkc hc
        by_cases hdeep : room < kc.2.height
        · exact Or.inr (ih (hv.child hkc) (huntupled.child hv hkc) hdeep
            (ancestors_child hancestors hkc) hc)
        · exact Or.inl (separate_strips hdiscerns room (hv.child hkc) (huntupled.child hv hkc) hc
            (Nat.not_lt.mp hdeep) (ancestors_child hancestors hkc))
      have hfails : ∃ kc ∈ v.items, kc.2.isContainer = true ∧
          Fails splitter (separate splitter room ((path, v) :: ancestors))
            (path ++ [kc.1]) kc.2 := by
        have hnot : ¬ ∀ kc ∈ v.items, kc.2.height ≤ room :=
          fun h => absurd (height_le_succ_iff.mpr h) (by omega)
        simp only [not_forall, not_le] at hnot
        obtain ⟨kc, hkc, hdeep⟩ := hnot
        have hc : kc.2.isContainer = true := height_pos_iff.mp (by omega)
        exact ⟨kc, hkc, hc, ih (hv.child hkc) (huntupled.child hv hkc) hdeep
          (ancestors_child hancestors hkc) hc⟩
      have huntupled' : ∀ kc ∈ v.items, kc.2.Untupled := fun kc hkc => huntupled.child hv hkc
      cases v with
      | scalar s | bin b => simp [isContainer] at hcontainer
      | tuple xs => exact absurd rfl (huntupled [] xs.length)
      | dict kvs =>
          have hmem : ∀ kc ∈ kvs, kc.2.Untupled := huntupled'
          obtain ⟨p, hp⟩ := separateMap_error hmem hchild hfails [] paths buffers
          exact ⟨p, by rw [separate_dict hdiscerns room paths buffers hancestors, hp]; rfl⟩
      | list vs =>
          have hmem : ∀ v ∈ vs, v.Untupled := by
            intro v hmem
            obtain ⟨k, hk⟩ := mem_items_seq hmem
            exact huntupled' (k, v) hk
          obtain ⟨p, hp⟩ := separateSeq_error hmem hchild hfails [] paths buffers
          exact ⟨p, by rw [separate_list hdiscerns room paths buffers hancestors, hp]; rfl⟩

theorem ancestors_root (v : Value) : ∀ a ∈ ([] : List (Path × Value)),
    a.1.length < ([] : Path).length ∧ v.height < a.2.height := by simp

/-- A tree within the cap is split into its stripped form and its leaves. -/
theorem removeBuffers_ok (hdiscerns : splitter.Discerns) {v : Value} (hv : v.Wf)
    (huntupled : v.Untupled) (hcontainer : v.isContainer = true) (hnesting : v.nesting ≤ maxDepth) :
    splitter.removeBuffers v =
      .ok (v.strip, v.binaries.map Prod.fst, v.binaries.map Prod.snd) := by
  have hstrips := separate_strips hdiscerns (maxDepth + 1) hv huntupled hcontainer
    (nesting_le_iff.mp hnesting) (ancestors_root v) [] []
  rw [removeBuffers, hstrips]
  simp [adds, leavesAt, Function.comp_def]

/-- A tree beyond the cap is too deep. -/
theorem removeBuffers_too_deep (hdiscerns : splitter.Discerns) {v : Value} (hv : v.Wf)
    (huntupled : v.Untupled) (hnesting : maxDepth < v.nesting) :
    ∃ p, splitter.removeBuffers v = .error (splitter.nesting p) := by
  have hheight : maxDepth + 1 < v.height := by
    unfold Value.nesting at hnesting
    omega
  exact separate_fails hdiscerns (maxDepth + 1) hv huntupled hheight (ancestors_root v) [] []

theorem removeBuffers_leaf (splitter : Splitter ε) {v : Value} (huntupled : v.Untupled)
    (hcontainer : v.isContainer = false) : splitter.removeBuffers v = .ok (v, [], []) := by
  rw [← isContainer_julia huntupled] at hcontainer
  cases v <;> first | rfl | simp [Julia.isContainer] at hcontainer

end Splitter

/-! ### The split that collects on the way back -/

namespace Julia

open Value Buffers

/-- `_separate` tells containers by their object id. -/
def splitter : Splitter JuliaError := .byIdentity .nesting .cyclic

/-- What was found before, and what was found now. -/
def behind {S : Type} (paths : List Path) (buffers : List Binary) : Split S → Split S :=
  fun split => (split.1, paths ++ split.2.1, buffers ++ split.2.2)

section Threads

variable {sub : Path → Value → Except JuliaError (Split Value)}
  {sub' : Path → Value → List Path → List Binary → Except JuliaError (Split Value)} {path : Path}

/-- One child that is not binary, threaded through or collected. -/
theorem child_threads {p : Path} {v : Value}
    (hsub : ∀ paths buffers, sub' p v paths buffers = (sub p v).map (behind paths buffers))
    (paths : List Path) (buffers : List Binary) :
    (if isContainer v then sub' p v paths buffers else .ok (v, paths, buffers)) =
      (if isContainer v then sub p v else .ok (v, [], [])).map (behind paths buffers) := by
  split_ifs
  · exact hsub paths buffers
  · simp [Except.map, behind]

theorem separateDict_cons {k : Key} {v : Value} (hbin : v.isBinary = false) (kvs : Bindings) :
    separateDict sub path ((k, v) :: kvs) =
      ((if isContainer v then sub (path ++ [k]) v else .ok (v, [], [])) >>= fun inner =>
        (separateDict sub path kvs).map fun rest =>
          ((k, inner.1) :: rest.1, inner.2.1 ++ rest.2.1, inner.2.2 ++ rest.2.2)) := by
  cases v <;> first | rfl | simp [isBinary] at hbin

theorem separateVector_cons {v : Value} (hbin : v.isBinary = false) (i : Nat) (vs : List Value) :
    separateVector sub path i (v :: vs) =
      ((if isContainer v then sub (path ++ [.int i]) v else .ok (v, [], [])) >>= fun inner =>
        (separateVector sub path (i + 1) vs).map fun rest =>
          (inner.1 :: rest.1, inner.2.1 ++ rest.2.1, inner.2.2 ++ rest.2.2)) := by
  cases v <;> first | rfl | simp [isBinary] at hbin

theorem separateMap_threads {kvs : Bindings}
    (hsub : ∀ kc ∈ kvs, ∀ paths buffers, sub' (path ++ [kc.1]) kc.2 paths buffers =
      (sub (path ++ [kc.1]) kc.2).map (behind paths buffers))
    {out : Bindings} (hkeys : (Dict.keys out ++ Dict.keys kvs).Nodup)
    (paths : List Path) (buffers : List Binary) :
    Splitter.separateMap sub' path kvs out paths buffers =
      (separateDict sub path kvs).map fun split =>
        (out ++ split.1, paths ++ split.2.1, buffers ++ split.2.2) := by
  induction kvs generalizing out paths buffers with
  | nil => simp [Splitter.separateMap, separateDict, Except.map]
  | cons head tail ih =>
      obtain ⟨k, v⟩ := head
      have htail := @ih (fun kc h => hsub kc (List.mem_cons_of_mem _ h))
      have hfresh : k ∉ Dict.keys out := fun hmem =>
        (List.nodup_append.mp hkeys).2.2 k hmem k List.mem_cons_self rfl
      by_cases hbin : v.isBinary = false
      · rw [Splitter.separateMap_cons hbin, separateDict_cons hbin,
          child_threads (hsub _ List.mem_cons_self)]
        cases (if isContainer v then sub (path ++ [k]) v else .ok (v, [], [])) with
        | error e => rfl
        | ok inner =>
            have hnext : (Dict.keys (out ++ [(k, inner.1)]) ++ Dict.keys tail).Nodup := by
              simpa using hkeys
            simp only [Except.map, bind, Except.bind, behind, Dict.set_of_not_mem hfresh]
            rw [htail hnext]
            cases separateDict sub path tail <;> simp [Except.map]
      · have hnext : (Dict.keys out ++ Dict.keys tail).Nodup :=
          hkeys.sublist (List.Sublist.append_left (List.sublist_cons_self _ _) _)
        cases v with
        | bin b =>
            rw [Splitter.separateMap, separateDict, htail hnext]
            cases separateDict sub path tail <;> simp [Except.map, bind, Except.bind, pure,
              Except.pure]
        | scalar s | list xs | tuple xs | dict kvs => simp [isBinary] at hbin

theorem separateSeq_threads {i : Nat} {vs : List Value}
    (hsub : ∀ kc ∈ enumItems i vs, ∀ paths buffers, sub' (path ++ [kc.1]) kc.2 paths buffers =
      (sub (path ++ [kc.1]) kc.2).map (behind paths buffers))
    (out : List Value) (paths : List Path) (buffers : List Binary) :
    Splitter.separateSeq sub' path i vs out paths buffers =
      (separateVector sub path i vs).map fun split =>
        (out ++ split.1, paths ++ split.2.1, buffers ++ split.2.2) := by
  induction vs generalizing i out paths buffers with
  | nil => simp [Splitter.separateSeq, separateVector, Except.map]
  | cons v tail ih =>
      have htail := @ih (i + 1) (fun kc h => hsub kc (List.mem_cons_of_mem _ h))
      by_cases hbin : v.isBinary = false
      · rw [Splitter.separateSeq_cons hbin, separateVector_cons hbin,
          child_threads (hsub _ List.mem_cons_self)]
        cases (if isContainer v then sub (path ++ [.int i]) v else .ok (v, [], [])) with
        | error e => rfl
        | ok inner =>
            simp only [Except.map, bind, Except.bind, behind]
            rw [htail]
            cases separateVector sub path (i + 1) tail <;> simp [Except.map]
      · cases v with
        | bin b =>
            rw [Splitter.separateSeq, separateVector, htail]
            cases separateVector sub path (i + 1) tail <;> simp [Except.map, bind, Except.bind,
              pure, Except.pure]
        | scalar s | list xs | tuple xs | dict kvs => simp [isBinary] at hbin

end Threads

/-- The recursion computes the same whether it threads or collects what it finds. -/
theorem separate_threads (room : Nat) {v : Value} (hv : v.Wf) (ancestors : List (Path × Value))
    (path : Path) (paths : List Path) (buffers : List Binary) :
    splitter.separate room ancestors path v paths buffers =
      (separate room (ancestors.map Prod.fst) path v).map (behind paths buffers) := by
  induction room generalizing v ancestors path paths buffers with
  | zero =>
      unfold Splitter.separate separate
      split_ifs <;> simp [Except.map, behind, splitter, Splitter.byIdentity]
  | succ room ih =>
      have hsub : ∀ kc ∈ v.items, ∀ paths buffers,
          splitter.separate room ((path, v) :: ancestors) (path ++ [kc.1]) kc.2 paths buffers =
            (separate room (path :: ancestors.map Prod.fst) (path ++ [kc.1]) kc.2).map
              (behind paths buffers) := fun kc hkc =>
        ih (hv.child hkc) ((path, v) :: ancestors) (path ++ [kc.1])
      unfold Splitter.separate separate
      have hrevisits : splitter.revisits ancestors path v = true ↔
          path ∈ ancestors.map Prod.fst := by
        simp [splitter, Splitter.byIdentity, List.mem_map]
      simp only [hrevisits]
      split_ifs with hleaf hmem
      · simp [Except.map, behind]
      · rfl
      · cases v with
        | scalar s | bin b | tuple xs => simp [isContainer] at hleaf
        | dict kvs =>
            have hitems : ∀ kc ∈ kvs, _ := hsub
            have hkeys : (Dict.keys ([] : Bindings) ++ Dict.keys kvs).Nodup :=
              (wf_dict_iff.mp hv).1
            simp only [separateMap_threads hitems hkeys]
            cases separateDict (separate room (path :: ancestors.map Prod.fst)) path kvs <;> rfl
        | list vs =>
            simp only [separateSeq_threads hsub]
            cases separateVector (separate room (path :: ancestors.map Prod.fst)) path 0 vs <;> rfl

theorem removeBuffers_eq_splitter {v : Value} (hv : v.Wf) :
    removeBuffers v = splitter.removeBuffers v := by
  rw [Splitter.removeBuffers, separate_threads _ hv, removeBuffers]
  rw [List.map_nil]
  cases separate (maxDepth + 1) [] [] v <;> simp [Except.map, behind]

end Julia

end Cositos
