/-
What the R port puts on the wire, next to the Python reference.  The two agree exactly
on the states in which R loses nothing: no object is emptied, no null is bound at the
top, and the empty name is bound to null at most.
-/
import Cositos.Portability
import Cositos.RCore

namespace Cositos

namespace Value

/-! ### States that R reads and writes as they are -/

/-- `is.null(x)`. -/
def isNull : Value → Bool
  | .none => true
  | _ => false

mutual

/-- Every object keeps a value when its binary values are taken out, and binds the empty
name to null at most. -/
def kept : Value → Bool
  | .scalar _ | .bin _ => true
  | .list xs | .tuple xs => keptSeq xs
  | .dict kvs => kvs.any (fun kc => !kc.2.isBinary) && keptEntries kvs

def keptSeq : List Value → Bool
  | [] => true
  | x :: xs => kept x && keptSeq xs

def keptEntries : Bindings → Bool
  | [] => true
  | (k, x) :: kvs => kept x && (k != .str "" || x.isNull) && keptEntries kvs

end

theorem keptSeq_iff {xs : List Value} : keptSeq xs = true ↔ ∀ x ∈ xs, x.kept = true := by
  induction xs with
  | nil => simp [keptSeq]
  | cons x xs ih => simp [keptSeq, ih]

theorem isNull_iff {v : Value} : v.isNull = true ↔ v = .none := by
  cases v with
  | scalar s => cases s <;> simp [isNull]
  | bin b | list xs | tuple xs | dict kvs => simp [isNull]

theorem kept_dict_iff {kvs : Bindings} : (Value.dict kvs).kept = true ↔
    (∃ kc ∈ kvs, kc.2.isBinary = false) ∧
      ∀ kc ∈ kvs, kc.2.kept = true ∧ (kc.1 = .str "" → kc.2 = .none) := by
  have hentries : keptEntries kvs = true ↔
      ∀ kc ∈ kvs, kc.2.kept = true ∧ (kc.1 = .str "" → kc.2 = .none) := by
    induction kvs with
    | nil => simp [keptEntries]
    | cons kc kvs ih =>
        obtain ⟨k, x⟩ := kc
        rw [keptEntries, Bool.and_eq_true, Bool.and_eq_true, ih, List.forall_mem_cons]
        simp only [Bool.or_eq_true, bne_iff_ne, ne_eq, isNull_iff]
        tauto
  rw [kept, Bool.and_eq_true, hentries, List.any_eq_true]
  simp

theorem named_of_kept {v : Value} (h : v.kept = true) : v.named = v := by
  induction v using tree_induction with
  | scalar s | bin b => rfl
  | list xs ih | tuple xs ih =>
      have hxs := keptSeq_iff.mp h
      rw [named, namedSeq_eq, List.map_congr_left fun x hx => ih x hx (hxs x hx), List.map_id']
  | dict kvs ih =>
      obtain ⟨-, hvalues⟩ := kept_dict_iff.mp h
      have hmap : kvs.map namedEntry = kvs := by
        refine (List.map_congr_left fun kc hkc => ?_).trans (List.map_id kvs)
        obtain ⟨hkept, hnull⟩ := hvalues kc hkc
        rw [namedEntry]
        split_ifs with hempty
        · rw [← hnull hempty]
          rfl
        · rw [ih kc hkc hkept]
          rfl
      rw [named, namedEntries_eq, hmap]

theorem blurred_strip_of_kept {v : Value} (huntupled : v.Untupled) (hv : v.Wf)
    (h : v.kept = true) : v.strip.blurred = v.strip := by
  induction v using tree_induction with
  | scalar s | bin b => rfl
  | tuple xs => exact absurd rfl (huntupled [] xs.length)
  | list xs ih =>
      have hxs := keptSeq_iff.mp h
      have hwf := wf_list_iff.mp hv
      rw [strip, blurred, blurredSeq_eq, stripSeq_eq, List.map_map]
      congr 1
      refine List.map_congr_left fun x hx => ?_
      obtain ⟨k, hk⟩ := mem_items_seq hx
      exact ih x hx (huntupled.child hv hk) (hwf x hx) (hxs x hx)
  | dict kvs ih =>
      obtain ⟨⟨kc, hkc, hbin⟩, hvalues⟩ := kept_dict_iff.mp h
      have hwf := (wf_dict_iff.mp hv).2
      have hne : stripEntries kvs ≠ [] := by
        rw [stripEntries_eq]
        exact List.ne_nil_of_mem (List.mem_map.mpr
          ⟨kc, List.mem_filter.mpr ⟨hkc, by simp [hbin]⟩, rfl⟩)
      rw [strip, blurred_dict hne, stripEntries_eq, List.map_map]
      congr 1
      refine List.map_congr_left fun kd hkd => ?_
      have hmem := (List.mem_filter.mp hkd).1
      have hsame := ih kd hmem (huntupled.child hv hmem) (hwf kd hmem) (hvalues kd hmem).1
      simp [Prod.map, hsame]

/-- R takes nothing out of the state that is not binary, and finds every binary value. -/
structure Survives (v : Value) : Prop where
  state : v.named.strip.blurred ≈ v.strip
  leaves : ∀ path b, v.look path = some (.bin b) → v.named.look path = some (.bin b)

theorem child_named {v : Value} (huntupled : v.Untupled) (k : Key) : v.named.child k =
    (v.child k).map fun c => if v.label = .dict ∧ k = .str "" then .none else c.named := by
  cases v with
  | scalar s | bin b => simp [named]
  | tuple xs => exact absurd rfl (huntupled [] xs.length)
  | list xs => simp [child_named_list, label]
  | dict kvs => simp [named, lookup_namedEntries, label]

theorem label_named (v : Value) : v.named.label = v.label := by
  cases v <;> simp [named, label, namedSeq_eq]

/-- A child that is split survives with the state it is in. -/
theorem Survives.child {v c : Value} (h : v.Survives) (hv : v.Wf) (huntupled : v.Untupled) {k : Key}
    (hc : v.child k = some c) (hbin : c.isBinary = false) :
    if v.label = .dict ∧ k = .str "" then c = .none else c.Survives := by
  have hagree := (Front.equiv_iff_child.mp h.state).2 k
  have hnone : ∀ (l : Label) (x : Value), x.isBinary = false →
      (if x.isBinary = true ∧ l = .dict then none else some x.strip) = some x.strip :=
    fun l x hx => if_neg (by simp [hx])
  rw [child_blurred, child_strip_untupled (wf_named hv) (untupled_named huntupled),
    child_strip_untupled hv huntupled, child_named huntupled, hc, label_named, Option.bind_some,
    hnone _ c hbin, Option.map_some] at hagree
  split_ifs with hempty
  · rw [if_pos hempty, Option.bind_some, hnone _ .none rfl] at hagree
    cases hagree with
    | some hequiv =>
        have hstrip := eq_scalar_of_equiv (Setoid.symm hequiv)
        cases c with
        | scalar s => exact hstrip
        | bin b => cases hbin
        | list xs | dict kvs => cases hstrip
        | tuple xs =>
            have hbelow := huntupled.child hv (hv.child_iff.mp hc)
            exact absurd rfl (hbelow [] xs.length)
  · rw [if_neg hempty, Option.bind_some, hnone _ c.named ((isBinary_named c).trans hbin)] at hagree
    refine ⟨?_, fun path b hlook => ?_⟩
    · cases hagree with
      | some hequiv => exact hequiv
    · have hdeep := h.leaves (k :: path) b (by rwa [look_cons_of_child hc])
      have hnamed : v.named.child k = some c.named := by
        rw [child_named huntupled, hc, Option.map_some, if_neg hempty]
      rwa [look_cons_of_child hnamed] at hdeep

/-- What survives in R is what R keeps. -/
theorem survives_iff {v : Value} (hv : v.Wf) (huntupled : v.Untupled) :
    v.Survives ↔ v.kept = true := by
  constructor
  · intro h
    induction v using items_induction with
    | step v ih =>
        have hitem : ∀ kc ∈ v.items, kc.2.isBinary = false →
            ¬ (v.label = .dict ∧ kc.1 = .str "") → kc.2.kept = true := by
          intro kc hkc hbin hnot
          have hchild := h.child hv huntupled (hv.child_iff.mpr hkc) hbin
          rw [if_neg hnot] at hchild
          exact ih kc hkc (hv.child hkc) (huntupled.child hv hkc) hchild
        have hbinary : ∀ c : Value, c.isBinary = true → c.kept = true := by
          intro c hc
          cases c <;> first | rfl | cases hc
        cases v with
        | scalar s | bin b => rfl
        | tuple xs => exact absurd rfl (huntupled [] xs.length)
        | list xs =>
            apply keptSeq_iff.mpr
            intro x hx
            obtain ⟨k, hk⟩ := mem_items_seq hx
            cases hbin : x.isBinary with
            | true => exact hbinary x hbin
            | false => exact hitem (k, x) hk hbin (by simp [label])
        | dict kvs =>
            have hnull : ∀ kc ∈ kvs, kc.1 = .str "" → kc.2 = .none := by
              intro kc hkc hempty
              have hc : (Value.dict kvs).child kc.1 = some kc.2 := hv.child_iff.mpr hkc
              cases hbin : kc.2.isBinary with
              | false =>
                  have hchild := h.child hv huntupled hc hbin
                  rwa [if_pos ⟨rfl, hempty⟩] at hchild
              | true =>
                  obtain ⟨b, hb⟩ : ∃ b, kc.2 = .bin b := by
                    cases hx : kc.2 <;> rw [hx] at hbin <;> first | exact ⟨_, rfl⟩ | cases hbin
                  have hlook : (Value.dict kvs).look [kc.1] = some (.bin b) := by
                    rw [look_cons_of_child hc, hb]
                    rfl
                  have hnamed := h.leaves [kc.1] b hlook
                  rw [look, child_named huntupled, hc, Option.map_some,
                    if_pos ⟨rfl, hempty⟩] at hnamed
                  cases hnamed
            refine kept_dict_iff.mpr ⟨?_, fun kc hkc => ⟨?_, hnull kc hkc⟩⟩
            · have hlabel := (Front.equiv_iff_child.mp h.state).1
              by_contra hall
              have hnone : stripEntries (namedEntries kvs) = [] := by
                rw [stripEntries_eq, namedEntries_eq, List.map_eq_nil_iff, List.filter_eq_nil_iff,
                  List.forall_mem_map]
                intro kc hkc
                have hbin : kc.2.isBinary = true := by
                  by_contra hnot
                  exact hall ⟨kc, hkc, Bool.eq_false_iff.mpr hnot⟩
                have hne : kc.1 ≠ .str "" := by
                  intro hempty
                  rw [hnull kc hkc hempty] at hbin
                  cases hbin
                simp [namedEntry, hne, isBinary_named, hbin]
              rw [named, strip, hnone] at hlabel
              cases hlabel
            · by_cases hempty : kc.1 = .str ""
              · rw [hnull kc hkc hempty]
                rfl
              · cases hbin : kc.2.isBinary with
                | true => exact hbinary kc.2 hbin
                | false => exact hitem kc hkc hbin fun hand => hempty hand.2
  · intro h
    have hnamed := named_of_kept h
    have hblurred : v.named.strip.blurred = v.strip := by
      rw [hnamed]
      exact blurred_strip_of_kept huntupled hv h
    refine ⟨?_, fun path b hlook => by rwa [hnamed]⟩
    exact hblurred ▸ Setoid.refl _

end Value

namespace R

open Value Buffers

/-! ### Messages side by side -/

/-- The paths of a message with the bytes of the buffers they belong to. -/
def wirePairs (message : Bindings × List Binary) : List (Value × List UInt8) :=
  match Protocol.get message.1 "buffer_paths" .none with
  | .list paths => paths.zip (message.2.map Binary.raw)
  | _ => []

/-- Two messages with the same JSON state and the same set of paths with their bytes. -/
structure SameWire (message message' : Bindings × List Binary) : Prop where
  state : Front.Agree (message.1.lookup (.str "state")) (message'.1.lookup (.str "state"))
  pairs : ∀ pair, pair ∈ wirePairs message ↔ pair ∈ wirePairs message'

/-- The messages a reducer has sent. -/
def sent (answer : Phase × List Effect) : List (Bindings × List Binary) :=
  answer.2.filterMap fun
    | .send message => some (message.data, message.buffers)
    | _ => none

/-- Python and R put a state on the wire alike, whichever message it is sent in; where
one raises so does the other. -/
structure SameOnWire (state : Bindings) : Prop where
  commOpen : Matches (fun message message' =>
      SameWire (message.1, message.2.1) (message'.1, message'.2.1))
    (Protocol.buildCommOpen state) (buildCommOpen (.dict state))
  update : Matches SameWire (Protocol.buildUpdate state) (buildUpdate (.dict state))
  sendState : Matches (fun answer answer' => List.Forall₂ SameWire (sent answer) (sent answer'))
    (Lifecycle.reduceSendState .opened none state) (reduceSendState .opened none (.dict state))

/-- The states that travel: nothing is lost in R, or the state is too deep for both. -/
def Travels (state : Bindings) : Prop :=
  if (Value.dict state).nesting ≤ maxDepth then
    (Value.dict state).kept = true ∧ ∀ kc ∈ state, kc.2.isNull = false
  else maxDepth < (Value.dict state).named.nesting

instance : DecidablePred Travels := fun state =>
  inferInstanceAs (Decidable (if (Value.dict state).nesting ≤ maxDepth then
    (Value.dict state).kept = true ∧ ∀ kc ∈ state, kc.2.isNull = false
  else maxDepth < (Value.dict state).named.nesting))

/-! ### Splits side by side -/

/-- The paths of a split with their bytes. -/
def leafPairs (split : Julia.Split Value) : List (Value × List UInt8) :=
  (split.2.1.map Path.toValue).zip (split.2.2.map Binary.raw)

/-- Two splits with the same state and the same leaves. -/
structure SameSplit (split split' : Julia.Split Value) : Prop where
  state : split.1 ≈ split'.1
  leaves : ∀ leaf, leaf ∈ leafPairs split ↔ leaf ∈ leafPairs split'

theorem matches_map_iff {ε ε' α β γ δ : Type} {S : γ → δ → Prop} {x : Except ε α}
    {y : Except ε' β} {f : α → γ} {g : β → δ} :
    Matches S (x.map f) (y.map g) ↔ Matches (fun a b => S (f a) (g b)) x y := by
  constructor
  · intro h
    cases x with
    | error e =>
        cases y with
        | error e' => exact .raises e e'
        | ok b => cases h
    | ok a =>
        cases y with
        | error e' => cases h
        | ok b =>
            cases h with
            | returns h => exact .returns h
  · intro h
    cases h with
    | raises e e' => exact .raises e e'
    | returns h => exact .returns h

theorem agree_some_iff {v w : Value} : Front.Agree (some v) (some w) ↔ v ≈ w := by
  constructor
  · intro h
    cases h with
    | some h => exact h
  · exact .some

/-- The data of a message that is built from a split. -/
def splitData (front : Bindings) (split : Julia.Split Value) : Bindings :=
  front ++ [(.str "state", split.1), (.str "buffer_paths", Protocol.bufferPathsField split.2.1)]

theorem sameWire_splitData_iff (front : Bindings) (hstate : .str "state" ∉ Dict.keys front)
    (hpaths : .str "buffer_paths" ∉ Dict.keys front) {split split' : Julia.Split Value} :
    SameWire (splitData front split, split.2.2) (splitData front split', split'.2.2) ↔
      SameSplit split split' := by
  have hlookup : ∀ split : Julia.Split Value,
      (splitData front split).lookup (.str "state") = some split.1 := by
    intro split
    rw [splitData, List.lookup_append, Dict.lookup_eq_none_iff.mpr hstate]
    rfl
  have hpairs : ∀ split : Julia.Split Value,
      wirePairs (splitData front split, split.2.2) = leafPairs split := by
    intro split
    have hget : Protocol.get (splitData front split) "buffer_paths" .none =
        .list (split.2.1.map Path.toValue) := by
      rw [Protocol.get, splitData, List.lookup_append, Dict.lookup_eq_none_iff.mpr hpaths]
      rfl
    rw [wirePairs, hget]
    rfl
  constructor
  · rintro ⟨hs, hp⟩
    rw [hlookup, hlookup, agree_some_iff] at hs
    exact ⟨hs, fun leaf => by rw [← hpairs, ← hpairs]; exact hp leaf⟩
  · rintro ⟨hs, hp⟩
    refine ⟨?_, fun pair => ?_⟩
    · rw [hlookup, hlookup]
      exact agree_some_iff.mpr hs
    · rw [hpairs, hpairs]
      exact hp pair

theorem update_iff (state : Bindings) :
    Matches SameWire (Protocol.buildUpdate state) (buildUpdate (.dict state)) ↔
      Matches SameSplit (Buffers.removeBuffers (.dict state)) (removeBuffers (.dict state)) := by
  have hpy : Protocol.buildUpdate state = (Buffers.removeBuffers (.dict state)).map fun split =>
      (splitData [(.str "method", .str "update")] split, split.2.2) := by
    unfold Protocol.buildUpdate
    cases Buffers.removeBuffers (.dict state) <;> rfl
  have hr : buildUpdate (.dict state) = (removeBuffers (.dict state)).map fun split =>
      (splitData [(.str "method", .str "update")] split, split.2.2) := by
    unfold buildUpdate
    cases removeBuffers (.dict state) <;> rfl
  rw [hpy, hr, matches_map_iff]
  simp only [sameWire_splitData_iff [(.str "method", .str "update")] (by decide) (by decide)]

/-- The state Python sends in full. -/
def fullState (state : Bindings) : Value :=
  .dict (Dict.update (Protocol.immutableFields Protocol.anywidgetModuleVersion) state)

theorem commOpen_iff (state : Bindings) :
    Matches (fun message message' => SameWire (message.1, message.2.1) (message'.1, message'.2.1))
      (Protocol.buildCommOpen state) (buildCommOpen (.dict state)) ↔
      Matches SameSplit (Buffers.removeBuffers (fullState state))
        (removeBuffers (modifyList immutableFields (.dict state))) := by
  have hpy : Protocol.buildCommOpen state =
      (Buffers.removeBuffers (fullState state)).map fun split =>
        (splitData [] split, split.2.2, [(.str "version", .str Protocol.version)]) := by
    rw [fullState]
    simp only [Protocol.buildCommOpen]
    cases Buffers.removeBuffers (.dict (Dict.update
      (Protocol.immutableFields Protocol.anywidgetModuleVersion) state)) <;> rfl
  have hr : buildCommOpen (.dict state) =
      (removeBuffers (modifyList immutableFields (.dict state))).map fun split =>
        (splitData [] split, split.2.2, [(.str "version", .str Protocol.version)]) := by
    simp only [buildCommOpen]
    cases removeBuffers (modifyList immutableFields (.dict state)) <;> rfl
  rw [hpy, hr, matches_map_iff]
  simp only [sameWire_splitData_iff [] (by decide) (by decide)]

/-- The answer that sends a split as an update. -/
def sendUpdate (split : Julia.Split Value) : Phase × List Effect :=
  (.opened, [.send {
    msgType := .commMsg
    data := splitData [(.str "method", .str "update")] split
    buffers := split.2.2 }])

theorem sendState_iff (state : Bindings) :
    Matches (fun answer answer' => List.Forall₂ SameWire (sent answer) (sent answer'))
      (Lifecycle.reduceSendState .opened none state) (reduceSendState .opened none (.dict state)) ↔
      Matches SameSplit (Buffers.removeBuffers (fullState state))
        (removeBuffers (modifyList immutableFields (.dict state))) := by
  have hpy : Lifecycle.reduceSendState .opened none state =
      (Buffers.removeBuffers (fullState state)).map sendUpdate := by
    have hsame : fullState state = .dict (Dict.update Lifecycle.immutableFields state) := rfl
    rw [hsame]
    simp only [Lifecycle.reduceSendState, Port.reduceSendState, Lifecycle.python,
      Protocol.buildUpdate]
    cases Buffers.removeBuffers (.dict (Dict.update Lifecycle.immutableFields state)) <;> rfl
  have hr : reduceSendState .opened none (.dict state) =
      (removeBuffers (modifyList immutableFields (.dict state))).map sendUpdate := by
    simp only [reduceSendState, buildUpdate]
    cases removeBuffers (modifyList immutableFields (.dict state)) <;> rfl
  have hone : ∀ message message' : Bindings × List Binary,
      List.Forall₂ SameWire [message] [message'] ↔ SameWire message message' := by
    intro message message'
    simp
  rw [hpy, hr, matches_map_iff]
  simp only [sent, sendUpdate, List.filterMap_cons, List.filterMap_nil, hone,
    sameWire_splitData_iff [(.str "method", .str "update")] (by decide) (by decide)]

/-! ### When the splits are the same -/

theorem leafPairs_eq (v : Value) (stripped : Value) :
    leafPairs (stripped, v.binaries.map Prod.fst, v.binaries.map Prod.snd) =
      v.binaries.map fun leaf => (leaf.1.toValue, leaf.2.raw) := by
  rw [leafPairs, List.map_map, List.map_map, List.zip_map']
  rfl

theorem look_named {v : Value} (huntupled : v.Untupled) {path : Path} {b : Binary}
    (h : v.named.look path = some (.bin b)) : v.look path = some (.bin b) := by
  induction path generalizing v with
  | nil => rwa [look, label_named] at h
  | cons k path ih =>
      obtain ⟨c, hc, hlook⟩ := Option.bind_eq_some_iff.mp h
      rw [child_named huntupled] at hc
      obtain ⟨d, hd, rfl⟩ := Option.map_eq_some_iff.mp hc
      split_ifs at hlook
      · cases path <;> simp [look, label] at hlook
      · rw [look_cons_of_child hd]
        exact ih (huntupled.below hd) hlook

/-- The leaves of what R reads are those of the state, as soon as none is lost. -/
theorem leaves_iff {v : Value} (hv : v.Wf) (huntupled : v.Untupled) (stripped stripped' : Value) :
    (∀ leaf, leaf ∈ leafPairs (stripped, v.binaries.map Prod.fst, v.binaries.map Prod.snd) ↔
      leaf ∈ leafPairs (stripped', v.named.binaries.map Prod.fst,
        v.named.binaries.map Prod.snd)) ↔
      ∀ path b, v.look path = some (.bin b) → v.named.look path = some (.bin b) := by
  have hnamed := wf_named hv
  simp only [leafPairs_eq]
  constructor
  · intro h path b hlook
    have hmem := (mem_binaries_iff hv).mpr hlook
    obtain ⟨leaf, hleaf, heq⟩ := List.mem_map.mp
      ((h (path.toValue, b.raw)).mp (List.mem_map.mpr ⟨(path, b), hmem, rfl⟩))
    have hpath : leaf.1 = path := by
      have hsame : leaf.1.toValue = path.toValue := congrArg Prod.fst heq
      simp only [Path.toValue, Value.list.injEq] at hsame
      rw [← segments_toValue leaf.1, hsame, segments_toValue]
    have hfound := (mem_binaries_iff hnamed).mp (show (leaf.1, leaf.2) ∈ _ from hleaf)
    rw [hpath] at hfound
    have hsame := look_named huntupled hfound
    rw [hlook] at hsame
    cases hsame
    exact hfound
  · intro h leaf
    have hmem : ∀ path b, (path, b) ∈ v.binaries ↔ (path, b) ∈ v.named.binaries := by
      intro path b
      rw [mem_binaries_iff hv, mem_binaries_iff hnamed]
      exact ⟨h path b, look_named huntupled⟩
    simp only [List.mem_map]
    exact exists_congr fun leaf => and_congr_left fun _ => hmem leaf.1 leaf.2

theorem sameSplit_iff {v : Value} (hv : v.Wf) (huntupled : v.Untupled)
    (hcontainer : v.isContainer = true) :
    Matches SameSplit (Buffers.removeBuffers v) (removeBuffers v) ↔
      if v.nesting ≤ maxDepth then v.kept = true else maxDepth < v.named.nesting := by
  split_ifs with hnesting
  · rw [Buffers.removeBuffers_container hv hcontainer hnesting,
      removeBuffers_ok hv huntupled hcontainer ((nesting_named_le v).trans hnesting),
      ← survives_iff hv huntupled]
    constructor
    · intro h
      cases h with
      | returns h =>
          exact ⟨Setoid.symm h.state, (leaves_iff hv huntupled _ _).mp h.leaves⟩
    · intro h
      exact .returns ⟨Setoid.symm h.state, (leaves_iff hv huntupled _ _).mpr h.leaves⟩
  · obtain ⟨path, hpath⟩ := Buffers.removeBuffers_too_deep hv (not_le.mp hnesting)
    rw [hpath]
    constructor
    · intro h
      by_contra hshallow
      rw [removeBuffers_ok hv huntupled hcontainer (not_lt.mp hshallow)] at h
      cases h
    · intro hdeep
      obtain ⟨e, he⟩ := removeBuffers_too_deep hv huntupled hdeep
      rw [he]
      exact .raises _ _

/-! ### The identity merge -/

theorem isNull_eq_false_iff {v : Value} : v.isNull = false ↔ v ≠ .none := by
  rw [ne_eq, ← isNull_iff, Bool.not_eq_true]

theorem setElement_dict (d : Bindings) (k : Key) {v : Value} (hv : v.isNull = false) :
    setElement (.dict d) k v = .dict (Dict.set d k v) := by
  cases v with
  | scalar s => cases s <;> first | rfl | cases hv
  | bin b | list xs | tuple xs | dict kvs => rfl

/-- What stands under a key once the bindings `kvs` are merged into `d`. -/
def modified (d kvs : Bindings) (k : Key) : Option Value :=
  if k = .str "" then d.lookup k
  else
    match kvs.lookup k with
    | some v => if v.isNull then none else some v
    | none => d.lookup k

/-- What `modifyList` binds, where it merges nothing below the top. -/
theorem modifyEach_lookup {d kvs : Bindings} (hd : (Dict.keys d).Nodup)
    (hkvs : (Dict.keys kvs).Nodup)
    (hflat : ∀ k ∈ Dict.keys kvs, isContainer (getElement (.dict d) k) = false) :
    ∃ e, modifyEach (.dict d) kvs = .dict e ∧ (Dict.keys e).Nodup ∧
      ∀ k, e.lookup k = modified d kvs k := by
  induction kvs generalizing d with
  | nil => exact ⟨d, rfl, hd, fun k => by simp [modified]⟩
  | cons head tail ih =>
      obtain ⟨k, v⟩ := head
      rw [Dict.keys_cons, List.nodup_cons] at hkvs
      rw [Dict.keys_cons, List.forall_mem_cons] at hflat
      rw [modifyEach, hflat.1]
      by_cases hempty : k = .str ""
      · obtain ⟨e, he, hnodup, hlookup⟩ := ih hd hkvs.2 hflat.2
        refine ⟨e, by rw [if_pos hempty]; exact he, hnodup, fun j => ?_⟩
        rw [hlookup, hempty, modified, modified]
        by_cases hj : j = .str ""
        · rw [if_pos hj, if_pos hj]
        · rw [if_neg hj, if_neg hj, Dict.lookup_cons_ne hj]
      · rw [if_neg hempty]
        simp only [Bool.false_and, Bool.false_eq_true, if_false]
        obtain ⟨d', hd', hset, hlook⟩ : ∃ d', (Dict.keys d').Nodup ∧
            setElement (.dict d) k v = .dict d' ∧ ∀ j, d'.lookup j =
              if j = k then (if v.isNull then none else some v) else d.lookup j := by
          cases hnull : v.isNull with
          | true =>
              rw [isNull_iff.mp hnull]
              refine ⟨Dict.erase d k, Dict.nodup_keys_erase hd k, rfl, fun j => ?_⟩
              rw [Dict.lookup_erase hd]
              simp
          | false =>
              refine ⟨Dict.set d k v, Dict.nodup_keys_set hd k v, setElement_dict d k hnull,
                fun j => ?_⟩
              rw [Dict.lookup_set]
              simp
        have hflat' : ∀ j ∈ Dict.keys tail, isContainer (getElement (.dict d') j) = false := by
          intro j hj
          have hne : j ≠ k := by
            rintro rfl
            exact hkvs.1 hj
          have hsame : getElement (.dict d') j = getElement (.dict d) j := by
            simp [getElement, Value.bindings, hlook, hne]
          rw [hsame]
          exact hflat.2 j hj
        obtain ⟨e, he, hnodup, hlookup⟩ := ih hd' hkvs.2 hflat'
        refine ⟨e, by rw [hset]; exact he, hnodup, fun j => ?_⟩
        rw [hlookup, modified, modified]
        by_cases hj : j = k
        · subst hj
          rw [if_neg hempty, if_neg hempty, Dict.lookup_eq_none_iff.mpr hkvs.1,
            List.lookup_cons_self]
          simp [hlook]
        · rw [Dict.lookup_cons_ne hj, hlook, if_neg hj]

theorem modifyEach_eq_update {d kvs : Bindings} (hkvs : (Dict.keys kvs).Nodup)
    (hflat : ∀ k ∈ Dict.keys kvs, isContainer (getElement (.dict d) k) = false)
    (hnull : ∀ kc ∈ kvs, kc.1 ≠ .str "" ∧ kc.2.isNull = false) :
    modifyEach (.dict d) kvs = .dict (Dict.update d kvs) := by
  induction kvs generalizing d with
  | nil => rfl
  | cons head tail ih =>
      obtain ⟨k, v⟩ := head
      rw [Dict.keys_cons, List.nodup_cons] at hkvs
      rw [Dict.keys_cons, List.forall_mem_cons] at hflat
      rw [List.forall_mem_cons] at hnull
      rw [modifyEach, hflat.1, if_neg hnull.1.1]
      simp only [Bool.false_and, Bool.false_eq_true, if_false]
      rw [setElement_dict d k hnull.1.2, Dict.update_cons]
      apply ih hkvs.2 _ hnull.2
      intro j hj
      have hne : j ≠ k := by
        rintro rfl
        exact hkvs.1 hj
      have hsame : getElement (.dict (Dict.set d k v)) j = getElement (.dict d) j := by
        simp [getElement, Value.bindings, Dict.lookup_set, hne]
      rw [hsame]
      exact hflat.2 j hj

/-- The identity fields, as both ports have them. -/
abbrev identity : Bindings := Protocol.immutableFields Protocol.anywidgetModuleVersion

theorem immutableFields_eq : immutableFields = .dict identity := rfl

theorem identity_flat (k : Key) : isContainer (getElement (.dict identity) k) = false := by
  have hscalar : ∀ kc ∈ identity, isContainer kc.2 = false := by decide
  rw [getElement]
  split_ifs
  · rfl
  · cases hlookup : (Value.dict identity).bindings.lookup k with
    | none => rfl
    | some v => exact hscalar _ (Dict.mem_of_lookup hlookup)

theorem wf_identity : (Value.dict identity).Wf := by decide

theorem json_identity : (Value.dict identity).json = true := by decide

theorem mem_update_of_mem {state : Bindings} (hkeys : (Dict.keys state).Nodup) {kc : Key × Value}
    (h : kc ∈ state) : kc ∈ Dict.update identity state := by
  have hlookup : state.lookup kc.1 = some kc.2 := (Dict.lookup_eq_some_iff hkeys).mpr h
  apply Dict.mem_of_lookup
  rw [Dict.lookup_update _ hkeys, hlookup]
  rfl

theorem mem_of_modified {state : Bindings} {k : Key} {v : Value}
    (h : modified identity state k = some v) : (k, v) ∈ identity ∨ (k, v) ∈ state := by
  unfold modified at h
  split_ifs at h with hempty
  · exact Or.inl (Dict.mem_of_lookup h)
  · cases hlookup : state.lookup k with
    | none =>
        rw [hlookup] at h
        exact Or.inl (Dict.mem_of_lookup h)
    | some x =>
        simp only [hlookup] at h
        split_ifs at h
        cases h
        exact Or.inr (Dict.mem_of_lookup hlookup)

/-- A state whose values are those of the identity fields and of another state. -/
theorem good_of_mem {state e : Bindings} (hwf : (Value.dict state).Wf)
    (hjson : (Value.dict state).json = true) (hkeys : (Dict.keys e).Nodup)
    (hmem : ∀ kc ∈ e, kc ∈ identity ∨ kc ∈ state) :
    (Value.dict e).Wf ∧ (Value.dict e).json = true := by
  rw [wf_dict_iff, json_dict_iff]
  refine ⟨⟨hkeys, fun kc hkc => ?_⟩, fun kc hkc => ?_⟩
  · rcases hmem kc hkc with hid | hstate
    · exact (wf_dict_iff.mp wf_identity).2 kc hid
    · exact (wf_dict_iff.mp hwf).2 kc hstate
  · rcases hmem kc hkc with hid | hstate
    · exact json_dict_iff.mp json_identity kc hid
    · exact json_dict_iff.mp hjson kc hstate

theorem good_fullState {state : Bindings} (hwf : (Value.dict state).Wf)
    (hjson : (Value.dict state).json = true) :
    (fullState state).Wf ∧ (fullState state).json = true :=
  good_of_mem hwf hjson (Dict.nodup_keys_update (wf_dict_iff.mp wf_identity).1 state)
    fun _ hkc => Dict.mem_update hkc

theorem nesting_fullState_le_iff {state : Bindings} (hkeys : (Dict.keys state).Nodup) :
    (fullState state).nesting ≤ maxDepth ↔ (Value.dict state).nesting ≤ maxDepth := by
  rw [nesting_le_iff, nesting_le_iff, height_le_succ_iff, height_le_succ_iff]
  constructor
  · exact fun h kc hkc => h kc (mem_update_of_mem hkeys hkc)
  · intro h kc hkc
    have hflat : ∀ kc ∈ identity, kc.2.height ≤ maxDepth := by decide
    rcases Dict.mem_update hkc with hid | hstate
    · exact hflat kc hid
    · exact h kc hstate

theorem kept_fullState {state : Bindings} (hkeys : (Dict.keys state).Nodup)
    (h : (Value.dict state).kept = true) : (fullState state).kept = true := by
  obtain ⟨⟨kc, hkc, hbin⟩, hvalues⟩ := kept_dict_iff.mp h
  refine kept_dict_iff.mpr ⟨⟨kc, mem_update_of_mem hkeys hkc, hbin⟩, fun kd hkd => ?_⟩
  have hidentity : ∀ kc ∈ identity, kc.2.kept = true ∧ kc.1 ≠ .str "" := by decide
  rcases Dict.mem_update hkd with hid | hstate
  · exact ⟨(hidentity kd hid).1, fun hempty => absurd hempty (hidentity kd hid).2⟩
  · exact hvalues kd hstate

/-- What is too deep for R in a state is too deep in it once the identity is merged in. -/
theorem deep_modified {state e : Bindings} (hkeys : (Dict.keys state).Nodup)
    (hlookup : ∀ k, e.lookup k = modified identity state k)
    (h : maxDepth < (Value.dict state).named.nesting) :
    maxDepth < (Value.dict e).named.nesting := by
  by_contra hshallow
  rw [not_lt, nesting_le_iff, height_le_succ_iff, Value.named, Value.items, namedEntries_eq,
    List.forall_mem_map] at hshallow
  rw [← not_le, nesting_le_iff, height_le_succ_iff, Value.named, Value.items, namedEntries_eq,
    List.forall_mem_map] at h
  apply h
  intro kc hkc
  by_cases hempty : kc.1 = .str ""
  · simp [namedEntry, hempty, height]
  cases hnull : kc.2.isNull with
  | true =>
      rw [namedEntry, if_neg hempty, isNull_iff.mp hnull]
      exact Nat.zero_le _
  | false =>
      apply hshallow kc
      have hfound : state.lookup kc.1 = some kc.2 := (Dict.lookup_eq_some_iff hkeys).mpr hkc
      apply Dict.mem_of_lookup
      rw [hlookup, modified, if_neg hempty, hfound]
      simp [hnull]

/-- What a split of R binds under a key that it does not bind in the first place. -/
theorem child_removeBuffers {e : Bindings} (he : (Value.dict e).Wf)
    (hjson : (Value.dict e).json = true) {k : Key} (hgone : e.lookup k = none)
    {split : Julia.Split Value} (h : removeBuffers (.dict e) = .ok split) :
    split.1.child k = none := by
  have huntupled := untupled_of_json hjson
  by_cases hshallow : (Value.dict e).named.nesting ≤ maxDepth
  · rw [removeBuffers_ok he huntupled rfl hshallow] at h
    cases h
    rw [child_blurred, child_strip_untupled (wf_named he) (untupled_named huntupled),
      child_named huntupled, child_dict, hgone]
    rfl
  · obtain ⟨error, herror⟩ := removeBuffers_too_deep he huntupled (not_le.mp hshallow)
    rw [herror] at h
    cases h

/-- The second merge of the identity takes out the null that the first has put in. -/
theorem reduceOpen_no_view_count {state : Bindings} (hwf : (Value.dict state).Wf)
    (hjson : (Value.dict state).json = true) (hcount : state.lookup (.str "_view_count") = none)
    {phase : Phase} {capabilities : TransportCapabilities} {answer : Phase × List Effect}
    (h : reduceOpen phase (.dict state) capabilities = .ok answer) :
    ∀ message ∈ sent answer, ∃ fields, message.1.lookup (.str "state") = some fields ∧
      fields.child (.str "_view_count") = none := by
  have hid := (wf_dict_iff.mp wf_identity).1
  obtain ⟨e, he, hekeys, hlookup⟩ := modifyEach_lookup hid (wf_dict_iff.mp hwf).1
    fun k _ => identity_flat k
  obtain ⟨e', he', hekeys', hlookup'⟩ := modifyEach_lookup hid hekeys fun k _ => identity_flat k
  obtain ⟨hewf, hejson⟩ := good_of_mem hwf hjson hekeys fun kc hkc =>
    mem_of_modified ((hlookup kc.1).symm.trans ((Dict.lookup_eq_some_iff hekeys).mpr hkc))
  obtain ⟨hewf', hejson'⟩ := good_of_mem hewf hejson hekeys' fun kc hkc =>
    mem_of_modified ((hlookup' kc.1).symm.trans ((Dict.lookup_eq_some_iff hekeys').mpr hkc))
  have hgone : e'.lookup (.str "_view_count") = none := by
    have hnull : e.lookup (.str "_view_count") = some .none := by
      rw [hlookup, modified, if_neg (by decide), hcount]
      rfl
    rw [hlookup', modified, if_neg (by decide), hnull]
    rfl
  have hfirst : modifyList immutableFields (.dict state) = .dict e := he
  have hsecond : modifyList immutableFields (.dict e) = .dict e' := he'
  unfold reduceOpen buildCommOpen at h
  simp only [hfirst, hsecond] at h
  by_cases hphase : phase = .unopened ∨ phase = .closed
  · rw [if_pos hphase] at h
    obtain ⟨message, hmessage, h⟩ := Port.bind_eq_ok_iff.mp h
    obtain ⟨split, hsplit, hmessage⟩ := Port.bind_eq_ok_iff.mp hmessage
    cases hmessage
    have hsent : sent answer =
        [([(.str "state", split.1), (.str "buffer_paths", Protocol.bufferPathsField split.2.1)],
          split.2.2)] := by
      cases h
      cases capabilities.supportsReceive <;> rfl
    rw [hsent]
    intro message hmem
    obtain rfl := List.mem_singleton.mp hmem
    exact ⟨split.1, rfl, child_removeBuffers hewf' hejson' hgone hsplit⟩
  · rw [if_neg hphase] at h
    cases h
    intro message hmem
    cases hmem

/-- A null at the top is lost to `modifyList`. -/
theorem not_null_of_sameSplit {state e : Bindings} (hwf : (Value.dict state).Wf)
    (hjson : (Value.dict state).json = true) (he : (Value.dict e).Wf)
    (hejson : (Value.dict e).json = true)
    (hlookup : ∀ k, e.lookup k = modified identity state k)
    (hnesting : (Value.dict state).nesting ≤ maxDepth)
    (h : Matches SameSplit (Buffers.removeBuffers (fullState state)) (removeBuffers (.dict e))) :
    ∀ kc ∈ state, kc.2.isNull = false := by
  have hkeys := (wf_dict_iff.mp hwf).1
  obtain ⟨hfull, hfulljson⟩ := good_fullState hwf hjson
  intro kc hkc
  by_contra hnull
  have hnone : kc.2 = .none := isNull_iff.mp (Bool.not_eq_false _ ▸ hnull)
  rw [Buffers.removeBuffers_container hfull rfl
    ((nesting_fullState_le_iff hkeys).mpr hnesting)] at h
  have hfound : state.lookup kc.1 = some kc.2 := (Dict.lookup_eq_some_iff hkeys).mpr hkc
  have hchild : (fullState state).child kc.1 = some .none := by
    rw [fullState, child_dict, ← hnone, Dict.lookup_update _ hkeys, hfound]
    rfl
  have hgone : e.lookup kc.1 = none := by
    rw [hlookup, modified]
    split_ifs with hempty
    · rw [hempty]
      rfl
    · simp [hfound, hnone, isNull]
  cases hsplit : removeBuffers (.dict e) with
  | error error =>
      rw [hsplit] at h
      cases h
  | ok split =>
      rw [hsplit] at h
      cases h with
      | returns h =>
          have hagree := (Front.equiv_iff_child.mp h.state).2 kc.1
          rw [child_removeBuffers he hejson hgone hsplit,
            child_strip_untupled hfull (untupled_of_json hfulljson), hchild] at hagree
          cases hagree

/-- A state is put on the wire alike by Python and R exactly when it travels. -/
theorem sameOnWire_iff {state : Bindings} (hwf : (Value.dict state).Wf)
    (hjson : (Value.dict state).json = true) : SameOnWire state ↔ Travels state := by
  have hkeys := (wf_dict_iff.mp hwf).1
  have huntupled := untupled_of_json hjson
  obtain ⟨hfull, hfulljson⟩ := good_fullState hwf hjson
  obtain ⟨e, he, hekeys, hlookup⟩ := modifyEach_lookup (wf_dict_iff.mp wf_identity).1 hkeys
    fun k _ => identity_flat k
  obtain ⟨hewf, hejson⟩ := good_of_mem hwf hjson hekeys fun kc hkc =>
    mem_of_modified ((hlookup kc.1).symm.trans ((Dict.lookup_eq_some_iff hekeys).mpr hkc))
  have hmodify : modifyList immutableFields (.dict state) = .dict e := he
  have hupdate := (update_iff state).trans (sameSplit_iff hwf huntupled rfl)
  constructor
  · intro h
    have hone := hupdate.mp h.update
    unfold Travels
    split_ifs at hone ⊢ with hnesting
    · refine ⟨hone, ?_⟩
      have hopen := (commOpen_iff state).mp h.commOpen
      rw [hmodify] at hopen
      exact not_null_of_sameSplit hwf hjson hewf hejson hlookup hnesting hopen
    · exact hone
  · intro h
    have hsplit : Matches SameSplit (Buffers.removeBuffers (fullState state))
        (removeBuffers (modifyList immutableFields (.dict state))) := by
      unfold Travels at h
      split_ifs at h with hnesting
      · obtain ⟨hkept, hnull⟩ := h
        have hempty := (kept_dict_iff.mp hkept).2
        have hsame : modifyList immutableFields (.dict state) = fullState state := by
          apply modifyEach_eq_update hkeys fun k _ => identity_flat k
          refine fun kc hkc => ⟨fun hk => ?_, hnull kc hkc⟩
          exact isNull_eq_false_iff.mp (hnull kc hkc) ((hempty kc hkc).2 hk)
        rw [hsame]
        apply (sameSplit_iff hfull (untupled_of_json hfulljson) rfl).mpr
        rw [if_pos ((nesting_fullState_le_iff hkeys).mpr hnesting)]
        exact kept_fullState hkeys hkept
      · have hdeep : maxDepth < (fullState state).nesting :=
          not_le.mp fun hle => hnesting ((nesting_fullState_le_iff hkeys).mp hle)
        obtain ⟨path, hpath⟩ := Buffers.removeBuffers_too_deep hfull hdeep
        obtain ⟨error, herror⟩ := removeBuffers_too_deep hewf (untupled_of_json hejson)
          (deep_modified hkeys hlookup h)
        rw [hmodify, hpath, herror]
        exact .raises _ _
    refine ⟨(commOpen_iff state).mpr hsplit, hupdate.mpr ?_, (sendState_iff state).mpr hsplit⟩
    unfold Travels at h
    split_ifs at h ⊢ with hnesting
    · exact h.1
    · exact h

namespace WireWitness

/-- `{"image": {"png": b"A", "width": 1}}`. -/
def sized : Bindings :=
  [(.str "image", .dict [(.str "png", .bin ⟨.bytes, [65]⟩), (.str "width", .int 1)])]

/-- `{"image": {"png": b"A"}}`. -/
def bare : Bindings := [(.str "image", .dict [(.str "png", .bin ⟨.bytes, [65]⟩)])]

end WireWitness

theorem sameOnWire_iff_sized : SameOnWire WireWitness.sized :=
  (sameOnWire_iff (by decide) (by decide)).mpr (by decide)

/-- An object whose only value is binary is an empty array in R. -/
theorem update_empties_object :
    ¬ ∀ state : Bindings, (Value.dict state).Wf → (Value.dict state).json = true →
      SameOnWire state := by
  intro h
  have hupdate := (h WireWitness.bare (by decide) (by decide)).update
  have hwf : (Value.dict WireWitness.bare).Wf := by decide
  have hjson : (Value.dict WireWitness.bare).json = true := by decide
  rw [update_iff, sameSplit_iff hwf (untupled_of_json hjson) rfl] at hupdate
  exact absurd hupdate (by decide)

end R

end Cositos
