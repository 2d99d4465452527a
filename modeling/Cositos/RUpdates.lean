/-
Updates to and from the R port: R takes in what the other languages and the front end send, and
they take in what R sends, as the same state, where names and lengths are such that R tells
elements apart.
-/
import Cositos.RShell
import Cositos.RWire
import Cositos.Rejections
import Cositos.Updates

namespace Cositos

open Value Buffers Protocol

/-- R has no NUL in a string. -/
def NoNul (s : String) : Prop := Char.ofNat 0 ∉ s.toList

instance : DecidablePred NoNul := fun s => inferInstanceAs (Decidable (Char.ofNat 0 ∉ s.toList))

/-- R has numbers for the integers, and strings for the strings and names. -/
structure RHolds (v : Value) : Prop where
  numbers : Front.AllInts IsDouble v
  strings : ∀ path s, v.look path = some (.scalar (.str s)) → NoNul s
  texts : ∀ path s, .str s ∈ path → v.look path ≠ none → NoNul s

/-- R can hold the value, no name is empty, and each element of a list has a number. -/
structure RFits (v : Value) : Prop extends RHolds v where
  names : ∀ path, .str "" ∈ path → v.look path = none
  lists : ∀ path n, v.look path = some (.list n) → R.ListFits n

/-- An open R widget takes in the state that the message is about, whatever order its JSON reader
gives the names of an object. -/
def RTakes (data : Bindings) (buffers : List Binary) (fields : Bindings) : Prop :=
  ∃ text, (Value.dict data).reload = .ok text ∧
    ∀ read, Value.dict read ≈ text → ∀ capabilities, ∃ w : Value,
      RShell.reduce capabilities .opened (.inbound (Value.dict read).toR (received buffers)) =
          .made (.ok (.opened, [.applyState w.toR])) ∧
        w ≈ (Value.dict fields).plain

namespace R

/-! ### Reading a message -/

/-- A field of a message, or the empty list. -/
theorem getOr_dict {name : String} (hname : name ≠ "") (data : Bindings) (default : Value)
    (hdefault : default.toR = .list []) :
    RShell.getOr (Value.dict data).toR name = .ok (Protocol.get data name default).toR := by
  rw [RShell.getOr, hasName_dict hname, getOne_dict hname, Protocol.get]
  cases data.lookup (.str name) with
  | none => rw [if_neg (by simp), Option.getD_none, hdefault]
  | some x => rfl

/-! ### Paths -/

/-- A segment that R reads as it is. -/
def Plainly (key : Key) : Prop := (∃ i, key = .int i) ∨ ∃ s, key = .str s

theorem segment_toR {key : Key} (h : Plainly key) : segment key.toValue.toR = key := by
  rcases h with ⟨i, rfl⟩ | ⟨s, rfl⟩ <;> rfl

theorem pathOf_toR {path : Path} (h : ∀ key ∈ path, Plainly key) :
    pathOf path.toValue.toR = path := by
  have hpath : pathOf path.toValue.toR = (elements path.toValue.toR).map segment := rfl
  rw [hpath, Path.toValue, elements_list, List.map_map, List.map_map]
  exact (List.map_congr_left fun key hkey => segment_toR (h key hkey)).trans (List.map_id path)

theorem paths_toR {paths : List Path} (h : ∀ path ∈ paths, ∀ key ∈ path, Plainly key) :
    (elements (bufferPathsField paths).toR).map pathOf = paths := by
  rw [bufferPathsField, elements_list, List.map_map, List.map_map]
  exact (List.map_congr_left fun path hpath => pathOf_toR (h path hpath)).trans (List.map_id paths)

/-! ### The merge -/

theorem mergeUpdate_eq (state bufferPaths : RObject) (buffers : List Binary) :
    RShell.mergeUpdate state bufferPaths buffers =
      putBuffers state ((elements bufferPaths).map pathOf) buffers := by
  rw [RShell.mergeUpdate]
  split_ifs with hlength
  · rfl
  · rw [List.length_eq_zero_iff.mp (Nat.eq_zero_of_not_pos hlength)]
    rfl

/-- The leaves go where Python puts them, one after the other. -/
theorem putBuffers_toR {leaves : List (Path × Binary)} {s : Value}
    (hreaches : ∀ leaf ∈ leaves, Merger.Reaches Named ListFits s leaf.1)
    (hincomparable : Incomparable leaves) :
    ∃ w, putBuffers s.toR (leaves.map Prod.fst) (leaves.map Prod.snd) = .ok w.toR ∧
      Merges s leaves w := by
  have hmerge : ∃ w, leaves.foldlM (fun v leaf => putAt leaf.2 v (leaf.1.map Key.toValue)) s =
      .ok w ∧ Merges s leaves w :=
    foldlM_merges (fun v leaf h => putAt_settable (Merger.Reaches.settable h) leaf.2)
      (fun v w path path' b => Merger.reaches_of_writes) leaves hreaches hincomparable
  obtain ⟨w, hrun, hmerges⟩ := hmerge
  refine ⟨w, ?_, hmerges⟩
  clear hmerges
  induction leaves generalizing s with
  | nil => cases hrun; rfl
  | cons head tail ih =>
      obtain ⟨hhead, htail⟩ := List.pairwise_cons.mp hincomparable
      obtain ⟨v, hput, hputOne⟩ := putOne_toR (hreaches head List.mem_cons_self) head.2
      obtain ⟨v', hput', hwrites⟩ :=
        putAt_settable (hreaches head List.mem_cons_self).settable head.2
      obtain rfl : v' = v := Except.ok.inj (hput'.symm.trans hput)
      rw [List.foldlM_cons] at hrun
      simp only [hput, bind, Except.bind] at hrun
      rw [List.map_cons, List.map_cons, putBuffers, hputOne]
      refine ih (fun leaf hleaf => ?_) htail hrun
      exact Merger.reaches_of_writes hwrites (hhead leaf hleaf).1
        (hreaches leaf (List.mem_cons_of_mem _ hleaf))

/-- A state that R reads is merged into as Python merges into it. -/
theorem holds_of_fits {v : Value} (hv : Plain v) (hfits : RFits v) :
    Merger.Holds Named ListFits v := by
  refine ⟨hv.wf, fun front key l hlook => ?_⟩
  cases hlabel : v.look front with
  | none => trivial
  | some label =>
      cases label with
      | scalar s | bin b => trivial
      | tuple n => exact absurd hlabel (Front.look_ne_tuple hv.json front n)
      | list n => exact hfits.lists front n hlabel
      | dict =>
          obtain ⟨s, rfl⟩ := Front.json_name hv.json hlabel hlook
          refine ⟨s, rfl, fun hempty => ?_⟩
          have hnone := hfits.names (front ++ [.str s]) (by simp [hempty])
          rw [hnone] at hlook
          cases hlook

/-- Whatever reads as a stripped state takes the state's own buffers back in. -/
theorem putBuffers_plain {v s : Value} (hv : Plain v) (hfits : RFits v) (hs : s ≈ v.strip) :
    ∃ w, putBuffers s.toR (v.binaries.map Prod.fst) (v.binaries.map Prod.snd) = .ok w.toR ∧
      w ≈ v := by
  have hreaches : ∀ leaf ∈ v.binaries, Merger.Reaches Named ListFits s leaf.1 :=
    fun leaf hleaf => Merger.reaches_strip (holds_of_fits hv hfits) (listed_of_json hv.json)
      hv.container hs ((mem_binaries_iff hv.wf).mp hleaf)
  obtain ⟨w, hput, hmerges⟩ := putBuffers_toR hreaches (incomparable_binaries hv.wf)
  have hw : w ≈ v.listed := hmerges.equiv_listed hv.wf hs
  rw [listed_of_json hv.json] at hw
  exact ⟨w, hput, hw⟩

theorem plainly_of_leaf {v : Value} (hjson : v.json = true) {path : Path} {l : Label}
    (hlook : v.look path = some l) : ∀ key ∈ path, Plainly key := by
  induction path generalizing v with
  | nil => exact fun _ h => absurd h List.not_mem_nil
  | cons key path ih =>
      obtain ⟨c, hc, hbelow⟩ := Option.bind_eq_some_iff.mp hlook
      exact List.forall_mem_cons.mpr ⟨(json_item hjson (mem_items_of_child hc)).1,
        ih (json_child hjson hc) hbelow⟩

end R

variable {fields data : Bindings}

/-- An open R widget takes in the state that an update is about. -/
theorem UpdateOf.r (h : UpdateOf (.dict fields) data) (hv : Plain (.dict fields))
    (hfits : RFits (.dict fields)) (capabilities : TransportCapabilities) :
    ∃ w : Value, RShell.reduce capabilities .opened
        (.inbound (Value.dict data).toR (Lifecycle.payloadBuffers fields)) =
          .made (.ok (.opened, [.applyState w.toR])) ∧ w ≈ .dict fields := by
  obtain ⟨stripped, hstate, hequiv⟩ := h.state
  obtain ⟨w, hput, hw⟩ := R.putBuffers_plain hv hfits hequiv
  have hmethod : R.getOne (Value.dict data).toR (.name "method") =
      .ok (.atom (.str "update")) := by
    have hget := h.method
    rw [R.getOne_dict (by decide)]
    rw [Protocol.get] at hget
    cases hlookup : data.lookup (.str "method") with
    | none => rw [hlookup] at hget; cases hget
    | some x =>
        rw [hlookup, Option.getD_some] at hget
        rw [hget]
        rfl
  have hbringsState : RShell.getOr (Value.dict data).toR "state" =
      .ok (Value.dict stripped).toR := by
    rw [R.getOr_dict (by decide) data (.dict []) rfl, hstate]
  have hbringsPaths : RShell.getOr (Value.dict data).toR "buffer_paths" =
      .ok (bufferPathsField ((Value.dict fields).binaries.map Prod.fst)).toR := by
    rw [R.getOr_dict (by decide) data (.list []) rfl, h.paths]
  have hparse : RShell.parseMessage (Value.dict data).toR = .ok (.update (Value.dict stripped).toR
      (bufferPathsField ((Value.dict fields).binaries.map Prod.fst)).toR) := by
    simp only [RShell.parseMessage, hmethod, hbringsState, hbringsPaths, bind, Except.bind, pure,
      Except.pure]
  have hpaths : (R.elements (bufferPathsField ((Value.dict fields).binaries.map Prod.fst)).toR).map
      R.pathOf = (Value.dict fields).binaries.map Prod.fst := by
    apply R.paths_toR
    rw [List.forall_mem_map]
    exact fun leaf hleaf => R.plainly_of_leaf hv.json ((mem_binaries_iff hv.wf).mp hleaf)
  refine ⟨w, ?_, hw⟩
  simp only [RShell.reduce, RShell.reduceInbound, hparse, R.mergeUpdate_eq, hpaths,
    Lifecycle.payloadBuffers, hput]
  rfl

/-- The message of an update about such a state is one that R takes in. -/
theorem rTakes_updateData (hwf : (Value.dict fields).Wf)
    (hjson : (Value.dict fields).jsonWith true = true) (hfits : RFits (Value.dict fields).plain) :
    RTakes (Front.updateData fields) (Lifecycle.payloadBuffers fields) fields := by
  have hplain : Plain (.dict (plainEntries fields)) := plain_of_state hwf hjson
  refine ⟨_, reload_updateData hjson, fun read hread capabilities => ?_⟩
  rw [received_payloadBuffers]
  exact (updateOf_reads hread).r hplain hfits capabilities

/-- R splits a state that it loses nothing of as the others do. -/
theorem R.removeBuffers_kept (hwf : (Value.dict fields).Wf)
    (hjson : (Value.dict fields).json = true)
    (hkept : (Value.dict fields).kept = true) (hnesting : (Value.dict fields).nesting ≤ maxDepth) :
    R.removeBuffers (.dict fields) = .ok (Value.dict fields).split := by
  have huntupled : (Value.dict fields).Untupled := untupled_of_json hjson
  have hnamed : (Value.dict fields).named = .dict fields := named_of_kept hkept
  have hsplit := R.removeBuffers_ok hwf huntupled rfl (hnamed.symm ▸ hnesting)
  rw [hnamed, blurred_strip_of_kept huntupled hwf hkept] at hsplit
  exact hsplit

/-- R sends the message that the others send, about a state that it loses nothing of. -/
theorem R.buildUpdate_eq (hwf : (Value.dict fields).Wf) (hjson : (Value.dict fields).json = true)
    (hkept : (Value.dict fields).kept = true) (hnesting : (Value.dict fields).nesting ≤ maxDepth) :
    R.buildUpdate (.dict fields) =
      .ok (Front.updateData fields, Lifecycle.payloadBuffers fields) := by
  rw [R.buildUpdate, R.removeBuffers_kept hwf hjson hkept hnesting]
  rfl

/-- R takes in the updates that the other languages and a saving `Model` send, and what R sends
any of them takes in. -/
theorem r_updates_portable :
    (∀ (same : Path → Path → Bool) (sender : Language) (fields : Bindings),
      sender.IsTree (.dict fields) → (Value.dict fields).jsonWith true = true →
      (Value.dict fields).nesting ≤ maxDepth → RFits (Value.dict fields).plain →
      ∃ data buffers, sender.buildUpdate same fields = .ok (data, buffers) ∧
        RTakes data buffers fields) ∧
    (∀ model : Front.Model, model.Ready → Front.AllInts Exact (.dict model.dirtyState) →
      model.dirty ≠ [] → RFits (Value.dict model.dirtyState).plain →
      ∃ data buffers, model.saveChanges.2 = some (data, buffers) ∧
        Front.stringified (.dict data) = .dict data ∧ RTakes data buffers model.dirtyState) ∧
    ∀ fields : Bindings, (Value.dict fields).Wf → (Value.dict fields).json = true →
      RHolds (.dict fields) → (Value.dict fields).kept = true →
      (Value.dict fields).nesting ≤ maxDepth →
      ∃ data buffers, R.buildUpdate (.dict fields) = .ok (data, buffers) ∧
        Carries data buffers fields ∧
          (RFits (Value.dict fields).plain → RTakes data buffers fields) := by
  refine ⟨fun same sender fields htree hjson hnesting hfits => ?_,
    fun model hready hexact hdirty hfits => ?_, fun fields hwf hjson _ hkept hnesting => ?_⟩
  · exact ⟨_, _, sender.buildUpdate_eq same htree hnesting, rTakes_updateData htree.1 hjson hfits⟩
  · have hwire := Front.Model.onWire_dirtyState hready
    rw [Front.Model.saveChanges_eq hready hdirty]
    exact ⟨_, _, rfl, stringified_saved hready hexact,
      rTakes_updateData hwire.wf (jsonWith_of_json hwire.json) hfits⟩
  · exact ⟨_, _, R.buildUpdate_eq hwf hjson hkept hnesting,
      carries_updateData hwf (jsonWith_of_json hjson),
      rTakes_updateData hwf (jsonWith_of_json hjson)⟩

/-- What R holds of a container, part by part. -/
theorem RHolds.of_children {v : Value} (hv : v.isContainer = true)
    (hkey : ∀ s, v.child (.str s) ≠ none → NoNul s)
    (hbelow : ∀ key c, v.child key = some c → RHolds c) : RHolds v where
  numbers path i hi := by
    cases path with
    | nil =>
        cases v <;> cases hi
        cases hv
    | cons key path =>
        obtain ⟨c, hc, hi⟩ := Option.bind_eq_some_iff.mp hi
        exact (hbelow key c hc).numbers path i hi
  strings path s hs := by
    cases path with
    | nil =>
        cases v <;> cases hs
        cases hv
    | cons key path =>
        obtain ⟨c, hc, hs⟩ := Option.bind_eq_some_iff.mp hs
        exact (hbelow key c hc).strings path s hs
  texts path s hs hlook := by
    cases path with
    | nil => exact absurd hs List.not_mem_nil
    | cons key path =>
        rw [look] at hlook
        cases hc : v.child key with
        | none => simp [hc] at hlook
        | some c =>
            rcases List.mem_cons.mp hs with rfl | hs
            · exact hkey s (by simp [hc])
            · exact (hbelow key c hc).texts path s hs (by simpa [hc] using hlook)

theorem RHolds.of_leaf {v : Value} (hv : v.isContainer = false)
    (hint : ∀ i, v = .int i → IsDouble i) (hstr : ∀ s, v = .str s → NoNul s) : RHolds v where
  numbers := Front.allInts_leaf hv hint
  strings path s hs := by
    by_cases hpath : path = []
    · subst hpath
      apply hstr
      cases v <;> simp_all [look, label]
    · rw [Front.look_leaf hv hpath] at hs
      cases hs
  texts path s hs hlook := absurd (Front.look_leaf hv (List.ne_nil_of_mem hs)) hlook

/-- What R reads of a value, part by part. -/
theorem RFits.of_children {v : Value} (hv : v.isContainer = true)
    (hkey : ∀ s, v.child (.str s) ≠ none → s ≠ "" ∧ NoNul s)
    (hlength : ∀ n, v.label = .list n → R.ListFits n)
    (hbelow : ∀ key c, v.child key = some c → RFits c) : RFits v where
  toRHolds := RHolds.of_children hv (fun s hs => (hkey s hs).2)
    fun key c hc => (hbelow key c hc).toRHolds
  names path hpath := by
    cases path with
    | nil => exact absurd hpath List.not_mem_nil
    | cons key path =>
        rw [look]
        cases hc : v.child key with
        | none => rfl
        | some c =>
            rcases List.mem_cons.mp hpath with rfl | hpath
            · exact absurd rfl (hkey "" (by simp [hc])).1
            · exact (hbelow key c hc).names path hpath
  lists path n hlook := by
    cases path with
    | nil => exact hlength n (Option.some.inj hlook)
    | cons key path =>
        obtain ⟨c, hc, hlook⟩ := Option.bind_eq_some_iff.mp hlook
        exact (hbelow key c hc).lists path n hlook

theorem RFits.of_leaf {v : Value} (hv : v.isContainer = false)
    (hint : ∀ i, v = .int i → IsDouble i) (hstr : ∀ s, v = .str s → NoNul s) : RFits v where
  toRHolds := RHolds.of_leaf hv hint hstr
  names path hpath := Front.look_leaf hv (List.ne_nil_of_mem hpath)
  lists path n hlook := by
    by_cases hpath : path = []
    · subst hpath
      cases v <;> cases hlook
      cases hv
    · rw [Front.look_leaf hv hpath] at hlook
      cases hlook

namespace RUpdatesWitness

open PortabilityWitness R.WireWitness

/-- Each entry of an object is one that R reads. -/
theorem fits_dict {kvs : Bindings} (h : ∀ entry ∈ kvs,
    (∀ s, entry.1 = .str s → s ≠ "" ∧ NoNul s) ∧ RFits entry.2) : RFits (.dict kvs) := by
  refine RFits.of_children rfl (fun s hs => ?_) (fun n hlabel => by cases hlabel)
    fun key c hc => (h _ (mem_items_of_child hc)).2
  obtain ⟨c, hc⟩ := Option.ne_none_iff_exists'.mp hs
  exact (h _ (mem_items_of_child hc)).1 s rfl

theorem fits_slide : RFits (Value.dict slide.fields).plain := by
  have hnull : RFits (.scalar .none) := RFits.of_leaf rfl (by simp) (by simp)
  have hbin : ∀ b, RFits (.bin b) := fun b => RFits.of_leaf rfl (by simp) (by simp)
  have himage : RFits (.list [.scalar .none, .bin ⟨.bytes, [65]⟩]) := by
    refine RFits.of_children rfl (fun s hs => absurd rfl hs) (fun n hlabel => ?_)
      fun key c hc => ?_
    · cases hlabel
      exact Nat.lt_of_sub_eq_succ rfl
    · obtain ⟨n, -, hn⟩ := mem_enumItems_iff.mp (child_seq_iff.mp hc)
      rcases List.mem_pair.mp (List.mem_of_getElem? hn) with rfl | rfl
      · exact hnull
      · exact hbin _
  apply fits_dict
  rintro entry hentry
  rcases List.mem_pair.mp hentry with rfl | rfl
  · refine ⟨fun s hs => ?_, RFits.of_leaf rfl (fun i hi => by cases hi) fun s hs => ?_⟩
    · cases hs
      decide
    · cases hs
      decide
  · refine ⟨fun s hs => ?_, himage⟩
    cases hs
    decide

theorem fits_one : RFits (.int 1) :=
  RFits.of_leaf rfl (by rintro i ⟨⟩; exact isDouble_of_lt (by decide)) (by simp)

theorem fits_n : RFits (Value.dict ((Front.Model.new []).set "n" (.int 1)).1.dirtyState).plain := by
  apply fits_dict
  intro entry hentry
  cases List.mem_singleton.mp hentry
  refine ⟨fun s hs => ?_, fits_one⟩
  cases hs
  decide

theorem holds_sized : RHolds (.dict sized) := by
  refine (fits_dict fun entry hentry => ?_).toRHolds
  cases List.mem_singleton.mp hentry
  refine ⟨fun s hs => ?_, fits_dict fun entry hentry => ?_⟩
  · cases hs
    decide
  · rcases List.mem_pair.mp hentry with rfl | rfl
    · refine ⟨fun s hs => ?_, RFits.of_leaf rfl (by simp) (by simp)⟩
      cases hs
      decide
    · refine ⟨fun s hs => ?_, fits_one⟩
      cases hs
      decide

end RUpdatesWitness

open PortabilityWitness R.WireWitness RUpdatesWitness in
theorem r_updates_portable_slide :
    (∃ data buffers, Language.julia.buildUpdate (fun _ _ => true) slide.fields =
        .ok (data, buffers) ∧ RTakes data buffers slide.fields) ∧
      (∃ data buffers, ((Front.Model.new []).set "n" (.int 1)).1.saveChanges.2 =
        some (data, buffers) ∧ Front.stringified (.dict data) = .dict data ∧
          RTakes data buffers ((Front.Model.new []).set "n" (.int 1)).1.dirtyState) ∧
      ∃ data buffers, R.buildUpdate (.dict sized) = .ok (data, buffers) ∧
        Carries data buffers sized := by
  have htree : Language.julia.IsTree (.dict slide.fields) :=
    ⟨slide.wf, fun _ => untupled_of_json (by decide)⟩
  have hready : ((Front.Model.new []).set "n" (.int 1)).1.Ready := by
    have hone : Front.OnWire (.int 1) := Front.onWire_leaf rfl rfl (by decide)
    have hsets : ∀ kv ∈ [("n", Value.int 1)], kv.1 ≠ "__proto__" ∧ Front.OnWire kv.2 := by
      simp [hone]
    have hnew : (Front.Model.new []).dirty = [] := rfl
    exact (Front.Model.ready_setAll hnew hsets).1
  have hexact : Front.AllInts Exact
      (.dict ((Front.Model.new []).set "n" (.int 1)).1.dirtyState) :=
    Front.allInts_dict_iff.mpr fun key value hvalue => by
      cases List.mem_singleton.mp (Dict.mem_of_lookup hvalue)
      exact Front.allInts_leaf rfl (by
        rintro i ⟨⟩
        exact exact_of_lt (by decide))
  obtain ⟨data, buffers, hbuild, hcarries, -⟩ :=
    r_updates_portable.2.2 sized (by decide) (by decide) holds_sized (by decide) (by decide)
  exact ⟨r_updates_portable.1 _ .julia slide.fields htree storable_slide.json
      storable_slide.nesting fits_slide,
    r_updates_portable.2.1 _ hready hexact (by decide) fits_n, data, buffers, hbuild, hcarries⟩

end Cositos
