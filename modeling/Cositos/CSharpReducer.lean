/-
The C# reducer does what the Python reducer does, but for buffers of an update that no
path speaks of: it leaves them alone where Python raises.
-/
import Cositos.CSharpLifecycle
import Cositos.Lockstep

namespace Cositos

open Value Buffers

theorem Matches.trans {ε ε' ε'' α β γ : Type} {R : α → β → Prop} {S : β → γ → Prop}
    {x : Except ε α} {y : Except ε' β} {z : Except ε'' γ} (h : Matches R x y)
    (h' : Matches S y z) : Matches (fun a c => ∃ b, R a b ∧ S b c) x z := by
  cases h with
  | raises e e' =>
      cases h' with
      | raises _ e'' => exact .raises e e''
  | returns h =>
      cases h' with
      | returns h' => exact .returns ⟨_, h, h'⟩

/-- Lists of the value are short enough for C#. -/
def Value.ListsFit (v : Value) : Prop :=
  ∀ path n, v.look path = some (.list n) → CSharp.ListFits n

theorem Value.ListsFit.below {v c : Value} (h : v.ListsFit) {k : Key} (hc : v.child k = some c) :
    c.ListsFit := by
  intro path n hlook
  apply h (k :: path) n
  rwa [look_cons_of_child hc]

theorem Value.listsFit_of_writes {v w : Value} {path : Path} {b : Binary}
    (hwrites : Writes v path b w) (h : v.ListsFit) : w.ListsFit := by
  intro other n hlook
  rcases look_of_writes hwrites other with heq | ⟨_, hbin | hnone⟩
  · exact h other n (heq ▸ hlook)
  · rw [hbin] at hlook
    cases hlook
  · rw [hnone] at hlook
    cases hlook

theorem Value.listsFit_scalar (s : Scalar) : (Value.scalar s).ListsFit := by
  intro path n hlook
  cases path <;> simp [look, label] at hlook

theorem Value.listsFit_dict {kvs : Bindings} (h : ∀ kv ∈ kvs, kv.2.ListsFit) :
    (Value.dict kvs).ListsFit := by
  intro path n hlook
  cases path with
  | nil => simp [look, label] at hlook
  | cons key path =>
      obtain ⟨c, hc, hlook⟩ := Option.bind_eq_some_iff.mp hlook
      rw [child_dict] at hc
      exact h _ (Dict.mem_of_lookup hc) path n hlook

theorem Value.listsFit_list {xs : List Value} (hlength : CSharp.ListFits xs.length)
    (h : ∀ x ∈ xs, x.ListsFit) : (Value.list xs).ListsFit := by
  intro path n hlook
  cases path with
  | nil =>
      have heq : xs.length = n := by simpa [look, label] using hlook
      exact heq ▸ hlength
  | cons key path =>
      obtain ⟨c, hc, hlook⟩ := Option.bind_eq_some_iff.mp hlook
      obtain ⟨i, _, hi⟩ := mem_enumItems_iff.mp (child_seq_iff.mp hc)
      exact h c (List.mem_of_getElem? hi) path n hlook

namespace CSharp

/-! ### One buffer -/

theorem castDictionary_leaf {v : Value} (hleaf : v.isContainer = false) :
    castDictionary v = .ok none ∨ castDictionary v = .error .invalidCast := by
  cases v with
  | scalar s => cases s <;> simp [castDictionary]
  | bin b => exact Or.inr rfl
  | list xs | tuple xs | dict kvs => simp [Value.isContainer] at hleaf

theorem listIndex_leaf {v : Value} (hleaf : v.isContainer = false) (key : Key) :
    ∃ e, listIndex v key = .error e := by
  unfold listIndex
  cases v with
  | scalar s =>
      cases s with
      | none => cases htarget : toInt64 key <;>
          exact ⟨_, by simp [castList, deref, bind, Except.bind]; rfl⟩
      | _ => exact ⟨.invalidCast, rfl⟩
  | bin b => exact ⟨.invalidCast, rfl⟩
  | list xs | tuple xs | dict kvs => simp [Value.isContainer] at hleaf

theorem index_leaf {v : Value} (hleaf : v.isContainer = false) (key : Key) :
    ∃ e, index v key = .error e := by
  cases key with
  | str s =>
      rcases castDictionary_leaf hleaf with h | h <;>
        exact ⟨_, by simp [index, h, deref, bind, Except.bind]; rfl⟩
  | none | int i | frac q | other tag =>
      choose error herror using listIndex_leaf hleaf
      exact ⟨error _, by simp only [index, herror, bind, Except.bind]; rfl⟩

theorem assign_leaf {v : Value} (hleaf : v.isContainer = false) (key : Key) (x : Value) :
    ∃ e, assign v key x = .error e := by
  cases key with
  | str s =>
      rcases castDictionary_leaf hleaf with h | h <;>
        exact ⟨_, by simp [assign, h, deref, bind, Except.bind]; rfl⟩
  | none | int i | frac q | other tag =>
      choose error herror using listIndex_leaf hleaf
      exact ⟨error _, by simp only [assign, herror, bind, Except.bind]; rfl⟩

theorem putAt_cons {b : Binary} {obj key : Value} {path : List Value} (hpath : path ≠ []) :
    putAt b obj (key :: path) =
      (do
        let child ← index obj key.segment
        let child ← putAt b child path
        assign obj key.segment child) := by
  have hsegments : path.map Value.segment ≠ [] := by simpa using hpath
  exact Merger.putAt_cons hsegments

/-- The Julia and the C# step on one tree. -/
theorem putAt_leaf {v : Value} (hleaf : v.isContainer = false) (b : Binary)
    (segments : List Value) : ∃ e, putAt b v segments = .error e := by
  cases segments with
  | nil => exact ⟨_, rfl⟩
  | cons key rest =>
      by_cases hrest : rest = []
      · subst hrest
        exact assign_leaf hleaf key.segment (.bin b)
      · obtain ⟨e, he⟩ := index_leaf hleaf key.segment
        exact ⟨e, by rw [putAt_cons hrest, he]; rfl⟩

/-- What both languages do at a position that a segment fits. -/
theorem step_matches {v key : Value} (hcontainer : v.isContainer = true)
    (huntupled : v.Untupled) (hfits : v.ListsFit) (hkey : Fits key (some v.label)) :
    (Matches Eq (Julia.getIndex v key) (index v key.segment) ∧
      ∀ c, Julia.getIndex v key = .ok c → ∃ k, key = Key.toValue k ∧ v.child k = some c) ∧
    ∀ c, Matches Eq (Julia.setIndex v key c) (assign v key.segment c) ∧
      Julia.withIndex v key c = Julia.setIndex v key c := by
  cases v with
  | scalar s | bin b => simp [Value.isContainer] at hcontainer
  | tuple xs => exact absurd rfl (huntupled [] xs.length)
  | dict kvs =>
      obtain ⟨s, rfl⟩ := hkey
      refine ⟨⟨?_, fun c hc => ⟨.str s, rfl, ?_⟩⟩, fun c => ⟨.returns rfl, rfl⟩⟩
      · simp only [Julia.getIndex, Julia.integer?, Value.segment, Scalar.key, index,
          castDictionary, deref, bind, Except.bind]
        cases kvs.lookup (.str s) with
        | none => exact .raises _ _
        | some c => exact .returns rfl
      · rw [child_dict]
        exact (Julia.walks_putAt ⟨.bytes, []⟩).dict kvs s c hc
  | list xs =>
      obtain ⟨i, rfl, hi⟩ := hkey
      have hlist : ListFits xs.length := hfits [] xs.length rfl
      have hindex := Julia.vectorIndex_ofNat hi
      refine ⟨⟨?_, fun c hc => ⟨.int i, rfl, ?_⟩⟩, fun c => ⟨?_, rfl⟩⟩
      · have hget : index (.list xs) (.int i) = .ok xs[i] :=
          index_element hlist (List.getElem?_eq_getElem hi)
        simp only [Julia.getIndex, Julia.integer?, Value.segment, Scalar.key, hget, hindex, bind,
          Except.bind, pure, Except.pure]
        exact .returns (by simp [hi])
      · exact (Julia.walks_putAt ⟨.bytes, []⟩).list xs i c hc
      · have hset : assign (.list xs) (.int i) c = .ok (.list (xs.set i c)) :=
          assign_element c hlist hi
        simp only [Julia.setIndex, Julia.integer?, Value.segment, Scalar.key, hset, hindex, bind,
          Except.bind, pure, Except.pure]
        exact .returns rfl

/-- One buffer into one tree: the same result in Julia and in C#. -/
theorem putAt_matches {v : Value} (huntupled : v.Untupled) (hfits : v.ListsFit) (b : Binary)
    {segments : List Value} (hfollows : Follows v segments) :
    Matches Eq (Julia.putAt b v segments) (putAt b v segments) := by
  induction segments generalizing v with
  | nil => exact .raises _ _
  | cons key rest ih =>
      by_cases hcontainer : v.isContainer = true
      · obtain ⟨⟨hget, hchild⟩, hset⟩ :=
          step_matches hcontainer huntupled hfits hfollows.head
        by_cases hrest : rest = []
        · subst hrest
          exact (hset (.bin b)).1
        · rw [Julia.putAt_cons hrest, putAt_cons hrest]
          cases hjulia : Julia.getIndex v key with
          | error e =>
              rw [hjulia] at hget
              generalize index v key.segment = got at hget ⊢
              cases hget
              exact .raises _ _
          | ok c =>
              obtain ⟨k, rfl, hc⟩ := hchild c hjulia
              rw [hjulia] at hget
              generalize index v k.toValue.segment = got at hget ⊢
              cases hget with
              | returns heq =>
                  subst heq
                  apply Matches.bind
                    (ih (huntupled.below hc) (hfits.below hc) (hfollows.below hc))
                  rintro c' _ rfl
                  rw [(hset c').2]
                  exact (hset c').1
      · have hleaf : v.isContainer = false := Bool.eq_false_iff.mpr hcontainer
        obtain ⟨e, he⟩ := putAt_leaf hleaf b (key :: rest)
        rw [he]
        cases hput : Julia.putAt b v (key :: rest) with
        | error e' => exact .raises e' e
        | ok w => exact absurd hput ((Julia.walks_putAt b).leaf v _ w hleaf)

/-! ### All buffers of an update -/

/-- A buffer that Julia put in stands where its path says. -/
theorem writes_of_julia {v w : Value} {b : Binary} {segments : List Value}
    (huntupled : v.Untupled) (hfollows : Follows v segments)
    (h : Julia.putAt b v segments = .ok w) : ∃ path, Writes v path b w := by
  obtain ⟨path, rfl, hset⟩ := (Julia.walks_putAt b).settable huntupled hfollows h
  have hreaches : Merger.Reaches (fun key => ∃ s, key = .str s) (fun _ => True) v path := by
    refine ⟨hset, fun front key rest heq => ?_⟩
    have hfits := hfollows front key.toValue (rest.map Key.toValue) (by simp [heq])
    cases hlabel : v.look front with
    | none => trivial
    | some label =>
        rw [hlabel] at hfits
        cases label with
        | dict =>
            obtain ⟨s, hs⟩ := hfits
            exact ⟨s, key_of_str hs⟩
        | tuple n => exact absurd hlabel (huntupled front n)
        | scalar s | bin b | list n => trivial
  obtain ⟨w', hput, hwrites⟩ := Merger.putAt_reaches Julia.standard_merger hreaches b
  rw [Julia.putAt_eq_merger, hput] at h
  cases h
  exact ⟨path, hwrites⟩

/-- The loops over the pairs; C# stops at the last path. -/
theorem putEach_matches {v : Value} (huntupled : v.Untupled) (hfits : v.ListsFit)
    {paths : List (List Value)} {buffers : List Binary} (hlength : paths.length ≤ buffers.length)
    (hfollows : ∀ path ∈ paths, Follows v path) :
    Matches Eq (Julia.putEach v ((paths.map Value.list).zip buffers))
      (putEach v (paths.map Value.list) buffers) := by
  induction paths generalizing v buffers with
  | nil => exact .returns rfl
  | cons path paths ih =>
      cases buffers with
      | nil => simp at hlength
      | cons b buffers =>
          have hfirst := hfollows path List.mem_cons_self
          have hstep := putAt_matches huntupled hfits b hfirst
          simp only [List.map_cons, List.zip_cons_cons, Julia.putEach, putEach, Julia.segments]
          cases hjulia : Julia.putAt b v path with
          | error e =>
              rw [hjulia] at hstep
              generalize putAt b v path = put at hstep ⊢
              cases hstep
              simp only [bind, Except.bind, hjulia]
              exact .raises _ _
          | ok w =>
              obtain ⟨position, hwrites⟩ := writes_of_julia huntupled hfirst hjulia
              rw [hjulia] at hstep
              generalize putAt b v path = put at hstep ⊢
              cases hstep with
              | returns heq =>
                  subst heq
                  simp only [bind, Except.bind, hjulia]
                  apply ih (untupled_of_writes hwrites huntupled)
                    (listsFit_of_writes hwrites hfits) (Nat.le_of_succ_le_succ hlength)
                  intro other hother
                  exact follows_of_writes hwrites (hfollows other (List.mem_cons_of_mem _ hother))

theorem putEach_short {paths : List (List Value)} {buffers : List Binary}
    (hlength : buffers.length < paths.length) (v : Value) :
    ∃ e, putEach v (paths.map Value.list) buffers = .error e := by
  induction paths generalizing v buffers with
  | nil => simp at hlength
  | cons path paths ih =>
      cases buffers with
      | nil => exact ⟨_, rfl⟩
      | cons b buffers =>
          simp only [List.map_cons, putEach, bind, Except.bind]
          cases putAt b v path with
          | error e => exact ⟨e, rfl⟩
          | ok w => exact ih (Nat.lt_of_succ_lt_succ hlength) w

/-- The merge of an update whose surplus buffers Julia does not get to see. -/
theorem mergeUpdate_matches {kvs : Bindings} (huntupled : (Value.dict kvs).Untupled)
    (hfits : (Value.dict kvs).ListsFit) {paths : List (List Value)}
    (hfollows : ∀ path ∈ paths, Follows (.dict kvs) path) (buffers : List Binary) :
    Matches Eq (Julia.mergeUpdate (.dict kvs) (.list (paths.map Value.list))
        (buffers.take paths.length))
      (mergeUpdate (.dict kvs) (.list (paths.map Value.list)) buffers) := by
  by_cases hlength : paths.length ≤ buffers.length
  · have htake : (buffers.take paths.length).length = (paths.map Value.list).length := by
      simp [hlength]
    have hzip : (paths.map Value.list).zip (buffers.take paths.length) =
        (paths.map Value.list).zip buffers := by
      conv_rhs => rw [List.zip_eq_zip_take_min, List.length_map, Nat.min_eq_left hlength,
        List.take_of_length_le (by simp)]
    have heach := putEach_matches huntupled hfits hlength hfollows
    simp only [Julia.mergeUpdate, Julia.dictOf, Julia.putBuffers, Julia.elements, mergeUpdate,
      castDictionary, bind, Except.bind, htake, hzip, ne_eq, not_true_eq_false, if_false]
    generalize Julia.putEach _ _ = left at heach ⊢
    generalize putEach _ _ _ = right at heach ⊢
    cases heach with
    | raises e e' => exact .raises e e'
    | returns heq => exact .returns (congrArg Value.bindings heq)
  · have hshort := not_le.mp hlength
    obtain ⟨e, he⟩ := putEach_short hshort (.dict kvs)
    have hmismatch : (paths.map Value.list).length ≠ (buffers.take paths.length).length := by
      simp
      omega
    simp only [Julia.mergeUpdate, Julia.dictOf, Julia.putBuffers, Julia.elements, mergeUpdate,
      castDictionary, bind, Except.bind, he, if_pos hmismatch]
    exact .raises _ _

end CSharp

/-! ### Messages -/

/-- The buffers of a message that its update has paths for; other messages keep
them all. -/
def Protocol.spokenFor (data : Bindings) (buffers : List Binary) : List Binary :=
  match Protocol.get data "method" .none, Protocol.get data "buffer_paths" (.list []) with
  | .str "update", .list paths => buffers.take paths.length
  | _, _ => buffers

theorem Protocol.spokenFor_update {data : Bindings} {paths : List Value}
    (hmethod : Protocol.get data "method" .none = .str "update")
    (hpaths : Protocol.get data "buffer_paths" (.list []) = .list paths) (buffers : List Binary) :
    Protocol.spokenFor data buffers = buffers.take paths.length := by
  simp only [Protocol.spokenFor, hmethod, hpaths]

theorem Protocol.spokenFor_other {data : Bindings}
    (hmethod : Protocol.get data "method" .none ≠ .str "update") (buffers : List Binary) :
    Protocol.spokenFor data buffers = buffers := by
  unfold Protocol.spokenFor
  split
  · next heq _ => exact absurd heq hmethod
  · rfl

/-- The event without the buffers that no path speaks of. -/
def Event.trimmed : Event → Event
  | .inbound (.dict data) buffers => .inbound (.dict data) (Protocol.spokenFor data buffers)
  | event => event

/-- The lists of an inbound message are short enough for C#. -/
def Event.ListsFit : Event → Prop
  | .inbound message _ => message.ListsFit
  | _ => True

theorem SameMessage.symm {data data' : Bindings} (h : SameMessage data data') :
    SameMessage data' data := by
  have hstate := get_alike h.equiv "state" (.dict [])
  have hpaths := get_alike h.equiv "buffer_paths" (.list [])
  have hleft := untupled_get h.left "state" (untupled_of_json (v := .dict []) rfl)
  have hright := untupled_get h.right "state" (untupled_of_json (v := .dict []) rfl)
  have hright' := untupled_get h.right "buffer_paths" (untupled_of_json (v := .list []) rfl)
  obtain ⟨kvs, hkvs⟩ := h.state
  obtain ⟨paths, heq, hfollows⟩ := h.bufferPaths
  rw [heq] at hpaths
  obtain ⟨paths', hseq, halike⟩ := exists_seq_of_plain (Setoid.symm hpaths)
  have hlist : Protocol.get data' "buffer_paths" (.list []) = .list paths' := by
    rcases hseq with hlist | htuple
    · exact hlist
    · exact absurd (by rw [htuple]; rfl) (hright' [] paths'.length)
  refine ⟨h.right, h.left, Setoid.symm h.equiv, ?_, paths', hlist, fun path' hpath' => ?_⟩
  · rw [hkvs] at hstate
    exact exists_dict_of_plain (Setoid.symm hstate)
  · obtain ⟨n, hn, hget⟩ := List.mem_iff_getElem.mp hpath'
    have hlength := List.Forall₂.length_eq halike
    have hsame := (List.forall₂_iff_get.mp halike).2 n hn (by omega)
    obtain ⟨segments, hsegments, hfits⟩ :=
      hfollows _ (List.getElem_mem (by omega : n < paths.length))
    simp only [List.get_eq_getElem, hget, hsegments] at hsame
    obtain ⟨segments', hpath, halikes⟩ := exists_seq_of_plain hsame
    have hchild : (Value.list paths').child (.int n) = some path' := by
      simp [child, hn, hget]
    have huntupled := (hlist ▸ hright').below hchild
    rcases hpath with rfl | rfl
    · exact ⟨segments', rfl, hfits.alike ⟨hleft, hright, hstate⟩ halikes.symm⟩
    · exact absurd rfl (huntupled [] segments'.length)

/-- As many paths on both sides. -/
theorem SameMessage.raws_spokenFor {data data' : Bindings} (h : SameMessage data data')
    {buffers buffers' : List Binary} (hraws : raws buffers = raws buffers') :
    raws (Protocol.spokenFor data buffers) = raws (Protocol.spokenFor data' buffers') := by
  obtain ⟨paths, hpaths, _⟩ := h.bufferPaths
  obtain ⟨paths', hpaths', _⟩ := h.symm.bufferPaths
  have hlength : paths.length = paths'.length := by
    have hequiv := get_alike h.equiv "buffer_paths" (.list [])
    rw [hpaths, hpaths'] at hequiv
    have hlabel := (Front.equiv_iff_child.mp hequiv).1
    simpa [plain, plainSeq_eq, label] using hlabel
  by_cases hupdate : Protocol.get data "method" .none = .str "update"
  · have hupdate' := (h.method_iff "update").mp hupdate
    rw [Protocol.spokenFor_update hupdate hpaths, Protocol.spokenFor_update hupdate' hpaths',
      raws, raws, List.map_take, List.map_take, hlength]
    exact congrArg (List.take paths'.length) hraws
  · have hupdate' := fun heq => hupdate ((h.method_iff "update").mpr heq)
    rw [Protocol.spokenFor_other hupdate, Protocol.spokenFor_other hupdate', hraws]

theorem SameEvent.trimmed {event event' : Event} (h : SameEvent event event') :
    SameEvent event.trimmed event'.trimmed := by
  cases h with
  | inbound hmessage hbuffers => exact .inbound hmessage (hmessage.raws_spokenFor hbuffers)
  | sendCustom hcontent hbuffers => exact .sendCustom hcontent hbuffers
  | openComm | sendState | closeComm | commIdAssigned => constructor

/-! ### The reducers -/

namespace CSharp

/-- A Julia state beside itself. -/
theorem sameState_self {v w : Bindings} (h : SameState v w) : SameState w w :=
  ⟨h.right, h.right, h.untupled, Setoid.refl _⟩

theorem immutableFields_eq :
    immutableFields Protocol.anywidgetModuleVersion = Julia.julia.immutableFields := rfl

theorem removeBuffers_matches {w : Value} (hw : w.Wf) (huntupled : w.Untupled) :
    Matches Eq (Julia.removeBuffers w) (removeBuffers w) := by
  have hjulia := Language.removeBuffers_tree (fun _ _ => true) .julia (v := w)
    ⟨hw, fun _ => huntupled⟩
  have hcsharp := Language.removeBuffers_tree (fun _ _ => true) .csharp (v := w)
    ⟨hw, fun _ => huntupled⟩
  by_cases hdeep : w.nesting ≤ maxDepth
  · have hok : Julia.removeBuffers w = .ok w.split := hjulia.1 hdeep
    have hok' : removeBuffers w = .ok w.split := hcsharp.1 hdeep
    rw [hok, hok']
    exact .returns rfl
  · obtain ⟨p, hp⟩ := hjulia.2 (not_le.mp hdeep)
    obtain ⟨p', hp'⟩ := hcsharp.2 (not_le.mp hdeep)
    have herror : Julia.removeBuffers w = .error (.nesting p) := hp
    have herror' : removeBuffers w = .error (.nesting p') := hp'
    rw [herror, herror']
    exact .raises _ _

theorem buildUpdate_matches {w : Bindings} (h : SameState w w) :
    Matches Eq (Julia.buildUpdate w) (buildUpdate w) := by
  apply Matches.bind (removeBuffers_matches h.right h.untupled)
  rintro split _ rfl
  exact .returns rfl

theorem buildCommOpen_matches {w : Bindings} (h : SameState w w) :
    Matches Eq (Julia.buildCommOpen w) (buildCommOpen w) := by
  unfold Julia.buildCommOpen buildCommOpen
  rw [immutableFields_eq]
  apply Matches.bind (removeBuffers_matches h.update.right h.update.untupled)
  rintro split _ rfl
  exact .returns rfl

theorem reduceOpen_matches {w : Bindings} (h : SameState w w) (phase : Phase)
    (capabilities : TransportCapabilities) :
    Matches Eq (Julia.julia.reduceOpen phase w capabilities)
      (csharp.reduceOpen phase w capabilities) := by
  have hopened : Matches Eq (Julia.julia.reduceOpen .unopened w capabilities)
      (csharp.reduceOpen .unopened w capabilities) := by
    have hbuild := buildCommOpen_matches h.update
    simp only [Port.reduceOpen, csharp, immutableFields_eq]
    apply Matches.bind hbuild
    rintro ⟨data, buffers, metadata⟩ _ rfl
    cases capabilities.supportsReceive <;> exact .returns rfl
  cases phase with
  | opened => exact .returns rfl
  | unopened | closed => exact hopened

theorem reduceSendState_matches {w : Bindings} (h : SameState w w) (phase : Phase)
    (include? : Option (List Key)) :
    Matches Eq (Julia.julia.reduceSendState phase include? w)
      (csharp.reduceSendState phase include? w) := by
  by_cases hphase : phase = .opened
  · subst hphase
    cases include? with
    | none =>
        simp only [Port.reduceSendState, csharp, immutableFields_eq, ne_eq, not_true_eq_false,
          if_false]
        apply Matches.bind (buildUpdate_matches h.update)
        rintro ⟨data, buffers⟩ _ rfl
        exact .returns rfl
    | some keys =>
        apply Matches.bind (buildUpdate_matches (h.filter keys))
        rintro ⟨data, buffers⟩ _ rfl
        exact .returns rfl
  · simp only [Port.reduceSendState, hphase, ne_eq, not_false_eq_true, if_true]
    exact .returns rfl

/-- What C# makes of a message that other languages read as an update. -/
theorem parseMessage_update {data : Bindings} {kvs : Bindings} {paths : List (List Value)}
    (hmethod : Protocol.get data "method" .none = .str "update")
    (hstate : Protocol.get data "state" (.dict []) = .dict kvs)
    (hpaths : Protocol.get data "buffer_paths" (.list []) = .list (paths.map Value.list)) :
    parseMessage (.dict data) = .ok (.update (.dict kvs) (.list (paths.map Value.list))) := by
  have hfield : field data "state" (.dict []) = .dict kvs := by
    unfold field
    unfold Protocol.get at hstate ⊢
    cases hlookup : data.lookup (.str "state") with
    | none => simpa [hlookup] using hstate
    | some state =>
        rw [hlookup] at hstate
        have heq : state = .dict kvs := hstate
        rw [heq]
        rfl
  have hbuffers : bufferPathsOf data = paths.map Value.list := by
    unfold bufferPathsOf
    unfold Protocol.get at hpaths ⊢
    cases hlookup : data.lookup (.str "buffer_paths") with
    | none => simpa [hlookup] using hpaths
    | some bufferPaths =>
        rw [hlookup] at hpaths
        have heq : bufferPaths = .list (paths.map Value.list) := hpaths
        rw [heq]
        rfl
  have hcast : (paths.map Value.list).mapM castPath = .ok (paths.map Value.list) := by
    apply mapM_of_forall₂
    simp [List.forall₂_map_left_iff, List.forall₂_same, castPath]
  simp only [parseMessage, hmethod, hfield, hbuffers, hcast, bind, Except.bind, pure, Except.pure]

/-- The paths of a message, as lists of segments. -/
theorem exists_paths {data : Bindings} (h : SameMessage data data) :
    ∃ (kvs : Bindings) (paths : List (List Value)),
      Protocol.get data "state" (.dict []) = .dict kvs ∧
      Protocol.get data "buffer_paths" (.list []) = .list (paths.map Value.list) ∧
      (Value.dict kvs).Untupled ∧ ∀ path ∈ paths, Follows (.dict kvs) path := by
  obtain ⟨kvs, hkvs⟩ := h.state
  obtain ⟨items, hitems, hfollows⟩ := h.bufferPaths
  rw [hkvs] at hfollows
  have huntupled := untupled_get h.right "state" (untupled_of_json (v := .dict []) rfl)
  rw [hkvs] at huntupled
  have hpaths : ∃ paths : List (List Value), items = paths.map Value.list ∧
      ∀ path ∈ paths, Follows (.dict kvs) path := by
    clear hitems
    induction items with
    | nil => exact ⟨[], rfl, by simp⟩
    | cons item items ih =>
        obtain ⟨segments, rfl, hfirst⟩ := hfollows item List.mem_cons_self
        obtain ⟨paths, rfl, hall⟩ := ih fun path hpath =>
          hfollows path (List.mem_cons_of_mem _ hpath)
        exact ⟨segments :: paths, rfl, List.forall_mem_cons.mpr ⟨hfirst, hall⟩⟩
  obtain ⟨paths, rfl, hall⟩ := hpaths
  exact ⟨kvs, paths, hkvs, hitems, huntupled, hall⟩

theorem listsFit_get {data : Bindings} {kvs : Bindings} (hfits : (Value.dict data).ListsFit)
    (hstate : Protocol.get data "state" (.dict []) = .dict kvs) : (Value.dict kvs).ListsFit := by
  unfold Protocol.get at hstate
  cases hlookup : data.lookup (.str "state") with
  | none =>
      rw [hlookup] at hstate
      have hnil : kvs = [] := by simpa [eq_comm] using hstate
      subst hnil
      intro path n hlook
      cases path <;> simp [look, label] at hlook
  | some state =>
      rw [hlookup] at hstate
      have heq : state = .dict kvs := hstate
      subst heq
      exact hfits.below (k := .str "state") (by rw [child_dict]; exact hlookup)

theorem reduceInbound_matches {w : Bindings} (h : SameState w w) {data : Bindings}
    (hmessage : SameMessage data data) (hfits : (Value.dict data).ListsFit)
    (buffers : List Binary) (phase : Phase) (capabilities : TransportCapabilities) :
    Matches Eq
      (Julia.julia.reduceInbound phase (.dict data) (Protocol.spokenFor data buffers) w
        capabilities)
      (csharp.reduceInbound phase (.dict data) buffers w capabilities) := by
  by_cases hphase : phase = .opened
  · subst hphase
    have hjulia : Julia.julia.parseMessage (.dict data) =
        .ok (Protocol.parseMessage (.dict data)) := rfl
    rw [Julia.julia.reduceInbound_opened hjulia]
    by_cases hupdate : Protocol.get data "method" .none = .str "update"
    · obtain ⟨kvs, paths, hstate, hpaths, huntupled, hfollows⟩ := exists_paths hmessage
      have hmerge := mergeUpdate_matches huntupled (listsFit_get hfits hstate) hfollows buffers
      have hparse : csharp.parseMessage (.dict data) =
          .ok (.update (.dict kvs) (.list (paths.map Value.list))) :=
        parseMessage_update hupdate hstate hpaths
      rw [csharp.reduceInbound_opened hparse, Cositos.parseMessage_update hupdate, hstate, hpaths,
        Protocol.spokenFor_update hupdate hpaths, List.length_map]
      apply Matches.bind hmerge
      rintro merged _ rfl
      exact .returns rfl
    rw [Protocol.spokenFor_other hupdate]
    by_cases hrequest : Protocol.get data "method" .none = .str "request_state"
    · have hparse : csharp.parseMessage (.dict data) = .ok .requestState := by
        simp [csharp, parseMessage, hrequest]
      rw [csharp.reduceInbound_opened hparse, parseMessage_requestState hrequest]
      cases hcaps : capabilities.supportsRequestState with
      | false =>
          simp only [Port.answer, hcaps, Bool.not_false, if_true]
          exact .returns rfl
      | true =>
          simp only [Port.answer, hcaps, Bool.not_true, Bool.false_eq_true, if_false]
          exact reduceSendState_matches h .opened none
    by_cases hcustom : Protocol.get data "method" .none = .str "custom"
    · have hparse : csharp.parseMessage (.dict data) =
          .ok (.custom (Protocol.get data "content" .none)) := by
        simp [csharp, parseMessage, hcustom]
      rw [csharp.reduceInbound_opened hparse, parseMessage_custom hcustom]
      exact .returns rfl
    · have hparse : ∃ method, csharp.parseMessage (.dict data) = .ok (.ignored method) := by
        simp only [csharp, parseMessage]
        split
        · next heq => exact absurd heq hupdate
        · next heq => exact absurd heq hrequest
        · next heq => exact absurd heq hcustom
        · exact ⟨_, rfl⟩
        · exact ⟨_, rfl⟩
      obtain ⟨method, hmethod⟩ := hparse
      rw [csharp.reduceInbound_opened hmethod, parseMessage_ignored hupdate hrequest hcustom]
      exact .returns rfl
  · rw [Port.reduceInbound_closed _ hphase, Port.reduceInbound_closed _ hphase]
    exact .returns rfl

/-- The C# reducer follows the Julia reducer, which does not get to see surplus buffers. -/
theorem reduce_matches {w : Bindings} (h : SameState w w) {event : Event}
    (hevent : SameEvent event event) (hfits : event.ListsFit) (phase : Phase)
    (capabilities : TransportCapabilities) :
    Matches Eq (Julia.julia.reduce phase event.trimmed w capabilities)
      (csharp.reduce phase event w capabilities) := by
  cases hevent with
  | openComm => exact reduceOpen_matches h phase capabilities
  | sendState include? => exact reduceSendState_matches h phase include?
  | sendCustom _ _ =>
      simp only [Event.trimmed, Port.reduce, Port.reduceSendCustom]
      split_ifs <;> exact .returns rfl
  | inbound hmessage _ => exact reduceInbound_matches h hmessage hfits _ phase capabilities
  | closeComm =>
      simp only [Event.trimmed, Port.reduce, Port.reduceClose]
      split_ifs <;> exact .returns rfl
  | commIdAssigned id => exact .returns rfl

end CSharp

/-- The C# reducer refines the Python reducer: on every event it gives the answer that
Python gives to the event without the buffers no path of its update speaks of. -/
theorem csharp_refines_python {v w : Bindings} (hstate : SameState v w) {event event' : Event}
    (hevent : SameEvent event event') (hfits : event'.ListsFit) (phase : Phase)
    (capabilities : TransportCapabilities) :
    Matches SameAnswer (Lifecycle.reduce phase event.trimmed v capabilities)
      (CSharp.reduce phase event' w capabilities) := by
  rw [CSharp.reduce_eq]
  have hself : SameEvent event' event' := by
    cases hevent with
    | inbound hmessage hbuffers =>
        exact .inbound ⟨hmessage.right, hmessage.right, Setoid.refl _, hmessage.symm.state,
          hmessage.symm.bufferPaths⟩ rfl
    | sendCustom hcontent hbuffers => exact .sendCustom (Setoid.refl _) rfl
    | openComm | sendState | closeComm | commIdAssigned => constructor
  have hjulia := hevent.trimmed.reduce_alike hstate phase capabilities
  have hcsharp := CSharp.reduce_matches (CSharp.sameState_self hstate) hself hfits phase
    capabilities
  refine (hjulia.trans hcsharp).imp ?_
  rintro answer answer' ⟨_, hsame, rfl⟩
  exact hsame

namespace CSharpReducerWitness

open ReducersWitness

theorem listsFit_update : (Value.dict update).ListsFit := by
  have hstate : (Value.list [.none]).ListsFit :=
    listsFit_list (by simp [CSharp.ListFits]) (by simp [listsFit_scalar])
  have hpath : (Value.list [.str "xs", .int 0]).ListsFit :=
    listsFit_list (by simp [CSharp.ListFits]) (by simp [listsFit_scalar])
  apply listsFit_dict
  simp only [update, List.forall_mem_cons, listsFit_scalar, true_and]
  exact ⟨listsFit_dict (by simpa using hstate),
    listsFit_list (by simp [CSharp.ListFits]) (by simpa using hpath), by simp⟩

end CSharpReducerWitness

open ReducersWitness CSharpReducerWitness in
theorem csharp_refines_python_surplus :
    Matches SameAnswer
      (Lifecycle.reduce .opened (.inbound (.dict update) [⟨.bytes, [66]⟩]) picture {})
      (CSharp.reduce .opened (.inbound (.dict update) [⟨.bytes, [66]⟩, ⟨.bytes, [67]⟩])
        pictured {}) :=
  have hraws : raws [⟨.bytes, [66]⟩, ⟨.bytes, [67]⟩] = raws [⟨.bytes, [66]⟩, ⟨.bytes, [67]⟩] := rfl
  csharp_refines_python sameState (.inbound sameMessage hraws) listsFit_update .opened {}

end Cositos
