/-
Synchronisation of a front-end model and a host store.  The two parties are
seen as replicas that exchange partial updates, and the laws of replicas are
read back on them.  Numbers are compared as JavaScript reads them; under keys whose
integers it holds and spells in full, this is equality.
-/
import Cositos.Runs
import Cositos.TwoParty

namespace Cositos

open Front

/-! ### The replicas -/

/-- A value up to `≈`. -/
abbrev Known := Quotient Value.instSetoid

/-- What an object knows about each key. -/
def known (own : Bindings) (key : Key) : Option Known :=
  (own.lookup key).map (Quotient.mk Value.instSetoid)

theorem known_eq_iff {d e : Bindings} {key : Key} :
    known d key = known e key ↔ Agree (d.lookup key) (e.lookup key) := by
  rw [known, known]
  cases d.lookup key with
  | none => cases e.lookup key <;> simp
  | some v =>
      cases e.lookup key with
      | none => simp
      | some w => simp [Quotient.eq]

theorem known_eq_of_equiv {d e : Bindings} (h : Value.dict d ≈ .dict e) : known d = known e :=
  funext fun key => known_eq_iff.mpr (dict_equiv_iff.mp h key)

theorem known_eq_none_iff {d : Bindings} {key : Key} : known d key = none ↔ key ∉ Dict.keys d := by
  rw [known, Option.map_eq_none_iff, Dict.lookup_eq_none_iff]

theorem mem_keys_of_known {d : Bindings} {key : Key} (h : known d key ≠ none) :
    key ∈ Dict.keys d := by
  by_contra hno
  exact h (known_eq_none_iff.mpr hno)

/-! ### Numbers -/

/-- A value as JavaScript reads it. -/
def reading : Known → Known :=
  Quotient.map (withInts number) fun _ _ h => withInts_congr h

/-- What an object knows about each key, as JavaScript reads it. -/
def heard (own : Bindings) (key : Key) : Option Known := (known own key).map reading

theorem heard_eq_of_equiv {d e : Bindings} (h : Value.dict d ≈ .dict e) : heard d = heard e :=
  funext fun key => by rw [heard, heard, known_eq_of_equiv h]

theorem heard_eq_none_iff {d : Bindings} {key : Key} : heard d key = none ↔ key ∉ Dict.keys d := by
  rw [heard, Option.map_eq_none_iff, known_eq_none_iff]

theorem mem_keys_of_heard {d : Bindings} {key : Key} (h : heard d key ≠ none) :
    key ∈ Dict.keys d := by
  by_contra hno
  exact h (heard_eq_none_iff.mpr hno)

/-- Replacing the integers of what has replaced integers already. -/
theorem withInts_withInts {f g : Int → Scalar} {v : Value}
    (h : ∀ path i, v.look path = some (.scalar (.int i)) →
      labelWithInts g (.scalar (f i)) = .scalar (g i)) :
    withInts g (withInts f v) ≈ withInts g v := by
  intro path
  rw [look_withInts, look_withInts, look_withInts, Option.map_map]
  cases hlook : v.look path with
  | none => rfl
  | some label =>
      refine congrArg some ?_
      cases label with
      | scalar s =>
          cases s with
          | int i => exact h path i hlook
          | _ => rfl
      | _ => rfl

/-- Reading twice is reading once. -/
theorem number_withInts_number (v : Value) :
    withInts number (withInts number v) ≈ withInts number v := by
  refine withInts_withInts fun _ i _ => ?_
  cases hi : toNumber i with
  | none =>
      have hnumber : number i = infinity (i < 0) := by
        unfold number
        rw [hi]
      rw [hnumber]
      rfl
  | some j =>
      rw [number_of_toNumber hi]
      exact congrArg _ (number_eq (isDouble_of_toNumber hi))

/-- What JavaScript spells it reads again. -/
theorem number_stringified {v : Value} (h : OnWire v) :
    withInts number (stringified v) ≈ withInts number v := by
  refine withInts_withInts fun path i hlook => ?_
  have hlight : (toNumber i).isSome = true := h.light path _ hlook
  obtain ⟨j, hj⟩ := Option.isSome_iff_exists.mp hlight
  have hspelled : toNumber (spelled i) = some j := (toNumber_spelled i).trans hj
  rw [number_of_toNumber hj]
  exact congrArg _ (number_of_toNumber hspelled)

theorem heard_withInts {f : Int → Scalar} {d : Bindings}
    (h : ∀ key value, d.lookup key = some value →
      withInts number (withInts f value) ≈ withInts number value) :
    heard (withIntsEntries f d) = heard d := by
  funext key
  rw [heard, heard, known, known, lookup_withIntsEntries]
  cases hvalue : d.lookup key with
  | none => rfl
  | some value => exact congrArg some (Quotient.sound (h key value hvalue))

/-- What is heard of the numbers that were read, or spelled, is what is heard of the fields. -/
theorem heard_number (d : Bindings) : heard (withIntsEntries number d) = heard d :=
  heard_withInts fun _ value _ => number_withInts_number value

theorem heard_spelledFields {d : Bindings} (h : OnWire (.dict d)) :
    heard (spelledFields d) = heard d :=
  heard_withInts fun _ _ hvalue =>
    number_stringified ((onWire_dict_iff.mp h).2 _ (Dict.mem_of_lookup hvalue)).2.2

theorem heard_or {own d e : Bindings} {key : Key}
    (h : own.lookup key = (e.lookup key).or (d.lookup key)) :
    heard own key = (heard e key).or (heard d key) := by
  rw [heard, known, h, Option.map_or, Option.map_or]
  rfl

theorem heard_set {own d : Bindings} {name : Key} {value : Value} {key : Key}
    (h : own.lookup key = if key = name then some value else d.lookup key) :
    heard own key = if key = name then some (reading ⟦value⟧) else heard d key := by
  rw [heard, known, h]
  split_ifs <;> rfl

/-- Under these keys there are only integers that JavaScript holds and spells in full. -/
def ExactAt (keys : Key → Prop) (own : Bindings) : Prop :=
  ∀ key, keys key → ∀ value, own.lookup key = some value → AllInts Exact value

section ExactAt

variable {keys : Key → Prop} {d e : Bindings}

theorem exactAt_of_agree (h : ExactAt keys d)
    (hagree : ∀ key, keys key → Agree (e.lookup key) (d.lookup key)) : ExactAt keys e := by
  intro key hkey value hvalue
  have hsame := hagree key hkey
  rw [hvalue] at hsame
  cases hold : d.lookup key with
  | none =>
      rw [hold] at hsame
      cases hsame
  | some old =>
      rw [hold] at hsame
      cases hsame with
      | some hequiv => exact (h key hkey old hold).of_equiv hequiv

theorem ExactAt.of_equiv (h : ExactAt keys d) (hequiv : Value.dict e ≈ .dict d) :
    ExactAt keys e := exactAt_of_agree h fun key _ => dict_equiv_iff.mp hequiv key

/-- Exact integers are read, and spelled, as they are. -/
theorem ExactAt.withInts {f : Int → Scalar} (hf : ∀ i, Exact i → f i = .int i)
    (h : ExactAt keys d) : ExactAt keys (withIntsEntries f d) := by
  refine exactAt_of_agree h fun key hkey => ?_
  rw [lookup_withIntsEntries]
  cases hvalue : d.lookup key with
  | none => exact .none
  | some value => exact .some (withInts_equiv hf (h key hkey value hvalue))

theorem exactAt_or (h : ExactAt keys d) (h' : ExactAt keys e) {own : Bindings}
    (hown : ∀ key, own.lookup key = (e.lookup key).or (d.lookup key)) : ExactAt keys own := by
  intro key hkey value hvalue
  rw [hown] at hvalue
  rcases Option.or_eq_some_iff.mp hvalue with hnew | ⟨-, hold⟩
  · exact h' key hkey value hnew
  · exact h key hkey value hold

theorem exactAt_set (h : ExactAt keys d) {name : Key} {value : Value}
    (hvalue : keys name → AllInts Exact value) {own : Bindings}
    (hown : ∀ key, own.lookup key = if key = name then some value else d.lookup key) :
    ExactAt keys own := by
  intro key hkey held hheld
  rw [hown] at hheld
  split_ifs at hheld with hname
  · cases hheld
    exact hvalue (hname ▸ hkey)
  · exact h key hkey held hheld

theorem exactAt_sub (h : ExactAt keys d)
    (hsub : ∀ key value, e.lookup key = some value → d.lookup key = some value) :
    ExactAt keys e := fun key hkey value hvalue => h key hkey value (hsub key value hvalue)

theorem exactAt_immutableFields : ExactAt keys Lifecycle.immutableFields := by
  intro key _ value hvalue
  have hmem := Dict.mem_of_lookup hvalue
  rw [Lifecycle.immutableFields_eq] at hmem
  simp only [List.mem_cons, Prod.mk.injEq, List.not_mem_nil, or_false] at hmem
  rcases hmem with ⟨-, rfl⟩ | ⟨-, rfl⟩ | ⟨-, rfl⟩ | ⟨-, rfl⟩ | ⟨-, rfl⟩ | ⟨-, rfl⟩ | ⟨-, rfl⟩ <;>
    exact allInts_leaf rfl (by simp)

/-- What sounds the same under a key of exact integers is the same. -/
theorem agree_of_heard (hd : ExactAt keys d) (he : ExactAt keys e) {key : Key} (hkey : keys key)
    (h : heard d key = heard e key) : Agree (d.lookup key) (e.lookup key) := by
  rw [heard, heard, known, known] at h
  cases hv : d.lookup key with
  | none =>
      rw [hv] at h
      cases hw : e.lookup key with
      | none => exact .none
      | some w => simp [hw] at h
  | some v =>
      rw [hv] at h
      cases hw : e.lookup key with
      | none => simp [hw] at h
      | some w =>
          rw [hw] at h
          have hread : withInts number v ≈ withInts number w :=
            Quotient.exact (Option.some.inj h)
          have hexact : ∀ {x : Value}, AllInts Exact x → withInts number x ≈ x :=
            fun hx => number_equiv (hx.imp fun _ hi => hi.1)
          exact .some (Setoid.trans (Setoid.symm (hexact (hd key hkey v hv)))
            (Setoid.trans hread (hexact (he key hkey w hw))))

end ExactAt

/-- Fields that the wire carries, with exact integers under these keys. -/
structure Travels (keys : Key → Prop) (fields : Bindings) : Prop where
  wire : OnWire (.dict fields)
  exact : ExactAt keys fields

section Entries

variable {keys : Key → Prop} {entries : Bindings} {kv : Key × Value}

theorem Travels.of_mem (h : Travels keys entries) {part : Bindings}
    (hnodup : (Dict.keys part).Nodup) (hsub : ∀ kv ∈ part, kv ∈ entries) :
    Travels keys part := by
  obtain ⟨hkeys, hvalues⟩ := onWire_dict_iff.mp h.wire
  refine ⟨onWire_dict_iff.mpr ⟨hnodup, fun kv hkv => hvalues kv (hsub kv hkv)⟩,
    exactAt_sub h.exact fun key value hvalue => ?_⟩
  exact (Dict.lookup_eq_some_iff hkeys).mpr (hsub _ (Dict.mem_of_lookup hvalue))

theorem Travels.tail (h : Travels keys (kv :: entries)) : Travels keys entries :=
  h.of_mem (List.nodup_cons.mp (onWire_dict_iff.mp h.wire).1).2 fun _ => List.mem_cons_of_mem _

theorem Travels.single (h : Travels keys entries) (hkv : kv ∈ entries) : Travels keys [kv] :=
  h.of_mem (List.nodup_singleton _) fun _ hentry => List.mem_singleton.mp hentry ▸ hkv

theorem heard_single (kv : Key × Value) (key : Key) :
    heard [kv] key = if key = kv.1 then some (reading ⟦kv.2⟧) else none := by
  have hlookup : [kv].lookup key = if key = kv.1 then some kv.2 else ([] : Bindings).lookup key := by
    by_cases hkey : key = kv.1
    · rw [if_pos hkey, hkey, List.lookup_cons_self]
    · rw [if_neg hkey, Dict.lookup_cons_ne hkey]
  rw [heard_set hlookup]
  rfl

/-- One of several entries brings what they bring under its key. -/
theorem heard_of_mem (h : (Dict.keys entries).Nodup) (hkv : kv ∈ entries) {key : Key}
    (hcarries : heard [kv] key ≠ none) : heard [kv] key = heard entries key := by
  rw [heard_single] at hcarries ⊢
  by_cases hkey : key = kv.1
  · subst hkey
    rw [if_pos rfl, heard, known, (Dict.lookup_eq_some_iff h).mpr hkv]
    rfl
  · simp [hkey] at hcarries

end Entries

namespace TwoParty

/-- What a message brings the front end. -/
def bringsFront (message : Send) : Bindings :=
  match Model.incoming (parsed (.dict message.data)) message.buffers with
  | .ok entries => entries
  | .error _ => []

/-- What a message brings the host. -/
def bringsHost (message : Outbound) : Bindings :=
  match Protocol.parseMessage (stringified (.dict message.1)) with
  | .update state bufferPaths =>
      match Lifecycle.mergeUpdate state bufferPaths message.2 with
      | .ok merged => merged
      | .error _ => []
  | _ => []

/-- The system as replicas, the front end on the left. -/
def view (s : TwoParty) : Replicas Key Known where
  copy
    | .left => heard s.model.state
    | .right => heard s.kernel.store
  unsent
    | .left => {key | key ∈ s.model.dirty}
    | .right => {key | key ∈ s.unpublished}
  inbox
    | .left => s.toFront.map fun message => heard (bringsFront message)
    | .right => s.toHost.map fun message => heard (bringsHost message)

variable (capabilities : TransportCapabilities)

/-- The host answers the next message with its full state. -/
def Answers (s : TwoParty) : Prop :=
  s.toHost.head? = some Model.requestState ∧ capabilities.supportsRequestState = true ∧
    (Value.dict (Lifecycle.fullState s.kernel.store)).nesting ≤ Buffers.maxDepth

open Classical in
/-- The moves that an action makes. -/
noncomputable def moves (s : TwoParty) : Action → List (Replicas.Move Key Known)
  | .set key value => [.edit .left (.str key) (reading ⟦value⟧)]
  | .saveChanges =>
      if s.model.dirty = [] then [] else [.send .left (heard s.model.dirtyState) true]
  | .requestState => [.send .left (heard []) false]
  | .hostWrite key value => [.edit .right (.str key) (reading ⟦value⟧)]
  | .sendState include? =>
      if (Value.dict (Lifecycle.selected include? s.kernel.store)).nesting ≤ Buffers.maxDepth then
        [.send .right (heard (Lifecycle.selected include? s.kernel.store)) true]
      else []
  | .deliverToHost =>
      if s.Answers capabilities then
        [.deliver .right, .send .right (heard (Lifecycle.fullState s.kernel.store)) false]
      else [.deliver .right]
  | .deliverToFront => [.deliver .left]

/-! ### Sound systems -/

/-- A key and a value that the wire carries. -/
def Carried (key : String) (value : Value) : Prop := key ≠ "__proto__" ∧ OnWire value

/-- A key and a value that the wire carries, with exact integers under these keys. -/
def CarriedAt (keys : Key → Prop) (key : String) (value : Value) : Prop :=
  Carried key value ∧ (keys (.str key) → AllInts Exact value)

/-- An action that writes only what the wire carries. -/
def Proper (keys : Key → Prop) : Action → Prop
  | .set key value | .hostWrite key value => CarriedAt keys key value
  | _ => True

/-- The shell is open, and everything the parties hold or sent can be carried.
Requests are on their way only where the front end asks for the state. -/
structure Sound (asks : Prop) (keys : Key → Prop) (s : TwoParty) : Prop where
  phase : s.kernel.shell.phase = .opened
  store : Travels keys s.kernel.store
  held : ExactAt keys s.model.state
  ready : s.model.Ready
  toHost : ∀ message ∈ s.toHost, (asks ∧ message = Model.requestState) ∨
    ∃ fields, Travels keys fields ∧
      message = (updateData fields, Lifecycle.payloadBuffers fields)
  toFront : ∀ message ∈ s.toFront, ∃ fields, Travels keys fields ∧
    message = Kernel.updateSend fields

theorem Carried.key_ne {key : String} {value : Value} (h : Carried key value) :
    Key.str key ≠ protoKey := fun heq => h.1 (Key.str.inj heq)

section Brings

variable {keys : Key → Prop} {fields : Bindings}

theorem bringsFront_updateSend (h : OnWire (.dict fields)) :
    OnWire (.dict (bringsFront (Kernel.updateSend fields))) ∧
      Value.dict (bringsFront (Kernel.updateSend fields)) ≈ withInts number (.dict fields) := by
  obtain ⟨entries, hincoming, hwire, hequiv⟩ := incoming_updateData h
  have hbrings : bringsFront (Kernel.updateSend fields) = entries := by
    rw [bringsFront, Kernel.updateSend, hincoming]
  rw [hbrings]
  exact ⟨hwire, hequiv⟩

theorem travels_bringsFront (h : Travels keys fields) :
    Travels keys (bringsFront (Kernel.updateSend fields)) where
  wire := (bringsFront_updateSend h.wire).1
  exact := (h.exact.withInts fun _ hi => number_eq hi.1).of_equiv (bringsFront_updateSend h.wire).2

theorem heard_bringsFront (h : OnWire (.dict fields)) :
    heard (bringsFront (Kernel.updateSend fields)) = heard fields :=
  (heard_eq_of_equiv (bringsFront_updateSend h).2).trans (heard_number fields)

theorem bringsHost_updateData (h : OnWire (.dict fields)) :
    Value.dict (bringsHost (updateData fields, Lifecycle.payloadBuffers fields)) ≈
      stringified (.dict fields) := by
  obtain ⟨merged, hmerge, -, hequiv⟩ := mergeUpdate_updateData (onWire_spelledFields h)
  rw [payloadBuffers_spelledFields] at hmerge
  have hbrings : bringsHost (updateData fields, Lifecycle.payloadBuffers fields) = merged := by
    simp only [bringsHost, stringified_updateData h, parseMessage_updateData, hmerge]
  rwa [hbrings]

theorem heard_bringsHost (h : OnWire (.dict fields)) :
    heard (bringsHost (updateData fields, Lifecycle.payloadBuffers fields)) = heard fields :=
  (heard_eq_of_equiv (bringsHost_updateData h)).trans (heard_spelledFields h)

theorem bringsHost_requestState : bringsHost Model.requestState = [] := rfl

end Brings

/-- A message comes in as what it brings. -/
theorem hear_updateSend (model : Model) {fields : Bindings} (h : OnWire (.dict fields)) :
    hear model (Kernel.updateSend fields) =
      { model with
        state := (bringsFront (Kernel.updateSend fields)).foldl
          (fun own kv => assign own kv.1 kv.2) model.state } := by
  obtain ⟨entries, hincoming, -, -⟩ := incoming_updateData h
  have hbrings : bringsFront (Kernel.updateSend fields) = entries := by
    rw [bringsFront, Kernel.updateSend, hincoming]
  have hreceive := receive_updateData model hincoming
  rw [hbrings, hear, Kernel.updateSend, hreceive]

/-! ### Steps as moves -/

section Steps

variable {capabilities} {asks : Prop} {keys : Key → Prop} {s : TwoParty}

/-- What an action does to a sound system: it stays sound, and its view moves. -/
structure Moves (capabilities : TransportCapabilities) (asks : Prop) (keys : Key → Prop)
    (s : TwoParty) (a : Action) : Prop where
  sound : Sound asks keys (s.step capabilities a)
  view : (s.step capabilities a).view = (s.moves capabilities a).foldl Replicas.apply s.view

theorem lookup_set {model : Model} {key : String} {value : Value} (hcarried : Carried key value)
    (k : Key) : (model.set key value).1.state.lookup k =
      if k = .str key then some value else model.state.lookup k :=
  lookup_assign hcarried.key_ne k

theorem ready_set {model : Model} (h : model.Ready) {key : String} {value : Value}
    (hcarried : Carried key value) : (model.set key value).1.Ready := by
  intro k hk
  rw [lookup_set hcarried]
  by_cases hkey : k = .str key
  · exact ⟨⟨key, hkey⟩, hkey ▸ hcarried.key_ne, value, if_pos hkey, hcarried.2⟩
  · rw [if_neg hkey]
    rcases Model.mem_dirty_set.mp hk with hsame | hdirty
    · exact absurd hsame hkey
    · exact h k hdirty

theorem moves_set (h : Sound asks keys s) {key : String} {value : Value}
    (hcarried : CarriedAt keys key value) : Moves capabilities asks keys s (.set key value) := by
  refine ⟨{ h with
    held := exactAt_set h.held hcarried.2 (lookup_set hcarried.1)
    ready := ready_set h.ready hcarried.1 }, ?_⟩
  apply Replicas.ext_points
  · intro side k
    rw [moves, List.foldl_cons, List.foldl_nil, Replicas.copy_edit]
    cases side with
    | left => simpa [view, step] using heard_set (lookup_set hcarried.1 k)
    | right => simp [view, step]
  · intro side k
    rw [moves, List.foldl_cons, List.foldl_nil, Replicas.mem_unsent_edit]
    cases side with
    | left =>
        have hdirty : k ∈ (s.model.set key value).1.dirty ↔ k = .str key ∨ k ∈ s.model.dirty :=
          Model.mem_dirty_set
        simpa [view, step] using hdirty
    | right => simp [view, step]
  · intro side
    cases side <;> rfl

theorem moves_hostWrite (h : Sound asks keys s) {key : String} {value : Value}
    (hcarried : CarriedAt keys key value) :
    Moves capabilities asks keys s (.hostWrite key value) := by
  have hlookup : ∀ k, (Dict.set s.kernel.store (.str key) value).lookup k =
      if k = .str key then some value else s.kernel.store.lookup k := fun k =>
    Dict.lookup_set _ _ _ k
  refine ⟨{ h with
    store := ⟨onWire_set h.store.wire hcarried.1.key_ne hcarried.1.2,
      exactAt_set h.store.exact hcarried.2 hlookup⟩ }, ?_⟩
  apply Replicas.ext_points
  · intro side k
    rw [moves, List.foldl_cons, List.foldl_nil, Replicas.copy_edit]
    cases side with
    | left => simp [view, step]
    | right => simpa [view, step] using heard_set (hlookup k)
  · intro side k
    rw [moves, List.foldl_cons, List.foldl_nil, Replicas.mem_unsent_edit]
    cases side <;> simp [view, step]
  · intro side
    cases side <;> rfl

theorem moves_requestState (h : Sound asks keys s) (hasks : asks) :
    Moves capabilities asks keys s .requestState := by
  constructor
  · refine { h with toHost := fun message hmessage => ?_ }
    rcases List.mem_append.mp hmessage with hold | hnew
    · exact h.toHost message hold
    · exact Or.inl ⟨hasks, List.mem_singleton.mp hnew⟩
  · apply Replicas.ext_points
    · intro side k
      cases side <;> rfl
    · intro side k
      rw [moves, List.foldl_cons, List.foldl_nil, Replicas.mem_unsent_send]
      simp [view, step]
    · intro side
      rw [moves, List.foldl_cons, List.foldl_nil, Replicas.inbox_send]
      cases side <;> simp [view, step, Side.other, bringsHost_requestState]

theorem known_dirtyState {model : Model} (h : model.Ready) (key : Key) :
    known model.dirtyState key = if key ∈ model.dirty then known model.state key else none := by
  rw [known, Model.lookup_dirtyState h]
  split_ifs <;> rfl

theorem known_dirtyState_of_ne_none {model : Model} (h : model.Ready) {key : Key}
    (hkey : known model.dirtyState key ≠ none) :
    key ∈ model.dirty ∧ known model.dirtyState key = known model.state key := by
  rw [known_dirtyState h] at hkey ⊢
  split_ifs at hkey ⊢ with hmem
  · exact ⟨hmem, rfl⟩
  · exact absurd rfl hkey

theorem heard_dirtyState {model : Model} (h : model.Ready) (key : Key) :
    heard model.dirtyState key = if key ∈ model.dirty then heard model.state key else none := by
  rw [heard, known_dirtyState h]
  split_ifs <;> rfl

theorem heard_dirtyState_of_ne_none {model : Model} (h : model.Ready) {key : Key}
    (hkey : heard model.dirtyState key ≠ none) :
    key ∈ model.dirty ∧ heard model.dirtyState key = heard model.state key := by
  have hknown : known model.dirtyState key ≠ none := fun hnone => hkey (by rw [heard, hnone]; rfl)
  obtain ⟨hmem, heq⟩ := known_dirtyState_of_ne_none h hknown
  exact ⟨hmem, congrArg _ heq⟩

theorem travels_dirtyState (h : Sound asks keys s) : Travels keys s.model.dirtyState where
  wire := Model.onWire_dirtyState h.ready
  exact := exactAt_sub h.held fun key value hvalue => by
    rw [Model.lookup_dirtyState h.ready] at hvalue
    split_ifs at hvalue
    exact hvalue

theorem moves_saveChanges (h : Sound asks keys s) :
    Moves capabilities asks keys s .saveChanges := by
  by_cases hdirty : s.model.dirty = []
  · have hstep : s.step capabilities .saveChanges = s := by
      simp [step, Model.saveChanges, hdirty]
    have hmoves : s.moves capabilities .saveChanges = [] := by simp [moves, hdirty]
    constructor
    · rwa [hstep]
    · rw [hstep, hmoves]
      rfl
  · have hsent := travels_dirtyState h
    have hstep : s.step capabilities .saveChanges =
        { s with
          model := { s.model with dirty := [] }
          toHost := s.toHost ++ [(updateData s.model.dirtyState,
            Lifecycle.payloadBuffers s.model.dirtyState)] } := by
      simp [step, Model.saveChanges_eq h.ready hdirty]
    have hmoves : s.moves capabilities .saveChanges =
        [.send .left (heard s.model.dirtyState) true] := by simp [moves, hdirty]
    constructor
    · rw [hstep]
      refine { h with ready := by simp [Model.Ready], toHost := fun message hmessage => ?_ }
      rcases List.mem_append.mp hmessage with hold | hnew
      · exact h.toHost message hold
      · exact Or.inr ⟨_, hsent, List.mem_singleton.mp hnew⟩
    · rw [hstep, hmoves, List.foldl_cons, List.foldl_nil]
      apply Replicas.ext_points
      · intro side k
        cases side <;> rfl
      · intro side k
        rw [Replicas.mem_unsent_send]
        cases side with
        | left =>
            have hheard : k ∈ s.model.dirty → heard s.model.state k ≠ none := by
              intro hk
              obtain ⟨_, _, value, hvalue, _⟩ := h.ready k hk
              simp [heard, known, hvalue]
            simpa [view, heard_dirtyState h.ready] using fun hk => ⟨hk, hheard hk⟩
        | right => simp [view]
      · intro side
        rw [Replicas.inbox_send]
        cases side with
        | left => rfl
        | right => simp [view, Side.other, heard_bringsHost hsent.wire]

/-- The kernel sent updates and merged states that the wire carries. -/
theorem sound_after (h : Sound asks keys s) {sent : List Send} {merged : List Bindings}
    {kernel' : Kernel} (hafter : s.kernel.After sent merged kernel')
    (hsent : ∀ message ∈ sent, ∃ fields, Travels keys fields ∧
      message = Kernel.updateSend fields)
    (hmerged : ∀ state ∈ merged, Travels keys state) :
    Sound asks keys { s with kernel := kernel' } := by
  have hstore : ∀ store, Travels keys store → Travels keys (merged.foldl Dict.update store) := by
    clear hafter
    induction merged with
    | nil => exact fun _ hstore => hstore
    | cons state merged ih =>
        intro store hstore
        have hstate := hmerged state List.mem_cons_self
        refine ih (fun state hstate => hmerged state (List.mem_cons_of_mem _ hstate)) _
          ⟨onWire_update hstore.wire hstate.wire, ?_⟩
        exact exactAt_or hstore.exact hstate.exact
          (Dict.lookup_update store (onWire_dict_iff.mp hstate.wire).1)
  refine { h with phase := hafter.phase, store := ?_, toFront := fun message hmessage => ?_ }
  · rw [hafter.store]
    exact hstore _ h.store
  · have hqueue : message ∈ s.toFront ++ sent := by
      rw [toFront, ← hafter.queue]
      exact hmessage
    rcases List.mem_append.mp hqueue with hold | hnew
    · exact h.toFront message hold
    · exact hsent message hnew

theorem view_after_nothing {kernel' : Kernel} (hafter : s.kernel.After [] [] kernel') :
    view { s with kernel := kernel' } = s.view := by
  have hstore : kernel'.store = s.kernel.store := hafter.store
  have hqueue : kernel'.shell.transport = s.toFront := hafter.queue.trans (List.append_nil _)
  simp [view, toFront, hstore, hqueue]

/-- An update that the host sends, with the keys that count as published. -/
theorem view_after_send {fields : Bindings} {kernel' : Kernel} {unpublished : List Key}
    {marks : Bool} (hfields : OnWire (.dict fields))
    (hafter : s.kernel.After [Kernel.updateSend fields] [] kernel')
    (hunpublished : ∀ key, key ∈ unpublished ↔
      key ∈ s.unpublished ∧ ¬ (marks = true ∧ heard fields key ≠ none)) :
    view { s with kernel := kernel', unpublished } =
      s.view.apply (.send .right (heard fields) marks) := by
  have hstore : kernel'.store = s.kernel.store := hafter.store
  apply Replicas.ext_points
  · intro side key
    cases side with
    | left => rfl
    | right => exact congrFun (congrArg heard hstore) key
  · intro side key
    rw [Replicas.mem_unsent_send]
    cases side with
    | left => simp [view]
    | right => simpa [view] using hunpublished key
  · intro side
    rw [Replicas.inbox_send]
    cases side with
    | left => simp [view, Side.other, toFront, hafter.queue, heard_bringsFront hfields]
    | right => simp [view, Side.other]

theorem lookup_selected_some (names : List Key) (store : Bindings) (key : Key) :
    (Lifecycle.selected (some names) store).lookup key =
      if key ∈ names then store.lookup key else none := by
  have hlookup : (Lifecycle.selected (some names) store).lookup key =
      if names.contains key then store.lookup key else none := Dict.lookup_filter _ store key
  rw [hlookup]
  by_cases hkey : key ∈ names <;> simp [hkey]

theorem heard_selected_some_of_ne_none {names : List Key} {store : Bindings} {key : Key}
    (hkey : heard (Lifecycle.selected (some names) store) key ≠ none) :
    key ∈ names ∧ heard (Lifecycle.selected (some names) store) key = heard store key := by
  rw [heard, known, lookup_selected_some] at hkey ⊢
  split_ifs at hkey ⊢ with hmem
  · exact ⟨hmem, rfl⟩
  · exact absurd rfl hkey

theorem travels_selected {store : Bindings} (h : Travels keys store)
    (include? : Option (List Key)) : Travels keys (Lifecycle.selected include? store) where
  wire := onWire_selected h.wire include?
  exact := by
    cases include? with
    | none =>
        exact exactAt_or exactAt_immutableFields h.exact fun key =>
          Lifecycle.lookup_fullState ⟨store, h.wire.wf⟩ key
    | some names =>
        refine exactAt_sub h.exact fun key value hvalue => ?_
        rw [lookup_selected_some] at hvalue
        split_ifs at hvalue
        exact hvalue

theorem moves_sendState (h : Sound asks keys s) (include? : Option (List Key)) :
    Moves capabilities asks keys s (.sendState include?) := by
  rcases Kernel.invoke_sendState capabilities h.phase h.store.wire include? with
    ⟨hnesting, kernel', hinvoke, hafter⟩ | ⟨hnesting, e, kernel', hinvoke, hafter⟩
  · have hsent := travels_selected h.store include?
    have hstep : s.step capabilities (.sendState include?) =
        { s with
          kernel := kernel'
          unpublished := s.unpublished.filter fun key =>
            key ∉ Dict.keys (Lifecycle.selected include? s.kernel.store) } := by
      simp only [step, hinvoke]
    have hmoves : s.moves capabilities (.sendState include?) =
        [.send .right (heard (Lifecycle.selected include? s.kernel.store)) true] := by
      simp [moves, hnesting]
    constructor
    · rw [hstep]
      have hsound := sound_after h hafter (by simpa using ⟨_, hsent, rfl⟩) (by simp)
      exact { hsound with }
    · rw [hstep, hmoves]
      exact view_after_send hsent.wire hafter (by simp [heard_eq_none_iff])
  · have hstep : s.step capabilities (.sendState include?) = { s with kernel := kernel' } := by
      simp only [step, hinvoke]
    have hmoves : s.moves capabilities (.sendState include?) = [] := by
      simp [moves, Nat.not_le.mpr hnesting]
    constructor
    · rw [hstep]
      exact sound_after h hafter (by simp) (by simp)
    · rw [hstep, hmoves]
      exact view_after_nothing hafter

theorem sound_tail (h : Sound asks keys s) {message : Outbound} {rest : List Outbound}
    (hqueue : s.toHost = message :: rest) : Sound asks keys { s with toHost := rest } :=
  { h with
    toHost := fun later hlater => h.toHost later (by simp [hqueue, hlater]) }

theorem view_tail {message : Outbound} {rest : List Outbound} (hqueue : s.toHost = message :: rest)
    (hempty : bringsHost message = []) :
    view { s with toHost := rest } = s.view.apply (.deliver .right) := by
  have hinbox : s.view.inbox .right =
      heard [] :: rest.map fun message => heard (bringsHost message) := by
    simp [view, hqueue, hempty]
  apply Replicas.ext_points
  · intro side key
    rw [Replicas.copy_deliver hinbox]
    cases side <;> simp [view, heard, known]
  · intro side key
    rw [Replicas.mem_unsent_deliver]
    cases side <;> rfl
  · intro side
    rw [Replicas.inbox_deliver hinbox]
    cases side <;> rfl

/-- An update is merged into the store. -/
theorem view_after_merge {fields merged : Bindings} {rest : List Outbound} {kernel' : Kernel}
    (hqueue : s.toHost = (updateData fields, Lifecycle.payloadBuffers fields) :: rest)
    (hfields : OnWire (.dict fields)) (hmerged : OnWire (.dict merged))
    (hequiv : Value.dict merged ≈ stringified (.dict fields))
    (hafter : s.kernel.After [] [merged] kernel') :
    view { s with kernel := kernel', toHost := rest } = s.view.apply (.deliver .right) := by
  have hheard : heard merged = heard fields :=
    (heard_eq_of_equiv hequiv).trans (heard_spelledFields hfields)
  have hinbox : s.view.inbox .right =
      heard fields :: rest.map fun message => heard (bringsHost message) := by
    simp [view, hqueue, heard_bringsHost hfields]
  have hstore : kernel'.store = Dict.update s.kernel.store merged := hafter.store
  have hfront : kernel'.shell.transport = s.toFront := hafter.queue.trans (List.append_nil _)
  apply Replicas.ext_points
  · intro side key
    rw [Replicas.copy_deliver hinbox]
    cases side with
    | left => simp [view]
    | right =>
        obtain ⟨hkeys, -⟩ := onWire_dict_iff.mp hmerged
        simpa [view, hstore, hheard] using
          heard_or (Dict.lookup_update s.kernel.store hkeys key)
  · intro side key
    rw [Replicas.mem_unsent_deliver]
    cases side <;> rfl
  · intro side
    rw [Replicas.inbox_deliver hinbox]
    cases side with
    | left => simp [view, toFront, hfront]
    | right => rfl

theorem update_ne_requestState (fields : Bindings) :
    (updateData fields, Lifecycle.payloadBuffers fields) ≠ Model.requestState := by
  intro heq
  simp [updateData, Model.requestState] at heq

/-- A request is answered with the full state, where the transport supports it. -/
theorem moves_deliver_request (h : Sound asks keys s) {rest : List Outbound}
    (hqueue : s.toHost = Model.requestState :: rest) :
    Moves capabilities asks keys s .deliverToHost := by
  have hstep : s.step capabilities .deliverToHost =
      { s with
        kernel := (s.kernel.invoke capabilities (.inbound (.dict Model.requestState.1) [])).2
        toHost := rest } := by
    simp only [step, hqueue, Model.requestState]
    rfl
  have htail := sound_tail h hqueue
  have hview := view_tail hqueue bringsHost_requestState
  rcases Kernel.invoke_requestState capabilities h.phase h.store.wire with
    ⟨hcaps, hnesting, hafter⟩ | ⟨hno, hafter⟩
  · have hfull := travels_selected h.store none
    have hmoves : s.moves capabilities .deliverToHost =
        [.deliver .right, .send .right (heard (Lifecycle.fullState s.kernel.store)) false] :=
      if_pos ⟨by simp [hqueue], hcaps, hnesting⟩
    constructor
    · rw [hstep]
      exact sound_after htail hafter (by simpa using ⟨_, hfull, rfl⟩) (by simp)
    · rw [hstep, hmoves, List.foldl_cons, List.foldl_cons, List.foldl_nil, ← hview]
      exact view_after_send (s := { s with toHost := rest }) hfull.wire hafter (by simp)
  · have hmoves : s.moves capabilities .deliverToHost = [.deliver .right] :=
      if_neg fun hanswers => hno hanswers.2
    constructor
    · rw [hstep]
      exact sound_after htail hafter (by simp) (by simp)
    · rw [hstep, hmoves, List.foldl_cons, List.foldl_nil, ← hview]
      exact view_after_nothing (s := { s with toHost := rest }) hafter

/-- What the host merges of an update that the front end sent. -/
theorem invoke_stringified (capabilities : TransportCapabilities) {kernel : Kernel}
    (hphase : kernel.shell.phase = .opened)
    {fields : Bindings} (hfields : Travels keys fields) :
    ∃ merged kernel', (kernel.invoke capabilities
        (.inbound (stringified (.dict (updateData fields))) (Lifecycle.payloadBuffers fields))).2 =
          kernel' ∧
      Travels keys merged ∧ Value.dict merged ≈ stringified (.dict fields) ∧
      kernel.After [] [merged] kernel' := by
  obtain ⟨merged, kernel', hkernel, hmerged, hequiv, hafter⟩ :=
    Kernel.invoke_update capabilities hphase (onWire_spelledFields hfields.wire)
  rw [stringified_updateData hfields.wire, ← payloadBuffers_spelledFields]
  refine ⟨merged, kernel', hkernel, ⟨hmerged, ?_⟩, hequiv, hafter⟩
  exact (hfields.exact.withInts fun _ hi => congrArg _ hi.2).of_equiv hequiv

theorem moves_deliver_update (h : Sound asks keys s) {fields : Bindings} {rest : List Outbound}
    (hqueue : s.toHost = (updateData fields, Lifecycle.payloadBuffers fields) :: rest)
    (hfields : Travels keys fields) : Moves capabilities asks keys s .deliverToHost := by
  obtain ⟨merged, kernel', hkernel, hmerged, hequiv, hafter⟩ :=
    invoke_stringified capabilities h.phase hfields
  have hstep : s.step capabilities .deliverToHost =
      { s with kernel := kernel', toHost := rest } := by
    simp only [step, hqueue, hkernel]
  have hmoves : s.moves capabilities .deliverToHost = [.deliver .right] := by
    refine if_neg fun hanswers => ?_
    have hhead := hanswers.1
    rw [hqueue] at hhead
    exact update_ne_requestState fields (Option.some.inj hhead)
  constructor
  · rw [hstep]
    exact sound_after (sound_tail h hqueue) hafter (by simp) (by simpa using hmerged)
  · rw [hstep, hmoves]
    exact view_after_merge hqueue hfields.wire hmerged.wire hequiv hafter

theorem moves_deliverToHost (h : Sound asks keys s) :
    Moves capabilities asks keys s .deliverToHost := by
  cases hqueue : s.toHost with
  | nil =>
      have hstep : s.step capabilities .deliverToHost = s := by simp [step, hqueue]
      have hmoves : s.moves capabilities .deliverToHost = [.deliver .right] := by
        simp [moves, Answers, hqueue]
      constructor
      · rwa [hstep]
      · rw [hstep, hmoves, List.foldl_cons, List.foldl_nil,
          Replicas.apply_deliver_nil (by simp [view, hqueue])]
  | cons message rest =>
      rcases h.toHost message (by simp [hqueue]) with ⟨-, rfl⟩ | ⟨fields, hfields, rfl⟩
      · exact moves_deliver_request h hqueue
      · exact moves_deliver_update h hqueue hfields

theorem ready_assign {model : Model} (h : model.Ready) {entries : Bindings}
    (hentries : OnWire (.dict entries)) :
    Model.Ready { model with
      state := entries.foldl (fun own kv => assign own kv.1 kv.2) model.state } := by
  intro key hkey
  obtain ⟨hname, hproto, value, hvalue, hwire⟩ := h key hkey
  refine ⟨hname, hproto, ?_⟩
  rw [lookup_foldl_assign hentries]
  cases hentry : entries.lookup key with
  | none => exact ⟨value, by rwa [Option.none_or], hwire⟩
  | some received =>
      have hreceived := (onWire_dict_iff.mp hentries).2 _ (Dict.mem_of_lookup hentry)
      exact ⟨received, Option.some_or, hreceived.2.2⟩

theorem held_assign {own entries : Bindings} (h : ExactAt keys own)
    (hentries : Travels keys entries) :
    ExactAt keys (entries.foldl (fun own kv => assign own kv.1 kv.2) own) :=
  exactAt_or h hentries.exact (lookup_foldl_assign hentries.wire)

theorem moves_deliverToFront (h : Sound asks keys s) :
    Moves capabilities asks keys s .deliverToFront := by
  cases hqueue : s.toFront with
  | nil =>
      have hstep : s.step capabilities .deliverToFront = s := by simp [step, hqueue]
      constructor
      · rwa [hstep]
      · rw [hstep, moves, List.foldl_cons, List.foldl_nil,
          Replicas.apply_deliver_nil (by simp [view, hqueue])]
  | cons message rest =>
      have hstep : s.step capabilities .deliverToFront =
          { s with
            model := hear s.model message
            kernel := { s.kernel with shell := { s.kernel.shell with transport := rest } } } := by
        simp [step, hqueue]
      obtain ⟨fields, hfields, rfl⟩ := h.toFront message (by simp [hqueue])
      have hbrought := travels_bringsFront hfields
      have hmodel := hear_updateSend s.model hfields.wire
      have hinbox : s.view.inbox .left =
          heard (bringsFront (Kernel.updateSend fields)) ::
            rest.map fun message => heard (bringsFront message) := by
        simp [view, hqueue]
      constructor
      · rw [hstep, hmodel]
        exact { h with
          held := held_assign h.held hbrought
          ready := ready_assign h.ready hbrought.wire
          toFront := fun later hlater => h.toFront later (by
            rw [hqueue]
            exact List.mem_cons_of_mem _ hlater) }
      · rw [hstep, hmodel, moves, List.foldl_cons, List.foldl_nil]
        apply Replicas.ext_points
        · intro side key
          rw [Replicas.copy_deliver hinbox]
          cases side with
          | left => simpa [view] using heard_or (lookup_foldl_assign hbrought.wire key)
          | right => simp [view]
        · intro side key
          rw [Replicas.mem_unsent_deliver]
          cases side <;> rfl
        · intro side
          rw [Replicas.inbox_deliver hinbox]
          cases side <;> rfl

/-- A proper action of a sound system is moves of its replicas. -/
theorem moves_of_proper (h : Sound asks keys s) {a : Action} (ha : Proper keys a)
    (hasks : a = .requestState → asks) : Moves capabilities asks keys s a := by
  cases a with
  | set key value => exact moves_set h ha
  | saveChanges => exact moves_saveChanges h
  | requestState => exact moves_requestState h (hasks rfl)
  | hostWrite key value => exact moves_hostWrite h ha
  | sendState include? => exact moves_sendState h include?
  | deliverToHost => exact moves_deliverToHost h
  | deliverToFront => exact moves_deliverToFront h

theorem sound_start {initialState store : Bindings} (hstore : Travels keys store)
    (hequal : Value.dict initialState ≈ .dict store) :
    Sound asks keys (start initialState store) where
  phase := rfl
  store := hstore
  held := hstore.exact.of_equiv hequal
  ready := by simp [start, Model.new, Model.Ready]
  toHost := by simp [start]
  toFront := by simp [start, toFront]

end Steps

end TwoParty

end Cositos
