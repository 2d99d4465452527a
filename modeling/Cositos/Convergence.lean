/-
When a front-end model and a host store agree: with an owner for each key, and
for a key that only the front end edits.
-/
import Cositos.Sync

namespace Cositos

open Front

namespace TwoParty

variable (capabilities : TransportCapabilities)

/-- Whatever comes in, the model assigns some entries at most. -/
theorem exists_hear_eq (model : Model) (message : Send) :
    ∃ entries : Bindings, hear model message =
      { model with state := entries.foldl (fun own kv => assign own kv.1 kv.2) model.state } := by
  rw [hear]
  cases hreceive : model.receive (parsed (.dict message.data)) message.buffers with
  | error e => exact ⟨[], rfl⟩
  | ok result =>
      obtain ⟨method, -, hrest⟩ := Port.bind_eq_ok_iff.mp hreceive
      split at hrest
      · obtain ⟨entries, -, hresult⟩ := Port.bind_eq_ok_iff.mp hrest
        cases hresult
        exact ⟨entries, rfl⟩
      · obtain ⟨content, -, hresult⟩ := Port.bind_eq_ok_iff.mp hrest
        cases hresult
        exact ⟨[], rfl⟩
      · cases hrest
        exact ⟨[], rfl⟩

theorem dirty_deliverToFront (s : TwoParty) :
    (s.step capabilities .deliverToFront).model.dirty = s.model.dirty := by
  cases hqueue : s.toFront with
  | nil => simp [step, hqueue]
  | cons message rest =>
      obtain ⟨entries, hhear⟩ := exists_hear_eq s.model message
      simp [step, hqueue, hhear]

theorem proto_not_mem_assign {own : Bindings} (h : protoKey ∉ Dict.keys own) (key : Key)
    (value : Value) : protoKey ∉ Dict.keys (assign own key value) := by
  by_cases hkey : key = protoKey
  · rwa [assign, if_pos ⟨hkey, hkey ▸ h⟩]
  · rw [← Dict.lookup_eq_none_iff, lookup_assign hkey, if_neg (Ne.symm hkey)]
    exact Dict.lookup_eq_none_iff.mpr h

/-- A delivery never binds `__proto__` in the model. -/
theorem proto_not_mem_deliverToFront {s : TwoParty} (h : protoKey ∉ Dict.keys s.model.state) :
    protoKey ∉ Dict.keys (s.step capabilities .deliverToFront).model.state := by
  cases hqueue : s.toFront with
  | nil => simpa [step, hqueue] using h
  | cons message rest =>
      obtain ⟨entries, hhear⟩ := exists_hear_eq s.model message
      have hfold : ∀ own : Bindings, protoKey ∉ Dict.keys own →
          protoKey ∉ Dict.keys (entries.foldl (fun own kv => assign own kv.1 kv.2) own) := by
        clear hhear
        induction entries with
        | nil => exact fun _ hown => hown
        | cons head tail ih => exact fun own hown => ih _ (proto_not_mem_assign hown _ _)
      simpa [step, hqueue, hhear] using hfold _ h

theorem inbox_eq_nil {s : TwoParty} (htoHost : s.toHost = []) (htoFront : s.toFront = [])
    (side : Side) : s.view.inbox side = [] := by
  cases side with
  | left => simp [view, htoFront]
  | right => simp [view, htoHost]

section Start

variable {initialState store : Bindings}

theorem inbox_start (side : Side) : (start initialState store).view.inbox side = [] :=
  inbox_eq_nil rfl rfl side

theorem not_mem_unsent_start (side : Side) (key : Key) :
    key ∉ (start initialState store).view.unsent side := by
  cases side <;> simp [view, start, Model.new]

theorem copy_start (hequal : Value.dict initialState ≈ .dict store) (side : Side) (key : Key) :
    (start initialState store).view.copy side.other key =
      (start initialState store).view.copy side key := by
  have hheard := congrFun (heard_eq_of_equiv hequal) key
  cases side with
  | left => exact hheard.symm
  | right => exact hheard

theorem coherent_start (hequal : Value.dict initialState ≈ .dict store) (side : Side)
    (key : Key) : Replicas.Coherent side key (start initialState store).view where
  current _ := by
    rw [inbox_start]
    exact copy_start hequal side key
  echoes := by simp [inbox_start]

end Start

/-! ### Each key has an owner -/

/-- An action in which each side writes and sends only keys that it owns, the
front end on the left. -/
def Keeps (owner : Key → Side) : Action → Prop
  | .set key _ => owner (.str key) = .left
  | .hostWrite key _ => owner (.str key) = .right
  | .sendState (some keys) => ∀ key ∈ keys, owner key = .right
  | .sendState none | .requestState => False
  | .saveChanges | .deliverToHost | .deliverToFront => True

section Owners

variable {capabilities} {owner : Key → Side} {keys : Key → Prop} {s : TwoParty}

theorem not_answers (h : Sound False keys s) : ¬ s.Answers capabilities := by
  rintro ⟨hhead, -, -⟩
  have hmem : Model.requestState ∈ s.toHost := List.mem_of_mem_head? hhead
  rcases h.toHost _ hmem with ⟨hno, -⟩ | ⟨fields, -, heq⟩
  · exact hno
  · exact update_ne_requestState fields heq.symm

theorem along_allowed (hsound : Sound False keys s) (howned : Replicas.Owned owner s.view) {a : Action}
    (ha : Keeps owner a) :
    Replicas.Along (Replicas.Allowed owner) s.view (s.moves capabilities a) := by
  cases a with
  | set key value => exact ⟨ha, trivial⟩
  | hostWrite key value => exact ⟨ha, trivial⟩
  | requestState => exact ha.elim
  | saveChanges =>
      rw [moves]
      split_ifs
      · trivial
      · refine ⟨fun key hcarries => ?_, trivial⟩
        obtain ⟨hkey, heq⟩ := heard_dirtyState_of_ne_none hsound.ready hcarries
        exact ⟨howned.unsent .left key hkey, heq⟩
  | sendState include? =>
      cases include? with
      | none => exact ha.elim
      | some keys =>
          rw [moves]
          split_ifs
          · refine ⟨fun key hcarries => ?_, trivial⟩
            obtain ⟨hkey, heq⟩ := heard_selected_some_of_ne_none hcarries
            exact ⟨ha key hkey, heq⟩
          · trivial
  | deliverToHost =>
      rw [moves, if_neg (not_answers hsound)]
      exact ⟨trivial, trivial⟩
  | deliverToFront => exact ⟨trivial, trivial⟩

/-- Every key. -/
abbrev Everywhere (_ : Key) : Prop := True

theorem exactAt_everywhere {own : Bindings} (h : AllInts Exact (.dict own)) :
    ExactAt Everywhere own := fun key _ => allInts_dict_iff.mp h key

/-- Where each key is written and sent by its owner alone, the model and the
store are equal whenever everything written is sent and has arrived, if JavaScript holds and
spells in full every integer. -/
theorem converges_under_ownership {initialState store : Bindings}
    (hstore : OnWire (.dict store)) (hexact : AllInts Exact (.dict store))
    (hequal : Value.dict initialState ≈ .dict store)
    (hreached : Runs.Reached (step capabilities) (fun _ a => Keeps owner a ∧ Proper Everywhere a)
      (start initialState store) s)
    (htoHost : s.toHost = []) (htoFront : s.toFront = []) (hdirty : s.model.dirty = [])
    (hunpublished : s.unpublished = []) :
    Value.dict s.model.state ≈ .dict s.kernel.store := by
  obtain ⟨hsound, howned⟩ : Sound False Everywhere s ∧ Replicas.Owned owner s.view := by
    have hstart : Replicas.Owned owner (start initialState store).view :=
      { coherent := fun key => coherent_start hequal _ key
        quiet := by simp [Replicas.Quiet, inbox_start]
        unsent := fun side key hkey => absurd hkey (not_mem_unsent_start side key) }
    refine hreached.invariant
      (I := fun s => Sound False Everywhere s ∧ Replicas.Owned owner s.view)
      ⟨sound_start ⟨hstore, exactAt_everywhere hexact⟩ hequal, hstart⟩ ?_
    · rintro s a ⟨hsound, howned⟩ ⟨ha, hproper⟩
      have hmoves : Moves capabilities False Everywhere s a := moves_of_proper hsound hproper (by
        rintro rfl
        exact ha)
      refine ⟨hmoves.sound, ?_⟩
      rw [hmoves.view]
      exact Replicas.owned_foldl howned (along_allowed hsound howned ha)
  have hsent : ∀ side key, key ∉ s.view.unsent side := by
    intro side key
    cases side with
    | left => simp [view, hdirty]
    | right => simp [view, hunpublished]
  exact dict_equiv_iff.mpr fun key => agree_of_heard hsound.held hsound.store.exact trivial
    (howned.copy_eq hsent (inbox_eq_nil htoHost htoFront) key)

/-- A published `__proto__` does not reach the model. -/
theorem proto_key_stays_apart :
    ¬ ∀ (owner : Key → Side) (initialState store : Bindings) (s : TwoParty),
      OnWire (.dict store) → Value.dict initialState ≈ .dict store →
      Runs.Reached (step {}) (fun _ a => Keeps owner a) (start initialState store) s →
      s.toHost = [] → s.toFront = [] → s.model.dirty = [] → s.unpublished = [] →
      Value.dict s.model.state ≈ .dict s.kernel.store := by
  intro h
  let sent := run {} (start [] []) [.hostWrite "__proto__" (.int 1), .sendState (some [protoKey])]
  have hkeeps : ∀ a ∈ [Action.hostWrite "__proto__" (.int 1), .sendState (some [protoKey]),
      .deliverToFront], Keeps (fun _ => .right) a := by simp [Keeps]
  have hreached : Runs.Reached (step {}) (fun _ a => Keeps (fun _ => .right) a) (start [] [])
      (step {} sent .deliverToFront) := Runs.reached_foldl hkeeps
  have hequiv := h (fun _ => .right) [] [] _ (onWire_dict_iff.mpr ⟨by simp, by simp⟩)
    (Setoid.refl _) hreached (by decide +kernel) (by decide +kernel)
    ((dirty_deliverToFront {} sent).trans (by decide +kernel)) (by decide +kernel)
  have hmodel := proto_not_mem_deliverToFront {} (s := sent) (by decide +kernel)
  have hagree := dict_equiv_iff.mp hequiv protoKey
  rw [Dict.lookup_eq_none_iff.mpr hmodel] at hagree
  have hstore : protoKey ∈ Dict.keys (step {} sent .deliverToFront).kernel.store := by
    decide +kernel
  rw [← Dict.lookup_isSome_iff, ← hagree.isSome_eq] at hstore
  simp at hstore

end Owners

namespace ConvergenceWitness

/-- The front end owns `value`. -/
def ownerOf (key : Key) : Side := if key = .str "value" then .left else .right

def slider : List Action :=
  [.set "value" (.int 1), .hostWrite "label" (.str "x"), .saveChanges,
    .sendState (some [.str "label"]), .deliverToHost]

theorem keeps_slider : ∀ a ∈ slider ++ [.deliverToFront],
    Keeps ownerOf a ∧ Proper Everywhere a := by
  have hone : OnWire (.int 1) := onWire_leaf rfl rfl (by decide)
  have hlabel : OnWire (.str "x") := onWire_leaf rfl rfl trivial
  have hexact : AllInts Exact (.int 1) := allInts_leaf rfl (by
    rintro i ⟨⟩
    exact exact_of_lt (by decide))
  have hexact' : AllInts Exact (.str "x") := allInts_leaf rfl (by simp)
  simp [slider, Keeps, Proper, ownerOf, CarriedAt, Carried, hone, hlabel, hexact, hexact']

end ConvergenceWitness

theorem converges_under_ownership_slider :
    Value.dict (run {} (start [] []) (ConvergenceWitness.slider ++ [.deliverToFront])).model.state ≈
      .dict (run {} (start [] []) (ConvergenceWitness.slider ++ [.deliverToFront])).kernel.store := by
  have hdirty := dirty_deliverToFront {} (run {} (start [] []) ConvergenceWitness.slider)
  exact converges_under_ownership (onWire_dict_iff.mpr ⟨by simp, by simp⟩)
    (allInts_dict_iff.mpr (by simp)) (Setoid.refl _)
    (Runs.reached_foldl ConvergenceWitness.keeps_slider) (by decide +kernel) (by decide +kernel)
    (hdirty.trans (by decide +kernel)) (by decide +kernel)

/-! ### A key that only the front end edits -/

/-- Every edit of the key has been saved and has reached the host. -/
def CaughtUp (key : Key) (s : TwoParty) : Prop :=
  key ∉ s.model.dirty ∧ ∀ message ∈ s.toHost, key ∉ Dict.keys (bringsHost message)

/-- An action that leaves the key to the front end. -/
def FrontOnly (key : Key) : Action → Prop
  | .hostWrite name _ => .str name ≠ key
  | _ => True

/-- An action that keeps edits of the key and snapshots of it apart: the front
end does not set the key while a value of it is on its way there, and the host
sends the key only once it has caught up. -/
def Calm (key : Key) (s : TwoParty) : Action → Prop
  | .set name _ =>
      .str name = key → ∀ message ∈ s.toFront, key ∉ Dict.keys (bringsFront message)
  | .sendState include? =>
      key ∈ Dict.keys (Lifecycle.selected include? s.kernel.store) → CaughtUp key s
  | .deliverToHost => s.Answers capabilities →
      key ∈ Dict.keys (Lifecycle.fullState s.kernel.store) → CaughtUp key s
  | .hostWrite _ _ | .saveChanges | .requestState | .deliverToFront => True

section Edits

variable {capabilities} {key : Key} {keys : Key → Prop} {s : TwoParty}

theorem settled_of_caughtUp (h : CaughtUp key s) : Replicas.Settled .left key s.view := by
  refine ⟨h.1, fun update hupdate => ?_⟩
  obtain ⟨message, hmessage, rfl⟩ := List.mem_map.mp hupdate
  exact heard_eq_none_iff.mpr (h.2 message hmessage)

theorem quiet_of_toFront (h : ∀ message ∈ s.toFront, key ∉ Dict.keys (bringsFront message)) :
    Replicas.Quiet .left key s.view := by
  intro update hupdate
  obtain ⟨message, hmessage, rfl⟩ := List.mem_map.mp hupdate
  exact heard_eq_none_iff.mpr (h message hmessage)

theorem heard_fullState {store : Bindings} (hstore : OnWire (.dict store)) (key : Key) :
    heard (Lifecycle.fullState store) key =
      (heard store key).or (heard Lifecycle.immutableFields key) :=
  heard_or (Lifecycle.lookup_fullState ⟨store, hstore.wf⟩ key)

/-- What the host sends under a key is its own value, unless it lacks an identity
field. -/
theorem heard_selected (include? : Option (List Key)) {store : Bindings}
    (hstore : OnWire (.dict store))
    (hidentity : key ∈ Dict.keys Lifecycle.immutableFields → heard store key ≠ none)
    (hcarries : heard (Lifecycle.selected include? store) key ≠ none) :
    heard (Lifecycle.selected include? store) key = heard store key := by
  cases include? with
  | some keys => exact (heard_selected_some_of_ne_none hcarries).2
  | none =>
      have hfull : heard (Lifecycle.selected none store) key = _ := heard_fullState hstore key
      rw [hfull]
      cases hheld : heard store key with
      | some value => rfl
      | none =>
          rw [Option.none_or, heard_eq_none_iff]
          exact fun hmem => hidentity hmem hheld

theorem along_respects (hsound : Sound True keys s) (hcoherent : Replicas.Coherent .left key s.view)
    (hidentity : key ∈ Dict.keys Lifecycle.immutableFields → heard s.kernel.store key ≠ none)
    {a : Action} (hfront : FrontOnly key a) (ha : Calm capabilities key s a) :
    Replicas.Along (Replicas.Respects .left key) s.view (s.moves capabilities a) := by
  cases a with
  | set name value => exact ⟨fun heq => ⟨rfl, quiet_of_toFront (ha heq)⟩, trivial⟩
  | hostWrite name value => exact ⟨fun heq => absurd heq hfront, trivial⟩
  | requestState => exact ⟨fun hcarries => absurd rfl hcarries, trivial⟩
  | saveChanges =>
      rw [moves]
      split_ifs
      · trivial
      · refine ⟨fun hcarries => ?_, trivial⟩
        obtain ⟨hkey, heq⟩ := heard_dirtyState_of_ne_none hsound.ready hcarries
        exact ⟨heq, hcoherent.quiet fun hsettled => hsettled.1 hkey⟩
  | sendState include? =>
      rw [moves]
      split_ifs
      · refine ⟨fun hcarries => ⟨heard_selected _ hsound.store.wire hidentity hcarries, ?_⟩, trivial⟩
        exact settled_of_caughtUp (ha (mem_keys_of_heard hcarries))
      · trivial
  | deliverToHost =>
      rw [moves]
      split_ifs with hanswers
      · obtain ⟨rest, hqueue⟩ := List.head?_eq_some_iff.mp hanswers.1
        refine ⟨trivial, ?_, trivial⟩
        rw [← view_tail hqueue bringsHost_requestState]
        refine fun hcarries => ⟨heard_selected none hsound.store.wire hidentity hcarries, ?_⟩
        have hcaught := ha hanswers (mem_keys_of_heard hcarries)
        refine settled_of_caughtUp ⟨hcaught.1, fun message hmessage => ?_⟩
        exact hcaught.2 message (by
          rw [hqueue]
          exact List.mem_cons_of_mem _ hmessage)
      · exact ⟨trivial, trivial⟩
  | deliverToFront => exact ⟨trivial, trivial⟩

/-- Where edits of a key and snapshots of it are kept apart, no message that
comes in changes the model's value of it, and the store has that value once the
edits are saved and everything has arrived. -/
theorem calm_runs_keep_edits {initialState store : Bindings}
    (hstore : OnWire (.dict store)) (hequal : Value.dict initialState ≈ .dict store)
    (hexact : ∀ value, store.lookup key = some value → AllInts Exact value)
    (hidentity : key ∈ Dict.keys Lifecycle.immutableFields → key ∈ Dict.keys store)
    (hreached : Runs.Reached (step capabilities)
      (fun s a => FrontOnly key a ∧ Proper (· = key) a ∧ Calm capabilities key s a)
      (start initialState store) s) :
    Agree ((s.step capabilities .deliverToFront).model.state.lookup key)
        (s.model.state.lookup key) ∧
      (s.toHost = [] → s.toFront = [] → s.model.dirty = [] →
        Agree (s.model.state.lookup key) (s.kernel.store.lookup key)) := by
  have hstart : Travels (· = key) store := ⟨hstore, by
    rintro _ rfl
    exact hexact⟩
  obtain ⟨hsound, hcoherent, -⟩ :
      Sound True (· = key) s ∧ Replicas.Coherent .left key s.view ∧
        (key ∈ Dict.keys Lifecycle.immutableFields → s.view.copy .right key ≠ none) := by
    refine hreached.invariant (I := fun s => Sound True (· = key) s ∧
      Replicas.Coherent .left key s.view ∧
      (key ∈ Dict.keys Lifecycle.immutableFields → s.view.copy .right key ≠ none))
      ⟨sound_start hstart hequal, coherent_start hequal _ key, fun hkey hnone => ?_⟩ ?_
    · exact heard_eq_none_iff.mp hnone (hidentity hkey)
    · rintro s a ⟨hsound, hcoherent, hheld⟩ ⟨hfront, hproper, ha⟩
      have hmoves : Moves capabilities True (· = key) s a :=
        moves_of_proper hsound hproper fun _ => trivial
      refine ⟨hmoves.sound, ?_, fun hkey => ?_⟩
      · rw [hmoves.view]
        exact Replicas.coherent_foldl hcoherent
          (along_respects hsound hcoherent hheld hfront ha)
      · rw [hmoves.view]
        exact Replicas.copy_ne_none_foldl (hheld hkey) _
  constructor
  · have hmoves : Moves capabilities True (· = key) s .deliverToFront :=
      moves_deliverToFront hsound
    have hview := hmoves.view
    have hcopy := hcoherent.copy_deliver_owner
    rw [moves, List.foldl_cons, List.foldl_nil] at hview
    rw [← hview] at hcopy
    exact agree_of_heard hmoves.sound.held hsound.held rfl hcopy
  · intro htoHost htoFront hdirty
    have hsent : key ∉ s.view.unsent .left := by simp [view, hdirty]
    have hempty : s.view.inbox (Side.other .left) = [] := by simp [view, Side.other, htoHost]
    exact agree_of_heard hsound.held hsound.store.exact rfl
      (hcoherent.copy_eq_of_empty hsent hempty).symm

/-- An edit that is saved, and a full state that is sent before the edit arrives. -/
def crossing (name : String) (value : Value) : List Action :=
  [.set name value, .saveChanges, .sendState none, .deliverToFront, .deliverToHost]

theorem view_crossing (capabilities : TransportCapabilities) (h : Sound False keys s) {name : String}
    {value : Value} (hcarried : CarriedAt keys name value)
    (hnesting : (Value.dict (Lifecycle.fullState s.kernel.store)).nesting ≤ Buffers.maxDepth) :
    ∃ update, update (.str name) = some (reading ⟦value⟧) ∧
      (s.run capabilities (crossing name value)).view =
        [.edit .left (.str name) (reading ⟦value⟧), .send .left update true,
          .send (Side.other .left) (heard (Lifecycle.fullState s.kernel.store)) true,
          .deliver .left, .deliver (Side.other .left)].foldl Replicas.apply s.view := by
  let s₁ := s.step capabilities (.set name value)
  let s₂ := s₁.step capabilities .saveChanges
  let s₃ := s₂.step capabilities (.sendState none)
  let s₄ := s₃.step capabilities .deliverToFront
  have h₁ : Moves capabilities False keys s (.set name value) := moves_set h hcarried
  have h₂ : Moves capabilities False keys s₁ .saveChanges := moves_saveChanges h₁.sound
  have h₃ : Moves capabilities False keys s₂ (.sendState none) := moves_sendState h₂.sound none
  have h₄ : Moves capabilities False keys s₃ .deliverToFront := moves_deliverToFront h₃.sound
  have h₅ : Moves capabilities False keys s₄ .deliverToHost := moves_deliverToHost h₄.sound
  have hedited : Key.str name ∈ s₁.model.dirty := Model.mem_dirty_set.mpr (Or.inl rfl)
  have hsave : s₁.moves capabilities .saveChanges =
      [.send .left (heard s₁.model.dirtyState) true] := if_neg (List.ne_nil_of_mem hedited)
  have hsend : s₂.moves capabilities (.sendState none) =
      [.send .right (heard (Lifecycle.fullState s.kernel.store)) true] := if_pos hnesting
  have hdeliver : s₄.moves capabilities .deliverToHost = [.deliver .right] :=
    if_neg (not_answers h₄.sound)
  refine ⟨heard s₁.model.dirtyState, ?_, ?_⟩
  · have hlookup : s₁.model.state.lookup (.str name) = some value :=
      (lookup_assign hcarried.1.key_ne _).trans (if_pos rfl)
    rw [heard_dirtyState h₁.sound.ready, if_pos hedited, heard, known, hlookup]
    rfl
  · have hlast : (s.run capabilities (crossing name value)).view =
        (s₄.moves capabilities .deliverToHost).foldl Replicas.apply s₄.view := h₅.view
    rw [hlast, hdeliver, h₄.view, h₃.view, hsend, h₂.view, hsave, h₁.view]
    rfl

/-- An edit and a full state that cross swap the two values of the key. -/
theorem crossing_swaps (capabilities : TransportCapabilities) (h : Sound False keys s)
    (htoHost : s.toHost = []) (htoFront : s.toFront = []) (hdirty : s.model.dirty = [])
    {name : String} {value : Value} (hcarried : CarriedAt keys name value)
    (hheld : heard s.kernel.store (.str name) ≠ none)
    (hnesting : (Value.dict (Lifecycle.fullState s.kernel.store)).nesting ≤ Buffers.maxDepth) :
    let s' := s.run capabilities (crossing name value)
    s'.toHost = [] ∧ s'.toFront = [] ∧ s'.model.dirty = [] ∧
      heard s'.model.state (.str name) = heard s.kernel.store (.str name) ∧
      heard s'.kernel.store (.str name) = some (reading ⟦value⟧) := by
  intro s'
  obtain ⟨update, hupdate, hview⟩ := view_crossing capabilities h hcarried hnesting
  have hanswer : heard (Lifecycle.fullState s.kernel.store) (.str name) =
      heard s.kernel.store (.str name) := by
    obtain ⟨old, hold⟩ := Option.ne_none_iff_exists'.mp hheld
    rw [heard_fullState h.store.wire, hold, Option.some_or]
  obtain ⟨hleft, hright, hinbox, hunsent⟩ :=
    Replicas.crossing_swaps Side.left (inbox_eq_nil htoHost htoFront) hupdate hanswer hheld
  rw [← hview] at hleft hright hinbox hunsent
  refine ⟨List.map_eq_nil_iff.mp (hinbox .right), List.map_eq_nil_iff.mp (hinbox .left), ?_,
    hleft, hright⟩
  refine List.eq_nil_iff_forall_not_mem.mpr fun key' hkey' => ?_
  have hbefore : key' ∈ s.model.dirty := hunsent key' hkey'
  simp [hdirty] at hbefore

namespace ConvergenceWitness

/-- A slider at zero. -/
def zero : Bindings := [(.str "value", .int 0)]

theorem onWire_zero : OnWire (.dict zero) := by
  have hzero : OnWire (.int 0) := onWire_leaf rfl rfl (by decide)
  exact onWire_dict_iff.mpr ⟨by simp [zero], by simp [zero, hzero]⟩

theorem exact_small {i : Int} (h : i.natAbs < 2 ^ 53) : AllInts Exact (.int i) :=
  allInts_leaf rfl (by
    rintro j ⟨⟩
    exact exact_of_lt h)

theorem travels_zero {keys : Key → Prop} : Travels keys zero := by
  refine ⟨onWire_zero, fun key _ value hvalue => ?_⟩
  cases List.mem_singleton.mp (Dict.mem_of_lookup hvalue)
  exact exact_small (by decide)

theorem carried_one {keys : Key → Prop} : CarriedAt keys "value" (.int 1) :=
  ⟨⟨by decide, onWire_leaf rfl rfl (by decide)⟩, fun _ => exact_small (by decide)⟩

/-- Moved to one, saved and delivered, and the host's state sent back. -/
def published : TwoParty :=
  ((((start zero zero).step {} (.set "value" (.int 1))).step {} .saveChanges).step {}
    .deliverToHost).step {} (.sendState none)

end ConvergenceWitness

theorem calm_runs_keep_edits_zero :
    Agree ((ConvergenceWitness.published.step {} .deliverToFront).model.state.lookup (.str "value"))
      ((ConvergenceWitness.published.step {} .deliverToFront).kernel.store.lookup
        (.str "value")) := by
  let s₀ := start ConvergenceWitness.zero ConvergenceWitness.zero
  let s₁ := s₀.step {} (.set "value" (.int 1))
  let s₂ := s₁.step {} .saveChanges
  let s₃ := s₂.step {} .deliverToHost
  have hone : CarriedAt (· = .str "value") "value" (.int 1) := ConvergenceWitness.carried_one
  have h₀ : Sound False (· = .str "value") s₀ :=
    sound_start ConvergenceWitness.travels_zero (Setoid.refl _)
  have h₁ : Sound False (· = .str "value") s₁ := (moves_set h₀ hone).sound
  have h₂ : Sound False (· = .str "value") s₂ := (moves_saveChanges h₁).sound
  have hset : Calm {} (.str "value") s₀ (.set "value" (.int 1)) := by
    intro _ message hmessage
    exact absurd hmessage List.not_mem_nil
  have hdeliver : Calm {} (.str "value") s₂ .deliverToHost := fun hanswers =>
    absurd hanswers (not_answers h₂)
  have hsend : Calm {} (.str "value") s₃ (.sendState none) := by
    have htoHost : s₃.toHost = [] := by decide +kernel
    exact fun _ => ⟨by decide +kernel, by simp [htoHost]⟩
  let allowed : TwoParty → Action → Prop := fun s a =>
    FrontOnly (.str "value") a ∧ Proper (· = .str "value") a ∧ Calm {} (.str "value") s a
  have r₁ : Runs.Reached (step {}) allowed s₀ s₁ :=
    Runs.Reached.step (a := Action.set "value" (.int 1)) .start ⟨trivial, hone, hset⟩
  have r₂ : Runs.Reached (step {}) allowed s₀ s₂ :=
    Runs.Reached.step (a := Action.saveChanges) r₁ ⟨trivial, trivial, trivial⟩
  have r₃ : Runs.Reached (step {}) allowed s₀ s₃ :=
    Runs.Reached.step (a := Action.deliverToHost) r₂ ⟨trivial, trivial, hdeliver⟩
  have r₄ : Runs.Reached (step {}) allowed s₀ ConvergenceWitness.published :=
    Runs.Reached.step (a := Action.sendState none) r₃ ⟨trivial, trivial, hsend⟩
  have r₅ : Runs.Reached (step {}) allowed s₀
      (ConvergenceWitness.published.step {} .deliverToFront) :=
    Runs.Reached.step (a := Action.deliverToFront) r₄ ⟨trivial, trivial, trivial⟩
  have hequal := calm_runs_keep_edits ConvergenceWitness.onWire_zero (Setoid.refl _)
    (ConvergenceWitness.travels_zero.exact (.str "value") rfl) (by decide) r₅
  have hdirty : (ConvergenceWitness.published.step {} .deliverToFront).model.dirty = [] :=
    (dirty_deliverToFront {} ConvergenceWitness.published).trans (by decide +kernel)
  exact hequal.2 (by decide +kernel) (by decide +kernel) hdirty

/-- An edit that crosses a full state is lost on the model. -/
theorem snapshot_undoes_edit :
    ¬ ∀ (key : Key) (initialState store : Bindings) (s : TwoParty),
      OnWire (.dict store) → AllInts Exact (.dict store) →
      Value.dict initialState ≈ .dict store →
      (key ∈ Dict.keys Lifecycle.immutableFields → key ∈ Dict.keys store) →
      Runs.Reached (step {}) (fun _ a => FrontOnly key a ∧ Proper Everywhere a)
        (start initialState store) s →
      s.toHost = [] → s.toFront = [] → s.model.dirty = [] →
      Agree (s.model.state.lookup key) (s.kernel.store.lookup key) := by
  intro h
  have hone : CarriedAt Everywhere "value" (.int 1) := ConvergenceWitness.carried_one
  have hallowed : ∀ a ∈ crossing "value" (.int 1),
      FrontOnly (.str "value") a ∧ Proper Everywhere a := by
    simp [crossing, FrontOnly, Proper, hone]
  have hsound : Sound False Everywhere (start ConvergenceWitness.zero ConvergenceWitness.zero) :=
    sound_start ConvergenceWitness.travels_zero (Setoid.refl _)
  have hheld : heard ConvergenceWitness.zero (.str "value") = some (reading ⟦.int 0⟧) := rfl
  have hcrossing := crossing_swaps {} hsound rfl rfl rfl hone
    (by simp [start, hheld]) (by decide)
  have hreached : Runs.Reached (step {}) (fun _ a => FrontOnly (.str "value") a ∧ Proper Everywhere a)
      (start ConvergenceWitness.zero ConvergenceWitness.zero)
      (run {} (start ConvergenceWitness.zero ConvergenceWitness.zero)
        (crossing "value" (.int 1))) :=
    Runs.reached_foldl hallowed
  generalize run {} (start ConvergenceWitness.zero ConvergenceWitness.zero)
    (crossing "value" (.int 1)) = s at hreached hcrossing
  obtain ⟨htoHost, htoFront, hdirty, hmodel, hstore⟩ := hcrossing
  have hzero : Travels Everywhere ConvergenceWitness.zero := ConvergenceWitness.travels_zero
  have hexact : AllInts Exact (.dict ConvergenceWitness.zero) :=
    allInts_dict_iff.mpr fun key => hzero.exact key trivial
  have hagree := h _ _ _ s ConvergenceWitness.onWire_zero hexact (Setoid.refl _) (by decide)
    hreached htoHost htoFront hdirty
  have hknown := congrArg (Option.map reading) (known_eq_iff.mpr hagree)
  rw [← heard, ← heard, hmodel, hstore] at hknown
  have hequal : withInts number (.int 0) ≈ withInts number (.int 1) :=
    Quotient.exact (Option.some.inj hknown)
  exact absurd (hequal []) (by decide)

end Edits

end TwoParty

end Cositos
