/-
`PlutoChannel` (`channels.js`) on the page of a Pluto widget: the element whose value Pluto
binds, what it is set to in a run of the page's code, from the state that the widget has in
Julia on, and what Pluto reads there.
-/
import Cositos.JsonValues
import Cositos.Pluto
import Cositos.Reentry
import Cositos.Sync

namespace Cositos

namespace Front

open Value Live

variable {γ κ : Type}

/-! ### The channel -/

/-- `PlutoChannel`: its `#state`, what `element.value` was set to, each time with an `input`
event, and what its sink for custom messages was called with. -/
structure PlutoChannel where
  state : Bindings
  values : List Bindings
  customs : List (Value × List Binary) := []

namespace PlutoChannel

/-- `constructor`, which publishes the initial state. -/
def new (initialState : Bindings) : PlutoChannel where
  state := initialState
  values := [initialState]

/-- `#publish`. -/
def publish (channel : PlutoChannel) : PlutoChannel :=
  { channel with values := channel.values ++ [channel.state] }

/-- `Object.assign(this.#state, source)`. -/
def assignAll (channel : PlutoChannel) (source : Bindings) : PlutoChannel :=
  { channel with state := source.foldl (fun own kv => assign own kv.1 kv.2) channel.state }

/-- `send`, up to the code that the `input` event or the sink runs. -/
def send (hasOnCustom : Bool) (msg : Outbound) (channel : PlutoChannel) : PlutoChannel :=
  match (msg.1.lookup (.str "method")).getD undefined with
  | .str "update" =>
      let state := (msg.1.lookup (.str "state")).getD undefined
      (channel.assignAll (spread (orElse state (.dict [])))).publish
  | .str "custom" =>
      if hasOnCustom then
        let content := (msg.1.lookup (.str "content")).getD undefined
        { channel with customs := channel.customs ++ [(content, msg.2)] }
      else channel
  | _ => channel

end PlutoChannel

/-- The channel of a model in Pluto, with or without a sink for custom messages.  It never
calls back. -/
def plutoChannel (hasOnCustom : Bool) : Channel PlutoChannel where
  send := PlutoChannel.send hasOnCustom
  calls msg :=
    match (msg.1.lookup (.str "method")).getD undefined with
    | .str "update" => true
    | .str "custom" => hasOnCustom
    | _ => false

/-- A call of the page: it sets what a message can carry, and nothing comes in. -/
def Live.Request.OfPage : Request γ κ → Prop
  | .set key value => TwoParty.Carried key value
  | .receive _ _ => False
  | _ => True

namespace Moment

/-- What can happen in a model on a page. -/
def OfPage : Moment γ κ → Prop
  | .set key value => TwoParty.Carried key value
  | .sent message =>
      message = Model.requestState ∨ ∃ content buffers, message = Model.send content buffers
  | .arrived _ _ => False
  | _ => True

def saves : Moment γ κ → Bool
  | .saved _ => true
  | _ => false

/-- What a custom message hands to a sink. -/
def custom? : Moment γ κ → Option (Value × List Binary)
  | .sent (data, buffers) =>
      match data.lookup (.str "method") with
      | some (.str "custom") => some ((data.lookup (.str "content")).getD undefined, buffers)
      | _ => none
  | _ => none

end Moment

/-- The model has done nothing but what can happen on a page. -/
def Live.OfPage (live : Live γ κ PlutoChannel) : Prop := ∀ moment ∈ live.trace, moment.OfPage

/-! ### What is published -/

section Messages

variable {hasOnCustom : Bool} {channel : PlutoChannel}

theorem send_update (fields : Bindings) (buffers : List Binary) :
    PlutoChannel.send hasOnCustom (updateData fields, buffers) channel =
      (channel.assignAll (stripEntries fields)).publish := rfl

theorem send_custom (content : Value) (buffers : List Binary) :
    PlutoChannel.send hasOnCustom (Model.send content buffers) channel =
      if hasOnCustom then { channel with customs := channel.customs ++ [(content, buffers)] }
      else channel := rfl

theorem lookup_stripEntries {fields : Bindings} (hwf : (Value.dict fields).Wf) (key : Key)
    (hplain : ∀ b, fields.lookup key ≠ some (.bin b)) :
    (stripEntries fields).lookup key = (fields.lookup key).map strip := by
  have hstrip := child_strip hwf (k := key) (by rwa [child_dict])
  rwa [strip, child_dict, child_dict] at hstrip

theorem lookup_assignAll {source : Bindings} (hkeys : (Dict.keys source).Nodup)
    (hproto : protoKey ∉ Dict.keys source) (key : Key) :
    (channel.assignAll source).state.lookup key =
      (source.lookup key).or (channel.state.lookup key) := by
  have hput : ∀ own : Bindings, ∀ kv ∈ source,
      (assign own kv.1 kv.2).lookup key = if key = kv.1 then some kv.2 else own.lookup key :=
    fun own kv hkv => lookup_assign (fun heq => hproto (heq ▸ List.mem_map_of_mem hkv)) key
  have hfold := Dict.lookup_foldl_put (rfl : channel.state.lookup key = _) hput
  rw [PlutoChannel.assignAll, hfold, Dict.lookup_update _ hkeys]

end Messages

/-! ### The bond follows the model -/

/-- The element was last set to the state.  Under each key that is saved the state has what the
model has, less the binary values inside of it, unless that is a binary value itself. -/
structure Bound (model : Model) (channel : PlutoChannel) : Prop where
  ready : model.Ready
  published : channel.values.getLast? = some channel.state
  saved : ∀ key ∉ model.dirty, (∀ b, model.state.lookup key ≠ some (.bin b)) →
    channel.state.lookup key = (model.state.lookup key).map strip

section Bound

variable {model model' : Model} {channel channel' : PlutoChannel} {hasOnCustom : Bool}

theorem bound_new {initialState : Bindings} (hplain : (Value.dict initialState).binaries = []) :
    Bound (Model.new initialState) (PlutoChannel.new initialState) where
  ready := by simp [Model.Ready, Model.new]
  published := rfl
  saved key _ _ := by
    have hlookup : initialState.lookup key = (initialState.lookup key).map strip := by
      cases hvalue : initialState.lookup key with
      | none => rfl
      | some value =>
          have hbinaries : value.binaries = [] :=
            binaries_dict_eq_nil_iff.mp hplain (key, value) (Dict.mem_of_lookup hvalue)
          rw [Option.map_some, strip_eq_self hbinaries]
    exact hlookup

theorem Bound.congr (h : Bound model channel) (hstate : channel'.state = channel.state)
    (hvalues : channel'.values = channel.values) : Bound model channel' where
  ready := h.ready
  published := by rw [hvalues, hstate, h.published]
  saved := by rw [hstate]; exact h.saved

theorem Bound.set (h : Bound model channel) {key : String} {value : Value}
    (hcarried : TwoParty.Carried key value) : Bound (model.set key value).1 channel where
  ready := TwoParty.ready_set h.ready hcarried
  published := h.published
  saved key' hkey' hplain := by
    have hnot : ¬ (key' = .str key ∨ key' ∈ model.dirty) := fun hdirty =>
      hkey' (Model.mem_dirty_set.mpr hdirty)
    rw [not_or] at hnot
    have hlookup : (model.set key value).1.state.lookup key' = model.state.lookup key' :=
      (lookup_assign hcarried.key_ne key').trans (if_neg hnot.1)
    rw [hlookup] at hplain ⊢
    exact h.saved key' hnot.2 hplain

/-- A save publishes once, and is not for a sink. -/
theorem send_save (hasOnCustom : Bool) (h : Bound model channel) {message : Outbound}
    (hsaved : model.saveChanges = (model', some message)) :
    (∃ state, (PlutoChannel.send hasOnCustom message channel).values = channel.values ++ [state]) ∧
      (PlutoChannel.send hasOnCustom message channel).customs = channel.customs := by
  have hdirty : model.dirty ≠ [] := fun hnil => by simp [Model.saveChanges, hnil] at hsaved
  rw [Model.saveChanges_eq h.ready hdirty] at hsaved
  cases hsaved
  exact ⟨⟨_, rfl⟩, rfl⟩

theorem Bound.save (h : Bound model channel) {message : Outbound}
    (hsaved : model.saveChanges = (model', some message)) :
    Bound model' (PlutoChannel.send hasOnCustom message channel) := by
  have hdirty : model.dirty ≠ [] := fun hnil => by simp [Model.saveChanges, hnil] at hsaved
  rw [Model.saveChanges_eq h.ready hdirty] at hsaved
  cases hsaved
  have hwire := Model.onWire_dirtyState h.ready
  obtain ⟨hkeys, hvalues⟩ := onWire_dict_iff.mp hwire
  have hsublist := keys_stripEntries_sublist model.dirtyState
  have hproto : protoKey ∉ Dict.keys (stripEntries model.dirtyState) := by
    intro hmem
    obtain ⟨kv, hkv, heq⟩ := List.mem_map.mp (hsublist.subset hmem)
    exact (hvalues kv hkv).2.1 heq
  have hstate : ∀ key, (PlutoChannel.send hasOnCustom (updateData model.dirtyState,
      Lifecycle.payloadBuffers model.dirtyState) channel).state.lookup key =
        ((stripEntries model.dirtyState).lookup key).or (channel.state.lookup key) :=
    lookup_assignAll (hkeys.sublist hsublist) hproto
  refine ⟨by simp [Model.Ready], by simp [send_update, PlutoChannel.publish],
    fun key _ hplain => ?_⟩
  have hsent := Model.lookup_dirtyState h.ready key
  have hstripped := lookup_stripEntries hwire.wf key fun b hb => by
    rw [hsent] at hb
    split_ifs at hb
    exact hplain b hb
  rw [hstate, hstripped, hsent]
  split_ifs with hkey
  · obtain ⟨_, _, value, hvalue, _⟩ := h.ready key hkey
    rw [hvalue, Option.map_some, Option.some_or]
  · rw [Option.map_none, Option.none_or]
    exact h.saved key hkey hplain

/-- Nothing but a save changes the state or publishes it. -/
theorem send_of_ofPage {message : Outbound} (h : message = Model.requestState ∨
    ∃ content buffers, message = Model.send content buffers) :
    (PlutoChannel.send hasOnCustom message channel).state = channel.state ∧
      (PlutoChannel.send hasOnCustom message channel).values = channel.values := by
  rcases h with rfl | ⟨content, buffers, rfl⟩
  · exact ⟨rfl, rfl⟩
  · rw [send_custom]
    split_ifs <;> exact ⟨rfl, rfl⟩

end Bound

section Runs

open Machine

variable [DecidableEq γ] [DecidableEq κ] {truthy : κ → Bool} {hasOnCustom : Bool}
  {m m' : Machine γ κ PlutoChannel} {moment : Moment γ κ} {moments : List (Moment γ κ)}

theorem Machine.Step.bound (hstep : Step (plutoChannel hasOnCustom) truthy m moment m')
    (hpage : moment.OfPage) (h : Bound m.model m.channel) : Bound m'.model m'.channel := by
  cases hstep with
  | set key value => exact h.set hpage
  | saved hsaved => exact h.save hsaved
  | sent message =>
      obtain ⟨hstate, hvalues⟩ := send_of_ofPage hpage
      exact h.congr hstate hvalues
  | arrived => exact hpage.elim
  | listens | emits | calls | ends => exact h

theorem Machine.Replays.bound (h : Replays (plutoChannel hasOnCustom) truthy m moments m')
    (hpage : ∀ moment ∈ moments, moment.OfPage) (hbound : Bound m.model m.channel) :
    Bound m'.model m'.channel := by
  induction h with
  | nil => exact hbound
  | cons hstep _ ih =>
      obtain ⟨hmoment, hmoments⟩ := List.forall_mem_cons.mp hpage
      exact ih hmoments (hstep.bound hmoment hbound)

theorem Machine.Step.values (hstep : Step (plutoChannel hasOnCustom) truthy m moment m')
    (hpage : moment.OfPage) (h : Bound m.model m.channel) :
    ∃ more, m'.channel.values = m.channel.values ++ more ∧
      more.length = if moment.saves then 1 else 0 := by
  cases hstep with
  | saved hsaved =>
      obtain ⟨⟨state, hvalues⟩, -⟩ := send_save hasOnCustom h hsaved
      exact ⟨[state], hvalues, rfl⟩
  | sent message =>
      exact ⟨[], ((send_of_ofPage hpage).2).trans (List.append_nil _).symm, rfl⟩
  | set | arrived | listens | emits | calls | ends => exact ⟨[], (List.append_nil _).symm, rfl⟩

/-- A save publishes what the model has. -/
theorem Machine.Step.publishes {message : Outbound}
    (hstep : Step (plutoChannel hasOnCustom) truthy m (.saved message) m')
    (h : Bound m.model m.channel) :
    ∃ value, m'.channel.values = m.channel.values ++ [value] ∧
      ∀ key, (∀ b, m.model.state.lookup key ≠ some (.bin b)) →
        value.lookup key = (m.model.state.lookup key).map strip := by
  have hbound := hstep.bound trivial h
  cases hstep with
  | saved hsaved =>
      obtain ⟨⟨value, hvalues⟩, -⟩ := send_save hasOnCustom h hsaved
      obtain ⟨-, rfl⟩ := Model.saveChanges_some hsaved
      refine ⟨value, hvalues, fun key hplain => ?_⟩
      have hlast := hbound.published
      have hpublished : some value = some (PlutoChannel.send hasOnCustom message m.channel).state := by
        refine Eq.trans ?_ hlast
        exact (hvalues ▸ List.getLast?_concat).symm
      rw [Option.some.inj hpublished]
      exact hbound.saved key List.not_mem_nil hplain

theorem Machine.Replays.values (h : Replays (plutoChannel hasOnCustom) truthy m moments m')
    (hpage : ∀ moment ∈ moments, moment.OfPage) (hbound : Bound m.model m.channel) :
    ∃ more, m'.channel.values = m.channel.values ++ more ∧
      more.length = moments.countP Moment.saves := by
  induction h with
  | nil => exact ⟨[], (List.append_nil _).symm, rfl⟩
  | cons hstep _ ih =>
      obtain ⟨hmoment, hmoments⟩ := List.forall_mem_cons.mp hpage
      obtain ⟨first, hfirst, hone⟩ := hstep.values hmoment hbound
      obtain ⟨rest, hrest, hcount⟩ := ih hmoments (hstep.bound hmoment hbound)
      refine ⟨first ++ rest, by rw [hrest, hfirst, List.append_assoc], ?_⟩
      rw [List.length_append, hone, hcount, List.countP_cons, Nat.add_comm]

theorem Machine.Step.customs (hstep : Step (plutoChannel hasOnCustom) truthy m moment m')
    (hpage : moment.OfPage) (h : Bound m.model m.channel) :
    m'.channel.customs = m.channel.customs ++
      (if hasOnCustom then [moment].filterMap Moment.custom? else []) := by
  cases hstep with
  | saved hsaved =>
      refine (send_save _ h hsaved).2.trans ?_
      cases hasOnCustom <;> exact (List.append_nil _).symm
  | sent message =>
      rcases hpage with rfl | ⟨content, buffers, rfl⟩
      · cases hasOnCustom <;> exact (List.append_nil _).symm
      · cases hasOnCustom
        · exact (List.append_nil _).symm
        · rfl
  | arrived => exact hpage.elim
  | set | listens | emits | calls | ends =>
      cases hasOnCustom <;> exact (List.append_nil _).symm

theorem Machine.Replays.customs (h : Replays (plutoChannel hasOnCustom) truthy m moments m')
    (hpage : ∀ moment ∈ moments, moment.OfPage) (hbound : Bound m.model m.channel) :
    m'.channel.customs = m.channel.customs ++
      (if hasOnCustom then moments.filterMap Moment.custom? else []) := by
  induction h with
  | nil => rw [List.filterMap_nil, ite_self, List.append_nil]
  | @cons _ _ _ moment moments hstep _ ih =>
      obtain ⟨hmoment, hmoments⟩ := List.forall_mem_cons.mp hpage
      have hcons : (moment :: moments).filterMap Moment.custom? =
          [moment].filterMap Moment.custom? ++ moments.filterMap Moment.custom? :=
        by rw [← List.filterMap_append, List.singleton_append]
      rw [ih hmoments (hstep.bound hmoment hbound), hstep.customs hmoment hbound,
        List.append_assoc, hcons]
      split_ifs <;> rfl

omit [DecidableEq γ] [DecidableEq κ] in
theorem ofPage_record {live : Live γ κ PlutoChannel} (h : live.OfPage)
    (hmoment : moment.OfPage) : (live.record moment).OfPage :=
  List.forall_mem_append.mpr ⟨h, List.forall_mem_singleton.mpr hmoment⟩

/-- What a page runs leaves a record of what a page can do. -/
theorem rule_ofPage : Rule (plutoChannel hasOnCustom) truthy Request.OfPage
    fun live live' : Live γ κ PlutoChannel => live.OfPage → live'.OfPage where
  toChains := Routine.chains_invariant Live.OfPage
  emits _ _ h := ofPage_record h trivial
  calls _ _ _ h := ofPage_record h trivial
  ends _ _ h := ofPage_record h trivial
  set _ _ _ hcarried h := ofPage_record h hcarried
  save _ _ _ _ h := ofPage_record h trivial
  send _ content buffers _ h := ofPage_record h (Or.inr ⟨content, buffers, rfl⟩)
  requestState _ _ h := ofPage_record h (Or.inl rfl)
  listen _ _ _ h := ofPage_record h trivial
  receive _ _ _ h := h.elim

theorem ofPage_after (initialState : Bindings) {script : Script γ κ}
    (hscript : script.All Request.OfPage) :
    (Live.after (plutoChannel hasOnCustom) truthy initialState
      (PlutoChannel.new initialState) script).OfPage :=
  rule_ofPage.across_run hscript _ (List.forall_mem_nil _)

end Runs

/-! ### The state in Julia -/

section Json

open JsonText

theorem mem_ofJsonItems {jsons : List (Json ℚ)} {x : Value} (hx : x ∈ ofJsonItems jsons) :
    ∃ json ∈ jsons, x = ofJson json := by
  induction jsons with
  | nil => cases hx
  | cons json jsons ih =>
      rcases List.mem_cons.mp hx with rfl | hx
      · exact ⟨json, List.mem_cons_self, rfl⟩
      · obtain ⟨json', hjson', rfl⟩ := ih hx
        exact ⟨json', List.mem_cons_of_mem _ hjson', rfl⟩

theorem mem_ofJsonMembers {members : List (String × Json ℚ)} {kv : Key × Value}
    (hkv : kv ∈ ofJsonMembers members) : ∃ member ∈ members, kv.2 = ofJson member.2 := by
  induction members with
  | nil => cases hkv
  | cons member members ih =>
      rcases List.mem_cons.mp hkv with rfl | hkv
      · exact ⟨member, List.mem_cons_self, rfl⟩
      · obtain ⟨member', hmember', heq⟩ := ih hkv
        exact ⟨member', List.mem_cons_of_mem _ hmember', heq⟩

/-- No binary value is read from JSON. -/
theorem binaries_ofJson (json : Json ℚ) : (ofJson json).binaries = [] := by
  induction json using Json.tree_induction with
  | null | bool | int | float | str => rfl
  | arr xs ih =>
      refine binaries_list_eq_nil_iff.mpr fun x hx => ?_
      obtain ⟨json, hjson, rfl⟩ := mem_ofJsonItems hx
      exact ih json hjson
  | obj members ih =>
      refine binaries_dict_eq_nil_iff.mpr fun kv hkv => ?_
      rcases Dict.mem_update hkv with hmem | hmem
      · cases hmem
      · obtain ⟨member, hmember, heq⟩ := mem_ofJsonMembers hmem
        rw [heq, ih member hmember]

end Json

end Front

/-- `Bonds.initial_value`. -/
def Pluto.PlutoWidget.initialValue {φ : Type} (w : Pluto.PlutoWidget φ) : Json φ := .obj w.state

/-- `Bonds.transform_value`. -/
def Pluto.PlutoWidget.transformValue {φ α : Type} (_ : Pluto.PlutoWidget φ) (fromJs : α) : α :=
  fromJs

namespace Front

open Value Live JsonText Pluto

section Bonds

variable [DecidableEq γ] [DecidableEq κ] (truthy : κ → Bool) (hasOnCustom : Bool)

/-- `element.value` when so many moments of the run are over: what it was last set to. -/
def elementValue (live : Live γ κ PlutoChannel) (t : Nat) : Bindings :=
  live.channel.values.getD ((live.trace.take t).countP Moment.saves) []

/-- Pluto's binding of the element.  It has a listener of `input` of its own, which reads
`element.value`; `reads` says when it is called, for each event some time after its dispatch,
before or after the listeners of the page. -/
structure Binding (live : Live γ κ PlutoChannel) where
  reads : List Nat
  order : reads.Pairwise (· ≤ ·)
  hears : ∀ before message after, live.trace = before ++ .saved message :: after →
    ∃ t ∈ reads, before.length < t

/-- The values of Julia's variable: the initial one, and what Pluto has read. -/
def Binding.bound {live : Live γ κ PlutoChannel} (binding : Binding live)
    (w : PlutoWidget ℚ) : List Value :=
  ofJson w.initialValue ::
    binding.reads.map fun t => w.transformValue (.dict (elementValue live t))

/-- The element holds the whole state of the last save, at any time, and Julia's variable what
it holds when it is read. -/
structure Follows (w : PlutoWidget ℚ) (initialState : Bindings)
    (live : Live γ κ PlutoChannel) : Prop where
  initial : ofJson w.initialValue = .dict initialState
  /-- The element is set at each save, and never else. -/
  events : live.channel.values.length = 1 + live.trace.countP Moment.saves
  unsaved : ∀ t, (live.trace.take t).countP Moment.saves = 0 → elementValue live t = initialState
  saved : ∀ before message between after,
    live.trace = before ++ .saved message :: (between ++ after) →
      between.countP Moment.saves = 0 → ∀ key, key ≠ protoKey →
      (∀ b, before.foldl (Moment.written key) (initialState.lookup key) ≠ some (.bin b)) →
      (elementValue live (before.length + 1 + between.length)).lookup key =
        (before.foldl (Moment.written key) (initialState.lookup key)).map strip
  customs : live.channel.customs =
    if hasOnCustom then live.trace.filterMap Moment.custom? else []
  /-- In the end Julia has what the element has. -/
  final : ∀ binding : Binding live,
    (binding.bound w).getLast? = some (.dict (elementValue live live.trace.length))

variable {truthy hasOnCustom}

/-- What the element is set to at a save is what the model has. -/
theorem Machine.Replays.published {m m' : Machine γ κ PlutoChannel} {initialState : Bindings}
    {before after : List (Moment γ κ)} {message : Outbound}
    (h : Machine.Replays (plutoChannel hasOnCustom) truthy m (before ++ .saved message :: after) m')
    (hpage : ∀ moment ∈ before ++ .saved message :: after, moment.OfPage)
    (hbound : Bound m.model m.channel) (hstate : m.model.state = initialState) :
    ∃ value, m'.channel.values[m.channel.values.length + before.countP Moment.saves]? = some value ∧
      ∀ key, key ≠ protoKey →
        (∀ b, before.foldl (Moment.written key) (initialState.lookup key) ≠ some (.bin b)) →
        value.lookup key =
          (before.foldl (Moment.written key) (initialState.lookup key)).map strip := by
  obtain ⟨hearlier, hlater⟩ := List.forall_mem_append.mp hpage
  obtain ⟨hmoment, hrest⟩ := List.forall_mem_cons.mp hlater
  obtain ⟨between, hbefore, hafter⟩ := h.split
  obtain ⟨earlier, hearlierValues, hearlierCount⟩ := hbefore.values hearlier hbound
  obtain ⟨next, hstep, hnext⟩ : ∃ next, Machine.Step (plutoChannel hasOnCustom) truthy between
      (.saved message) next ∧ Machine.Replays (plutoChannel hasOnCustom) truthy next after m' := by
    cases hafter with
    | cons hstep hnext => exact ⟨_, hstep, hnext⟩
  have hbetween := hbefore.bound hearlier hbound
  obtain ⟨value, hpublished, hvalue⟩ := hstep.publishes hbetween
  obtain ⟨later, hlaterValues, -⟩ := hnext.values hrest (hstep.bound hmoment hbetween)
  have hlength : between.channel.values.length =
      m.channel.values.length + before.countP Moment.saves := by
    rw [hearlierValues, List.length_append, hearlierCount]
  refine ⟨value, ?_, fun key hkey => ?_⟩
  · have hall : m'.channel.values = between.channel.values ++ value :: later := by
      rw [hlaterValues, hpublished, List.append_assoc, List.singleton_append]
    rw [hall, ← hlength, List.getElem?_append_right le_rfl, Nat.sub_self]
    rfl
  · have hwritten : between.model.state.lookup key =
        before.foldl (Moment.written key) (initialState.lookup key) :=
      hstate ▸ hbefore.state hkey
    rw [← hwritten]
    exact hvalue key

omit [DecidableEq γ] [DecidableEq κ] in
/-- Past the last save the element is not set any more. -/
theorem elementValue_of_hears {live : Live γ κ PlutoChannel} {t : Nat}
    (h : ∀ before message after, live.trace = before ++ .saved message :: after →
      before.length < t) : elementValue live t = elementValue live live.trace.length := by
  have hrest : (live.trace.drop t).countP Moment.saves = 0 := by
    rw [List.countP_eq_zero]
    intro moment hmoment hsaves
    obtain ⟨before, after, hsplit⟩ := List.append_of_mem hmoment
    cases moment with
    | saved message =>
        have htrace : live.trace =
            (live.trace.take t ++ before) ++ .saved message :: after := by
          rw [List.append_assoc, ← hsplit, List.take_append_drop]
        have hlate := h _ _ _ htrace
        have hlong : t < live.trace.length := by
          by_contra hshort
          rw [List.drop_eq_nil_of_le (not_lt.mp hshort)] at hmoment
          cases hmoment
        rw [List.length_append, List.length_take] at hlate
        omega
    | _ => cases hsaves
  have hsplit : live.trace.countP Moment.saves = (live.trace.take t).countP Moment.saves := by
    conv_lhs => rw [← List.take_append_drop t live.trace, List.countP_append, hrest, Nat.add_zero]
  rw [elementValue, elementValue, List.take_length, hsplit]

/-- The last read comes after each of the others. -/
theorem le_getLast {reads : List Nat} (horder : reads.Pairwise (· ≤ ·)) (hne : reads ≠ [])
    {t : Nat} (ht : t ∈ reads) : t ≤ reads.getLast hne := by
  rw [← List.dropLast_append_getLast hne, List.mem_append, List.mem_singleton] at ht
  rw [← List.dropLast_append_getLast hne, List.pairwise_append] at horder
  rcases ht with ht | rfl
  · exact horder.2.2 t ht _ (List.mem_singleton_self _)
  · exact le_rfl

omit [DecidableEq γ] [DecidableEq κ] in
theorem Binding.getLast_bound {live : Live γ κ PlutoChannel} {w : PlutoWidget ℚ}
    (binding : Binding live)
    (hinitial : ofJson w.initialValue = .dict (elementValue live 0)) :
    (binding.bound w).getLast? = some (.dict (elementValue live live.trace.length)) := by
  by_cases hne : binding.reads = []
  · have hend : elementValue live 0 = elementValue live live.trace.length := by
      refine elementValue_of_hears fun before message after htrace => ?_
      obtain ⟨t, ht, -⟩ := binding.hears before message after htrace
      rw [hne] at ht
      cases ht
    rw [Binding.bound, hne, List.map_nil, List.getLast?_singleton, hinitial, hend]
  · have hend : elementValue live (binding.reads.getLast hne) =
        elementValue live live.trace.length := by
      refine elementValue_of_hears fun before message after htrace => ?_
      obtain ⟨t, ht, hlate⟩ := binding.hears before message after htrace
      exact hlate.trans_le (le_getLast binding.order hne ht)
    have hmap : binding.reads.map
        (fun t => w.transformValue (Value.dict (elementValue live t))) ≠ [] := by
      simpa using hne
    rw [Binding.bound, List.getLast?_cons, List.getLast?_eq_some_getLast hmap, List.getLast_map]
    exact congrArg (fun bindings => some (Value.dict bindings)) hend

variable (truthy hasOnCustom)

/-- In a run of a page, `element.value` is the initial state of the widget, and then, from each
save that sends anything on, the whole state that the model had at that time: under each key the
value it was last given, less the binary values inside of it, unless that is a binary value
itself.  Whenever Pluto reads it, that is what Julia gets. -/
theorem bond_follows_model {w : PlutoWidget ℚ} {format : FloatText ℚ} {json : Json ℚ → String}
    {bundle : List UInt8} {initialState : Bindings} (hfaithful : w.Faithful format json bundle)
    (hstate : (evaluate format (w.script json bundle).toList).map (fun constants =>
      ofJson constants.state) = some (.dict initialState))
    {script : Script γ κ} (hscript : script.All Request.OfPage) :
    Follows hasOnCustom w initialState (Live.after (plutoChannel hasOnCustom) truthy initialState
      (PlutoChannel.new initialState) script) := by
  generalize hlive : Live.after (plutoChannel hasOnCustom) truthy initialState
    (PlutoChannel.new initialState) script = live
  have hinitial : ofJson w.initialValue = .dict initialState := by
    rw [hfaithful.constants, Option.map_some, Option.some.injEq] at hstate
    exact hstate
  have hnew : Bound (Model.new initialState) (PlutoChannel.new initialState) :=
    bound_new (hinitial ▸ binaries_ofJson _)
  have hpage : live.OfPage := hlive ▸ ofPage_after initialState hscript
  have hreplays : Machine.Replays (plutoChannel hasOnCustom) truthy
      ⟨Model.new initialState, {}, PlutoChannel.new initialState, []⟩ live.trace
      (live.machine []) := hlive ▸ replays_after _ _ initialState _ script
  obtain ⟨more, hmore, hcount⟩ := hreplays.values hpage hnew
  have hvalues : live.channel.values = initialState :: more := hmore
  have hunsaved : ∀ t, (live.trace.take t).countP Moment.saves = 0 →
      elementValue live t = initialState := fun t ht => by
    rw [elementValue, ht, hvalues, List.getD_cons_zero]
  refine ⟨hinitial, ?_, hunsaved, ?_, hreplays.customs hpage hnew, ?_⟩
  · rw [hvalues, List.length_cons, hcount, Nat.add_comm]
  · intro before message between after htrace hnone key hkey hplain
    rw [htrace] at hreplays
    obtain ⟨value, hvalue, hlookup⟩ := hreplays.published (htrace ▸ hpage) hnew rfl
    have htake : (live.trace.take (before.length + 1 + between.length)).countP Moment.saves =
        1 + before.countP Moment.saves := by
      have hsplit : live.trace = (before ++ .saved message :: between) ++ after := by
        rw [htrace, List.append_assoc, List.cons_append]
      rw [hsplit, List.take_left' (by simp; omega), List.countP_append, List.countP_cons, hnone]
      rw [Nat.zero_add, Nat.add_comm]
      rfl
    have helement : elementValue live (before.length + 1 + between.length) = value := by
      rw [elementValue, htake, List.getD_eq_getElem?_getD]
      exact congrArg (fun found => found.getD []) hvalue
    rw [helement]
    exact hlookup key hkey hplain
  · intro binding
    exact binding.getLast_bound (by rw [hinitial, hunsaved 0 (by simp)])

end Bonds

namespace BondsWitness

open ScriptData PlutoWitness

/-- Floats that all print as `0.5`. -/
def format : FloatText ℚ where
  repr _ := ['0', '.', '5']
  ofText _ := 1 / 2

def json (v : Json ℚ) : String := String.ofList (Json.compact format v)

def greeting : PlutoWidget ℚ := html "export default \x7b\x7d" "hello"

/-- The page sets a new greeting and saves it; a listener of the event `input` sends a custom
message. -/
def script : Script Nat Nat :=
  .call (.set "value" (.str "bye")) (fun _ _ => .ret)
    (.call .saveChanges (fun _ _ => .call (.send (.int 1) []) (fun _ _ => .ret) .ret) .ret)

theorem ofPage_script : script.All Request.OfPage :=
  have hbye : OnWire (.str "bye") := onWire_leaf rfl rfl trivial
  ⟨⟨by decide, hbye⟩, fun _ _ => trivial, trivial,
    fun _ _ => ⟨trivial, fun _ _ => trivial, trivial⟩, trivial⟩

theorem faithful_greeting : greeting.Faithful format json [] := by
  have hspells : ∀ v ∈ greeting.printed [], Json.Spells Json.Escapable format v (json v).toList := by
    have hcompact : ∀ v : Json ℚ, v.floats = [] →
        Json.Spells Json.Escapable format v (json v).toList := by
      intro v hfloats
      rw [json, String.toList_ofList]
      exact Json.spells_compact fun q hq => absurd hq (by rw [hfloats]; exact List.not_mem_nil)
    simp only [PlutoWidget.printed, List.forall_mem_cons, List.not_mem_nil, false_implies,
      implies_true, and_true]
    exact ⟨hcompact _ rfl, hcompact _ rfl, hcompact _ rfl, hcompact _ rfl⟩
  refine (show_faithful_iff format json [] greeting hspells).mpr ⟨?_, ?_⟩
  · have hstrings : greeting.strings = [defaultRuntimeUrl, "export default \x7b\x7d", "", "value",
        "hello"] := rfl
    rw [hstrings]
    simp only [List.forall_mem_cons, List.not_mem_nil, false_implies, implies_true, and_true]
    exact ⟨breaks_eq_false (not_mem_literal (by decide)),
      breaks_eq_false (not_mem_literal (by decide)), rfl,
      breaks_eq_false (not_mem_literal (by decide)), breaks_eq_false (not_mem_literal (by decide))⟩
  · have hstr : (Json.str "hello" : Json ℚ).Literal := List.forall_mem_singleton.mpr trivial
    exact Json.literal_obj_iff.mpr ⟨by decide, List.forall_mem_singleton.mpr hstr⟩

end BondsWitness

open BondsWitness in
/-- The element is set twice, the sink gets one message, and Julia ends with what was saved. -/
theorem bond_follows_model_greeting :
    let live := Live.after (plutoChannel true) (fun _ => true) [(.str "value", .str "hello")]
      (PlutoChannel.new [(.str "value", .str "hello")]) script
    live.channel.values.length = 2 ∧ live.channel.customs = [(.int 1, [])] ∧
      ∀ binding : Binding live, (binding.bound greeting).getLast? =
        some (.dict [(.str "value", .str "bye")]) := by
  have hstate : (evaluate format (greeting.script json []).toList).map (fun constants =>
      ofJson constants.state) = some (.dict [(.str "value", .str "hello")]) := by
    rw [faithful_greeting.constants]
    rfl
  have h := bond_follows_model (fun _ => true) true faithful_greeting hstate ofPage_script
  exact ⟨h.events.trans rfl, h.customs.trans rfl, fun binding => (h.final binding).trans rfl⟩

end Front

end Cositos
