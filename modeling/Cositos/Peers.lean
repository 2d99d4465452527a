/-
Two `Model`s in one page, on the two ends of `MemoryChannel.pair()` (`channels.js`).  Their
listeners set keys and save them while a message comes in; every key is still the same on
both sides once all is saved and delivered, if each has one side that sets it.
-/
import Cositos.Convergence
import Cositos.Reentry

namespace Cositos

namespace Front

open Routine

variable {γ κ : Type}

/-! ### The system -/

/-- `MemoryChannel`: the messages on their way to the peer, which gets each in a task of its
own.  They are handed over as they are. -/
def memoryChannel : Channel (List Outbound) where
  send message queue := queue ++ [message]
  calls _ := false

/-- A model on each end. -/
abbrev Peers (γ κ : Type) := Side → Live γ κ (List Outbound)

namespace Peers

/-- What can happen: code of a page runs, or the oldest message is delivered to a side. -/
inductive Act (γ κ : Type)
  | page (side : Side) (script : Live.Script γ κ)
  | deliver (side : Side) (callbacks : Nat → Nat → Live.Script γ κ)

def start (initialState : Side → Bindings) : Peers γ κ := fun side =>
  Live.new (initialState side) []

variable [DecidableEq γ] [DecidableEq κ] (truthy : κ → Bool)

def step (peers : Peers γ κ) : Act γ κ → Peers γ κ
  | .page side script =>
      Function.update peers side (Live.run memoryChannel truthy script (peers side)).2
  | .deliver side callbacks =>
      match (peers side.other).channel with
      | [] => peers
      | (data, buffers) :: channel =>
          let peers := Function.update peers side.other { peers side.other with channel }
          Function.update peers side
            (Live.receive (fun i j => Live.run memoryChannel truthy (callbacks i j))
              (.dict data) buffers (peers side)).2

end Peers

namespace Live

/-- A call that sets no key but those of its side, to what a message can carry. -/
def Request.Keeps (owner : Key → Side) (side : Side) : Request γ κ → Prop
  | .set key value => owner (.str key) = side ∧ TwoParty.Carried key value
  | .receive _ _ => False
  | _ => True

end Live

/-- Each side sets its own keys, and no listener lets an exception through to the channel. -/
def Peers.Act.Keeps (owner : Key → Side) : Peers.Act γ κ → Prop
  | .page side script => script.All (Live.Request.Keeps owner side)
  | .deliver side callbacks => ∀ i j,
      (callbacks i j).All (Live.Request.Keeps owner side) ∧ (callbacks i j).throws = false

/-! ### Messages -/

/-- What a message brings the model that receives it. -/
def brings (message : Outbound) : Bindings :=
  match getProp (.dict message.1) (.str "method"), Model.incoming (.dict message.1) message.2 with
  | .ok (.str "update"), .ok entries => entries
  | _, _ => []

/-- A message that a model sends. -/
inductive Carriable : Outbound → Prop
  | update {fields : Bindings} (h : OnWire (.dict fields)) :
      Carriable (updateData fields, Lifecycle.payloadBuffers fields)
  | custom (content : Value) (buffers : List Binary) : Carriable (Model.send content buffers)
  | requestState : Carriable Model.requestState

section Messages

variable {fields : Bindings}

/-- An update that was handed over brings the state that it is about. -/
theorem incoming_handed (h : OnWire (.dict fields)) :
    ∃ entries, Model.incoming (.dict (updateData fields)) (Lifecycle.payloadBuffers fields) =
        .ok entries ∧ OnWire (.dict entries) ∧ Value.dict entries ≈ .dict fields := by
  obtain ⟨own, hown⟩ : ∃ own, (Value.dict fields).strip = .dict own := ⟨_, rfl⟩
  obtain ⟨w, hput, hw⟩ := putBuffers_strip h rfl (Setoid.refl (Value.dict fields).strip)
  obtain ⟨entries, rfl⟩ := exists_dict_of_equiv hw
  have hwf : (Value.dict entries).Wf := wf_putBuffers (Value.wf_strip h.wf) hput
  refine ⟨entries, ?_, h.of_equiv hwf hw, hw⟩
  have hstate : getProp (.dict (updateData fields)) (.str "state") = .ok (.dict own) :=
    congrArg Except.ok hown
  have hpaths : getProp (.dict (updateData fields)) (.str "buffer_paths") =
      .ok (Protocol.bufferPathsField ((Value.dict fields).binaries.map Prod.fst)) := rfl
  rw [hown] at hput
  rw [Model.incoming, hstate, hpaths]
  simp only [bind, Except.bind, orElse, spread, Protocol.bufferPathsField]
  simp only [Protocol.bufferPathsField] at hput
  rw [Lifecycle.payloadBuffers, hput]
  rfl

theorem brings_update (h : OnWire (.dict fields)) :
    OnWire (.dict (brings (updateData fields, Lifecycle.payloadBuffers fields))) ∧
      Value.dict (brings (updateData fields, Lifecycle.payloadBuffers fields)) ≈
        .dict fields := by
  obtain ⟨entries, hincoming, hwire, hequiv⟩ := incoming_handed h
  have hmethod : getProp (.dict (updateData fields)) (.str "method") = .ok (.str "update") := rfl
  have hbrings : brings (updateData fields, Lifecycle.payloadBuffers fields) = entries := by
    rw [brings, hmethod, hincoming]
    rfl
  rw [hbrings]
  exact ⟨hwire, hequiv⟩

theorem brings_send (content : Value) (buffers : List Binary) :
    brings (Model.send content buffers) = [] := rfl

theorem brings_requestState : brings Model.requestState = [] := rfl

theorem Carriable.onWire {message : Outbound} (h : Carriable message) :
    OnWire (.dict (brings message)) := by
  have hnil : OnWire (.dict []) := onWire_dict_iff.mpr ⟨by simp, by simp⟩
  cases h with
  | update h => exact (brings_update h).1
  | custom content buffers => rwa [brings_send]
  | requestState => rwa [brings_requestState]

theorem known_single (kv : Key × Value) (key : Key) :
    known [kv] key = if key = kv.1 then some ⟦kv.2⟧ else none := by
  obtain ⟨k, value⟩ := kv
  by_cases hkey : key = k
  · subst hkey
    simp [known]
  · rw [known, Dict.lookup_cons_ne hkey, List.lookup_nil, if_neg hkey]
    rfl

/-- Entries bring what their object knows, one key at a time. -/
theorem known_of_mem {entries : Bindings} (h : (Dict.keys entries).Nodup) {kv : Key × Value}
    (hkv : kv ∈ entries) {key : Key} (hcarries : known [kv] key ≠ none) :
    key = kv.1 ∧ known [kv] key = known entries key := by
  rw [known_single] at hcarries ⊢
  split_ifs at hcarries ⊢ with hkey
  · subst hkey
    refine ⟨rfl, ?_⟩
    rw [known, (Dict.lookup_eq_some_iff h).mpr hkv]
    rfl
  · exact absurd rfl hcarries

theorem exists_known_iff {entries : Bindings} {key : Key} :
    (∃ update ∈ entries.map fun kv => known [kv], update key ≠ none) ↔
      key ∈ Dict.keys entries := by
  simp only [List.mem_map, exists_exists_and_eq_and, known_single, Dict.keys]
  constructor
  · rintro ⟨kv, hkv, hne⟩
    refine ⟨kv, hkv, ?_⟩
    by_contra hkey
    exact hne (if_neg fun heq => hkey heq.symm)
  · rintro ⟨kv, hkv, rfl⟩
    exact ⟨kv, hkv, by simp⟩

end Messages

/-! ### The replicas -/

namespace Peers

/-- The models as replicas.  Each key of a message is an update of its own, and `pending` are
the entries of the message that is coming in which the model has still to take. -/
def view (peers : Peers γ κ) (pending : Side → Bindings) : Replicas Key Known where
  copy side := known (peers side).model.state
  unsent side := {key | key ∈ (peers side).model.dirty}
  inbox side :=
    (pending side ++ (peers side.other).channel.flatMap brings).map fun kv => known [kv]

/-- What the sides hold and have sent can be carried, and the replicas are owned. -/
structure Sound (owner : Key → Side) (peers : Peers γ κ) (pending : Side → Bindings) : Prop where
  ready : ∀ side, (peers side).model.Ready
  channel : ∀ side, ∀ message ∈ (peers side).channel, Carriable message
  arriving : ∀ side, OnWire (.dict (pending side))
  owned : Replicas.Owned owner (peers.view pending)

/-- A change of one side leaves the system sound, whatever is coming in. -/
def Kept (owner : Key → Side) (peers : Peers γ κ) (side : Side)
    (live live' : Live γ κ (List Outbound)) : Prop :=
  ∀ pending, Sound owner (Function.update peers side live) pending →
    Sound owner (Function.update peers side live') pending

variable {owner : Key → Side} {peers : Peers γ κ} {side : Side} {pending : Side → Bindings}
  {live live' : Live γ κ (List Outbound)} {peers' : Peers γ κ}

theorem chains_kept : Chains (Kept owner peers side) where
  refl _ _ := id
  trans h h' pending := h' pending ∘ h pending

theorem view_congr (hmodel : ∀ side, (peers side).model = (peers' side).model)
    (hchannel : ∀ side, (peers side).channel = (peers' side).channel) :
    view peers pending = view peers' pending := by
  simp only [view, hmodel, hchannel]

/-- A change of one side, by what it does to the model, to the channel and to the view. -/
theorem Sound.replace {pending' : Side → Bindings}
    (h : Sound owner (Function.update peers side live) pending)
    (harriving : ∀ s, OnWire (.dict (pending' s)))
    (hready : live.model.Ready → live'.model.Ready)
    (hchannel : (∀ message ∈ live.channel, Carriable message) →
      ∀ message ∈ live'.channel, Carriable message)
    (howned : Replicas.Owned owner (view (Function.update peers side live') pending')) :
    Sound owner (Function.update peers side live') pending' := by
  have hready' := (Function.forall_update_iff peers fun _ live => live.model.Ready).mp h.ready
  have hchannel' := (Function.forall_update_iff peers fun _ live =>
    ∀ message ∈ live.channel, Carriable message).mp h.channel
  exact
    { ready := (Function.forall_update_iff peers fun _ live => live.model.Ready).mpr
        ⟨hready hready'.1, hready'.2⟩
      channel := (Function.forall_update_iff peers fun _ live =>
        ∀ message ∈ live.channel, Carriable message).mpr ⟨hchannel hchannel'.1, hchannel'.2⟩
      arriving := harriving
      owned := howned }

theorem Sound.ready_update (h : Sound owner (Function.update peers side live) pending) :
    live.model.Ready := by
  have hready := h.ready side
  rwa [Function.update_self] at hready

/-! ### What calls do to the replicas -/

theorem view_set {key : String} {value : Value} (hcarried : TwoParty.Carried key value) :
    view (Function.update peers side
        { live with model := (live.model.set key value).1 }) pending =
      (view (Function.update peers side live) pending).apply
        (.edit side (.str key) ⟦value⟧) := by
  apply Replicas.ext_points
  · intro s k
    rw [Replicas.copy_edit]
    by_cases hs : s = side
    · subst hs
      have hlookup : (live.model.set key value).1.state.lookup k =
          if k = .str key then some value else live.model.state.lookup k :=
        lookup_assign hcarried.key_ne k
      simp only [view, Function.update_self, known, hlookup, true_and]
      split_ifs <;> rfl
    · simp [view, hs]
  · intro s k
    rw [Replicas.mem_unsent_edit]
    by_cases hs : s = side
    · subst hs
      simp [view, Model.mem_dirty_set]
    · simp [view, hs]
  · intro s
    by_cases hs : s.other = side
    · subst hs
      simp [view, Replicas.apply]
    · simp [view, hs, Replicas.apply]

theorem view_save {message : Outbound} (hready : live.model.Ready)
    (hequiv : Value.dict (brings message) ≈ .dict live.model.dirtyState) :
    view (Function.update peers side
        { live with
          model := { live.model with dirty := [] }
          channel := live.channel ++ [message] }) pending =
      (Replicas.sends side ((brings message).map fun kv => known [kv])).foldl Replicas.apply
        (view (Function.update peers side live) pending) := by
  have hkeys : ∀ key, key ∈ Dict.keys (brings message) ↔ key ∈ live.model.dirty := by
    intro key
    have hknown := congrFun (known_eq_of_equiv hequiv) key
    rw [TwoParty.known_dirtyState hready] at hknown
    constructor
    · intro hkey
      by_contra hdirty
      rw [if_neg hdirty] at hknown
      exact known_eq_none_iff.mp hknown hkey
    · intro hdirty
      obtain ⟨_, _, value, hvalue, _⟩ := hready key hdirty
      rw [if_pos hdirty] at hknown
      refine mem_keys_of_known ?_
      rw [hknown]
      simp [known, hvalue]
  apply Replicas.ext_points
  · intro s key
    rw [Replicas.copy_sends]
    by_cases hs : s = side
    · subst hs
      simp [view]
    · simp [view, hs]
  · intro s key
    rw [Replicas.mem_unsent_sends, exists_known_iff, hkeys]
    by_cases hs : s = side
    · subst hs
      simp [view]
    · simp [view, hs]
  · intro s
    rw [Replicas.inbox_sends]
    by_cases hs : s = side.other
    · subst hs
      simp [view]
    · have hother : s.other ≠ side := fun heq => hs (by rw [← heq, Side.other_other])
      simp [view, hs, hother]

/-- A message that brings nothing. -/
theorem view_send {message : Outbound} (hbrings : brings message = []) :
    view (Function.update peers side { live with channel := live.channel ++ [message] })
        pending =
      view (Function.update peers side live) pending := by
  apply Replicas.ext_points
  · intro s key
    by_cases hs : s = side
    · subst hs
      simp [view]
    · simp [view, hs]
  · intro s key
    by_cases hs : s = side
    · subst hs
      simp [view]
    · simp [view, hs]
  · intro s
    by_cases hs : s.other = side
    · subst hs
      simp [view, hbrings]
    · simp [view, hs]

theorem view_arrive {kv : Key × Value} {entries : Bindings} (hkey : kv.1 ≠ protoKey)
    (hpending : pending side = kv :: entries) :
    view (Function.update peers side
        { live with
          model := { live.model with state := assign live.model.state kv.1 kv.2 } })
        (Function.update pending side entries) =
      (view (Function.update peers side live) pending).apply (.deliver side) := by
  have hinbox : (view (Function.update peers side live) pending).inbox side =
      known [kv] :: ((entries ++ ((Function.update peers side live) side.other).channel.flatMap
        brings).map fun kv => known [kv]) := by
    simp [view, hpending]
  apply Replicas.ext_points
  · intro s key
    rw [Replicas.copy_deliver hinbox]
    by_cases hs : s = side
    · subst hs
      rw [known_single]
      simp only [view, Function.update_self, known, lookup_assign hkey, if_true]
      split_ifs <;> rfl
    · simp [view, hs]
  · intro s key
    rw [Replicas.mem_unsent_deliver]
    by_cases hs : s = side
    · subst hs
      simp [view]
    · simp [view, hs]
  · intro s
    rw [Replicas.inbox_deliver hinbox]
    by_cases hs : s = side
    · subst hs
      simp [view]
    · obtain rfl := Side.eq_other_of_ne hs
      simp [view]

/-! ### Sound systems stay sound -/

theorem kept_same (hmodel : live'.model = live.model) (hchannel : live'.channel = live.channel) :
    Kept owner peers side live live' := by
  have hmodels : ∀ s, (Function.update peers side live' s).model =
      (Function.update peers side live s).model := by
    intro s
    by_cases hs : s = side
    · subst hs
      simp [hmodel]
    · simp [hs]
  have hchannels : ∀ s, (Function.update peers side live' s).channel =
      (Function.update peers side live s).channel := by
    intro s
    by_cases hs : s = side
    · subst hs
      simp [hchannel]
    · simp [hs]
  intro pending h
  refine h.replace h.arriving (fun hready => hmodel ▸ hready)
    (fun hcarriable => hchannel ▸ hcarriable) ?_
  rw [view_congr hmodels hchannels]
  exact h.owned

theorem kept_set {key : String} {value : Value} (hkey : owner (.str key) = side)
    (hcarried : TwoParty.Carried key value) :
    Kept owner peers side live { live with model := (live.model.set key value).1 } := by
  intro pending h
  refine h.replace h.arriving (fun hready => TwoParty.ready_set hready hcarried) id ?_
  rw [view_set hcarried]
  exact Replicas.owned_apply h.owned hkey

theorem kept_send {message : Outbound} (hmessage : Carriable message)
    (hbrings : brings message = []) :
    Kept owner peers side live { live with channel := live.channel ++ [message] } := by
  intro pending h
  refine h.replace h.arriving id (fun hcarriable message' hmem => ?_) ?_
  · rcases List.mem_append.mp hmem with hold | hnew
    · exact hcarriable message' hold
    · exact List.mem_singleton.mp hnew ▸ hmessage
  · rw [view_send hbrings]
    exact h.owned

theorem kept_save {model : Model} {message : Outbound}
    (hsaved : live.model.saveChanges = (model, some message)) :
    Kept owner peers side live { live with model, channel := live.channel ++ [message] } := by
  intro pending h
  have hready := h.ready_update
  have hdirty : live.model.dirty ≠ [] := fun hnil => by simp [Model.saveChanges, hnil] at hsaved
  rw [Model.saveChanges_eq hready hdirty] at hsaved
  cases hsaved
  have hwire := Model.onWire_dirtyState hready
  obtain ⟨hbrought, hequiv⟩ := brings_update hwire
  refine h.replace h.arriving (fun _ => by simp [Model.Ready])
    (fun hcarriable message' hmem => ?_) ?_
  · rcases List.mem_append.mp hmem with hold | hnew
    · exact hcarriable message' hold
    · exact List.mem_singleton.mp hnew ▸ .update hwire
  · rw [view_save hready hequiv]
    refine Replicas.owned_foldl h.owned (Replicas.along_sends fun update hupdate key hcarries => ?_)
    obtain ⟨kv, hkv, rfl⟩ := List.mem_map.mp hupdate
    obtain ⟨-, heq⟩ := known_of_mem (onWire_dict_iff.mp hbrought).1 hkv hcarries
    have hknown : known [kv] key = known live.model.dirtyState key :=
      heq.trans (congrFun (known_eq_of_equiv hequiv) key)
    obtain ⟨hkey, hstate⟩ := TwoParty.known_dirtyState_of_ne_none hready (hknown ▸ hcarries)
    refine ⟨h.owned.unsent side key (by simpa [view] using hkey), ?_⟩
    rw [hknown, hstate]
    simp [view]

theorem kept_record {moment : Moment γ κ} (h : Kept owner peers side live live') :
    Kept owner peers side live (live'.record moment) :=
  chains_kept.trans h (kept_same rfl rfl)

theorem emits_kept : Live.Emits (Kept owner peers side) where
  toChains := chains_kept
  emits _ _ := kept_same rfl rfl
  calls _ _ _ := kept_same rfl rfl
  ends _ _ := kept_same rfl rfl

/-- The rest of an update is taken, its entries in turn, while listeners of each go on to set
and save keys of their side. -/
theorem sound_receiveOne {host : Nat → Routine (Live γ κ (List Outbound))} {kv : Key × Value}
    {entries : Bindings} (hhost : ∀ i, Across (Kept owner peers side) (host i))
    (h : Sound owner (Function.update peers side live)
      (Function.update pending side (kv :: entries))) :
    Sound owner (Function.update peers side (Live.receiveOne host kv live).2)
      (Function.update pending side entries) := by
  have hwire := h.arriving side
  rw [Function.update_self] at hwire
  obtain ⟨hkeys, hvalues⟩ := onWire_dict_iff.mp hwire
  have hkey : kv.1 ≠ protoKey := (hvalues kv List.mem_cons_self).2.1
  have hrest : OnWire (.dict entries) := onWire_dict_iff.mpr
    ⟨(List.nodup_cons.mp hkeys).2, fun entry hentry => hvalues entry (List.mem_cons_of_mem _ hentry)⟩
  have hone : OnWire (.dict [kv]) := onWire_dict_iff.mpr
    ⟨List.nodup_singleton _, fun entry hentry =>
      hvalues entry (List.mem_singleton.mp hentry ▸ List.mem_cons_self)⟩
  let live' : Live γ κ (List Outbound) :=
    { live with model := { live.model with state := assign live.model.state kv.1 kv.2 } }
  have harriving : ∀ s, OnWire (.dict (Function.update pending side entries s)) := by
    have hbefore := (Function.forall_update_iff pending fun _ own => OnWire (.dict own)).mp h.arriving
    exact (Function.forall_update_iff pending fun _ own => OnWire (.dict own)).mpr
      ⟨hrest, hbefore.2⟩
  have harrived : Sound owner (Function.update peers side live')
      (Function.update pending side entries) := by
    have hview : view (Function.update peers side live')
        (Function.update (Function.update pending side (kv :: entries)) side entries) = _ :=
      view_arrive hkey (Function.update_self side (kv :: entries) pending)
    rw [Function.update_idem] at hview
    refine h.replace harriving (fun hready => TwoParty.ready_assign hready hone) id ?_
    rw [hview]
    exact Replicas.owned_apply h.owned trivial
  have hrecorded : Kept owner peers side live' (live'.record (.arrived kv.1 kv.2)) :=
    kept_record (chains_kept.refl live')
  exact emits_kept.emit hhost (.change kv.1 kv.2) _ _ (hrecorded _ harrived)

/-- The oldest message leaves the channel; what it brings is still to come in. -/
theorem sound_pop {message : Outbound} {rest : List Outbound}
    (h : Sound owner peers fun _ => [])
    (hqueue : (peers side.other).channel = message :: rest) :
    Sound owner (Function.update peers side.other { peers side.other with channel := rest })
      (Function.update (fun _ => []) side (brings message)) := by
  have hmessage : Carriable message := h.channel side.other message (by simp [hqueue])
  have hsound : Sound owner (Function.update peers side.other (peers side.other)) fun _ => [] := by
    rwa [Function.update_eq_self]
  refine hsound.replace ?_ id (fun hcarriable later hlater => ?_) ?_
  · exact (Function.forall_update_iff _ fun _ own => OnWire (.dict own)).mpr
      ⟨hmessage.onWire, fun s _ => h.arriving s⟩
  · exact hcarriable later (by rw [hqueue]; exact List.mem_cons_of_mem _ hlater)
  · have hview : view (Function.update peers side.other { peers side.other with channel := rest })
        (Function.update (fun _ => []) side (brings message)) = view peers fun _ => [] := by
      apply Replicas.ext_points
      · intro s key
        by_cases hs : s = side.other
        · subst hs
          simp [view]
        · simp [view, hs]
      · intro s key
        by_cases hs : s = side.other
        · subst hs
          simp [view]
        · simp [view, hs]
      · intro s
        by_cases hs : s = side
        · subst hs
          simp [view, hqueue]
        · obtain rfl := Side.eq_other_of_ne hs
          simp [view]
    rw [hview]
    exact h.owned

/-- A message comes in, and no listener lets an exception through. -/
theorem sound_receive {host : Nat → Nat → Routine (Live γ κ (List Outbound))}
    {message : Outbound} (hmessage : Carriable message)
    (hhost : ∀ i j, Across (Kept owner peers side) (host i j))
    (hreturns : ∀ i j live, (host i j live).1 = .returned)
    (h : Sound owner peers (Function.update (fun _ => []) side (brings message))) :
    Sound owner (Function.update peers side
      (Live.receive host (.dict message.1) message.2 (peers side)).2) fun _ => [] := by
  have hself : Function.update peers side (peers side) = peers := Function.update_eq_self _ _
  have hempty : Function.update (fun _ : Side => ([] : Bindings)) side [] = fun _ => [] :=
    Function.update_eq_self side fun _ => []
  cases hmessage with
  | custom content buffers =>
      rw [brings_send, hempty] at h
      have hemit := emits_kept.emit (hhost 0) (.custom content buffers) (peers side)
      exact hemit _ (by rwa [hself])
  | requestState =>
      rw [brings_requestState, hempty] at h
      have hnothing : Live.receive host (.dict Model.requestState.1) Model.requestState.2
          (peers side) = (.returned, peers side) := rfl
      rwa [hnothing, hself]
  | @update fields hfields =>
      obtain ⟨entries, hincoming, -, -⟩ := incoming_handed hfields
      have hmethod : getProp (.dict (updateData fields)) (.str "method") = .ok (.str "update") :=
        rfl
      have hbrings : brings (updateData fields, Lifecycle.payloadBuffers fields) = entries := by
        rw [brings, hmethod, hincoming]
        rfl
      have hreceive : Live.receive host (.dict (updateData fields))
          (Lifecycle.payloadBuffers fields) (peers side) =
            forEach (fun i entry => Live.receiveOne (host i) entry) 0 entries (peers side) := by
        rw [Live.receive, hmethod]
        simp only [hincoming]
      rw [hbrings] at h
      rw [hreceive, ← hempty]
      have hreturned : ∀ i entry live, (Live.receiveOne (host i) entry live).1 = .returned :=
        fun i _ _ => Live.emit_returns (hreturns i) _ _
      refine forEach_invariant (I := fun entries live =>
        Sound owner (Function.update peers side live) (Function.update (fun _ => []) side entries))
        (fun i entry rest live hlive _ => sound_receiveOne (hhost i) hlive) ?_
        (forEach_returns hreturned 0 entries (peers side))
      rwa [hself]

theorem sound_start {initialState : Side → Bindings}
    (hequal : Value.dict (initialState .left) ≈ .dict (initialState .right)) :
    Sound owner (start initialState : Peers γ κ) fun _ => [] where
  ready side := by simp [start, Live.new, Model.new, Model.Ready]
  channel side := by simp [start, Live.new]
  arriving side := onWire_dict_iff.mpr ⟨by simp, by simp⟩
  owned :=
    { coherent := fun key =>
        { current := fun _ => by
            have hknown := congrFun (known_eq_of_equiv hequal) key
            cases owner key with
            | left => exact hknown.symm
            | right => exact hknown
          echoes := by simp [view, start, Live.new] }
      quiet := by simp [Replicas.Quiet, view, start, Live.new]
      unsent := by simp [view, start, Live.new, Model.new] }

section Runs

variable [DecidableEq γ] [DecidableEq κ] {truthy : κ → Bool}

theorem rule_kept : Live.Rule memoryChannel truthy (Live.Request.Keeps owner side)
    (Kept owner peers side) where
  toEmits := emits_kept
  set _ _ _ h := kept_record (kept_set h.1 h.2)
  save _ _ _ h := kept_record (kept_save h)
  send _ content buffers _ :=
    kept_record (kept_send (.custom content buffers) (brings_send content buffers))
  requestState _ _ := kept_record (kept_send .requestState brings_requestState)
  listen _ _ _ := kept_record (kept_same rfl rfl)
  receive _ _ _ h := h.elim

theorem sound_page {script : Live.Script γ κ} (h : Sound owner peers pending)
    (hscript : script.All (Live.Request.Keeps owner side)) :
    Sound owner (peers.step truthy (.page side script)) pending := by
  have hkept : Kept owner peers side (peers side)
      (Live.run memoryChannel truthy script (peers side)).2 :=
    rule_kept.across_run hscript (peers side)
  exact hkept pending (by rwa [Function.update_eq_self])

theorem sound_deliver {callbacks : Nat → Nat → Live.Script γ κ} (h : Sound owner peers fun _ => [])
    (hcallbacks : ∀ i j, (callbacks i j).All (Live.Request.Keeps owner side) ∧
      (callbacks i j).throws = false) :
    Sound owner (peers.step truthy (.deliver side callbacks)) fun _ => [] := by
  cases hqueue : (peers side.other).channel with
  | nil =>
      have hstep : peers.step truthy (.deliver side callbacks) = peers := by
        simp only [step, hqueue]
      rwa [hstep]
  | cons message rest =>
      obtain ⟨data, buffers⟩ := message
      have hmessage : Carriable (data, buffers) := h.channel side.other _ (by simp [hqueue])
      simp only [step, hqueue]
      refine sound_receive hmessage (fun i j => rule_kept.across_run (hcallbacks i j).1)
        (fun i j live => ?_) (sound_pop h hqueue)
      rw [Live.run_exit, (hcallbacks i j).2]
      rfl

/-- Whatever listeners do when a message comes in, the two models are equal once all is saved
and delivered, where each key is set on one side and no listener throws at a delivery. -/
theorem peers_converge {initialState : Side → Bindings}
    (hequal : Value.dict (initialState .left) ≈ .dict (initialState .right))
    (hreached : Runs.Reached (step truthy) (fun _ a => a.Keeps owner) (start initialState) peers)
    (hchannel : ∀ side, (peers side).channel = []) (hdirty : ∀ side, (peers side).model.dirty = []) :
    Value.dict (peers .left).model.state ≈ .dict (peers .right).model.state := by
  have hsound : Sound owner peers fun _ => [] := by
    refine hreached.invariant (I := fun peers => Sound owner peers fun _ => [])
      (sound_start hequal) fun peers a h ha => ?_
    cases a with
    | page side script => exact sound_page h ha
    | deliver side callbacks => exact sound_deliver h ha
  have hsent : ∀ side key, key ∉ (peers.view fun _ => []).unsent side := by
    intro side key
    simp [view, hdirty side]
  have hempty : ∀ side, (peers.view fun _ => []).inbox side = [] := by
    intro side
    simp [view, hchannel side.other]
  exact dict_equiv_iff.mpr fun key => known_eq_iff.mp (hsound.owned.copy_eq hsent hempty key)

end Runs

namespace PeersWitness

open Live

def both : Bindings := [(.str "a", .int 0), (.str "b", .int 0)]

/-- A call that runs nothing, and what comes after it. -/
def plain (request : Request Nat Nat) (next : Script Nat Nat) : Script Nat Nat :=
  .call request (fun _ _ => .ret) next

/-- The right moves `b`; the left hears of it and answers with `a`. -/
def acts : List (Act Nat Nat) :=
  [.page .left (plain (.listen (.on "change:b" 7 none)) .ret),
    .page .right (plain (.set "b" (.int 2)) (plain .saveChanges .ret)),
    .deliver .left fun _ _ => plain (.set "a" (.int 1)) (plain .saveChanges .ret),
    .deliver .right fun _ _ => .ret]

def ownerOf (key : Key) : Side := if key = .str "a" then .left else .right

theorem keeps_acts : ∀ a ∈ acts, a.Keeps ownerOf := by
  have hone : OnWire (.int 1) := onWire_leaf rfl rfl (by decide)
  have htwo : OnWire (.int 2) := onWire_leaf rfl rfl (by decide)
  simp [acts, Act.Keeps, plain, Script.All, Request.Keeps, Script.throws, ownerOf,
    TwoParty.Carried, hone, htwo]

end PeersWitness

open PeersWitness in
theorem peers_converge_answer :
    Value.dict (acts.foldl (step fun _ => true) (start fun _ => both) .left).model.state ≈
      .dict (acts.foldl (step fun _ => true) (start fun _ => both) .right).model.state :=
  peers_converge (Setoid.refl _) (Runs.reached_foldl keeps_acts)
    (fun side => by cases side <;> decide +kernel) (fun side => by cases side <;> decide +kernel)

end Peers

end Front

end Cositos
