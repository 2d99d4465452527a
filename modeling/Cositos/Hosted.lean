/-
A `Model` in a page whose widget a Python kernel runs (`WidgetShell`), over two FIFO channels.
Listeners of the page set keys, save them and send messages while an update comes in; the model
and the kernel's store are still equal once all is sent and delivered, if each key has one side
that sets it.
-/
import Cositos.Peers

namespace Cositos

open Front

/-! ### Custom messages of the open shell -/

namespace Kernel

open Lifecycle

variable {capabilities : TransportCapabilities} {kernel : Kernel}

/-- The message of `send_custom`. -/
def customSend (content : Value) (buffers : List Binary) : Send where
  msgType := .commMsg
  data := Protocol.buildCustom content
  buffers := buffers

/-- An inbound custom message reaches `on_custom` and nothing else. -/
theorem invoke_custom (capabilities : TransportCapabilities)
    (hphase : kernel.shell.phase = .opened) (content : Value) (buffers : List Binary) :
    After kernel [] [] (kernel.invoke capabilities
      (.inbound (.dict (Model.send content buffers).1) (Model.send content buffers).2)).2 := by
  have huntraced : kernel.untraced.phase = .opened := hphase
  have hreduce : reduce .opened (.inbound (.dict (Model.send content buffers).1)
      (Model.send content buffers).2) kernel.store capabilities =
        .ok (.opened, [.invokeCustom content (Model.send content buffers).2]) := rfl
  have hcall : kernel.invoke capabilities
      (.inbound (.dict (Model.send content buffers).1) (Model.send content buffers).2) =
        merge kernel.store (Shell.execute (setup capabilities) setState
          (.inbound (.dict (Model.send content buffers).1) (Model.send content buffers).2)
          kernel.store kernel.untraced) :=
    congrArg (merge kernel.store) (executeWith_store capabilities kernel _)
  rw [hcall, execute_eq huntraced, hreduce]
  exact ⟨rfl, (List.append_nil _).symm, rfl⟩

/-- A custom message goes out, or the transport does not support it. -/
theorem invoke_sendCustom (capabilities : TransportCapabilities)
    (hphase : kernel.shell.phase = .opened) (content : Value) (buffers : List Binary) :
    ∃ sent, (sent = [] ∨ sent = [customSend content buffers]) ∧
      After kernel sent [] (kernel.invoke capabilities (.sendCustom content buffers)).2 := by
  have huntraced : kernel.untraced.phase = .opened := hphase
  have hcall : kernel.invoke capabilities (.sendCustom content buffers) =
      merge kernel.store (Shell.execute (setup capabilities) setState
        (.sendCustom content buffers) kernel.store kernel.untraced) :=
    congrArg (merge kernel.store) (executeWith_store capabilities kernel _)
  have hcases : (∃ text, reduce .opened (.sendCustom content buffers) kernel.store capabilities =
        .ok (.opened, [.error text])) ∨
      reduce .opened (.sendCustom content buffers) kernel.store capabilities =
        .ok (.opened, [.send (customSend content buffers)]) := by
    have hreduce : reduce .opened (.sendCustom content buffers) kernel.store capabilities =
        Port.reduceSendCustom .opened content buffers capabilities := rfl
    rw [hreduce, Port.reduceSendCustom, if_neg (by simp)]
    split_ifs
    · exact Or.inl ⟨_, rfl⟩
    · exact Or.inl ⟨_, rfl⟩
    · exact Or.inr rfl
  rcases hcases with ⟨text, hreduce⟩ | hreduce
  · refine ⟨[], Or.inl rfl, ?_⟩
    rw [hcall, execute_eq huntraced, hreduce]
    exact ⟨rfl, (List.append_nil _).symm, rfl⟩
  · refine ⟨_, Or.inr rfl, ?_⟩
    rw [hcall, execute_sends huntraced rfl hreduce]
    exact ⟨hphase, rfl, rfl⟩

end Kernel

namespace Front

open Routine

variable {γ κ : Type}

/-! ### The system -/

/-- A model in a page, the kernel, and what the model's channel holds for the kernel.  The code
keeps no record of the keys `unpublished`. -/
structure Hosted (γ κ : Type) where
  front : Live γ κ (List Outbound)
  kernel : Kernel
  unpublished : List Key := []

namespace Hosted

/-- The messages on their way to the page. -/
abbrev toFront (s : Hosted γ κ) : List Send := s.kernel.shell.transport

/-- What can happen: code of the page or of the host runs, or the oldest message is delivered. -/
inductive Act (γ κ : Type)
  | page (script : Live.Script γ κ)
  | hostWrite (key : String) (value : Value)
  | sendState (include? : Option (List Key))
  | sendCustom (content : Value) (buffers : List Binary)
  | deliverToHost
  | deliverToFront (callbacks : Nat → Nat → Live.Script γ κ)

def start (initialState store : Bindings) : Hosted γ κ where
  front := Live.new initialState []
  kernel := { store, shell := { transport := [], phase := .opened, listening := true } }

variable [DecidableEq γ] [DecidableEq κ] (capabilities : TransportCapabilities)
  (truthy : κ → Bool)

def step (s : Hosted γ κ) : Act γ κ → Hosted γ κ
  | .page script => { s with front := (Live.run memoryChannel truthy script s.front).2 }
  | .hostWrite key value =>
      { s with
        kernel := { s.kernel with store := Dict.set s.kernel.store (.str key) value }
        unpublished := .str key :: s.unpublished }
  | .sendState include? =>
      let sent := Lifecycle.selected include? s.kernel.store
      match s.kernel.invoke capabilities (.sendState include?) with
      | (.returned, kernel) =>
          { s with kernel, unpublished := s.unpublished.filter fun key => key ∉ Dict.keys sent }
      | (_, kernel) => { s with kernel }
  | .sendCustom content buffers =>
      { s with kernel := (s.kernel.invoke capabilities (.sendCustom content buffers)).2 }
  | .deliverToHost =>
      match s.front.channel with
      | [] => s
      | (data, buffers) :: channel =>
          { s with
            front := { s.front with channel }
            kernel := (s.kernel.invoke capabilities
              (.inbound (stringified (.dict data)) buffers)).2 }
  | .deliverToFront callbacks =>
      match s.toFront with
      | [] => s
      | message :: toFront =>
          { s with
            front := (Live.receive (fun i j => Live.run memoryChannel truthy (callbacks i j))
              (parsed (.dict message.data)) message.buffers s.front).2
            kernel := { s.kernel with shell := { s.kernel.shell with transport := toFront } } }

/-- A call of the page that sets no key but its own, to what the host reads as it is; it does
not ask for the full state. -/
def OfPage (owner : Key → Side) (request : Live.Request γ κ) : Prop :=
  request.Keeps owner .left ∧ request ≠ .requestState ∧
    ∀ key value, request = .set key value → AllInts Exact value

/-- Each side sets and sends its own keys, and no listener lets an exception through to the
channel. -/
def Act.Keeps (owner : Key → Side) : Act γ κ → Prop
  | .page script => script.All (OfPage owner)
  | .hostWrite key value =>
      owner (.str key) = .right ∧ TwoParty.CarriedAt TwoParty.Everywhere key value
  | .sendState include? => TwoParty.Keeps owner (.sendState include?)
  | .sendCustom _ _ | .deliverToHost => True
  | .deliverToFront callbacks => ∀ i j,
      (callbacks i j).All (OfPage owner) ∧ (callbacks i j).throws = false

/-! ### The two parties -/

section Parties

variable {owner : Key → Side} {s : Hosted γ κ} {pending : Bindings}

omit [DecidableEq γ] [DecidableEq κ]

/-- Whether a message is an update. -/
def isUpdate (data : Bindings) : Bool :=
  match data.lookup (.str "method") with
  | some (.str "update") => true
  | _ => false

/-- The model and the kernel with the updates between them.  Of an update that is coming in,
`pending` are the entries that the model has still to take, each as an update of its own. -/
def parties (s : Hosted γ κ) (pending : Bindings) : TwoParty where
  model := s.front.model
  toHost := s.front.channel.filter fun message => isUpdate message.1
  kernel := { s.kernel with
    shell := { s.kernel.shell with
      transport := (pending.map fun kv => Kernel.updateSend [kv]) ++
        s.toFront.filter fun message => isUpdate message.data } }
  unpublished := s.unpublished

/-- What is on its way are updates and custom messages, and the two parties own their keys. -/
structure Sound (owner : Key → Side) (s : Hosted γ κ) (pending : Bindings) : Prop where
  toHost : ∀ message ∈ s.front.channel, isUpdate message.1 = true ∨
    ∃ content buffers, message = Model.send content buffers
  toFront : ∀ message ∈ s.toFront, isUpdate message.data = true ∨
    ∃ content buffers, message = Kernel.customSend content buffers
  arriving : Travels TwoParty.Everywhere pending
  parties : TwoParty.Sound False TwoParty.Everywhere (s.parties pending)
  owned : Replicas.Owned owner (s.parties pending).view

/-- A change of the page leaves the system sound, whatever is coming in. -/
def Kept (owner : Key → Side) (s : Hosted γ κ) (live live' : Live γ κ (List Outbound)) : Prop :=
  ∀ pending, Sound owner { s with front := live } pending →
    Sound owner { s with front := live' } pending

theorem chains_kept : Chains (Kept owner s) where
  refl _ _ := id
  trans h h' pending := h' pending ∘ h pending

theorem isUpdate_updateData (fields : Bindings) : isUpdate (updateData fields) = true := rfl

theorem isUpdate_send (content : Value) (buffers : List Binary) :
    isUpdate (Model.send content buffers).1 = false := rfl

theorem isUpdate_customSend (content : Value) (buffers : List Binary) :
    isUpdate (Kernel.customSend content buffers).data = false := rfl

/-- The parties after an action of theirs. -/
theorem owned_moves {capabilities : TransportCapabilities} {t : TwoParty}
    (h : Sound owner s pending) {a : TwoParty.Action} (ha : TwoParty.Keeps owner a)
    (hview : t.view = ((s.parties pending).moves capabilities a).foldl Replicas.apply
      (s.parties pending).view) : Replicas.Owned owner t.view := by
  rw [hview]
  exact Replicas.owned_foldl h.owned (TwoParty.along_allowed h.parties h.owned ha)

/-! ### What the page does -/

section Page

variable {live live' : Live γ κ (List Outbound)}

theorem kept_same (hmodel : live'.model = live.model) (hchannel : live'.channel = live.channel) :
    Kept owner s live live' := by
  intro pending h
  have hparties : parties { s with front := live' } pending =
      parties { s with front := live } pending := by
    simp only [parties, hmodel, hchannel]
  exact ⟨hchannel ▸ h.toHost, h.toFront, h.arriving, hparties ▸ h.parties, hparties ▸ h.owned⟩

theorem kept_set {key : String} {value : Value} (hkey : owner (.str key) = .left)
    (hcarried : TwoParty.CarriedAt TwoParty.Everywhere key value) :
    Kept owner s live { live with model := (live.model.set key value).1 } := by
  intro pending h
  have hmoves : TwoParty.Moves {} False TwoParty.Everywhere (parties { s with front := live } pending)
      (.set key value) := TwoParty.moves_set h.parties hcarried
  exact ⟨h.toHost, h.toFront, h.arriving, hmoves.sound,
    owned_moves (a := .set key value) h hkey hmoves.view⟩

theorem kept_send (content : Value) (buffers : List Binary) :
    Kept owner s live { live with channel := live.channel ++ [Model.send content buffers] } := by
  intro pending h
  have hparties : parties { s with front :=
        { live with channel := live.channel ++ [Model.send content buffers] } } pending =
      parties { s with front := live } pending := by
    simp [parties, isUpdate_send]
  refine ⟨fun message hmessage => ?_, h.toFront, h.arriving, hparties ▸ h.parties,
    hparties ▸ h.owned⟩
  rcases List.mem_append.mp hmessage with hold | hnew
  · exact h.toHost message hold
  · exact Or.inr ⟨content, buffers, List.mem_singleton.mp hnew⟩

theorem kept_save {model : Model} {message : Outbound}
    (hsaved : live.model.saveChanges = (model, some message)) :
    Kept owner s live { live with model, channel := live.channel ++ [message] } := by
  intro pending h
  have hready : live.model.Ready := h.parties.ready
  have hdirty : live.model.dirty ≠ [] := fun hnil => by simp [Model.saveChanges, hnil] at hsaved
  have hupdate : isUpdate message.1 = true := by
    rw [Model.saveChanges_eq hready hdirty] at hsaved
    cases hsaved
    rfl
  have hparties : parties { s with front :=
        { live with model, channel := live.channel ++ [message] } } pending =
      (parties { s with front := live } pending).step {} .saveChanges := by
    simp [parties, TwoParty.step, hsaved, hupdate]
  have hmoves : TwoParty.Moves {} False TwoParty.Everywhere (parties { s with front := live } pending)
      .saveChanges := TwoParty.moves_saveChanges h.parties
  refine ⟨fun later hlater => ?_, h.toFront, h.arriving, hparties ▸ hmoves.sound,
    owned_moves (a := .saveChanges) h trivial (hparties ▸ hmoves.view)⟩
  rcases List.mem_append.mp hlater with hold | hnew
  · exact h.toHost later hold
  · exact Or.inl (List.mem_singleton.mp hnew ▸ hupdate)

theorem kept_record {moment : Moment γ κ} (h : Kept owner s live live') :
    Kept owner s live (live'.record moment) :=
  chains_kept.trans h (kept_same rfl rfl)

theorem emits_kept : Live.Emits (Kept owner s) where
  toChains := chains_kept
  emits _ _ := kept_same rfl rfl
  calls _ _ _ := kept_same rfl rfl
  ends _ _ := kept_same rfl rfl

/-- The model takes the next entry of an update, and its listeners go on to set and save keys of
the page. -/
theorem sound_receiveOne {host : Nat → Routine (Live γ κ (List Outbound))} {kv : Key × Value}
    {entries : Bindings} (hhost : ∀ i, Across (Kept owner s) (host i))
    (h : Sound owner { s with front := live } (kv :: entries)) :
    Sound owner { s with front := (Live.receiveOne host kv live).2 } entries := by
  obtain ⟨hkeys, hvalues⟩ := onWire_dict_iff.mp h.arriving.wire
  have hkey : kv.1 ≠ protoKey := (hvalues kv List.mem_cons_self).2.1
  have hrest := h.arriving.tail
  have hone := h.arriving.single List.mem_cons_self
  let live' : Live γ κ (List Outbound) :=
    { live with model := { live.model with state := assign live.model.state kv.1 kv.2 } }
  have hinbox : (parties { s with front := live } (kv :: entries)).view.inbox .left =
      heard [kv] :: (parties { s with front := live } entries).view.inbox .left := by
    simp [TwoParty.view, parties, TwoParty.toFront, TwoParty.heard_bringsFront hone.wire]
  have hview : (parties { s with front := live' } entries).view =
      (parties { s with front := live } (kv :: entries)).view.apply (.deliver .left) := by
    apply Replicas.ext_points
    · intro side key
      rw [Replicas.copy_deliver hinbox]
      cases side with
      | left =>
          have hlookup : (assign live.model.state kv.1 kv.2).lookup key =
              if key = kv.1 then some kv.2 else live.model.state.lookup key :=
            lookup_assign hkey key
          have hcopy : (parties { s with front := live' } entries).view.copy .left key =
              heard (assign live.model.state kv.1 kv.2) key := rfl
          rw [hcopy, heard_set hlookup, if_pos rfl, heard_single]
          split_ifs <;> rfl
      | right => rfl
    · intro side key
      rw [Replicas.mem_unsent_deliver]
      cases side <;> rfl
    · intro side
      rw [Replicas.inbox_deliver hinbox]
      cases side <;> rfl
  have harrived : Sound owner { s with front := live' } entries :=
    { toHost := h.toHost
      toFront := h.toFront
      arriving := hrest
      parties := { h.parties with
        held := TwoParty.held_assign h.parties.held hone
        ready := TwoParty.ready_assign h.parties.ready hone.wire
        toFront := fun message hmessage =>
          h.parties.toFront message (List.mem_cons_of_mem _ hmessage) }
      owned := hview ▸ Replicas.owned_apply h.owned trivial }
  have hrecorded : Kept owner s live' (live'.record (.arrived kv.1 kv.2)) :=
    kept_record (chains_kept.refl live')
  exact emits_kept.emit hhost (.change kv.1 kv.2) _ _ (hrecorded _ harrived)

theorem receive_customSend (host : Nat → Nat → Routine (Live γ κ (List Outbound)))
    (content : Value) (buffers sent : List Binary) (live : Live γ κ (List Outbound)) :
    Live.receive host (parsed (.dict (Kernel.customSend content buffers).data)) sent live =
      Live.emit (host 0) (.custom (parsed content) sent) live := by
  have hkeys : (Dict.keys (Kernel.customSend content buffers).data).Nodup := by
    simp [Dict.keys, Kernel.customSend, Protocol.buildCustom]
  have hmethod : (Kernel.customSend content buffers).data.lookup (.str "method") =
      some (.str "custom") := rfl
  have hcontent : (Kernel.customSend content buffers).data.lookup (.str "content") =
      some content := rfl
  simp only [Live.receive, getProp_parsed hkeys hmethod, getProp_parsed hkeys hcontent]
  rfl

/-- What calls of the page do. -/
theorem rule_kept [DecidableEq γ] [DecidableEq κ] {truthy : κ → Bool} :
    Live.Rule memoryChannel truthy (OfPage owner) (Kept owner s) where
  toEmits := emits_kept
  set _ _ _ h := kept_record (kept_set h.1.1 ⟨h.1.2, fun _ => h.2.2 _ _ rfl⟩)
  save _ _ _ h := kept_record (kept_save h)
  send _ content buffers _ := kept_record (kept_send content buffers)
  requestState _ h := absurd rfl h.2.1
  listen _ _ _ := kept_record (kept_same rfl rfl)
  receive _ _ _ h := h.1.elim

end Page

/-! ### What the kernel does -/

section Host

variable {capabilities : TransportCapabilities} {kernel' : Kernel}

/-- The kernel, as one of the two parties, after its shell sent these messages. -/
theorem after_parties {sent : List Send} {merged : List Bindings}
    (h : s.kernel.After sent merged kernel') :
    (s.parties pending).kernel.After (sent.filter fun message => isUpdate message.data) merged
      (parties { s with kernel := kernel' } pending).kernel where
  phase := h.phase
  queue := by
    simp only [parties, toFront, h.queue, List.filter_append, List.append_assoc]
  store := h.store

theorem toFront_after {sent : List Send} {merged : List Bindings}
    (h : Sound owner s pending) (hafter : s.kernel.After sent merged kernel')
    (hsent : ∀ message ∈ sent, isUpdate message.data = true ∨
      ∃ content buffers, message = Kernel.customSend content buffers) :
    ∀ message ∈ kernel'.shell.transport, isUpdate message.data = true ∨
      ∃ content buffers, message = Kernel.customSend content buffers := by
  rw [hafter.queue]
  exact List.forall_mem_append.mpr ⟨h.toFront, hsent⟩

/-- The kernel sent no update and merged nothing. -/
theorem sound_after_nothing {sent : List Send} (h : Sound owner s pending)
    (hafter : s.kernel.After sent [] kernel')
    (hsent : ∀ message ∈ sent, ∃ content buffers, message = Kernel.customSend content buffers) :
    Sound owner { s with kernel := kernel' } pending := by
  have hnone : (sent.filter fun message => isUpdate message.data) = [] := by
    rw [List.filter_eq_nil_iff]
    intro message hmessage
    obtain ⟨content, buffers, rfl⟩ := hsent message hmessage
    simp [isUpdate_customSend]
  have hafter' : (s.parties pending).kernel.After [] []
      (parties { s with kernel := kernel' } pending).kernel := hnone ▸ after_parties hafter
  refine ⟨h.toHost, toFront_after h hafter fun message hmessage => Or.inr (hsent message hmessage),
    h.arriving, TwoParty.sound_after h.parties hafter' (by simp) (by simp), ?_⟩
  have hview := TwoParty.view_after_nothing hafter'
  exact hview ▸ h.owned

theorem sound_hostWrite {key : String} {value : Value} (h : Sound owner s [])
    (hkey : owner (.str key) = .right)
    (hcarried : TwoParty.CarriedAt TwoParty.Everywhere key value) :
    Sound owner
      { s with
        kernel := { s.kernel with store := Dict.set s.kernel.store (.str key) value }
        unpublished := .str key :: s.unpublished } [] := by
  have hmoves : TwoParty.Moves {} False TwoParty.Everywhere (s.parties []) (.hostWrite key value) :=
    TwoParty.moves_hostWrite h.parties hcarried
  exact ⟨h.toHost, h.toFront, h.arriving, hmoves.sound,
    owned_moves (a := .hostWrite key value) h hkey hmoves.view⟩

theorem sound_sendState [DecidableEq γ] [DecidableEq κ] {truthy : κ → Bool}
    {include? : Option (List Key)} (h : Sound owner s [])
    (hkeys : TwoParty.Keeps owner (.sendState include?)) :
    Sound owner (s.step capabilities truthy (.sendState include?)) [] := by
  have hstore : Travels TwoParty.Everywhere s.kernel.store := h.parties.store
  have hphase : s.kernel.shell.phase = .opened := h.parties.phase
  rcases Kernel.invoke_sendState capabilities hphase hstore.wire include? with
    ⟨hnesting, kernel', hinvoke, hafter⟩ | ⟨hnesting, e, kernel', hinvoke, hafter⟩
  · have hsent := TwoParty.travels_selected hstore include?
    have hafter' : (s.parties []).kernel.After _ []
        (parties { s with kernel := kernel' } []).kernel := after_parties hafter
    have hmoves : (s.parties []).moves capabilities (.sendState include?) =
        [.send .right (heard (Lifecycle.selected include? s.kernel.store)) true] :=
      if_pos hnesting
    simp only [step, hinvoke]
    refine ⟨h.toHost, toFront_after h hafter (by simp [Kernel.updateSend, isUpdate_updateData]),
      h.arriving, ?_, ?_⟩
    · have hsound := TwoParty.sound_after h.parties hafter'
        (by simpa [Kernel.updateSend, isUpdate_updateData] using ⟨_, hsent, rfl, rfl⟩) (by simp)
      exact { hsound with }
    · refine owned_moves h hkeys
        (?_ : _ = ((s.parties []).moves capabilities (.sendState include?)).foldl _ _)
      rw [hmoves]
      exact TwoParty.view_after_send hsent.wire hafter' (by simp [heard_eq_none_iff, parties])
  · simp only [step, hinvoke]
    exact sound_after_nothing h hafter (by simp)

theorem sound_sendCustom (h : Sound owner s []) (content : Value) (buffers : List Binary) :
    Sound owner
      { s with kernel := (s.kernel.invoke capabilities (.sendCustom content buffers)).2 } [] := by
  have hphase : s.kernel.shell.phase = .opened := h.parties.phase
  obtain ⟨sent, hsent, hafter⟩ := Kernel.invoke_sendCustom capabilities hphase content buffers
  refine sound_after_nothing h hafter ?_
  rcases hsent with rfl | rfl
  · simp
  · exact List.forall_mem_singleton.mpr ⟨content, buffers, rfl⟩

end Host

/-! ### Deliveries -/

section Deliveries

variable [DecidableEq γ] [DecidableEq κ] {capabilities : TransportCapabilities} {truthy : κ → Bool}

theorem sound_deliverToHost (h : Sound owner s []) :
    Sound owner (s.step capabilities truthy .deliverToHost) [] := by
  have hphase : s.kernel.shell.phase = .opened := h.parties.phase
  cases hqueue : s.front.channel with
  | nil =>
      simp only [step, hqueue]
      exact h
  | cons message rest =>
      obtain ⟨data, buffers⟩ := message
      simp only [step, hqueue]
      have htail : ∀ later ∈ rest, isUpdate later.1 = true ∨
          ∃ content buffers, later = Model.send content buffers := fun later hlater =>
        h.toHost later (by simp [hqueue, hlater])
      rcases h.toHost (data, buffers) (by simp [hqueue]) with hupdate | ⟨content, sent, heq⟩
      · have hparties : (s.parties []).toHost =
            (data, buffers) :: rest.filter fun message => isUpdate message.1 := by
          simp [parties, hqueue, hupdate]
        obtain ⟨hno, -⟩ | ⟨fields, hfields, heq⟩ :=
          h.parties.toHost (data, buffers) (by simp [hparties])
        · exact hno.elim
        · rw [heq] at hparties
          obtain ⟨merged, kernel', hkernel, hmerged, hequiv, hafter⟩ :=
            TwoParty.invoke_stringified capabilities hphase hfields
          cases heq
          rw [hkernel]
          have hafter' : (s.parties []).kernel.After [] [merged]
              (parties { s with kernel := kernel' } []).kernel := after_parties hafter
          have hmoves : (s.parties []).moves capabilities .deliverToHost = [.deliver .right] :=
            if_neg (TwoParty.not_answers h.parties)
          refine ⟨htail, toFront_after h hafter (by simp), h.arriving,
            TwoParty.sound_after (TwoParty.sound_tail h.parties hparties) hafter' (by simp)
              (by simpa using hmerged), ?_⟩
          refine owned_moves (a := .deliverToHost) h trivial
            (?_ : _ = ((s.parties []).moves capabilities .deliverToHost).foldl _ _)
          rw [hmoves]
          exact TwoParty.view_after_merge hparties hfields.wire hmerged.wire hequiv hafter'
      · cases heq
        have hrest : Sound owner { s with front := { s.front with channel := rest } } [] := by
          have hparties : parties { s with front := { s.front with channel := rest } } [] =
              s.parties [] := by
            simp only [parties, hqueue]
            rfl
          exact ⟨htail, h.toFront, h.arriving, hparties ▸ h.parties, hparties ▸ h.owned⟩
        exact sound_after_nothing hrest
          (Kernel.invoke_custom capabilities hphase (stringified content) buffers) (by simp)

omit [DecidableEq γ] [DecidableEq κ] in
theorem arrived_entries {entries : Bindings} (h : (Dict.keys entries).Nodup) (key : Key)
    (value : Option Known) :
    Replicas.arrived (entries.map fun kv => heard [kv]) key value =
      (heard entries key).or value := by
  induction entries generalizing value with
  | nil => rfl
  | cons kv entries ih =>
      obtain ⟨hnew, hkeys⟩ := List.nodup_cons.mp h
      have hstep : Replicas.arrived ((kv :: entries).map fun kv => heard [kv]) key value =
          Replicas.arrived (entries.map fun kv => heard [kv]) key ((heard [kv] key).or value) := rfl
      rw [hstep, ih hkeys, heard_single]
      by_cases hkey : key = kv.1
      · subst hkey
        rw [if_pos rfl, heard_eq_none_iff.mpr hnew, heard, known, List.lookup_cons_self]
        rfl
      · rw [if_neg hkey, Option.none_or, heard, heard, known, known, Dict.lookup_cons_ne hkey]

omit [DecidableEq γ] [DecidableEq κ] in
/-- The oldest message leaves the queue; the entries it brings are still to come in. -/
theorem sound_pop {fields entries : Bindings} {rest : List Send} (h : Sound owner s [])
    (hqueue : s.toFront = Kernel.updateSend fields :: rest)
    (hentries : Travels TwoParty.Everywhere entries)
    (hincoming : TwoParty.bringsFront (Kernel.updateSend fields) = entries) :
    Sound owner
      { s with kernel := { s.kernel with shell := { s.kernel.shell with transport := rest } } }
      entries := by
  obtain ⟨hkeys, -⟩ := onWire_dict_iff.mp hentries.wire
  have hone : ∀ kv ∈ entries, Travels TwoParty.Everywhere [kv] := fun kv hkv => hentries.single hkv
  have hbefore : (s.parties []).toFront =
      Kernel.updateSend fields :: rest.filter fun message => isUpdate message.data := by
    simp only [parties, TwoParty.toFront, List.map_nil, List.nil_append]
    rw [hqueue]
    rfl
  have hbrings : (entries.map fun kv => heard (TwoParty.bringsFront (Kernel.updateSend [kv]))) =
      entries.map fun kv => heard [kv] :=
    List.map_congr_left fun kv hkv =>
      TwoParty.heard_bringsFront (hone kv hkv).wire
  have hinbox : (s.parties []).view.inbox .left = heard entries ::
      (rest.filter fun message => isUpdate message.data).map fun message =>
        heard (TwoParty.bringsFront message) := by
    simp only [TwoParty.view, hbefore, List.map_cons, hincoming]
  refine ⟨h.toHost, fun later hlater => h.toFront later (by simp [hqueue, hlater]), hentries,
    { h.parties with toFront := ?_ }, ?_⟩
  · refine List.forall_mem_append.mpr ⟨fun message hmessage => ?_, fun message hmessage => ?_⟩
    · obtain ⟨kv, hkv, rfl⟩ := List.mem_map.mp hmessage
      exact ⟨[kv], hone kv hkv, rfl⟩
    · exact h.parties.toFront message (by rw [hbefore]; exact List.mem_cons_of_mem _ hmessage)
  · have hsplit : (parties { s with kernel := { s.kernel with
          shell := { s.kernel.shell with transport := rest } } } entries).view.inbox .left =
        (entries.map fun kv => heard [kv]) ++
          (rest.filter fun message => isUpdate message.data).map fun message =>
            heard (TwoParty.bringsFront message) := by
      simp only [TwoParty.view, TwoParty.toFront, parties, List.map_append, List.map_map,
        ← hbrings]
      rfl
    refine Replicas.owned_split h.owned rfl rfl hinbox hsplit rfl (arrived_entries hkeys)
      fun part hpart key hcarries => ?_
    obtain ⟨kv, hkv, rfl⟩ := List.mem_map.mp hpart
    exact (heard_of_mem hkeys hkv hcarries) ▸ hcarries

theorem sound_deliverToFront {callbacks : Nat → Nat → Live.Script γ κ} (h : Sound owner s [])
    (hcallbacks : Act.Keeps owner (.deliverToFront callbacks)) :
    Sound owner (s.step capabilities truthy (.deliverToFront callbacks)) [] := by
  cases hqueue : s.toFront with
  | nil =>
      simp only [step, hqueue]
      exact h
  | cons message rest =>
      simp only [step, hqueue]
      -- the system with the message off the queue, the model as it was
      let popped : Hosted γ κ :=
        { s with kernel := { s.kernel with shell := { s.kernel.shell with transport := rest } } }
      let host : Nat → Nat → Routine (Live γ κ (List Outbound)) := fun i j =>
        Live.run memoryChannel truthy (callbacks i j)
      have hhost : ∀ i j, Across (Kept owner popped) (host i j) := fun i j =>
        rule_kept.across_run (hcallbacks i j).1
      rcases h.toFront message (by simp [hqueue]) with hupdate | ⟨content, buffers, rfl⟩
      · have hmem : message ∈ (s.parties []).toFront := by
          simp [parties, TwoParty.toFront, hqueue, hupdate]
        obtain ⟨fields, hfields, rfl⟩ := h.parties.toFront message hmem
        obtain ⟨entries, hincoming, -, -⟩ := incoming_updateData hfields.wire
        have hbrings : TwoParty.bringsFront (Kernel.updateSend fields) = entries := by
          rw [TwoParty.bringsFront, Kernel.updateSend, hincoming]
        have hlookup : (updateData fields).lookup (.str "method") = some (.str "update") := rfl
        have hmethod : getProp (parsed (.dict (updateData fields))) (.str "method") =
            .ok (.str "update") := getProp_parsed (nodup_keys_updateData fields) hlookup
        have hreceive : Live.receive host (parsed (.dict (updateData fields)))
            (Lifecycle.payloadBuffers fields) s.front =
              forEach (fun i entry => Live.receiveOne (host i) entry) 0 entries s.front := by
          rw [Live.receive, hmethod]
          simp only [hincoming]
        have hreturned : ∀ i entry live, (Live.receiveOne (host i) entry live).1 = .returned :=
          fun i _ _ => Live.emit_returns (fun j live => by
            rw [Live.run_exit, (hcallbacks i j).2]
            rfl) _ _
        have hreceived := forEach_invariant
          (I := fun entries live => Sound owner { popped with front := live } entries)
          (fun i entry rest live hlive _ => sound_receiveOne (hhost i) hlive)
          (sound_pop h hqueue (hbrings ▸ TwoParty.travels_bringsFront hfields) hbrings)
          (forEach_returns hreturned 0 entries s.front)
        rw [← hreceive] at hreceived
        exact hreceived
      · have hpopped : Sound owner popped [] := by
          have hparties : popped.parties [] = s.parties [] := by
            simp only [parties, popped, hqueue]
            rfl
          have htail : ∀ later ∈ rest, later ∈ s.toFront := fun later hlater => by
            rw [hqueue]
            exact List.mem_cons_of_mem _ hlater
          exact ⟨h.toHost, fun later hlater => h.toFront later (htail later hlater), h.arriving,
            hparties ▸ h.parties, hparties ▸ h.owned⟩
        rw [receive_customSend]
        exact emits_kept.emit (hhost 0) _ s.front [] hpopped

end Deliveries

/-! ### Runs -/

theorem sound_start {initialState store : Bindings}
    (hstore : Travels TwoParty.Everywhere store)
    (hequal : Value.dict initialState ≈ .dict store) :
    Sound owner (start initialState store : Hosted γ κ) [] where
  toHost := by simp [start, Live.new]
  toFront _ h := absurd h List.not_mem_nil
  arriving := ⟨onWire_dict_iff.mpr ⟨by simp, by simp⟩, fun _ _ _ h => by simp at h⟩
  parties := TwoParty.sound_start hstore hequal
  owned :=
    { coherent := fun key => TwoParty.coherent_start hequal _ key
      quiet := fun key update h => by
        cases hside : owner key <;>
          simp [hside, TwoParty.view, parties, toFront, start, Live.new, TwoParty.toFront] at h
      unsent := fun side key h => by
        cases side <;> simp [TwoParty.view, parties, start, Live.new, Model.new] at h }

/-- Whatever listeners do when a message comes in, the model in the page and the store of the
kernel are equal once all is sent and delivered, where each key is set and sent by one side and
no listener throws at a delivery. -/
theorem hosted_converge [DecidableEq γ] [DecidableEq κ] {capabilities : TransportCapabilities}
    {truthy : κ → Bool} {initialState store : Bindings} (hstore : OnWire (.dict store))
    (hexact : AllInts Exact (.dict store)) (hequal : Value.dict initialState ≈ .dict store)
    (hreached : Runs.Reached (step capabilities truthy) (fun _ a => a.Keeps owner)
      (start initialState store) s)
    (htoHost : s.front.channel = []) (htoFront : s.toFront = [])
    (hdirty : s.front.model.dirty = []) (hunpublished : s.unpublished = []) :
    Value.dict s.front.model.state ≈ .dict s.kernel.store := by
  have hsound : Sound owner s [] := by
    refine hreached.invariant (I := fun s => Sound owner s [])
      (sound_start ⟨hstore, TwoParty.exactAt_everywhere hexact⟩ hequal) fun s a h ha => ?_
    cases a with
    | page script => exact rule_kept.across_run ha s.front [] h
    | hostWrite key value => exact sound_hostWrite h ha.1 ha.2
    | sendState include? => exact sound_sendState h ha
    | sendCustom content buffers => exact sound_sendCustom h content buffers
    | deliverToHost => exact sound_deliverToHost h
    | deliverToFront callbacks => exact sound_deliverToFront h ha
  have hsent : ∀ side key, key ∉ (s.parties []).view.unsent side := by
    intro side key
    cases side with
    | left => simp [TwoParty.view, parties, hdirty]
    | right => simp [TwoParty.view, parties, hunpublished]
  have hempty : ∀ side, (s.parties []).view.inbox side = [] :=
    TwoParty.inbox_eq_nil (by simp [parties, htoHost])
      (by simp [parties, TwoParty.toFront, htoFront])
  exact dict_equiv_iff.mpr fun key => agree_of_heard hsound.parties.held
    hsound.parties.store.exact trivial (hsound.owned.copy_eq hsent hempty key)

end Parties

namespace HostedWitness

open Live

def counter : Bindings := [(.str "a", .int 0)]

/-- A call that runs nothing, and what comes after it. -/
def plain (request : Request Nat Nat) (next : Script Nat Nat) : Script Nat Nat :=
  .call request (fun _ _ => .ret) next

/-- On hearing of the host's message the page sets `a`, sends a message of its own and saves. -/
def answer : Script Nat Nat :=
  plain (.set "a" (.int 1)) (plain (.send (.str "pong") []) (plain .saveChanges .ret))

def acts : List (Act Nat Nat) :=
  [.page (plain (.listen (.on "msg:custom" 7 none)) .ret), .sendCustom (.str "ping") [],
    .deliverToFront fun _ _ => answer, .deliverToHost, .deliverToHost]

def asked : Hosted Nat Nat :=
  (acts.take 2).foldl (step {} fun _ => true) (start counter counter)

def answered : Hosted Nat Nat :=
  { asked with
    front := (emit (fun _ => run memoryChannel (fun _ => true) answer)
      (.custom (parsed (.str "ping")) []) asked.front).2
    kernel := { asked.kernel with shell := { asked.kernel.shell with transport := [] } } }

theorem answered_eq :
    asked.step {} (fun _ => true) (.deliverToFront fun _ _ => answer) = answered := by
  have hqueue : asked.toFront = [Kernel.customSend (.str "ping") []] := rfl
  simp only [step, hqueue, receive_customSend, answered]
  rfl

def ownerOf (key : Key) : Side := if key = .str "a" then .left else .right

theorem keeps_acts : ∀ a ∈ acts, a.Keeps ownerOf := by
  have hone : OnWire (.int 1) := onWire_leaf rfl rfl (by decide)
  have hexact : AllInts Exact (.int 1) := allInts_leaf rfl (by
    rintro i ⟨⟩
    exact exact_of_lt (by decide))
  simp [acts, answer, Act.Keeps, OfPage, plain, Script.All, Request.Keeps, Script.throws, ownerOf,
    TwoParty.Carried, hone, hexact]

theorem onWire_counter : OnWire (.dict counter) :=
  onWire_dict_iff.mpr ⟨by decide, fun kv h => by
    cases List.mem_singleton.mp h
    exact ⟨⟨_, rfl⟩, by decide, onWire_leaf rfl rfl (by decide)⟩⟩

theorem exact_counter : AllInts Exact (.dict counter) :=
  allInts_dict_iff.mpr fun key value h => by
    cases List.mem_singleton.mp (Dict.mem_of_lookup h)
    exact allInts_leaf rfl (by
      rintro i ⟨⟩
      exact exact_of_lt (by decide))

end HostedWitness

open HostedWitness in
theorem hosted_converge_answer :
    Value.dict (acts.foldl (step {} fun _ => true) (start counter counter)).front.model.state ≈
      .dict (acts.foldl (step {} fun _ => true) (start counter counter)).kernel.store := by
  have hlast : acts.foldl (step {} fun _ => true) (start counter counter) =
      (answered.step {} (fun _ => true) .deliverToHost).step {} (fun _ => true) .deliverToHost :=
    congrArg (fun s => step {} (fun _ => true) (step {} (fun _ => true) s .deliverToHost)
      .deliverToHost) answered_eq
  refine hosted_converge onWire_counter exact_counter (Setoid.refl _) (Runs.reached_foldl keeps_acts) ?_ ?_ ?_ ?_
  all_goals
    rw [hlast]
    decide +kernel

end Hosted

end Front

end Cositos
